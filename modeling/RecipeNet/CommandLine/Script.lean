import RecipeNet.CommandLine.Folder
import RecipeNet.CommandLine.Session
import RecipeNet.Plan.Sheet
import RecipeNet.Snapshot.Document
import RecipeNet.Snapshot.Restore

/-!
Scripts: what the program does to its surroundings, step by step, with the
answers that it needs to go on. A script can be performed for real, or within a
folder and without a clock.
-/

namespace RecipeNet

/-- The sound plan that the text of a file describes, where the text may not
have been readable. -/
def Plan.ofFile : Except String String → Except Fault Plan
  | .error detail => .error (.file detail)
  | .ok text =>
    match Plan.Sheet.parse? text with
    | none => .error (.sheet "the text describes no plan")
    | some plan => plan.validate.map fun _ => plan

def Snapshot.ofFile : Except String String → Except Fault Snapshot
  | .error detail => .error (.file detail)
  | .ok text =>
    match Snapshot.ofFileText? text with
    | none => .error (.document "the text describes no snapshot")
    | some snapshot => .ok snapshot

namespace CommandLine

inductive Script where
  | say (text : String) (next : Unit → Script)
  | complain (text : String) (next : Unit → Script)
  /-- Reads a file; without one there is a reason. -/
  | read (path : String) (next : Except String String → Script)
  /-- Writes a file, or gets the reason why that cannot be. -/
  | write (path text : String) (next : Except String Unit → Script)
  /-- Asks for the milliseconds since the start, and for the time of day. -/
  | clock (next : Option Nat → Timestamp → Script)
  | exit (success : Bool)
  /-- The fuel did not suffice. -/
  | exhausted

namespace Script

def fail (message : String) : Script :=
  .complain ("\nError: " ++ message ++ "\n") fun _ => .exit false

def close (s : Session) : Script :=
  .clock fun elapsed _ =>
    .say (s.timeline.report elapsed ++ "\n") fun _ =>
      match s.complaint? with
      | some message => fail message
      | none => .say s.doneLine fun _ => .exit true

def keep (s : Session) (snapshot : Snapshot) : Script :=
  .write s.options.snapshotPath snapshot.fileText fun
    | .error detail => fail (Fault.file detail).message
    | .ok () => .say (s.pausedLine s.options.snapshotPath) fun _ => close s

def drive : Nat → Session → Script
  | 0, _ => .exhausted
  | fuel + 1, s =>
    .say s.shown fun _ =>
      .clock fun time now =>
        match (s.settle time).next fuel now with
        | none => .exhausted
        | some (.on s) => drive fuel s
        | some (.pause s snapshot) => keep s snapshot
        | some (.stop s) => close s
        | some (.fail f) => fail f.message

def start (fuel : Nat) (options : Options) (engine : Engine) (supply : Supply) : Script :=
  match engine.start fuel supply with
  | none => .exhausted
  | some run =>
    match run.result with
    | .error f => fail f.message
    | .ok () =>
      drive fuel { options, engine := run.engine, supply := run.supply, fresh := run.events }

/-- Builds a net for a plan, goes back to its snapshot if that is asked for,
and starts it. -/
def launch (fuel : Nat) (options : Options) (plan : Plan) (supply : Supply) : Script :=
  match Engine.build .standard plan with
  | .error f => fail f.message
  | .ok engine =>
    if options.resume then
      .read options.snapshotPath fun text =>
        match Snapshot.ofFile text with
        | .error f => fail f.message
        | .ok snapshot =>
          match engine.restore snapshot with
          | (_, .error f) => fail f.message
          | (engine, .ok ()) => start fuel options engine supply
    else start fuel options engine supply

def run (fuel : Nat) (options : Options) (supply : Supply) : Script :=
  .say banner fun _ =>
    .read options.planPath fun text =>
      match Plan.ofFile text with
      | .error f =>
        fail ("Could not load workplan from '" ++ options.planPath ++ "': " ++ f.message)
      | .ok plan => launch fuel options plan supply

def ofArgs (fuel : Nat) (args : List String) (supply : Supply) : Script :=
  match Invocation.ofArgs args with
  | .help => .say usage fun _ => .exit true
  | .version => .say (appName ++ " " ++ version ++ "\n") fun _ => .exit true
  | .wrong mistake =>
    .complain ("Error: " ++ mistake.message ++ "\n\n") fun _ =>
      .say usage fun _ => fail mistake.message
  | .run options => run fuel options supply

end Script

structure Performance where
  said : String := ""
  complained : String := ""
  /-- Whether the script has succeeded, unless it did not end. -/
  success : Option Bool := none
  folder : Folder

namespace Script

def perform (now : Timestamp) (p : Performance) : Script → Performance
  | .say text next => perform now { p with said := p.said ++ text } (next ())
  | .complain text next => perform now { p with complained := p.complained ++ text } (next ())
  | .read path next =>
    match p.folder.read? path with
    | some text => perform now p (next (.ok text))
    | none => perform now p (next (.error "no such file"))
  | .write path text next =>
    match p.folder.write? path text with
    | some folder => perform now { p with folder } (next (.ok ()))
    | none => perform now p (next (.error "no such directory"))
  | .clock next => perform now p (next none now)
  | .exit success => { p with success := some success }
  | .exhausted => p

end Script
end CommandLine
end RecipeNet
