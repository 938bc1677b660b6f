import Std.Time.DateTime.Timestamp
import RecipeNet.CommandLine.Script

/-!
The program: scripts performed for real.
-/

namespace RecipeNet

def currentTime : IO Timestamp := do
  let now ← Std.Time.Timestamp.now
  let since := now.toDurationSinceUnixEpoch
  let nanos := since.toNanoseconds.val
  return .ofUnixTime (nanos / 1000000000) (nanos % 1000000000).toNat

/-- Identities that are drawn from a secret that nobody knows. -/
def secretSupply : IO Supply := do
  let secret ← IO.getRandomBytes 32
  let draw (n : Nat) : TokenId :=
    let digest := Sha256.hex (secret.toList ++ (toString n).toUTF8.toList)
    .ofEntropy ((Text.hexNumber? digest.toList).getD 0)
  return { draw }

def writeFile (path text : String) : IO Unit := do
  if let some directory := Text.parentPath? path then IO.FS.createDirAll directory
  IO.FS.writeFile path text

def attempt {α : Type} (action : IO α) : IO (Except String α) :=
  try
    let v ← action
    return .ok v
  catch e => return .error (toString e)

def CommandLine.Script.runFrom (start : Nat) : CommandLine.Script → IO UInt32
  | .say text next => do
    IO.print text
    runFrom start (next ())
  | .complain text next => do
    IO.eprint text
    runFrom start (next ())
  | .read path next => do
    let text ← attempt (IO.FS.readFile path)
    runFrom start (next text)
  | .write path text next => do
    let done ← attempt (writeFile path text)
    runFrom start (next done)
  | .clock next => do
    let ms ← IO.monoMsNow
    let now ← currentTime
    runFrom start (next (some (ms - start)) now)
  | .exit success => return (if success then 0 else 1)
  | .exhausted => return 1

end RecipeNet

def main (args : List String) : IO UInt32 := do
  let start ← IO.monoMsNow
  let supply ← RecipeNet.secretSupply
  RecipeNet.CommandLine.Script.runFrom start (.ofArgs (Nat.pow 2 60) args supply)
