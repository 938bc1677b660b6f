import RecipeNet.Text.Path

/-!
Folders of text files, seen from a working directory. A directory is there when
a file is in it. Reading needs every directory on the way; writing makes the
directories that are missing.
-/

namespace RecipeNet.CommandLine

/-- Files with the names that lead to them, and their texts. Names that begin
with an empty one lead from the top of all files. -/
structure Folder where
  files : List (List String × String) := []
deriving DecidableEq, Repr

namespace Folder

/-- Whether names lead to a directory. The top and whatever is above the
working directory are always there. -/
def isDirectory (f : Folder) (names : List String) : Bool :=
  names.all (fun name => name = ".." || name = "") ||
    f.files.any fun file => file.1.length > names.length && file.1.take names.length = names

def file? (f : Folder) (names : List String) : Option String :=
  f.files.lookup names

/-- The names along a path. Only the first may be empty. -/
def namesOf (path : String) : List String :=
  let names := (Text.pathNames path.toList).map String.ofList
  if path.toList.head? = some '/' then "" :: names else names

def endsInName (path : String) : Bool :=
  match (Text.splitAt '/' path.toList).getLast? with
  | some name => !(name = [] || name = ['.'] || name = ['.', '.'])
  | none => false

def step (here : List String) (name : String) : List String :=
  if name = ".." then
    match here.getLast? with
    | none | some ".." => here ++ [".."]
    | some "" => here
    | some _ => here.dropLast
  else here ++ [name]

def walk (f : Folder) (here : List String) : List String → Option (List String)
  | [] => some here
  | [name] => some (step here name)
  | name :: next :: rest =>
    let there := step here name
    if f.isDirectory there then walk f there (next :: rest) else none

def walkMaking (f : Folder) (here : List String) : List String → Option (List String)
  | [] => some here
  | [name] => some (step here name)
  | name :: next :: rest =>
    let there := step here name
    if (f.file? there).isSome then none else walkMaking f there (next :: rest)

def read? (f : Folder) (path : String) : Option String :=
  if endsInName path then (f.walk [] (namesOf path)).bind f.file? else none

def put (files : List (List String × String)) (names : List String) (text : String) :
    List (List String × String) :=
  if files.any (·.1 = names) then files.map fun file => if file.1 = names then (names, text) else file
  else files ++ [(names, text)]

def write? (f : Folder) (path text : String) : Option Folder :=
  if endsInName path then
    match f.walkMaking [] (namesOf path) with
    | some names => if f.isDirectory names then none else some ⟨put f.files names text⟩
    | none => none
  else none

end Folder
end RecipeNet.CommandLine
