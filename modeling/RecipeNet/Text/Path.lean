import RecipeNet.Text.Blank

/-!
Paths of files: names between slashes, and the stem of a file name.
-/

namespace RecipeNet.Text

/-- The names along a path. Empty names and a name `.` lead nowhere. -/
def pathNames (path : List Char) : List (List Char) :=
  (splitAt '/' path).filter fun name => !name.isEmpty && name ≠ ['.']

/-- The last name of a path, if it names a file: `..` does not. -/
def fileName? (path : List Char) : Option (List Char) :=
  (pathNames path).getLast?.filter (· ≠ ['.', '.'])

/-- A file name without its extension, which starts at the last dot. A dot in
front starts none. -/
def stemOf (name : List Char) : List Char :=
  match name.reverse.dropWhile (· ≠ '.') with
  | [] => name
  | [_] => name
  | _ :: stem => stem.reverse

def fileStem? (path : String) : Option String :=
  (fileName? path.toList).map fun name => String.ofList (stemOf name)

def parentPath? (path : String) : Option String :=
  let names := (pathNames path.toList).dropLast
  let absolute := path.toList.head? = some '/'
  if names.isEmpty && !absolute then none
  else
    let joined := names.flatMap ('/' :: ·)
    some (String.ofList (if absolute then '/' :: joined.drop 1 else joined.drop 1))

end RecipeNet.Text
