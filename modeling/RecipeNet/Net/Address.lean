import RecipeNet.Text.Blank

/-!
Addresses of steps. An address lists the steps whose nested plans enclose a
step, the outermost first, and then the step itself; as a text the parts stand
between slashes.
-/

namespace RecipeNet

structure Address where
  path : List String
deriving DecidableEq, Repr, Inhabited

namespace Address

def ofStep (step : String) : Address := ⟨[step]⟩

def within (a : Address) (outer : String) : Address := ⟨outer :: a.path⟩

def step (a : Address) : String := a.path.getLast?.getD ""

def depth (a : Address) : Nat := a.path.length

/-- The outermost step, and the address within its nested plan if there is
one. -/
def split (a : Address) : String × Option Address :=
  match a.path with
  | [] => ("", none)
  | [head] => (head, none)
  | head :: rest => (head, some ⟨rest⟩)

def joinPath : List String → List Char
  | [] => []
  | [part] => part.toList
  | part :: next :: rest => part.toList ++ '/' :: joinPath (next :: rest)

def text (a : Address) : String := String.ofList (joinPath a.path)

/-- The address that a text writes: blanks around the parts do not count, and
no part may be empty. -/
def parse? (s : String) : Option Address :=
  let path := (Text.splitAt '/' s.toList).map Text.trimChars
  if path.any (·.isEmpty) then none else some ⟨path.map String.ofList⟩

def invalidMessage (s : String) : String :=
  "Invalid transition reference: '" ++ s ++ "'"

end Address
end RecipeNet
