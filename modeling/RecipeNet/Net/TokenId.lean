import RecipeNet.Text.Digits

/-!
Identities of work items: 128-bit numbers, written as 32 hexadecimal digits in
five groups. Reading also takes the digits without hyphens, within braces, or
after `urn:uuid:`.
-/

namespace RecipeNet

structure TokenId where
  bits : BitVec 128
deriving DecidableEq, Repr, Hashable

namespace TokenId

open Text

/-- The identity that 122 freely chosen bits give: the others mark it as a
random one. -/
def ofEntropy (n : Nat) : TokenId :=
  let low := n % Nat.pow 2 62
  let middle := n / Nat.pow 2 62 % Nat.pow 2 12
  let high := n / Nat.pow 2 74 % Nat.pow 2 48
  ⟨BitVec.ofNat 128 (high * Nat.pow 2 80 + (4 * Nat.pow 2 12 + middle) * Nat.pow 2 64 +
    (2 * Nat.pow 2 62 + low))⟩

/-- The canonical text: lower-case groups of 8, 4, 4, 4 and 12 digits. -/
def chars (id : TokenId) : List Char :=
  let ds := hexDigits 32 id.bits.toNat
  ds.take 8 ++ '-' :: ((ds.drop 8).take 4 ++ '-' :: ((ds.drop 12).take 4 ++ '-' ::
    ((ds.drop 16).take 4 ++ '-' :: ds.drop 20)))

def text (id : TokenId) : String :=
  String.ofList id.chars

def ofDigits? (cs : List Char) : Option TokenId :=
  if cs.length = 32 then (hexNumber? cs).map fun n => ⟨BitVec.ofNat 128 n⟩ else none

def ofGroups? (cs : List Char) : Option TokenId :=
  if cs.length = 36 ∧ cs[8]? = some '-' ∧ cs[13]? = some '-' ∧ cs[18]? = some '-' ∧
      cs[23]? = some '-' then
    ofDigits? (cs.take 8 ++ (cs.drop 9).take 4 ++ (cs.drop 14).take 4 ++ (cs.drop 19).take 4 ++
      cs.drop 24)
  else none

def urnHead : List Char := ['u', 'r', 'n', ':', 'u', 'u', 'i', 'd', ':']

/-- Reads any of the accepted forms, which their lengths in bytes tell apart. -/
def ofChars? (cs : List Char) : Option TokenId :=
  match cs with
  | '\x7b' :: rest =>
    if rest.length = 37 ∧ rest[36]? = some '\x7d' then ofGroups? (rest.take 36) else none
  | _ =>
    if cs.length = 32 then ofDigits? cs
    else if (cs.take 9).map Char.toLower = urnHead then ofGroups? (cs.drop 9)
    else ofGroups? cs

def parse? (s : String) : Option TokenId :=
  ofChars? s.toList

end TokenId
end RecipeNet
