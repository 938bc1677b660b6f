import RecipeNet.Net.TokenId

/-!
Identities as texts: what is written for an identity is read as that identity.
-/

namespace RecipeNet.TokenId

open Text

/-- Five groups of digits with hyphens are read as the digits. -/
theorem ofGroups?_groups {a b c d e : List Char} (ha : a.length = 8) (hb : b.length = 4)
    (hc : c.length = 4) (hd : d.length = 4) (he : e.length = 12) :
    ofGroups? (a ++ '-' :: (b ++ '-' :: (c ++ '-' :: (d ++ '-' :: e)))) =
      ofDigits? (a ++ b ++ c ++ d ++ e) := by
  match a, b, c, d, ha, hb, hc, hd with
  | [_, _, _, _, _, _, _, _], [_, _, _, _], [_, _, _, _], [_, _, _, _], _, _, _, _ =>
    simp [ofGroups?, he]

/-- The digits of an identity, cut where the hyphens stand. -/
theorem ofGroups?_chars (id : TokenId) : ofGroups? id.chars = some id := by
  have hlength := length_hexDigits 32 id.bits.toNat
  have hnumber : ofDigits? (hexDigits 32 id.bits.toNat) = some id := by
    have hlt : id.bits.toNat < Nat.pow 16 32 := id.bits.isLt
    rw [ofDigits?, if_pos hlength, hexNumber?_hexDigits, Nat.mod_eq_of_lt hlt, Option.map_some,
      BitVec.ofNat_toNat, BitVec.setWidth_eq]
  have hcut : ∀ ds : List Char, ds.take 8 ++ (ds.drop 8).take 4 ++ (ds.drop 12).take 4 ++
      (ds.drop 16).take 4 ++ ds.drop 20 = ds := by
    intro ds
    have hsplit : ∀ n m, (ds.drop n).drop m = ds.drop (n + m) := fun n m => List.drop_drop
    have hnext : ∀ n, (ds.drop n).take 4 ++ ds.drop (n + 4) = ds.drop n := fun n => by
      rw [← hsplit, List.take_append_drop]
    rw [List.append_assoc, hnext 16, List.append_assoc, hnext 12, List.append_assoc, hnext 8,
      List.take_append_drop]
  rw [chars, ofGroups?_groups, hcut, hnumber]
  all_goals simp [hlength]

theorem mem_hexDigits {count n : Nat} {c : Char} (h : c ∈ hexDigits count n) :
    ∃ d : Fin 16, c = hexDigit d := by
  induction count generalizing n with
  | zero => cases h
  | succ count ih =>
    rcases List.mem_append.1 h with h | h
    · exact ih h
    · exact ⟨⟨n % 16, Nat.mod_lt n (by omega)⟩, List.mem_singleton.1 h⟩

/-- What is written for an identity is read as that identity. -/
theorem parse?_text (id : TokenId) : parse? id.text = some id := by
  obtain ⟨c, ds, hds⟩ := List.exists_cons_of_length_eq_add_one (length_hexDigits 32 id.bits.toNat)
  obtain ⟨d, rfl⟩ := mem_hexDigits (hds ▸ List.mem_cons_self : c ∈ hexDigits 32 id.bits.toNat)
  obtain ⟨hbrace, hurn⟩ : hexDigit d ≠ '\x7b' ∧ (hexDigit d).toLower ≠ 'u' := by
    have hall : ∀ d : Fin 16, hexDigit d ≠ '\x7b' ∧ (hexDigit d).toLower ≠ 'u' := by decide
    exact hall d
  obtain ⟨more, hfront⟩ : ∃ more, id.chars = hexDigit d :: more := by
    simp [chars, hds]
  have hlength : id.chars.length = 36 := by
    simp [chars, length_hexDigits]
  have hgroups := ofGroups?_chars id
  rw [parse?, text, String.toList_ofList]
  rw [hfront] at hlength hgroups ⊢
  unfold ofChars?
  split
  · next heq => exact absurd (List.cons.inj heq).1 hbrace
  · rw [if_neg (by omega), if_neg, hgroups]
    intro hhead
    rw [urnHead, List.take_succ_cons, List.map_cons] at hhead
    exact hurn (List.cons.inj hhead).1

end RecipeNet.TokenId
