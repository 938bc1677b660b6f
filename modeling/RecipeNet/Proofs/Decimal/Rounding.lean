import Mathlib.Algebra.Order.Floor.Semifield
import Mathlib.Data.Rat.Floor
import Mathlib.Tactic.FieldSimp
import Mathlib.Tactic.Linarith
import RecipeNet.Decimal.Shortest

/-!
Shortest decimals are what they are said to be. The decimal that is found rounds to the binary
number; no decimal with fewer digits does, and none with as many is nearer. Seventeen digits
suffice, since the decimals of so many digits lie closer together than the numbers that round to
one binary number.
-/

namespace RecipeNet.Decimal

theorem zpow_toNat {x : ℚ} (hx : x ≠ 0) (k : Int) : x ^ k = x ^ k.toNat / x ^ (-k).toNat := by
  rw [← zpow_natCast, ← zpow_natCast, ← zpow_sub₀ hx]
  congr 1
  omega

theorem ten_zpow_pos (k : Int) : (0 : ℚ) < 10 ^ k := zpow_pos (by norm_num) k

theorem ten_pow_mul (n : Nat) (k : Int) : ((10 ^ n : Nat) : ℚ) * 10 ^ k = 10 ^ (n + k) := by
  rw [Nat.cast_pow, Nat.cast_ofNat, ← zpow_natCast, ← zpow_add₀ (by norm_num)]

def Between (closed : Bool) (low high x : ℚ) : Prop :=
  if closed then low ≤ x ∧ x ≤ high else low < x ∧ x < high

namespace Between

variable {closed : Bool} {low high x y z : ℚ}

theorem convex (hx : Between closed low high x) (hz : Between closed low high z) (hxy : x ≤ y)
    (hyz : y ≤ z) : Between closed low high y := by
  cases closed with
  | false => exact ⟨hx.1.trans_le hxy, hyz.trans_lt hz.2⟩
  | true => exact ⟨hx.1.trans hxy, hyz.trans hz.2⟩

theorem of_lt (hlow : low < x) (hhigh : x < high) : Between closed low high x := by
  cases closed with
  | false => exact ⟨hlow, hhigh⟩
  | true => exact ⟨hlow.le, hhigh.le⟩

theorem low_le (h : Between closed low high x) : low ≤ x := by
  cases closed with
  | false => exact h.1.le
  | true => exact h.1

end Between

/-- The whole numbers that are compared are fractions with a common denominator. -/
theorem inside_iff {den low high d : Nat} {closed : Bool} {k : Int} (hden : 0 < den) :
    inside den low high closed k d = true ↔
      Between closed (low / (4 * den)) (high / (4 * den)) (d * 10 ^ k) := by
  have hpos : (0 : ℚ) < den := Nat.cast_pos.2 hden
  have hfactor : (0 : ℚ) < 4 * den * 10 ^ (-k).toNat := by positivity
  have hbound : ∀ bound : Nat, ((bound * 10 ^ (-k).toNat : Nat) : ℚ) =
      bound / (4 * den) * (4 * den * 10 ^ (-k).toNat) := by
    intro bound
    push_cast
    field_simp
  have hpoint : ((4 * d * 10 ^ k.toNat * den : Nat) : ℚ) =
      d * 10 ^ k * (4 * den * 10 ^ (-k).toNat) := by
    rw [zpow_toNat (by norm_num) k]
    push_cast
    field_simp
  simp only [inside, Nat.pow_eq, Between]
  cases closed
  · simp only [Bool.false_eq_true, if_false, Bool.and_eq_true, decide_eq_true_eq]
    rw [← Nat.cast_lt (α := ℚ), ← Nat.cast_lt (α := ℚ), hbound, hbound, hpoint,
      mul_lt_mul_iff_left₀ hfactor, mul_lt_mul_iff_left₀ hfactor]
  · simp only [if_true, Bool.and_eq_true, decide_eq_true_eq]
    rw [← Nat.cast_le (α := ℚ), ← Nat.cast_le (α := ℚ), hbound, hbound, hpoint,
      mul_le_mul_iff_left₀ hfactor, mul_le_mul_iff_left₀ hfactor]

namespace Ratio

variable {r : Ratio}

def value (r : Ratio) : ℚ := r.num / r.den

/-- With both denominators multiplied out, whole numbers are left. -/
theorem multiplied_out (hden : 0 < r.den) (a d : Nat) (k : Int) : ∃ factor : ℚ, 0 < factor ∧
    ((a * r.num * 10 ^ (-k).toNat : Nat) : ℚ) = a * r.value * factor ∧
    ((d * r.den * 10 ^ k.toNat : Nat) : ℚ) = d * 10 ^ k * factor := by
  have hpos : (0 : ℚ) < r.den := Nat.cast_pos.2 hden
  refine ⟨r.den * 10 ^ (-k).toNat, by positivity, ?_, ?_⟩
  · unfold value
    push_cast
    field_simp
  · rw [zpow_toNat (by norm_num) k]
    push_cast
    field_simp

theorem lt_iff (hden : 0 < r.den) (a d : Nat) (k : Int) :
    a * r.num * 10 ^ (-k).toNat < d * r.den * 10 ^ k.toNat ↔ a * r.value < d * 10 ^ k := by
  obtain ⟨factor, hfactor, hvalue, hgrid⟩ := multiplied_out hden a d k
  rw [← Nat.cast_lt (α := ℚ), hvalue, hgrid, mul_lt_mul_iff_left₀ hfactor]

theorem le_iff (hden : 0 < r.den) (a d : Nat) (k : Int) :
    a * r.num * 10 ^ (-k).toNat ≤ d * r.den * 10 ^ k.toNat ↔ a * r.value ≤ d * 10 ^ k := by
  obtain ⟨factor, hfactor, hvalue, hgrid⟩ := multiplied_out hden a d k
  rw [← Nat.cast_le (α := ℚ), hvalue, hgrid, mul_le_mul_iff_left₀ hfactor]

theorem ge_iff (hden : 0 < r.den) (a d : Nat) (k : Int) :
    d * r.den * 10 ^ k.toNat ≤ a * r.num * 10 ^ (-k).toNat ↔ d * 10 ^ k ≤ a * r.value := by
  simpa only [not_lt] using (lt_iff hden a d k).not

theorem gridFloor_le (hden : 0 < r.den) (k : Int) : r.gridFloor k * 10 ^ k ≤ r.value := by
  have hge := ge_iff hden 1 (r.gridFloor k) k
  rw [Nat.cast_one, one_mul, one_mul, Nat.mul_assoc] at hge
  exact hge.1 (Nat.div_mul_le_self _ _)

theorem lt_gridFloor (hden : 0 < r.den) (k : Int) : r.value < (r.gridFloor k + 1) * 10 ^ k := by
  have hlt := lt_iff hden 1 (r.gridFloor k + 1) k
  rw [Nat.cast_one, one_mul, one_mul, Nat.cast_succ, Nat.mul_assoc, Nat.mul_comm (_ + 1)] at hlt
  exact hlt.1 (Nat.lt_mul_div_succ _ (Nat.mul_pos hden (Nat.pow_pos (by norm_num))))

/-- The power of ten of the first digit is found if it is among those that are tried. -/
theorem magnitudeFrom_spec (hden : 0 < r.den) {fuel : Nat} {k : Int} (hlow : 10 ^ k ≤ r.value)
    (hhigh : r.value < 10 ^ (k + fuel + 1)) :
    10 ^ r.magnitudeFrom fuel k ≤ r.value ∧ r.value < 10 ^ (r.magnitudeFrom fuel k + 1) := by
  induction fuel generalizing k with
  | zero => exact ⟨hlow, by simpa [magnitudeFrom] using hhigh⟩
  | succ fuel ih =>
    have htest := lt_iff hden 1 1 (k + 1)
    simp only [Nat.cast_one, one_mul] at htest
    simp only [magnitudeFrom, Nat.pow_eq]
    split
    · exact ⟨hlow, htest.1 ‹_›⟩
    · refine ih (not_lt.1 (mt htest.2 ‹_›)) ?_
      rwa [Nat.cast_succ, show k + (fuel + 1 : Int) + 1 = k + 1 + fuel + 1 by ring] at hhigh

end Ratio

section

variable {r four : Ratio} {low high : Nat} {closed : Bool} {k : Int}

/-- Of two neighbours the nearer one is taken. -/
theorem nearer_some {twice middle d c : Nat}
    (h : (if twice < middle then some d
      else if middle < twice then some (d + 1)
      else if d % 2 = 0 then some d else some (d + 1)) = some c) :
    c = d ∧ twice ≤ middle ∨ c = d + 1 ∧ middle ≤ twice := by
  by_cases hbelow : twice < middle
  · rw [if_pos hbelow] at h
    exact .inl ⟨(Option.some.inj h).symm, hbelow.le⟩
  · rw [if_neg hbelow] at h
    by_cases habove : middle < twice
    · rw [if_pos habove] at h
      exact .inr ⟨(Option.some.inj h).symm, habove.le⟩
    · rw [if_neg habove] at h
      split at h <;> cases h
      · exact .inl ⟨rfl, not_lt.1 habove⟩
      · exact .inr ⟨rfl, not_lt.1 hbelow⟩

/-- A candidate is a neighbour of the number, and the nearer one if there are two. -/
theorem candidate?_some (hden : 0 < r.den) {c : Nat}
    (h : candidate? r four low high closed k = some c) :
    inside four.den low high closed k c = true ∧
      (c = r.gridFloor k ∧ (inside four.den low high closed k (r.gridFloor k + 1) = true →
          2 * r.value ≤ (2 * r.gridFloor k + 1) * 10 ^ k) ∨
        c = r.gridFloor k + 1 ∧ (r.gridFloor k ≠ 0 →
          inside four.den low high closed k (r.gridFloor k) = true →
          (2 * r.gridFloor k + 1) * 10 ^ k ≤ 2 * r.value)) := by
  have hle := Ratio.le_iff hden 2 (2 * r.gridFloor k + 1) k
  have hge := Ratio.ge_iff hden 2 (2 * r.gridFloor k + 1) k
  push_cast at hle hge
  simp only [candidate?, Nat.pow_eq] at h
  split at h
  · rename_i hboth
    simp only [Bool.and_eq_true] at hboth
    obtain ⟨⟨hlow, -⟩, hhigh⟩ := hboth
    rcases nearer_some h with ⟨rfl, hnearer⟩ | ⟨rfl, hnearer⟩
    · exact ⟨hlow, .inl ⟨rfl, fun _ => hle.1 hnearer⟩⟩
    · exact ⟨hhigh, .inr ⟨rfl, fun _ _ => hge.1 hnearer⟩⟩
  · rename_i hboth
    simp only [Bool.and_eq_true, bne_iff_ne, not_and] at hboth
    split at h
    · rename_i hlow
      cases h
      simp only [Bool.and_eq_true, bne_iff_ne] at hlow
      exact ⟨hlow.1, .inl ⟨rfl, fun hhigh => absurd hhigh (hboth hlow)⟩⟩
    · rename_i hlow
      simp only [Bool.and_eq_true, bne_iff_ne, not_and, not_not] at hlow
      split at h
      · rename_i hhigh
        cases h
        exact ⟨hhigh, .inr ⟨rfl, fun hne hin => absurd (hlow hin) hne⟩⟩
      · cases h

theorem candidate?_none (h : candidate? r four low high closed k = none) :
    (r.gridFloor k ≠ 0 → inside four.den low high closed k (r.gridFloor k) = false) ∧
      inside four.den low high closed k (r.gridFloor k + 1) = false := by
  simp only [candidate?] at h
  split at h
  · split at h
    · cases h
    · split at h
      · cases h
      · split at h <;> cases h
  · split at h
    · cases h
    · rename_i hlow
      split at h
      · cases h
      · rename_i hhigh
        rw [Bool.and_eq_true, bne_iff_ne, not_and, not_not] at hlow
        exact ⟨fun hne => Bool.eq_false_iff.2 (mt hlow hne), Bool.eq_false_iff.2 hhigh⟩

end

namespace Shortest

def value (s : Shortest) : ℚ := s.digits * 10 ^ s.exponent

theorem value_strip (fuel : Nat) (s : Shortest) : (s.strip fuel).value = s.value := by
  induction fuel generalizing s with
  | zero => rfl
  | succ fuel ih =>
    rw [strip]
    split
    · rename_i hzero
      have hdigits : ((10 * (s.digits / 10) : Nat) : ℚ) = s.digits :=
        congrArg Nat.cast (Nat.mul_div_cancel' (Nat.dvd_of_mod_eq_zero hzero))
      rw [ih, value, value, ← hdigits, zpow_add_one₀ (by norm_num)]
      push_cast
      ring
    · rfl

theorem digits_strip_le (fuel : Nat) (s : Shortest) : (s.strip fuel).digits ≤ s.digits := by
  induction fuel generalizing s with
  | zero => exact le_rfl
  | succ fuel ih =>
    rw [strip]
    split
    · exact (ih _).trans (Nat.div_le_self _ _)
    · exact le_rfl

theorem digits_strip_pow {fuel m : Nat} (hle : m ≤ fuel) (k : Int) :
    (strip fuel ⟨10 ^ m, k⟩).digits = 1 := by
  induction m generalizing fuel k with
  | zero => cases fuel <;> rfl
  | succ m ih =>
    cases fuel with
    | zero => cases hle
    | succ fuel =>
      have hzero : 10 ^ (m + 1) % 10 = 0 := by omega
      have hnext : 10 ^ (m + 1) / 10 = 10 ^ m := by omega
      rw [strip, if_pos hzero, hnext]
      exact ih (Nat.le_of_succ_le_succ hle) _

end Shortest

/-- The search stops at the first grid that has a candidate. -/
theorem search_spec {r four : Ratio} {low high : Nat} {closed : Bool} {top : Int} {fuel : Nat}
    (hle : fuel ≤ 17) (hpos : 0 < fuel)
    (hit : candidate? r four low high closed (top - (16 : Nat)) ≠ none) :
    ∃ j c : Nat, j ≤ 16 ∧ search r four low high closed top fuel = ⟨c, top - j⟩ ∧
      candidate? r four low high closed (top - j) = some c ∧
      ∀ i : Nat, 17 - fuel ≤ i → i < j → candidate? r four low high closed (top - i) = none := by
  induction fuel with
  | zero => cases hpos
  | succ fuel ih =>
    rw [search]
    split
    · rename_i d hd
      exact ⟨16 - fuel, d, Nat.sub_le _ _, rfl, hd, fun i hfrom hto => by omega⟩
    · rename_i hnone
      have hmore : 0 < fuel := by
        refine Nat.pos_of_ne_zero fun hzero => ?_
        subst hzero
        exact hit hnone
      obtain ⟨j, c, hj, hsearch, hcandidate, hearlier⟩ := ih (by omega) hmore
      refine ⟨j, c, hj, hsearch, hcandidate, fun i hfrom hto => ?_⟩
      by_cases hfirst : i = 16 - fuel
      · exact hfirst ▸ hnone
      · exact hearlier i (by omega) hto

namespace Binary

def value (b : Binary) : ℚ := b.mantissa * 2 ^ b.exponent

/-- The magnitudes of doubles that are neither zero nor infinite. -/
structure IsDouble (b : Binary) : Prop where
  positive : 0 < b.mantissa
  narrow : b.mantissa < 2 ^ 53
  above : -1074 ≤ b.exponent
  below : b.exponent ≤ 971

def lower (b : Binary) : ℚ :=
  if b.mantissa = 2 ^ 52 ∧ -1074 < b.exponent then (b.mantissa - 1 / 4) * 2 ^ b.exponent
  else (b.mantissa - 1 / 2) * 2 ^ b.exponent

def upper (b : Binary) : ℚ := (b.mantissa + 1 / 2) * 2 ^ b.exponent

/-- A number rounds to a binary one if it lies between the middles of the gaps to the
neighbours, or in the middle of a gap that is beside an even mantissa. -/
def Rounds (b : Binary) (x : ℚ) : Prop := Between (b.mantissa % 2 = 0) b.lower b.upper x

variable {b : Binary}

theorem ofBits_isDouble {bits : UInt64} (nonzero : bits.toNat % 2 ^ 63 ≠ 0)
    (finite : bits.toNat % 2 ^ 63 < 2047 * 2 ^ 52) : (ofBits bits).IsDouble := by
  simp only [ofBits, Nat.pow_eq]
  generalize bits.toNat % 2 ^ 63 = n at nonzero finite
  split
  · exact ⟨by dsimp only; omega, by dsimp only; omega, le_rfl, by norm_num⟩
  · have hfield : (Int.ofNat (n / 2 ^ 52) : Int) = (n : Int) / 2 ^ 52 := Int.natCast_ediv n (2 ^ 52)
    refine ⟨?_, ?_, ?_, ?_⟩ <;> dsimp only <;> omega

theorem unit_pos (b : Binary) : (0 : ℚ) < 2 ^ b.exponent := zpow_pos (by norm_num) _

theorem lower_lt_value (b : Binary) : b.lower < b.value := by
  have hunit := b.unit_pos
  unfold lower value
  split <;> linarith

theorem value_lt_upper (b : Binary) : b.value < b.upper := by
  have hunit := b.unit_pos
  unfold upper value
  linarith

theorem rounds_value (b : Binary) : b.Rounds b.value := .of_lt b.lower_lt_value b.value_lt_upper

theorem Rounds.convex {x y z : ℚ} (hx : b.Rounds x) (hz : b.Rounds z) (hxy : x ≤ y)
    (hyz : y ≤ z) : b.Rounds y :=
  Between.convex hx hz hxy hyz

namespace IsDouble

theorem one_le (h : b.IsDouble) : (1 : ℚ) ≤ b.mantissa := by exact_mod_cast h.positive

theorem lower_pos (h : b.IsDouble) : 0 < b.lower := by
  have hunit := b.unit_pos
  have hone := h.one_le
  unfold lower
  split <;> exact mul_pos (by linarith) hunit

theorem not_rounds_zero (h : b.IsDouble) : ¬ b.Rounds 0 :=
  fun hzero => absurd h.lower_pos (not_lt.2 (Between.low_le hzero))

/-- The numbers that round to a binary one lie further apart than decimals of seventeen digits. -/
theorem wide (h : b.IsDouble) : b.value < 10 ^ 16 * (b.upper - b.lower) := by
  have hunit := b.unit_pos
  unfold upper lower value
  split
  · rename_i hpower
    have hmantissa : (b.mantissa : ℚ) = 2 ^ 52 := by exact_mod_cast hpower.1
    rw [hmantissa]
    linarith
  · have hnarrow : (b.mantissa : ℚ) < 2 ^ 53 := by exact_mod_cast h.narrow
    have hvalue := mul_lt_mul_of_pos_right hnarrow hunit
    linarith

/-- The first digit of a double is where it is looked for. -/
theorem range (h : b.IsDouble) :
    (10 : ℚ) ^ (-330 : Int) ≤ b.value ∧ b.value < 10 ^ (331 : Int) := by
  have hnarrow : (b.mantissa : ℚ) < 2 ^ 53 := by exact_mod_cast h.narrow
  have hleast : 2 ^ 1074 ≤ 10 ^ 330 := by decide +kernel
  have hmost : 2 ^ 53 * 2 ^ 971 ≤ 10 ^ 331 := by decide +kernel
  constructor
  · calc (10 : ℚ) ^ (-330 : Int) = (10 ^ (330 : Int))⁻¹ := zpow_neg 10 330
      _ ≤ (2 ^ (1074 : Int))⁻¹ := inv_anti₀ (zpow_pos two_pos _) (by exact_mod_cast hleast)
      _ = 2 ^ (-1074 : Int) := (zpow_neg 2 1074).symm
      _ ≤ 2 ^ b.exponent := zpow_le_zpow_right₀ (by norm_num) h.above
      _ ≤ b.value := le_mul_of_one_le_left b.unit_pos.le h.one_le
  · calc b.value < 2 ^ 53 * 2 ^ b.exponent := mul_lt_mul_of_pos_right hnarrow b.unit_pos
      _ ≤ 2 ^ 53 * 2 ^ (971 : Int) :=
        mul_le_mul_of_nonneg_left (zpow_le_zpow_right₀ (by norm_num) h.below) (by norm_num)
      _ ≤ 10 ^ (331 : Int) := by exact_mod_cast hmost

end IsDouble

/-- Four times the ends of the interval, as the search is given them. -/
def low (b : Binary) : Nat :=
  if b.mantissa = 2 ^ 52 ∧ -1074 < b.exponent then (b.ratio 4).num - 2 ^ b.exponent.toNat
  else (b.ratio 4).num - 2 * 2 ^ b.exponent.toNat

def high (b : Binary) : Nat := (b.ratio 4).num + 2 * 2 ^ b.exponent.toNat

/-- What the grid of step `10^k` has to offer. -/
def offer? (b : Binary) (k : Int) : Option Nat :=
  candidate? (b.ratio 1) (b.ratio 4) b.low b.high (b.mantissa % 2 = 0) k

theorem shortest_eq (b : Binary) : b.shortest = Shortest.strip 17 (search (b.ratio 1) (b.ratio 4)
    b.low b.high (b.mantissa % 2 = 0) (b.ratio 1).magnitude 17) := rfl

theorem den_pos (b : Binary) (scale : Nat) : 0 < (b.ratio scale).den := Nat.pow_pos (by norm_num)

theorem ratio_value (b : Binary) : (b.ratio 1).value = b.value := by
  unfold value Ratio.value ratio
  rw [zpow_toNat (by norm_num) b.exponent]
  push_cast [Nat.pow_eq]
  field_simp

theorem low_value (h : b.IsDouble) : (b.low / (4 * (b.ratio 4).den) : ℚ) = b.lower := by
  have hroom : 2 * 2 ^ b.exponent.toNat ≤ 4 * b.mantissa * 2 ^ b.exponent.toNat :=
    Nat.mul_le_mul_right _ (by have := h.positive; omega)
  unfold low lower ratio
  rw [zpow_toNat (by norm_num) b.exponent, Nat.pow_eq, Nat.pow_eq]
  split
  · rw [Nat.cast_sub (le_trans (Nat.le_mul_of_pos_left _ two_pos) hroom)]
    push_cast
    field_simp
  · rw [Nat.cast_sub hroom]
    push_cast
    field_simp
    ring

theorem high_value (b : Binary) : (b.high / (4 * (b.ratio 4).den) : ℚ) = b.upper := by
  unfold high upper ratio
  rw [zpow_toNat (by norm_num) b.exponent, Nat.pow_eq, Nat.pow_eq]
  push_cast
  field_simp
  ring

theorem inside_offer (h : b.IsDouble) (k : Int) (d : Nat) :
    inside (b.ratio 4).den b.low b.high (b.mantissa % 2 = 0) k d = true ↔
      b.Rounds (d * 10 ^ k) := by
  rw [inside_iff (b.den_pos 4), low_value h, high_value]
  rfl

def floor (b : Binary) (k : Int) : Nat := (b.ratio 1).gridFloor k

theorem floor_le (b : Binary) (k : Int) : b.floor k * 10 ^ k ≤ b.value :=
  b.ratio_value ▸ Ratio.gridFloor_le (b.den_pos 1) k

theorem lt_floor (b : Binary) (k : Int) : b.value < (b.floor k + 1) * 10 ^ k :=
  b.ratio_value ▸ Ratio.lt_gridFloor (b.den_pos 1) k

/-- If any point of a grid rounds to the number, then so does the neighbour on its side. -/
theorem Rounds.neighbour (h : b.IsDouble) {k : Int} {d : Nat} (hrounds : b.Rounds (d * 10 ^ k)) :
    (d ≤ b.floor k ∧ b.floor k ≠ 0 ∧ b.Rounds (b.floor k * 10 ^ k)) ∨
      (b.floor k + 1 ≤ d ∧ b.Rounds ((b.floor k + 1) * 10 ^ k)) := by
  have hstep := (ten_zpow_pos k).le
  by_cases hd : d ≤ b.floor k
  · have hnonzero : d ≠ 0 := by
      rintro rfl
      rw [Nat.cast_zero, zero_mul] at hrounds
      exact h.not_rounds_zero hrounds
    have hle : (d : ℚ) ≤ b.floor k := by exact_mod_cast hd
    exact .inl ⟨hd, by omega, hrounds.convex b.rounds_value
      (mul_le_mul_of_nonneg_right hle hstep) (b.floor_le k)⟩
  · have hle : (b.floor k + 1 : ℚ) ≤ d := by exact_mod_cast not_le.1 hd
    exact .inr ⟨not_le.1 hd, b.rounds_value.convex hrounds (b.lt_floor k).le
      (mul_le_mul_of_nonneg_right hle hstep)⟩

/-- Of a grid without an offer nothing rounds to the number. -/
theorem offer?_none (h : b.IsDouble) {k : Int} (hnone : b.offer? k = none) (d : Nat) :
    ¬ b.Rounds (d * 10 ^ k) := by
  intro hrounds
  obtain ⟨hbelow, habove⟩ := candidate?_none hnone
  rcases hrounds.neighbour h with ⟨-, hne, hin⟩ | ⟨-, hin⟩
  · exact absurd ((inside_offer h k _).2 hin) (Bool.eq_false_iff.1 (hbelow hne))
  · refine absurd ((inside_offer h k _).2 ?_) (Bool.eq_false_iff.1 habove)
    exact_mod_cast hin

/-- An offer rounds to the number, and nothing on its grid that does is nearer. -/
theorem offer?_some (h : b.IsDouble) {k : Int} {c : Nat} (hsome : b.offer? k = some c) :
    b.Rounds (c * 10 ^ k) ∧ c ≤ b.floor k + 1 ∧
      ∀ d : Nat, b.Rounds (d * 10 ^ k) → |c * 10 ^ k - b.value| ≤ |d * 10 ^ k - b.value| := by
  obtain ⟨hin, hcases⟩ := candidate?_some (b.den_pos 1) hsome
  have hle := b.floor_le k
  have hlt := b.lt_floor k
  have hstep := (ten_zpow_pos k).le
  rw [ratio_value] at hcases
  change c = b.floor k ∧ _ ∨ c = b.floor k + 1 ∧ _ at hcases
  refine ⟨(inside_offer h k c).1 hin, by omega, fun d hd => ?_⟩
  rcases hd.neighbour h with ⟨hside, hne, hrounds⟩ | ⟨hside, hrounds⟩
  · have hgrid : (d : ℚ) * 10 ^ k ≤ b.floor k * 10 ^ k :=
      mul_le_mul_of_nonneg_right (by exact_mod_cast hside) hstep
    have hfar : b.value - b.floor k * 10 ^ k ≤ |d * 10 ^ k - b.value| := by
      rw [abs_sub_comm]
      exact (sub_le_sub_left hgrid _).trans (le_abs_self _)
    refine (abs_le.2 ?_).trans hfar
    rcases hcases with ⟨rfl, -⟩ | ⟨rfl, hnearer⟩
    · constructor <;> linarith
    · have htie : (2 * b.floor k + 1) * 10 ^ k ≤ 2 * b.value :=
        hnearer hne ((inside_offer h k _).2 hrounds)
      push_cast
      constructor <;> linarith
  · have hgrid : (b.floor k + 1) * 10 ^ k ≤ (d : ℚ) * 10 ^ k :=
      mul_le_mul_of_nonneg_right (by exact_mod_cast hside) hstep
    have hfar : (b.floor k + 1) * 10 ^ k - b.value ≤ |d * 10 ^ k - b.value| :=
      (sub_le_sub_right hgrid _).trans (le_abs_self _)
    refine (abs_le.2 ?_).trans hfar
    rcases hcases with ⟨rfl, hnearer⟩ | ⟨rfl, -⟩
    · have htie : 2 * b.value ≤ (2 * b.floor k + 1) * 10 ^ k :=
        hnearer ((inside_offer h k _).2 (by exact_mod_cast hrounds))
      constructor <;> linarith
    · push_cast
      constructor <;> linarith

/-- The power of ten of the first digit. -/
theorem magnitude_spec (h : b.IsDouble) : 10 ^ (b.ratio 1).magnitude ≤ b.value ∧
    b.value < 10 ^ ((b.ratio 1).magnitude + 1) := by
  obtain ⟨hlow, hhigh⟩ := h.range
  rw [← ratio_value] at hlow hhigh ⊢
  exact Ratio.magnitudeFrom_spec (b.den_pos 1) hlow hhigh

/-- Decimals of seventeen digits are close enough for one of them to round to the number. -/
theorem offer?_seventeen (h : b.IsDouble) {top : Int} (htop : 10 ^ top ≤ b.value) :
    b.offer? (top - (16 : Nat)) ≠ none := by
  intro hnone
  have hstep : (10 : ℚ) ^ top = 10 ^ 16 * 10 ^ (top - (16 : Nat)) := by
    rw [← zpow_natCast, ← zpow_add₀ (by norm_num)]
    congr 1
    omega
  have hwide := h.wide
  have hle := b.floor_le (top - (16 : Nat))
  have hlt := b.lt_floor (top - (16 : Nat))
  have hbelow : b.floor (top - (16 : Nat)) * 10 ^ (top - (16 : Nat)) ≤ b.lower :=
    not_lt.1 fun hlow => offer?_none h hnone _ (.of_lt hlow (hle.trans_lt b.value_lt_upper))
  have habove : (b.floor (top - (16 : Nat)) + 1) * 10 ^ (top - (16 : Nat)) < b.upper := by linarith
  refine offer?_none h hnone (b.floor (top - (16 : Nat)) + 1) (.of_lt ?_ ?_)
  · push_cast
    exact b.lower_lt_value.trans hlt
  · push_cast
    exact habove

/-- A decimal of at most `n + 1` digits that rounds to the number is on the grid of so many
digits, or it is smaller than the first point there. -/
theorem exists_offered {top : Int} (htop : 10 ^ top ≤ b.value) {s : Shortest}
    (hrounds : b.Rounds s.value) {n : Nat} (hfew : s.digits < 10 ^ (n + 1)) :
    ∃ d : Nat, b.Rounds (d * 10 ^ (top - n)) ∧
      |d * 10 ^ (top - n) - b.value| ≤ |s.value - b.value| := by
  by_cases hgrid : top - n ≤ s.exponent
  · have hsame : ((s.digits * 10 ^ (s.exponent - (top - n)).toNat : Nat) : ℚ) * 10 ^ (top - n) =
        s.value := by
      rw [Nat.cast_mul, mul_assoc, ten_pow_mul, Shortest.value]
      congr 2
      omega
    exact ⟨_, hsame.symm ▸ hrounds, hsame.symm ▸ le_rfl⟩
  · have hpoint : ((10 ^ n : Nat) : ℚ) * 10 ^ (top - n) = 10 ^ top := by
      rw [ten_pow_mul, add_sub_cancel]
    have hbelow : s.value ≤ 10 ^ top := by
      have hdigits : (s.digits : ℚ) ≤ (10 ^ (n + 1) : Nat) := by exact_mod_cast hfew.le
      calc s.value ≤ (10 ^ (n + 1) : Nat) * 10 ^ s.exponent :=
            mul_le_mul_of_nonneg_right hdigits (ten_zpow_pos _).le
        _ = 10 ^ ((n + 1 : Nat) + s.exponent) := ten_pow_mul _ _
        _ ≤ 10 ^ top := zpow_le_zpow_right₀ (by norm_num) (by omega)
    refine ⟨10 ^ n, ?_, ?_⟩
    · rw [hpoint]
      exact hrounds.convex b.rounds_value hbelow htop
    · rw [hpoint, abs_sub_comm, abs_sub_comm s.value, abs_of_nonneg (by linarith),
        abs_of_nonneg (by linarith)]
      linarith

/-- The offer that the shortest decimal comes from is the first one, on the grid of `j + 1`
digits. -/
structure Offered (b : Binary) (top : Int) (j c : Nat) : Prop where
  first : 10 ^ top ≤ b.value
  inRange : j ≤ 16
  shortest : b.shortest = Shortest.strip 17 ⟨c, top - j⟩
  offer : b.offer? (top - j) = some c
  bound : c ≤ 10 ^ (j + 1)
  earlier : ∀ i : Nat, i < j → b.offer? (top - i) = none

theorem exists_first_offer (h : b.IsDouble) : ∃ top j c, b.Offered top j c := by
  obtain ⟨htop, hbound⟩ := magnitude_spec h
  obtain ⟨j, c, hj, hsearch, hoffer, hearlier⟩ :=
    search_spec (le_refl 17) (by norm_num) (offer?_seventeen h htop)
  refine ⟨_, j, c, htop, hj, ?_, hoffer, ?_, fun i hi => hearlier i (by omega) hi⟩
  · rw [shortest_eq, ← hsearch]
  · have hlt : b.floor ((b.ratio 1).magnitude - j) < 10 ^ (j + 1) := by
      have hgrid : b.floor ((b.ratio 1).magnitude - j) * 10 ^ ((b.ratio 1).magnitude - j) <
          ((10 ^ (j + 1) : Nat) : ℚ) * 10 ^ ((b.ratio 1).magnitude - j) := by
        calc _ ≤ b.value := b.floor_le _
          _ < 10 ^ ((b.ratio 1).magnitude + 1) := hbound
          _ = _ := by
            rw [ten_pow_mul]
            congr 1
            omega
      exact_mod_cast lt_of_mul_lt_mul_right hgrid (ten_zpow_pos _).le
    exact (offer?_some h hoffer).2.1.trans hlt

theorem digits_pos (h : b.IsDouble) {s : Shortest} (hrounds : b.Rounds s.value) : 0 < s.digits := by
  refine Nat.pos_of_ne_zero fun hzero => ?_
  rw [Shortest.value, hzero, Nat.cast_zero, zero_mul] at hrounds
  exact h.not_rounds_zero hrounds

namespace Offered

variable {top : Int} {j c n : Nat} {s : Shortest}

theorem le (ho : b.Offered top j c) (h : b.IsDouble) (hrounds : b.Rounds s.value)
    (hfew : s.digits < 10 ^ (n + 1)) : j ≤ n := by
  refine not_lt.1 fun hlt => ?_
  obtain ⟨d, hd, -⟩ := exists_offered ho.first hrounds hfew
  exact offer?_none h (ho.earlier n hlt) d hd

/-- An offer with one digit more than its grid has is a power of ten. -/
theorem digits_cases (ho : b.Offered top j c) :
    b.shortest.digits ≤ c ∧ c < 10 ^ (j + 1) ∨ b.shortest.digits = 1 ∧ c = 10 ^ (j + 1) := by
  rw [ho.shortest]
  rcases ho.bound.lt_or_eq with hlt | rfl
  · exact .inl ⟨Shortest.digits_strip_le _ _, hlt⟩
  · exact .inr ⟨Shortest.digits_strip_pow (Nat.succ_le_succ ho.inRange) _, rfl⟩

end Offered

/-- The shortest decimal rounds to the number. -/
theorem shortest_rounds (h : b.IsDouble) : b.Rounds b.shortest.value := by
  obtain ⟨top, j, c, ho⟩ := exists_first_offer h
  rw [ho.shortest, Shortest.value_strip]
  exact (offer?_some h ho.offer).1

/-- No decimal with fewer digits rounds to the number. -/
theorem shortest_least (h : b.IsDouble) {s : Shortest} (hrounds : b.Rounds s.value) {n : Nat}
    (hfew : s.digits < 10 ^ n) : b.shortest.digits < 10 ^ n := by
  obtain ⟨top, j, c, ho⟩ := exists_first_offer h
  have hpos := digits_pos h hrounds
  cases n with
  | zero => omega
  | succ n =>
    rcases ho.digits_cases with ⟨hle, hlt⟩ | ⟨hone, -⟩
    · have hgrid := Nat.pow_le_pow_right (by norm_num : 0 < 10)
        (Nat.succ_le_succ (ho.le h hrounds hfew))
      exact (hle.trans_lt hlt).trans_le hgrid
    · rw [hone]
      exact Nat.one_lt_pow (Nat.succ_ne_zero n) (by norm_num)

/-- No decimal that rounds to the number, and has as few digits as one can, is nearer than the
shortest one. -/
theorem shortest_nearest (h : b.IsDouble) {s : Shortest} (hrounds : b.Rounds s.value) {n : Nat}
    (hfew : s.digits < 10 ^ n) (hmust : ∀ t : Shortest, b.Rounds t.value → 10 ^ n ≤ 10 * t.digits) :
    |b.shortest.value - b.value| ≤ |s.value - b.value| := by
  obtain ⟨top, j, c, ho⟩ := exists_first_offer h
  have hpos := digits_pos h hrounds
  have hleast := hmust b.shortest (shortest_rounds h)
  cases n with
  | zero => omega
  | succ n =>
    have hle := ho.le h hrounds hfew
    have hsame : j = n := by
      refine le_antisymm hle (not_lt.1 fun hlt => ?_)
      have hgrid : 10 ^ (j + 1) ≤ 10 ^ n := Nat.pow_le_pow_right (by norm_num) hlt
      have hunit : 0 < 10 ^ j := Nat.pow_pos (by norm_num)
      rcases ho.digits_cases with ⟨hdigits, hbound⟩ | ⟨hone, -⟩ <;> omega
    subst hsame
    obtain ⟨d, hd, hnearer⟩ := exists_offered ho.first hrounds hfew
    rw [ho.shortest, Shortest.value_strip]
    exact ((offer?_some h ho.offer).2.2 d hd).trans hnearer

/-- One tenth is not a double, but it is what is written for the double that is nearest. -/
example : (ofBits 4591870180066957722).shortest = ⟨1, -1⟩ := by decide +kernel

end Binary

end RecipeNet.Decimal
