import RecipeNet.Proofs.Net.Firing

/-!
When a firing is all or nothing. It looks whether the tokens that it is to take are there before it
takes the first of them, but it looks for each one by itself. Where it is to take a token more often
than the place has it, it takes what there is and fails then; in all other cases either everything
happens or nothing does.
-/

namespace RecipeNet.Reaction

variable {r r' : Reaction} {taken made : List (Nat × Token)} {place : Nat} {h : Holding}

def tokensIn (r : Reaction) (place : Nat) : List Token :=
  (r.holdings[place]?.map (·.tokens)).getD []

/-- The tokens of those entries whose connector stands for a place. -/
def through (connectors : List Nat) (entries : List (Nat × Token)) (place : Nat) : List Token :=
  (entries.filter fun e => connectors[e.1]? = some place).map (·.2)

/-- No place is to give more of a token than it has. -/
def Affords (r : Reaction) (taken : List (Nat × Token)) : Prop :=
  ∀ place, (((through r.inputs taken place).map (·.id) : List TokenId) : Multiset TokenId) ≤
    ((r.tokensIn place).map (·.id) : List TokenId)

/-- A firing has happened: each place has given the tokens that were to be taken through the inputs
that stand for it, and has been given those that were made for it. -/
structure Exchanged (r : Reaction) (taken made : List (Nat × Token)) (r' : Reaction) : Prop where
  places : ∀ place h, r.holdings[place]? = some h → ∃ h' gone,
    r'.holdings[place]? = some h' ∧ h'.place = h.place ∧
    gone.map (·.id) = (through r.inputs taken place).map (·.id) ∧
    (h'.tokens ++ gone).Perm (h.tokens ++ through r.outputs made place)
  produced : ∃ placed, r'.produced = r.produced ++ placed ∧
    List.Forall₂ (fun e p => r.outputs[e.1]? = some p.1 ∧ p.2 = e.2) made placed
  events : r'.events = r.events ++ [.fired (.ofStep r.step)]

def Atomic (r : Reaction) (taken made : List (Nat × Token)) : Prop :=
  match r.fire taken made with
  | (r', .ok true) => r.Exchanged taken made r'
  | (r', _) => r'.holdings = r.holdings ∧ r'.produced = r.produced ∧ r'.events = r.events

theorem through_cons {connectors : List Nat} {k p : Nat} (hk : connectors[k]? = some p) (t : Token)
    (rest : List (Nat × Token)) (place : Nat) : through connectors ((k, t) :: rest) place =
      if p = place then t :: through connectors rest place else through connectors rest place := by
  by_cases hp : p = place <;> simp [through, hk, hp]

theorem tokensIn_of_getElem? (hat : r.holdings[place]? = some h) : r.tokensIn place = h.tokens := by
  simp [tokensIn, hat]

theorem tokensIn_set (hat : r.holdings[place]? = some h) (h' : Holding) (q : Nat) :
    ({ r with holdings := r.holdings.set place h' } : Reaction).tokensIn q =
      if place = q then h'.tokens else r.tokensIn q := by
  obtain ⟨hlt, -⟩ := List.getElem?_eq_some_iff.1 hat
  by_cases hq : place = q
  · subst hq
    simp [tokensIn, hlt]
  · simp [tokensIn, hq, List.getElem?_set_ne]

theorem input?_of_holds {input : Nat} {t : Token} (hh : r.holds input t = true) :
    (r.input? input).isSome := by
  obtain ⟨p, h, hp, hat, -⟩ := holds_iff.1 hh
  simp [input?, hp, hat]

theorem input?_eq_some {input : Nat} (hh : (r.input? input).isSome) : ∃ p h,
    r.inputs[input]? = some p ∧ r.holdings[p]? = some h := by
  obtain ⟨h, hinput⟩ := Option.isSome_iff_exists.1 hh
  obtain ⟨p, hp, hat⟩ := Option.bind_eq_some_iff.1 hinput
  exact ⟨p, h, hp, hat⟩

theorem input?_set {input : Nat} (hh : (r.input? input).isSome) (place : Nat) (h' : Holding) :
    (({ r with holdings := r.holdings.set place h' } : Reaction).input? input).isSome := by
  obtain ⟨p, old, hp, hold⟩ := input?_eq_some hh
  obtain ⟨hlt, -⟩ := List.getElem?_eq_some_iff.1 hold
  simp [input?, hp, hlt]

section First

variable {k p : Nat} {t : Token} {rest : List (Nat × Token)} (hp : r.inputs[k]? = some p)
  (hat : r.holdings[p]? = some h)

include hp hat

/-- The first of several tokens is taken, and then the others. -/
theorem consume_removed {h' : Holding} (hremove : h.remove t = .ok h') :
    r.consume ((k, t) :: rest) = ({ r with holdings := r.holdings.set p h' } : Reaction).consume rest := by
  have hinput : r.input? k = some h := by simp [input?, hp, hat]
  rw [consume, hp, hinput]
  simp only [hremove]

theorem consume_stuck {f : Fault} (hremove : h.remove t = .error f) :
    r.consume ((k, t) :: rest) = (r, .error f) := by
  have hinput : r.input? k = some h := by simp [input?, hp, hat]
  rw [consume, hp, hinput]
  simp only [hremove]

end First

/-- Tokens can be taken one after the other exactly if no place is to give more than it has. -/
theorem consume_isOk_iff (known : ∀ e ∈ taken, (r.input? e.1).isSome) :
    (r.consume taken).2 = .ok () ↔ r.Affords taken := by
  induction taken generalizing r with
  | nil => exact iff_of_true rfl fun _ => Multiset.zero_le _
  | cons e rest ih =>
    obtain ⟨k, t⟩ := e
    obtain ⟨hfirst, hrest⟩ := List.forall_mem_cons.1 known
    obtain ⟨p, h, hp, hat⟩ := input?_eq_some hfirst
    cases hremove : h.remove t with
    | error f =>
      rw [consume_stuck hp hat hremove]
      refine iff_of_false nofun fun hafford => ?_
      have hneed := hafford p
      rw [through_cons hp, if_pos rfl, tokensIn_of_getElem? hat] at hneed
      have hmem : t.id ∈ h.tokens.map (·.id) :=
        Multiset.mem_coe.1 (Multiset.mem_of_le hneed (by simp))
      obtain ⟨u, hu, hid⟩ := List.mem_map.1 hmem
      obtain ⟨h', hok⟩ := Holding.remove_of_holds (Holding.holds_iff.2 ⟨u, hu, hid⟩)
      cases hremove.symm.trans hok
    | ok h' =>
      rw [consume_removed hp hat hremove, ih fun e he => input?_set (hrest e he) p h']
      obtain ⟨u, hid, hperm⟩ := Holding.remove_perm hremove
      have hids : ((h.tokens.map (·.id) : List TokenId) : Multiset TokenId) =
          t.id ::ₘ (h'.tokens.map (·.id) : List TokenId) := by
        rw [Multiset.cons_coe, Multiset.coe_eq_coe, ← hid]
        exact hperm.map _
      refine forall_congr' fun q => ?_
      rw [through_cons hp, tokensIn_set hat]
      by_cases hq : p = q
      · subst hq
        rw [if_pos rfl, if_pos rfl, tokensIn_of_getElem? hat, hids, List.map_cons, ← Multiset.cons_coe,
          Multiset.cons_le_cons_iff]
      · rw [if_neg hq, if_neg hq]

/-- What each place has given when all has been taken. -/
theorem consume_gone (known : ∀ e ∈ taken, (r.input? e.1).isSome) (hc : r.consume taken = (r', .ok ()))
    (place : Nat) : ∃ gone : List Token,
      gone.map (·.id) = (through r.inputs taken place).map (·.id) ∧
      (r'.tokensIn place ++ gone).Perm (r.tokensIn place) := by
  induction taken generalizing r with
  | nil =>
    cases hc
    exact ⟨[], rfl, by rw [List.append_nil]⟩
  | cons e rest ih =>
    obtain ⟨k, t⟩ := e
    obtain ⟨hfirst, hrest⟩ := List.forall_mem_cons.1 known
    obtain ⟨p, h, hp, hat⟩ := input?_eq_some hfirst
    cases hremove : h.remove t with
    | error f =>
      rw [consume_stuck hp hat hremove] at hc
      cases hc
    | ok h' =>
      rw [consume_removed hp hat hremove] at hc
      obtain ⟨gone, hgone, hperm⟩ := ih (fun e he => input?_set (hrest e he) p h') hc
      rw [tokensIn_set hat] at hperm
      rw [through_cons hp]
      by_cases hq : p = place
      · subst hq
        obtain ⟨u, hid, hall⟩ := Holding.remove_perm hremove
        rw [if_pos rfl] at hperm ⊢
        refine ⟨u :: gone, by rw [List.map_cons, List.map_cons, hid, ← hgone], ?_⟩
        rw [tokensIn_of_getElem? hat]
        exact (List.perm_middle.trans (hperm.cons u)).trans hall.symm
      · rw [if_neg hq] at hperm ⊢
        exact ⟨gone, hgone, hperm⟩

theorem tokensIn_put (p : Nat) (t : Token) (hlt : place < r.holdings.length) :
    (r.put p t).tokensIn place = r.tokensIn place ++ if p = place then [t] else [] := by
  by_cases hp : p = place <;> simp [tokensIn, put, hp, hlt, Holding.add]

/-- What each place has been given when all has been put into its place. -/
theorem tokensIn_putAll (r : Reaction) (placed : List (Nat × Token)) (hlt : place < r.holdings.length) :
    (placed.foldl (fun r e => r.put e.1 e.2) r).tokensIn place =
      r.tokensIn place ++ (placed.filter fun e => e.1 = place).map (·.2) := by
  induction placed generalizing r with
  | nil => simp
  | cons e rest ih =>
    rw [List.foldl_cons, ih (r.put e.1 e.2) (by simpa [put] using hlt), tokensIn_put e.1 e.2 hlt]
    by_cases hp : e.1 = place <;> simp [hp]

theorem through_of_forall₂ {outputs : List Nat} {placed : List (Nat × Token)}
    (h : List.Forall₂ (fun e p => outputs[e.1]? = some p.1 ∧ p.2 = e.2) made placed) (place : Nat) :
    (placed.filter fun e => e.1 = place).map (·.2) = through outputs made place := by
  induction h with
  | nil => rfl
  | @cons e p made placed hep _ ih =>
    obtain ⟨hplace, htoken⟩ := hep
    rw [through_cons hplace, ← ih, ← htoken]
    by_cases hp : p.1 = place <;> simp [hp]

/-- All that happens in a firing that fires. -/
theorem fire_exchanged (hf : r.fire taken made = (r', .ok true)) : r.Exchanged taken made r' := by
  have hevents := fire_events hf
  have hfollows := fire_follows hf
  rw [fire] at hf
  split at hf
  · cases hf
  · rename_i placed htargets
    split at hf
    · rename_i hall
      split at hf
      · cases hf
      · rename_i mid hconsume
        have hplaced := targets_ok htargets
        have hmid := consume_follows hconsume
        have hproduced := (consume_spec r taken).2.1
        rw [hconsume] at hproduced
        obtain ⟨-, hput, -⟩ := putAll_spec mid placed
        simp only [Prod.mk.injEq, and_true] at hf
        refine ⟨fun place h hat => ?_, ⟨placed, ?_, hplaced⟩, hevents⟩
        · have hlt := (List.getElem?_eq_some_iff.1 hat).1
          obtain ⟨h', hat'⟩ : ∃ h', r'.holdings[place]? = some h' :=
            ⟨_, List.getElem?_eq_getElem (holdings_length hfollows ▸ hlt)⟩
          have hnames := congrArg (·[place]?) hfollows.places
          simp only [List.getElem?_map, hat, hat', Option.map_some, Option.some.injEq] at hnames
          have hknown : ∀ e ∈ taken, (r.input? e.1).isSome := fun e he =>
            input?_of_holds (List.all_eq_true.1 hall e he)
          obtain ⟨gone, hgone, hperm⟩ := consume_gone hknown hconsume place
          refine ⟨h', gone, hat', hnames, hgone, ?_⟩
          have hinside : r'.tokensIn place = mid.tokensIn place ++ through r.outputs made place := by
            rw [← through_of_forall₂ hplaced, ← hf]
            exact tokensIn_putAll mid placed (holdings_length hmid ▸ hlt)
          rw [← tokensIn_of_getElem? hat', ← tokensIn_of_getElem? hat, hinside, List.append_assoc]
          refine ((List.Perm.refl _).append List.perm_append_comm).trans ?_
          rw [← List.append_assoc]
          exact hperm.append_right _
        · rw [← hf, raise, hput, hproduced]
    · cases hf

/-- A firing whose outputs are all there does nothing if a token is gone. Otherwise it ends as the
removals do. -/
theorem fire_of_targets {placed : List (Nat × Token)} (htargets : r.targets made = .ok placed) :
    ((∃ e ∈ taken, r.holds e.1 e.2 = false) ∧ r.fire taken made = (r, .ok false)) ∨
    ((∀ e ∈ taken, r.holds e.1 e.2 = true) ∧
      ((∃ mid f, r.consume taken = (mid, .error f) ∧ r.fire taken made = (mid, .error f)) ∨
        ((r.consume taken).2 = .ok () ∧ ∃ r', r.fire taken made = (r', .ok true)))) := by
  unfold fire
  rw [htargets]
  dsimp only
  split
  · rename_i hall
    refine .inr ⟨fun e he => List.all_eq_true.1 hall e he, ?_⟩
    cases hconsume : r.consume taken with
    | mk mid result =>
      cases result with
      | error f => exact .inl ⟨mid, f, rfl, rfl⟩
      | ok => exact .inr ⟨rfl, _, rfl⟩
  · rename_i hall
    simp only [List.all_eq_true, not_forall, Bool.not_eq_true] at hall
    obtain ⟨e, he, hnot⟩ := hall
    exact .inl ⟨⟨e, he, hnot⟩, rfl⟩

/-- The four ways in which a firing ends. Only the third one stops half way. -/
theorem fire_cases (r : Reaction) (taken made : List (Nat × Token)) :
    ((∃ e ∈ made, r.outputs[e.1]? = none) ∧ ∃ f, r.fire taken made = (r, .error f)) ∨
    ((∃ e ∈ taken, r.holds e.1 e.2 = false) ∧ r.fire taken made = (r, .ok false)) ∨
    (((∀ e ∈ made, (r.outputs[e.1]?).isSome) ∧ (∀ e ∈ taken, r.holds e.1 e.2 = true) ∧
        ¬ r.Affords taken) ∧
      ∃ r' place id, r.fire taken made = (r', .error (.tokenNotHeld place id)) ∧
        r'.produced = r.produced ∧ r'.events = r.events ∧
        ∃ lost : List (Nat × Token), lost ≠ [] ∧
          spread Holding.tokens r'.holdings + (lost : Multiset _) = spread Holding.tokens r.holdings) ∨
    (r.Affords taken ∧ ∃ r', r.fire taken made = (r', .ok true) ∧ r.Exchanged taken made r') := by
  cases htargets : r.targets made with
  | error f =>
    obtain ⟨e, he, hnone, -⟩ := targets_error htargets
    exact .inl ⟨⟨e, he, hnone⟩, f, by rw [fire, htargets]⟩
  | ok placed =>
    have houtputs : ∀ e ∈ made, (r.outputs[e.1]?).isSome := fun e he => by
      obtain ⟨p, -, hp, -⟩ := exists_left_of_forall₂ (targets_ok htargets).flip he
      rw [hp, Option.isSome_some]
    rcases fire_of_targets htargets with hgone | ⟨hheld, hends⟩
    · exact .inr (.inl hgone)
    · have hiff := consume_isOk_iff fun e he => input?_of_holds (hheld e he)
      rcases hends with ⟨mid, f, hconsume, hfire⟩ | ⟨hok, r', hfire⟩
      · obtain ⟨-, hproduced, hevents, -⟩ := consume_spec r taken
        rw [hconsume] at hiff hproduced hevents
        have herror : (r.consume taken).2 = .error f := by rw [hconsume]
        obtain ⟨place, id, rfl⟩ := consume_error herror
        refine .inr (.inr (.inl ⟨⟨houtputs, hheld, fun hafford => ?_⟩, mid, place, id, hfire,
          hproduced, hevents, consume_loses hheld hconsume⟩))
        cases hiff.2 hafford
      · exact .inr (.inr (.inr ⟨hiff.1 hok, r', hfire, fire_exchanged hfire⟩))

theorem atomic_of_unchanged {result : Except Fault Bool} (hf : r.fire taken made = (r, result))
    (hnot : result ≠ .ok true) : r.Atomic taken made := by
  rw [Atomic, hf]
  split
  · rename_i hfired
    cases hfired
    exact absurd rfl hnot
  · rename_i hother
    cases hother
    exact ⟨rfl, rfl, rfl⟩

/-- A firing is all or nothing exactly if it ends before it takes anything or the places have all
that it is to take from them. Otherwise it fails for want of a token and has lost those that it had
taken by then. -/
theorem atomic_iff_affords (r : Reaction) (taken made : List (Nat × Token)) :
    (r.Atomic taken made ↔ ((∀ e ∈ made, (r.outputs[e.1]?).isSome) →
      (∀ e ∈ taken, r.holds e.1 e.2 = true) → r.Affords taken)) ∧
    (¬ r.Atomic taken made → ∃ r' place id, r.fire taken made = (r', .error (.tokenNotHeld place id)) ∧
      r'.produced = r.produced ∧ r'.events = r.events ∧
      ∃ lost : List (Nat × Token), lost ≠ [] ∧
        spread Holding.tokens r'.holdings + (lost : Multiset _) = spread Holding.tokens r.holdings) := by
  rcases fire_cases r taken made with ⟨⟨e, he, hnone⟩, f, hfire⟩ | ⟨⟨e, he, hnot⟩, hfire⟩ |
    ⟨⟨houtputs, hheld, hshort⟩, r', place, id, hfire, hproduced, hevents, lost, hlost, hspread⟩ |
    ⟨hafford, r', hfire, hexchanged⟩
  · have hatomic := atomic_of_unchanged hfire nofun
    refine ⟨iff_of_true hatomic fun houtputs => ?_, fun hbotched => absurd hatomic hbotched⟩
    have hsome := houtputs e he
    rw [hnone] at hsome
    cases hsome
  · have hatomic := atomic_of_unchanged hfire nofun
    refine ⟨iff_of_true hatomic fun _ hheld => ?_, fun hbotched => absurd hatomic hbotched⟩
    cases hnot.symm.trans (hheld e he)
  · refine ⟨iff_of_false (fun hatomic => hlost ?_) fun h => hshort (h houtputs hheld), fun _ =>
      ⟨r', place, id, hfire, hproduced, hevents, lost, hlost, hspread⟩⟩
    rw [Atomic, hfire] at hatomic
    rw [hatomic.1] at hspread
    exact (Multiset.coe_eq_zero lost).1 (add_eq_left.1 hspread)
  · have hatomic : r.Atomic taken made := by
      rw [Atomic, hfire]
      exact hexchanged
    exact ⟨iff_of_true hatomic fun _ _ => hafford, fun hbotched => absurd hatomic hbotched⟩

def dough : Token := ⟨⟨3⟩, none, none⟩
def leftHalf : Token := ⟨⟨1⟩, none, some dough⟩
def rightHalf : Token := ⟨⟨2⟩, none, some dough⟩

/-- A join with two inputs that read a place which has one of the halves twice. -/
def crowded : Reaction where
  step := "join"
  inputs := [0, 0]
  outputs := [1, 1]
  holdings := [⟨{ id := "in" }, [leftHalf, rightHalf, leftHalf]⟩, ⟨{ id := "out" }, []⟩]

theorem crowded_atomic : crowded.Affords [(0, leftHalf), (1, leftHalf), (1, rightHalf)] ∧
    crowded.Atomic [(0, leftHalf), (1, leftHalf), (1, rightHalf)] [(0, dough), (1, dough)] := by
  have hafford : crowded.Affords [(0, leftHalf), (1, leftHalf), (1, rightHalf)] := by
    rintro (_ | place)
    · decide
    · exact Multiset.zero_le _
  exact ⟨hafford, (atomic_iff_affords _ _ _).1.2 fun _ _ => hafford⟩

/-- A join whose first two inputs read a place that has one half once. -/
def doubled : Reaction where
  step := "join"
  inputs := [0, 0, 1]
  outputs := [2]
  holdings := [⟨{ id := "m" }, [leftHalf]⟩, ⟨{ id := "n" }, [rightHalf]⟩, ⟨{ id := "end" }, []⟩]

/-- It fails when it takes the half for the second time, and the place has lost it by then. -/
theorem doubled_stops_half_way :
    ¬ doubled.Atomic [(0, leftHalf), (1, leftHalf), (2, rightHalf)] [(0, dough)] := fun ⟨hsame, _⟩ =>
  absurd (congrArg (·.map (·.tokens.length)) hsame) (by decide)

end RecipeNet.Reaction
