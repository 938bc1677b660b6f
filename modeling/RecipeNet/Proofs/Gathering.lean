import Mathlib.Tactic.IntervalCases
import RecipeNet.Proofs.Net.Confluence

/-!
What a join makes of siblings that come to it in any order. Each sibling is announced after
it has come, once on every input that reads its place; how the announcements and arrivals of
the families alternate is left open. Each family is made whole once, and nothing stays.
-/

namespace RecipeNet

namespace Incident

def coming? : Incident → Option (Nat × Token)
  | .comes place t => some (place, t)
  | _ => none

def telling? : Incident → Option (Nat × Token)
  | .told input t => some (input, t)
  | _ => none

end Incident

def announcements (inputs : List Nat) (x : Nat × Token) : List (Nat × Token) :=
  (inputs.zipIdx.filter (·.1 == x.1)).map fun e => (e.2, x.2)

/-- A course of a join with some inputs, in which each sibling of some families comes once
and is announced afterwards. -/
structure Interleaves (inputs : List Nat) (families : List Family) (course : List Incident) :
    Prop where
  comes : (course.filterMap Incident.coming?).Perm (families.flatMap (·.siblings))
  told : (course.filterMap Incident.telling?).Perm
    ((families.flatMap (·.siblings)).flatMap (announcements inputs))
  afterwards : ∀ (i input : Nat) (t : Token), course[i]? = some (.told input t) →
    ∃ j < i, ∃ place, course[j]? = some (.comes place t)
  elsewhere : ∀ (place : Nat) (tokens : List Token), .elsewhere place tokens ∈ course →
    place ∉ inputs

theorem mem_announcements {inputs : List Nat} {x : Nat × Token} {k : Nat} {t : Token} :
    (k, t) ∈ announcements inputs x ↔ inputs[k]? = some x.1 ∧ t = x.2 := by
  simp only [announcements, List.mem_map, List.mem_filter, beq_iff_eq, Prod.mk.injEq]
  constructor
  · rintro ⟨⟨place, input⟩, ⟨hmem, rfl⟩, rfl, rfl⟩
    exact ⟨List.mem_zipIdx_iff_getElem?.1 hmem, rfl⟩
  · rintro ⟨hk, rfl⟩
    exact ⟨(x.1, k), ⟨List.mem_zipIdx_iff_getElem?.2 hk, rfl⟩, rfl, rfl⟩

namespace Interleaves

variable {inputs : List Nat} {families : List Family} {course before after : List Incident}
  {x : Nat × Token} {k : Nat} {t : Token}

theorem comes_iff (h : Interleaves inputs families course) :
    .comes x.1 x.2 ∈ course ↔ ∃ f ∈ families, x ∈ f.siblings := by
  rw [← List.mem_flatMap, ← h.comes.mem_iff, List.mem_filterMap]
  constructor
  · exact fun hmem => ⟨_, hmem, rfl⟩
  · rintro ⟨_ | _ | _, hmem, heq⟩ <;> cases heq
    exact hmem

theorem told_iff (h : Interleaves inputs families course) :
    .told k t ∈ course ↔ ∃ f ∈ families, ∃ x ∈ f.siblings, inputs[k]? = some x.1 ∧ t = x.2 := by
  have hmem : .told k t ∈ course ↔ (k, t) ∈ course.filterMap Incident.telling? := by
    rw [List.mem_filterMap]
    constructor
    · exact fun hmem => ⟨_, hmem, rfl⟩
    · rintro ⟨_ | _ | _, hmem, heq⟩ <;> cases heq
      exact hmem
  rw [hmem, h.told.mem_iff, List.mem_flatMap]
  constructor
  · rintro ⟨x, hx, hk⟩
    obtain ⟨f, hf, hsibling⟩ := List.mem_flatMap.1 hx
    exact ⟨f, hf, x, hsibling, mem_announcements.1 hk⟩
  · rintro ⟨f, hf, x, hsibling, hk⟩
    exact ⟨x, List.mem_flatMap.2 ⟨f, hf, hsibling⟩, mem_announcements.2 hk⟩

/-- No sibling comes twice. -/
theorem comes_once (h : Interleaves inputs families (before ++ .comes x.1 x.2 :: after))
    (hfamilies : Families inputs families) : .comes x.1 x.2 ∉ before := by
  intro hmem
  have hnodup := h.comes.nodup_iff.2 (hfamilies.siblings.of_map _)
  rw [List.filterMap_append, List.nodup_append] at hnodup
  have hearly : x ∈ before.filterMap Incident.coming? := List.mem_filterMap.2 ⟨_, hmem, rfl⟩
  have hlate : x ∈ (Incident.comes x.1 x.2 :: after).filterMap Incident.coming? :=
    List.mem_filterMap.2 ⟨_, List.mem_cons_self, rfl⟩
  exact hnodup.2.2 x hearly x hlate rfl

/-- A sibling that is announced has come before. -/
theorem told_after (h : Interleaves inputs families (before ++ .told k t :: after))
    (hfamilies : Families inputs families) :
    ∃ f ∈ families, ∃ x ∈ f.siblings, inputs[k]? = some x.1 ∧ t = x.2 ∧
      .comes x.1 x.2 ∈ before := by
  obtain ⟨f, hf, x, hx, hk, rfl⟩ :=
    h.told_iff.1 (List.mem_append_right before List.mem_cons_self)
  obtain ⟨j, hj, place, hcomes⟩ :=
    h.afterwards before.length k x.2 (List.getElem?_append_right le_rfl |>.trans (by simp))
  rw [List.getElem?_append_left hj] at hcomes
  have hbefore : .comes place x.2 ∈ before := List.mem_of_getElem? hcomes
  obtain ⟨f', hf', hx'⟩ := (h.comes_iff (x := (place, x.2))).1 (List.mem_append_left _ hbefore)
  obtain ⟨-, heq⟩ := hfamilies.same_sibling hf' hf hx' hx rfl
  exact ⟨f, hf, x, hx, hk, rfl, by rwa [← heq]⟩

end Interleaves

namespace Confluence

variable {c c' : Confluence} {families emitted made : List Family} {f : Family}
  {course before after : List Incident} {m : Incident}

/-- A join with room for siblings: nothing lies behind its inputs, and it waits for nobody. -/
structure Ready (c : Confluence) : Prop where
  reads : c.inputs ≠ []
  empty : ∀ p ∈ c.inputs, ∃ hold, c.holdings[p]? = some hold ∧ hold.tokens = []
  output : c.output < c.holdings.length
  unread : c.output ∉ c.inputs
  idle : c.pending = []

theorem lying_eq_zero (h : ∀ p ∈ c.inputs, ∃ hold, c.holdings[p]? = some hold ∧ hold.tokens = []) :
    c.lying = 0 := by
  refine Multiset.eq_zero_of_forall_notMem fun x hx => ?_
  obtain ⟨hinput, hold, hat, hmem⟩ := mem_lying.1 hx
  obtain ⟨hold', hat', hempty⟩ := h x.1 hinput
  obtain rfl := Option.some.inj (hat'.symm.trans hat)
  rw [hempty] at hmem
  cases hmem

theorem Ready.sound (h : c.Ready) (families : List Family) : Sound families [] [] [] c where
  range := fun p hp => by
    obtain ⟨hold, hat, -⟩ := h.empty p hp
    exact (List.getElem?_eq_some_iff.1 hat).1
  output := h.output
  unread := h.unread
  known := List.forall_mem_nil _
  whole := List.forall_mem_nil _
  once := List.nodup_nil
  lies := fun x => by
    rw [lying_eq_zero h.empty]
    simp
  distinct := by
    rw [lying_eq_zero h.empty]
    exact Multiset.nodup_zero
  collects := by
    rw [h.idle]
    exact List.forall_mem_nil _
  parents := by
    rw [h.idle]
    exact List.nodup_nil
  sits := fun _ _ _ _ _ hheard => by cases hheard

theorem Turn.inputs (h : c.Turn m made c') : c'.inputs = c.inputs := by
  cases h <;> rfl

/-- What befalls a join settles what becomes of it. -/
theorem Turn.unique {made' : List Family} {c'' : Confluence} (h : c.Turn m made c')
    (h' : c.Turn m made' c'') : c' = c'' := by
  cases h with
  | comes => cases h'; rfl
  | elsewhere => cases h'; rfl
  | waits answer =>
    cases h' with
    | waits answer' => cases answer.symm.trans answer'; rfl
    | fires answer' reports => cases answer.symm.trans answer'; cases reports
  | fires answer reports =>
    cases h' with
    | waits answer' => cases answer.symm.trans answer'; cases reports
    | fires answer' => cases answer.symm.trans answer'; rfl

theorem Plays.unique {made' : List Family} {c'' : Confluence} (h : c.Plays course made c')
    (h' : c.Plays course made' c'') : c' = c'' := by
  induction h generalizing made' with
  | nil => cases h'; rfl
  | cons turn _ ih =>
    cases h' with
    | cons turn' later =>
      obtain rfl := turn.unique turn'
      exact ih later

def Reached (families : List Family) (before : List Incident) (emitted : List Family)
    (c : Confluence) : Prop :=
  ∃ arrived heard, Sound families arrived heard emitted c ∧
    (∀ x : Nat × Token, x ∈ arrived ↔ .comes x.1 x.2 ∈ before) ∧
    ∀ f ∈ families, ∀ x ∈ f.siblings, x ∈ heard ↔ ∃ k, .told k x.2 ∈ before

theorem Ready.reached (h : c.Ready) (families : List Family) : Reached families [] [] c :=
  ⟨[], [], h.sound families, fun _ => by simp, fun _ _ _ _ => by simp⟩

/-- A join answers to the next incident without a fault. -/
theorem Reached.turn (h : Reached families before emitted c) (hfamilies : Families c.inputs families)
    (interleaves : Interleaves c.inputs families (before ++ m :: after)) :
    ∃ made c', c.Turn m made c' ∧ Reached families (before ++ [m]) (emitted ++ made) c' := by
  obtain ⟨arrived, heard, sound, harrived, hheard⟩ := h
  cases m with
  | comes place t =>
    obtain ⟨f, hf, hx⟩ := (interleaves.comes_iff (x := (place, t))).1
      (List.mem_append_right before List.mem_cons_self)
    have hnew : (place, t) ∉ arrived := fun hmem =>
      interleaves.comes_once hfamilies ((harrived (place, t)).1 hmem)
    refine ⟨[], _, .comes place t, (place, t) :: arrived, heard, ?_, fun x => ?_, ?_⟩
    · rw [List.append_nil]
      exact sound.comes hfamilies hf hx hnew
    · rw [List.mem_cons, List.mem_append, List.mem_singleton, harrived x, or_comm,
        Incident.comes.injEq, Prod.ext_iff]
    · simpa using hheard
  | told k t =>
    obtain ⟨f, hf, x, hx, hk, rfl, hcame⟩ := interleaves.told_after hfamilies
    obtain ⟨made, c', turn, sound'⟩ := sound.told hfamilies hf hx ((harrived x).2 hcame) hk
    refine ⟨made, c', turn, arrived, x :: heard, sound', by simpa using harrived, ?_⟩
    intro f' hf' y hy
    rw [List.mem_cons, hheard f' hf' y hy]
    constructor
    · rintro (rfl | ⟨k', hbefore⟩)
      · exact ⟨k, by simp⟩
      · exact ⟨k', List.mem_append_left _ hbefore⟩
    · rintro ⟨k', htold⟩
      rcases List.mem_append.1 htold with hbefore | hthis
      · exact .inr ⟨k', hbefore⟩
      · obtain ⟨-, hsame⟩ := Incident.told.inj (List.mem_singleton.1 hthis)
        exact .inl (hfamilies.same_sibling hf' hf hy hx (congrArg Token.id hsame)).2
  | elsewhere place tokens =>
    have hunread := interleaves.elsewhere place tokens
      (List.mem_append_right before List.mem_cons_self)
    refine ⟨[], _, .elsewhere tokens hunread, arrived, heard, ?_, by simpa using harrived,
      by simpa using hheard⟩
    rw [List.append_nil]
    exact sound.elsewhere hunread tokens

/-- A join answers to everything that is still to come, and is sound all the while. -/
theorem Reached.plays (h : Reached families before emitted c) (hfamilies : Families c.inputs families)
    (interleaves : Interleaves c.inputs families (before ++ after)) :
    ∃ made last, c.Plays after made last ∧
      Reached families (before ++ after) (emitted ++ made) last ∧ last.inputs = c.inputs ∧
      ∀ first second, after = first ++ second → ∃ early mid late, c.Plays first early mid ∧
        mid.Plays second late last ∧ made = early ++ late ∧
        Reached families (before ++ first) (emitted ++ early) mid ∧ mid.inputs = c.inputs := by
  induction after generalizing before emitted c with
  | nil =>
    refine ⟨[], c, .nil c, by simpa using h, rfl, fun first second hsplit => ?_⟩
    obtain ⟨rfl, rfl⟩ := List.append_eq_nil_iff.1 hsplit.symm
    exact ⟨[], c, [], .nil c, .nil c, rfl, by simpa using h, rfl⟩
  | cons m after ih =>
    obtain ⟨made, c', turn, hreached⟩ := h.turn hfamilies interleaves
    have hinputs := turn.inputs
    rw [List.append_cons] at interleaves ⊢
    obtain ⟨more, last, plays, hlast, hsame, hparts⟩ :=
      ih hreached (hinputs ▸ hfamilies) (hinputs ▸ interleaves)
    refine ⟨made ++ more, last, .cons turn plays, by rwa [← List.append_assoc],
      hsame.trans hinputs, fun first second hsplit => ?_⟩
    cases first with
    | nil =>
      obtain rfl : m :: after = second := hsplit
      exact ⟨[], c, made ++ more, .nil c, .cons turn plays, rfl, by simpa using h, rfl⟩
    | cons m' first =>
      obtain ⟨rfl, rfl⟩ := List.cons_eq_cons.1 hsplit
      obtain ⟨early, mid, late, hfirst, hsecond, rfl, hmid, hmids⟩ := hparts first second rfl
      refine ⟨made ++ early, mid, late, .cons turn hfirst, hsecond, (List.append_assoc ..).symm,
        ?_, hmids.trans hinputs⟩
      rw [List.append_cons, ← List.append_assoc]
      exact hmid

/-- A family whose siblings have all been announced is whole. -/
theorem Reached.whole (h : Reached families before emitted c)
    (hfamilies : Families c.inputs families) (reads : c.inputs ≠ []) (hf : f ∈ families)
    (all : ∀ x ∈ f.siblings, ∃ k, .told k x.2 ∈ before) : f ∈ emitted := by
  obtain ⟨arrived, heard, sound, -, hheard⟩ := h
  exact sound.of_all_heard hfamilies reads hf fun x hx => (hheard f hf x hx).2 (all x hx)

theorem Reached.cleared (h : Reached families before emitted c) (all : families ⊆ emitted) :
    emitted.Nodup ∧ emitted ⊆ families ∧ c.pending = [] ∧
      ∀ p ∈ c.inputs, ∃ hold, c.holdings[p]? = some hold ∧ hold.tokens = [] := by
  obtain ⟨arrived, heard, sound, -, -⟩ := h
  obtain ⟨hpending, hnone⟩ := sound.cleared all
  refine ⟨sound.once, fun f hf => (sound.whole f hf).1, hpending, fun p hp => ?_⟩
  have hat := List.getElem?_eq_getElem (sound.range p hp)
  refine ⟨_, hat, List.eq_nil_iff_forall_not_mem.2 fun t ht => ?_⟩
  have hlies : (p, t) ∈ c.lying := mem_lying.2 ⟨hp, _, hat, ht⟩
  rw [hnone] at hlies
  exact Multiset.notMem_zero _ hlies

/-- However the arrivals and announcements of some families alternate, a join never answers
with a fault, takes the siblings of each family once and puts the original of the family into
its output, and is left without notes and with nothing behind its inputs. A family is whole
as soon as all its siblings have been announced. -/
theorem makes_families_whole (ready : c.Ready) (hfamilies : Families c.inputs families)
    (interleaves : Interleaves c.inputs families course) :
    ∃ emitted last, c.Plays course emitted last ∧ emitted.Perm families ∧ last.pending = [] ∧
      (∀ p ∈ c.inputs, ∃ hold, last.holdings[p]? = some hold ∧ hold.tokens = []) ∧
      ∀ before after, course = before ++ after → ∃ early mid late, c.Plays before early mid ∧
        mid.Plays after late last ∧ emitted = early ++ late ∧
        ∀ f ∈ families, (∀ x ∈ f.siblings, ∀ k, .told k x.2 ∉ after) → f ∈ early := by
  have hcourse : Interleaves c.inputs families ([] ++ course) := interleaves
  obtain ⟨emitted, last, plays, hreached, hinputs, hparts⟩ :=
    (ready.reached families).plays hfamilies hcourse
  -- Every sibling is announced on an input, since an input reads the place it comes to.
  have hall : ∀ f ∈ families, ∀ x ∈ f.siblings, ∃ k, .told k x.2 ∈ course := by
    intro f hf x hx
    have hplace : x.1 ∈ c.inputs := (hfamilies.perm hf).mem_iff.1 (List.mem_map_of_mem hx)
    obtain ⟨k, hk⟩ := List.mem_iff_getElem?.1 hplace
    exact ⟨k, interleaves.told_iff.2 ⟨f, hf, x, hx, hk, rfl⟩⟩
  have hwhole : families ⊆ emitted := fun f hf =>
    hreached.whole (hinputs ▸ hfamilies) (hinputs ▸ ready.reads) hf (hall f hf)
  obtain ⟨hnodup, hsub, hpending, hempty⟩ := hreached.cleared hwhole
  refine ⟨emitted, last, plays, ?_, hpending, hinputs ▸ hempty, fun before after hsplit => ?_⟩
  · exact (List.perm_ext_iff_of_nodup hnodup hfamilies.families_nodup).2
      fun f => ⟨fun hf => hsub hf, fun hf => hwhole hf⟩
  · obtain ⟨early, mid, late, hbefore, hafter, hemitted, hmid, hmids⟩ :=
      hparts before after hsplit
    refine ⟨early, mid, late, hbefore, hafter, hemitted, fun f hf hnone => ?_⟩
    refine hmid.whole (hmids ▸ hfamilies) (hmids ▸ ready.reads) hf fun x hx => ?_
    obtain ⟨k, htold⟩ := hall f hf x hx
    rw [hsplit] at htold
    exact ⟨k, (List.mem_append.1 htold).resolve_right (hnone x hx k)⟩

/-- A join with three inputs, two of which read the first place. -/
def meeting : Confluence where
  step := "meet"
  inputs := [0, 0, 1]
  output := 2
  holdings := [.new ⟨"pairs", .normal, none⟩, .new ⟨"single", .normal, none⟩,
    .new ⟨"met", .normal, none⟩]
  pending := []

def host (n : Nat) : Token := ⟨⟨BitVec.ofNat 128 n⟩, none, none⟩

def guest (n : Nat) : Token := ⟨⟨BitVec.ofNat 128 (n + 2)⟩, none, some (host (n / 3))⟩

def parties : List Family :=
  [⟨host 0, [(0, guest 0), (0, guest 1), (1, guest 2)]⟩,
    ⟨host 1, [(0, guest 3), (0, guest 4), (1, guest 5)]⟩]

/-- The guests come and are announced in disorder. The second guest finds the seat of the
input taken by the first, and another is seated long before the party leaves. -/
def rush : List Incident :=
  [.comes 0 (guest 0), .comes 0 (guest 3), .told 1 (guest 3), .told 1 (guest 0),
    .comes 1 (guest 2), .told 0 (guest 3), .comes 0 (guest 1), .told 1 (guest 1),
    .told 2 (guest 2), .told 0 (guest 0), .told 0 (guest 1), .comes 1 (guest 5),
    .elsewhere 2 [], .told 2 (guest 5), .comes 0 (guest 4), .told 0 (guest 4),
    .told 1 (guest 4)]

theorem meeting_made_whole : ∃ emitted last, meeting.Plays rush emitted last ∧
    emitted.Perm parties ∧ last.pending = [] := by
  have hready : meeting.Ready := by
    refine ⟨by decide, ?_, by decide, by decide, rfl⟩
    intro p hp
    simp only [meeting, List.mem_cons, List.not_mem_nil, or_false] at hp
    rcases hp with rfl | rfl | rfl <;> exact ⟨_, rfl, rfl⟩
  have hfamilies : Families meeting.inputs parties := by
    refine ⟨by decide, by decide, ?_, ?_⟩
    · intro f hf x hx
      simp only [parties, List.mem_cons, List.not_mem_nil, or_false] at hf
      rcases hf with rfl | rfl <;>
        (simp only [List.mem_cons, List.not_mem_nil, or_false] at hx
         rcases hx with rfl | rfl | rfl <;> rfl)
    · intro f hf place
      simp only [parties, List.mem_cons, List.not_mem_nil, or_false] at hf
      rcases hf with rfl | rfl <;> rfl
  have hinterleaves : Interleaves meeting.inputs parties rush := by
    refine ⟨?_, ?_, ?_, ?_⟩
    · have hperm : [(0, 0), (0, 3), (1, 2), (0, 1), (1, 5), (0, 4)].Perm
          [(0, 0), (0, 1), (1, 2), (0, 3), (0, 4), (1, 5)] := by decide
      exact hperm.map fun x => (x.1, guest x.2)
    · have hperm : [(1, 3), (1, 0), (0, 3), (1, 1), (2, 2), (0, 0), (0, 1), (2, 5), (0, 4),
          (1, 4)].Perm [(0, 0), (1, 0), (0, 1), (1, 1), (2, 2), (0, 3), (1, 3), (0, 4), (1, 4),
          (2, 5)] := by decide
      exact hperm.map fun x => (x.1, guest x.2)
    · intro i input t htold
      have hi : i < 17 := (List.getElem?_eq_some_iff.1 htold).1
      interval_cases i <;> cases htold
      · exact ⟨1, by decide, 0, rfl⟩
      · exact ⟨0, by decide, 0, rfl⟩
      · exact ⟨1, by decide, 0, rfl⟩
      · exact ⟨6, by decide, 0, rfl⟩
      · exact ⟨4, by decide, 1, rfl⟩
      · exact ⟨0, by decide, 0, rfl⟩
      · exact ⟨6, by decide, 0, rfl⟩
      · exact ⟨11, by decide, 1, rfl⟩
      · exact ⟨14, by decide, 0, rfl⟩
      · exact ⟨14, by decide, 0, rfl⟩
    · intro place tokens hmem
      simp [rush] at hmem
      rw [hmem.1]
      decide
  obtain ⟨emitted, last, plays, hperm, hpending, -⟩ :=
    makes_families_whole hready hfamilies hinterleaves
  exact ⟨emitted, last, plays, hperm, hpending⟩

end Confluence
end RecipeNet
