import Mathlib.Data.String.Basic
import RecipeNet.Proofs.Naming
import RecipeNet.Proofs.Rest
import RecipeNet.Timeline

/-!
What timelines count. The firings of a net are counted by the texts of the addresses that it
reports. If all ids of its plan are plain, each address has a text of its own, and each step is
counted for itself.
-/

namespace RecipeNet

def Event.firing? : Event → Option Address
  | .fired step => some step
  | _ => none

theorem Event.firing?_eq_some {event : Event} {a : Address} : event.firing? = some a ↔ event = .fired a := by
  cases event <;> simp [firing?]

namespace Timeline

def Ordered (counts : List (String × Nat)) : Prop :=
  counts.Pairwise fun x y => x.1 < y.1

variable {counts : List (String × Nat)} {name k : String}

theorem lookup_eq_none_of_before (before : ∀ x ∈ counts, k < x.1) : counts.lookup k = none := by
  refine List.lookup_eq_none_iff.2 fun x hx => ?_
  simpa using (before x hx).ne

theorem mem_countOne {x : String × Nat} (h : x ∈ countOne name counts) :
    x.1 = name ∨ ∃ y ∈ counts, y.1 = x.1 := by
  induction counts with
  | nil => exact .inl (congrArg Prod.fst (List.mem_singleton.1 h))
  | cons y rest ih =>
    rw [countOne] at h
    split at h
    · rcases List.mem_cons.1 h with rfl | hold
      · exact .inl rfl
      · exact .inr ⟨x, hold, rfl⟩
    · split at h
      · rename_i hsame
        rcases List.mem_cons.1 h with rfl | hold
        · exact .inl hsame.symm
        · exact .inr ⟨x, List.mem_cons_of_mem _ hold, rfl⟩
      · rcases List.mem_cons.1 h with rfl | hold
        · exact .inr ⟨_, List.mem_cons_self, rfl⟩
        · rcases ih hold with hname | ⟨z, hz, hzx⟩
          · exact .inl hname
          · exact .inr ⟨z, List.mem_cons_of_mem _ hz, hzx⟩

theorem Ordered.countOne (h : Ordered counts) (name : String) : Ordered (countOne name counts) := by
  induction counts with
  | nil => exact List.pairwise_singleton _ _
  | cons y rest ih =>
    obtain ⟨hfirst, hrest⟩ := List.pairwise_cons.1 h
    rw [Timeline.countOne]
    split
    · rename_i hbefore
      refine List.pairwise_cons.2 ⟨fun x hx => ?_, h⟩
      rcases List.mem_cons.1 hx with rfl | hlater
      · exact hbefore
      · exact lt_trans hbefore (hfirst x hlater)
    · rename_i hnot
      split
      · exact List.pairwise_cons.2 ⟨hfirst, hrest⟩
      · rename_i hother
        have hafter : y.1 < name := lt_of_le_of_ne (not_lt.1 hnot) (Ne.symm hother)
        refine List.pairwise_cons.2 ⟨fun x hx => ?_, ih hrest⟩
        rcases mem_countOne hx with hname | ⟨z, hz, hzx⟩
        · rw [hname]
          exact hafter
        · rw [← hzx]
          exact hfirst z hz

/-- Counting one more for a name counts it for no other name. -/
theorem Ordered.lookup_countOne (h : Ordered counts) (name k : String) :
    (Timeline.countOne name counts).lookup k =
      if name = k then some ((counts.lookup k).getD 0 + 1) else counts.lookup k := by
  induction counts with
  | nil =>
    by_cases hk : name = k
    · simp [Timeline.countOne, hk]
    · simp [Timeline.countOne, hk, Ne.symm hk]
  | cons y rest ih =>
    obtain ⟨first, n⟩ := y
    obtain ⟨hfirst, hrest⟩ := List.pairwise_cons.1 h
    rw [Timeline.countOne]
    split
    · rename_i hbefore
      by_cases hk : name = k
      · subst hk
        have hnone : List.lookup name ((first, n) :: rest) = none :=
          lookup_eq_none_of_before fun x hx => (List.mem_cons.1 hx).elim (fun hx => hx ▸ hbefore)
            fun hlater => lt_trans hbefore (hfirst x hlater)
        rw [if_pos rfl, hnone, List.lookup_cons_self]
        rfl
      · rw [if_neg hk, List.lookup_cons, beq_false_of_ne (Ne.symm hk)]
    · split
      · rename_i hsame
        subst hsame
        by_cases hk : name = k
        · rw [if_pos hk, hk, List.lookup_cons_self, List.lookup_cons_self]
          rfl
        · rw [if_neg hk, List.lookup_cons, List.lookup_cons, beq_false_of_ne (Ne.symm hk)]
      · rename_i hother
        rw [List.lookup_cons, List.lookup_cons, ih hrest]
        by_cases hk : k = first
        · have hname : ¬ name = k := fun hname => hother (hname.trans hk)
          rw [if_neg hname, if_neg hname]
        · rw [beq_false_of_ne hk]

/-- Counting names counts each as often as it occurs. -/
theorem Ordered.lookup_foldl (names : List String) (h : Ordered counts) (k : String) :
    (names.foldl (fun counts name => Timeline.countOne name counts) counts).lookup k =
      if k ∈ names then some ((counts.lookup k).getD 0 + names.count k) else counts.lookup k := by
  induction names generalizing counts with
  | nil => rfl
  | cons name rest ih =>
    rw [List.foldl_cons, ih (h.countOne name), h.lookup_countOne name k]
    by_cases hk : name = k
    · subst hk
      by_cases hrest : name ∈ rest
      · simp [hrest]
        omega
      · simp [hrest, List.count_eq_zero_of_not_mem hrest]
    · by_cases hrest : k ∈ rest
      · simp [hk, hrest]
      · simp [hk, hrest, Ne.symm hk]

/-- The timeline of reports that arrive one by one, each at its time. -/
def ofLog (log : List (Option Nat × Event)) : Timeline :=
  log.foldl (fun t x => t.record x.1 x.2) {}

theorem entries_ofLog (log : List (Option Nat × Event)) :
    (ofLog log).entries = log.map fun x => .ofEvent x.1 x.2 := by
  have hfrom : ∀ t : Timeline, (log.foldl (fun t x => t.record x.1 x.2) t).entries =
      t.entries ++ log.map fun x => .ofEvent x.1 x.2 := by
    induction log with
    | nil => exact fun t => (List.append_nil _).symm
    | cons x rest ih =>
      intro t
      rw [List.foldl_cons, ih, List.map_cons, record, List.append_assoc]
      rfl
  exact hfrom {}

/-- The firings of a timeline are those that have been reported. -/
theorem firings_ofLog (log : List (Option Nat × Event)) :
    (ofLog log).firings.map (·.subject) = (log.filterMap (·.2.firing?)).map (·.text) := by
  rw [firings, entries_ofLog]
  induction log with
  | nil => rfl
  | cons x rest ih =>
    obtain ⟨time, event⟩ := x
    cases event <;> simpa [TraceEntry.ofEvent, Event.firing?] using ih

/-- A text is counted as often as an address with that text has fired. -/
theorem lookup_counts_ofLog (log : List (Option Nat × Event)) (name : String) :
    (ofLog log).counts.lookup name =
      if name ∈ (log.filterMap (·.2.firing?)).map (·.text) then
        some (((log.filterMap (·.2.firing?)).map (·.text)).count name) else none := by
  have hcounts : (ofLog log).counts = ((ofLog log).firings.map (·.subject)).foldl
      (fun counts name => Timeline.countOne name counts) [] := by
    rw [counts, List.foldl_map]
  rw [hcounts, firings_ofLog, Ordered.lookup_foldl _ List.Pairwise.nil]
  simp

end Timeline

namespace Plan

variable {plan : Plan}

/-- Every address of a plan has a text of its own, from which it is read back. -/
def Unambiguous (plan : Plan) : Prop :=
  (∀ a b : Address, plan.Locates a.path → plan.Locates b.path → a.text = b.text → a = b) ∧
    ∀ a : Address, plan.Locates a.path → Address.parse? a.text = some a

/-- What a timeline counts under a text is how often the one step has fired that has this text. -/
def Counts (plan : Plan) (log : List (Option Nat × Event)) : Prop :=
  ∀ name n, (Timeline.ofLog log).counts.lookup name = some n ↔
    0 < n ∧ ∃ a : Address, plan.Locates a.path ∧ a.text = name ∧
      (log.filterMap (·.2.firing?)).count a = n

theorem unambiguous_iff : plan.Unambiguous ↔ ∀ id ∈ plan.stepIds, Address.Plain id := by
  refine ⟨fun h => plan.addresses_read_back.1 h.2, fun h => ?_⟩
  have hback := plan.addresses_read_back.2 h
  refine ⟨fun a b ha hb htext => Option.some.inj ?_, hback⟩
  rw [← hback a ha, ← hback b hb, htext]

theorem Unambiguous.counts {log : List (Option Nat × Event)} (h : plan.Unambiguous)
    (located : ∀ a, .fired a ∈ log.map (·.2) → plan.Locates a.path) : plan.Counts log := by
  intro name n
  have hfired : ∀ {a}, a ∈ log.filterMap (·.2.firing?) → plan.Locates a.path := by
    intro a ha
    obtain ⟨x, hx, hfiring⟩ := List.mem_filterMap.1 ha
    exact located a (List.mem_map.2 ⟨x, hx, Event.firing?_eq_some.1 hfiring⟩)
  have hcount : ∀ a : Address, plan.Locates a.path →
      ((log.filterMap (·.2.firing?)).map (·.text)).count a.text = (log.filterMap (·.2.firing?)).count a := by
    intro a ha
    rw [List.count, List.count, List.countP_map]
    refine List.countP_congr fun b hb => ?_
    simp only [Function.comp_apply, beq_iff_eq]
    exact ⟨h.1 b a (hfired hb) ha, congrArg Address.text⟩
  rw [Timeline.lookup_counts_ofLog]
  split
  · rename_i hmem
    obtain ⟨a, ha, rfl⟩ := List.mem_map.1 hmem
    have hlocated := hfired ha
    rw [Option.some.injEq, hcount a hlocated]
    constructor
    · rintro rfl
      exact ⟨List.count_pos_iff.2 ha, a, hlocated, rfl, rfl⟩
    · rintro ⟨-, b, hb, htext, hn⟩
      rwa [h.1 b a hb hlocated htext] at hn
  · rename_i hnone
    refine ⟨nofun, ?_⟩
    rintro ⟨hpos, b, hb, rfl, rfl⟩
    exact absurd (List.mem_map_of_mem (List.count_pos_iff.1 hpos)) hnone

/-- The addresses of a plan are told apart by their texts, and read back from them, exactly if the
ids of its steps are plain at every depth. Then a timeline of a net of the plan counts each step
for itself. -/
theorem unambiguous_iff_plain (plan : Plan) :
    (plan.Unambiguous ↔ ∀ id ∈ plan.stepIds, Address.Plain id) ∧
    ((∀ id ∈ plan.stepIds, Address.Plain id) →
      ∀ {fitter : Fitter} {log : List (Option Nat × Event)} {e : Engine}, fitter.Regular →
        Engine.Watched fitter plan (log.map (·.2)) e → plan.Counts log) := by
  refine ⟨unambiguous_iff, fun hplain fitter log e hf hwatched => ?_⟩
  exact (unambiguous_iff.2 hplain).counts fun a ha => hwatched.locates hf ha

open Engine

/-- A dinner and the cooking for it are counted each for itself. -/
theorem dinner_counts : ∃ (e : Engine) (run : Run), build .standard dinner = .ok e ∧
    e.answer 20 serial (.start job) = some run ∧ dinner.Unambiguous ∧
    dinner.Counts (run.events.map fun event => (none, event)) ∧
    (Timeline.ofLog (run.events.map fun event => (none, event))).counts =
      [("order", 1), ("order/cook", 1)] := by
  have hcounted : ((build .standard dinner).toOption.bind fun e =>
      (e.answer 20 serial (.start job)).map fun run =>
        (Timeline.ofLog (run.events.map fun event => (none, event))).counts) =
      some [("order", 1), ("order/cook", 1)] := by
    decide +kernel
  obtain ⟨e, hbuild⟩ : ∃ e, build .standard dinner = .ok e := ⟨_, rfl⟩
  rw [hbuild] at hcounted
  obtain ⟨run, hanswer, hcounted⟩ := Option.map_eq_some_iff.1 hcounted
  have hplain : ∀ id ∈ dinner.stepIds, Address.Plain id := by decide +kernel
  have hperforms : e.perform 20 serial (.call (.start job)) = some run.outcome :=
    congrArg (Option.map Run.outcome) hanswer
  have hwatched : Watched .standard dinner
      ((run.events.map fun event => ((none : Option Nat), event)).map (·.2)) run.engine := by
    rw [List.map_map]
    exact (List.map_id run.events).symm ▸ .performed (.built hbuild) hperforms
  obtain ⟨hiff, hcounts⟩ := unambiguous_iff_plain dinner
  exact ⟨e, run, hbuild, hanswer, hiff.2 hplain,
    hcounts hplain Fitter.standard_regular hwatched, hcounted⟩

def hall : Plan where
  id := "hall"
  version := 1
  places := [{ id := "a", role := .start }, { id := "b", role := .terminal }]
  steps := [⟨"press", none, ["a"], ["b"], .pass 0⟩]

/-- A workshop with a step whose id reads like the address of the press in its hall. -/
def workshop : Plan where
  id := "workshop"
  version := 1
  places := [{ id := "in", role := .start }, { id := "mid" }, { id := "out", role := .terminal }]
  steps := [⟨"hall/press", none, ["in"], ["mid"], .pass 0⟩,
    ⟨"hall", none, ["mid"], ["out"], .nested hall .empty⟩]

/-- Nothing is wrong with the workshop, and two of its steps have one text, under which two firings
are counted though each of the steps has fired once. -/
theorem workshop_merges : workshop.validate = .ok () ∧
    (∃ a b : Address, workshop.Locates a.path ∧ workshop.Locates b.path ∧ a ≠ b ∧
      a.text = b.text ∧ Address.parse? a.text ≠ some a) ∧
    ∃ (e : Engine) (run : Run), build .standard workshop = .ok e ∧
      e.answer 20 serial (.start job) = some run ∧
      ¬ workshop.Counts (run.events.map fun event => (none, event)) := by
  have hfacts : ((build .standard workshop).toOption.bind fun e =>
      (e.answer 20 serial (.start job)).map fun run =>
        ((Timeline.ofLog (run.events.map fun event => (none, event))).counts.lookup "hall/press",
          run.events.filterMap Event.firing?)) =
      some (some 2, [⟨["hall/press"]⟩, ⟨["hall"]⟩, ⟨["hall", "press"]⟩]) := by
    decide +kernel
  have hown : workshop.Locates ["hall/press"] :=
    @Locates.step workshop ⟨"hall/press", none, ["in"], ["mid"], .pass 0⟩ List.mem_cons_self
  have hpress : hall.Locates ["press"] :=
    @Locates.step hall ⟨"press", none, ["a"], ["b"], .pass 0⟩ List.mem_cons_self
  have hinner : workshop.Locates ["hall", "press"] :=
    @Locates.nested workshop hall ⟨"hall", none, ["mid"], ["out"], .nested hall .empty⟩ .empty
      ["press"] (List.mem_cons_of_mem _ List.mem_cons_self) rfl hpress
  refine ⟨rfl, ⟨⟨["hall/press"]⟩, ⟨["hall", "press"]⟩, hown, hinner, by decide, rfl, by decide⟩, ?_⟩
  obtain ⟨e, hbuild⟩ : ∃ e, build .standard workshop = .ok e := ⟨_, rfl⟩
  rw [hbuild] at hfacts
  obtain ⟨run, hanswer, hfacts⟩ := Option.map_eq_some_iff.1 hfacts
  obtain ⟨hlookup, hfired⟩ := Prod.mk.inj hfacts
  refine ⟨e, run, hbuild, hanswer, fun hcounts => ?_⟩
  obtain ⟨-, a, -, -, htwice⟩ := (hcounts "hall/press" 2).1 hlookup
  rw [List.filterMap_map] at htwice
  have honce : (run.events.filterMap Event.firing?).count a ≤ 1 := by
    rw [hfired]
    exact List.nodup_iff_count_le_one.1 (by decide) a
  exact absurd (htwice ▸ honce) (by decide)

end Plan
end RecipeNet
