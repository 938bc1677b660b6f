import RecipeNet.Proofs.Net.Marking

/-!
Chronicles of nets. A chronicle lists what has happened to the tokens of a net,
the latest first, without the places in which it happened: a token came in, a
step handed one on, a split made siblings of one, a join made siblings whole
again. What a net has duplicated, and what its joins have mixed up, is decided
by its chronicle.
-/

namespace RecipeNet

/-- One entry of a chronicle, with all other tokens that were held. -/
inductive Deed where
  | enter (t : Token)
  | carry (step : String) (t : Token) (rest : Multiset Token)
  | split (step : String) (t : Token) (made : List Token) (rest : Multiset Token)
  | join (step : String) (t : Token) (taken : List Token) (rest : Multiset Token)

namespace Deed

def step? : Deed → Option String
  | .enter _ => none
  | .carry step _ _ | .split step _ _ _ | .join step _ _ _ => some step

def before : Deed → Multiset Token
  | .enter _ => 0
  | .carry _ t rest => t ::ₘ rest
  | .split _ t _ rest => t ::ₘ rest
  | .join _ _ taken rest => taken + rest

def after : Deed → Multiset Token
  | .enter t => {t}
  | .carry _ t rest => t ::ₘ rest
  | .split _ _ made rest => made + rest
  | .join _ t _ rest => t ::ₘ rest

/-- A join that makes a token whole which is still held. -/
def Early : Deed → Prop
  | .join _ t _ rest => t.id ∈ rest.map (·.id)
  | _ => False

/-- A split of a token while something that comes from it is still held. -/
def Hasty (o : Token) : Deed → Prop
  | .split _ t _ rest => t = o ∧ ∃ u ∈ rest, o ∈ u.ancestry
  | _ => False

/-- What the steps of a net may do. A split makes new tokens, one for each
output; a join takes siblings, one for each input. -/
inductive Allowed (slots : List Slot) : Deed → Prop
  | enter (t : Token) : Allowed slots (.enter t)
  | carry {slot : Slot} (stands : slot ∈ slots) (plain : slot.transition.outline ≠ .split ∧
      ∀ inputs, slot.transition.outline ≠ .join inputs []) (t : Token) (rest : Multiset Token) :
    Allowed slots (.carry slot.step t rest)
  | split {slot : Slot} {t : Token} {made : List Token} {rest : Multiset Token}
      (stands : slot ∈ slots) (kind : slot.transition.outline = .split)
      (each : made.length = slot.outputs.length) (siblings : ∀ u ∈ made, u.parent = some t)
      (distinct : (made.map (·.id)).Nodup)
      (fresh : ∀ u ∈ made, ∀ v ∈ t ::ₘ rest, ∀ w ∈ v :: v.ancestry, w.id ≠ u.id) :
    Allowed slots (.split slot.step t made rest)
  | join {slot : Slot} {t : Token} {taken : List Token} {rest : Multiset Token}
      (stands : slot ∈ slots) (kind : ∃ inputs, slot.transition.outline = .join inputs [])
      (each : taken.length = slot.inputs.length) (takes : taken ≠ [])
      (siblings : ∀ u ∈ taken, u.parent = some t) (distinct : (taken.map (·.id)).Nodup) :
    Allowed slots (.join slot.step t taken rest)

end Deed

/-- The deeds of a net, the latest first, and the tokens that it holds by them. -/
inductive Chronicle (slots : List Slot) : List Deed → Multiset Token → Prop
  | nil : Chronicle slots [] 0
  | cons {past : List Deed} {deed : Deed} (earlier : Chronicle slots past deed.before)
      (allowed : deed.Allowed slots) : Chronicle slots (deed :: past) deed.after

/-- Only one of the tokens that a token comes from was split from another. -/
theorem Token.unique_sibling {o : Token} : (t : Token) → ∀ u ∈ t :: t.ancestry,
    ∀ v ∈ t :: t.ancestry, u.parent = some o → v.parent = some o → u = v
  | ⟨id, payload, some parent⟩, u, hu, v, hv, huo, hvo => by
    have hlater : ∀ w ∈ parent :: parent.ancestry, w.parent = some o → sizeOf o < sizeOf parent := by
      intro w hw hwo
      have hlt := Token.sizeOf_parent hwo
      rcases List.mem_cons.1 hw with rfl | hrest
      · exact hlt
      · exact hlt.trans (Token.sizeOf_ancestry parent w hrest)
    rw [Token.ancestry] at hu hv
    rcases List.mem_cons.1 hu with rfl | hu
    · cases huo
      rcases List.mem_cons.1 hv with rfl | hv
      · rfl
      · exact absurd (hlater v hv hvo) (lt_irrefl _)
    · rcases List.mem_cons.1 hv with rfl | hv
      · cases hvo
        exact absurd (hlater u hu huo) (lt_irrefl _)
      · exact Token.unique_sibling parent u hu v hv huo hvo
  | ⟨id, payload, none⟩, u, hu, v, hv, huo, hvo => by
    rw [Token.ancestry] at hu hv
    rw [List.mem_singleton.1 hu, List.mem_singleton.1 hv]

/-- The identities of the tokens that are held, and of those that they come from,
have been seen. -/
def Position.Known (a : Position) : Prop :=
  ∀ t ∈ a.marking.map (·.2), ∀ w ∈ t :: t.ancestry, w.id ∈ a.seen

namespace Chronicle

open Marking (ofPlaces)

variable {slots : List Slot} {past : List Deed} {held : Multiset Token}

/-- Each deed has a chronicle of its own, and there it was allowed. -/
theorem split_at (h : Chronicle slots past held) {later earlier : List Deed} {deed : Deed}
    (hpast : past = later ++ deed :: earlier) :
    Chronicle slots earlier deed.before ∧ deed.Allowed slots := by
  induction h generalizing later with
  | nil => simp at hpast
  | cons before allowed ih =>
    cases later with
    | nil =>
      obtain ⟨rfl, rfl⟩ := List.cons.inj hpast
      exact ⟨before, allowed⟩
    | cons first later =>
      obtain ⟨-, hrest⟩ := List.cons.inj hpast
      exact ih hrest

theorem tokens_ofPlaces (xs : List (Nat × Token)) (rest : Marking) :
    (ofPlaces xs + rest).map (·.2) =
      ((xs.map (·.2) : List Token) : Multiset Token) + rest.map (·.2) := by
  rw [Multiset.map_add, ofPlaces, Multiset.map_map]
  rfl

/-- A firing that brings a token elsewhere is one deed. -/
theorem carried {slot : Slot} (stands : slot ∈ slots)
    (plain : slot.transition.outline ≠ .split ∧ ∀ inputs, slot.transition.outline ≠ .join inputs [])
    {x y : Spot} {t : Token} {rest : Marking} {seen : Set TokenId}
    (hknown : Position.Known ⟨(x, t) ::ₘ rest, seen⟩)
    (h : Chronicle slots past (((x, t) ::ₘ rest).map (·.2))) :
    Position.Known ⟨(y, t) ::ₘ rest, seen⟩ ∧
      ∃ deeds, Chronicle slots (deeds ++ past) (((y, t) ::ₘ rest).map (·.2)) ∧
        deeds.reverse.filterMap Deed.step? = [slot.step] := by
  unfold Position.Known at hknown ⊢
  rw [Multiset.map_cons] at h hknown ⊢
  have hafter : Chronicle slots (.carry slot.step t (rest.map (·.2)) :: past)
      (t ::ₘ rest.map (·.2)) := .cons h (.carry stands plain t _)
  exact ⟨hknown, [_], hafter, rfl⟩

/-- A firing that splits a token is one deed. -/
theorem divided {slot : Slot} (stands : slot ∈ slots) (kind : slot.transition.outline = .split)
    {x : Spot} {t : Token} {made : List (Nat × Token)} {rest : Marking} {seen : Set TokenId}
    (targets : made.map (·.1) = slot.outputs) (siblings : ∀ x ∈ made, x.2.parent = some t)
    (distinct : (made.map (·.2.id)).Nodup) (fresh : ∀ x ∈ made, x.2.id ∉ seen)
    (hknown : Position.Known ⟨(x, t) ::ₘ rest, seen⟩)
    (h : Chronicle slots past (((x, t) ::ₘ rest).map (·.2))) :
    Position.Known ⟨ofPlaces made + rest, seen ∪ {id | ∃ x ∈ made, x.2.id = id}⟩ ∧
      ∃ deeds, Chronicle slots (deeds ++ past) ((ofPlaces made + rest).map (·.2)) ∧
        deeds.reverse.filterMap Deed.step? = [slot.step] := by
  unfold Position.Known at hknown ⊢
  have hmade : ∀ u ∈ made.map (·.2), ∃ x ∈ made, x.2 = u := fun u hu => List.mem_map.1 hu
  have hafter : (ofPlaces made + rest).map (·.2) =
      ((made.map (·.2) : List Token) : Multiset Token) + rest.map (·.2) := tokens_ofPlaces made rest
  rw [Multiset.map_cons] at h hknown
  rw [hafter]
  refine ⟨fun u hu w hw => ?_, [.split slot.step t (made.map (·.2)) (rest.map (·.2))], ?_, rfl⟩
  · rcases Multiset.mem_add.1 hu with hnew | hold
    · obtain ⟨x, hx, rfl⟩ := hmade u hnew
      rw [Token.ancestry_eq (siblings x hx)] at hw
      rcases List.mem_cons.1 hw with rfl | hup
      · exact .inr ⟨x, hx, rfl⟩
      · exact .inl (hknown t (Multiset.mem_cons_self _ _) w hup)
    · exact .inl (hknown u (Multiset.mem_cons_of_mem hold) w hw)
  · refine @cons _ _ (.split slot.step t (made.map (·.2)) (rest.map (·.2))) h
      (.split stands kind ?_ (fun u hu => ?_) ?_ fun u hu v hv w hw => ?_)
    · rw [List.length_map, ← targets, List.length_map]
    · obtain ⟨x, hx, rfl⟩ := hmade u hu
      exact siblings x hx
    · rw [List.map_map]
      exact distinct
    · obtain ⟨x, hx, rfl⟩ := hmade u hu
      exact fun hid => fresh x hx (hid ▸ hknown v hv w hw)

/-- A firing that makes siblings whole is one deed. -/
theorem united {slot : Slot} (stands : slot ∈ slots) (some_input : slot.inputs ≠ [])
    (kind : ∃ inputs, slot.transition.outline = .join inputs [])
    {x : Spot} {t : Token} {taken : List (Nat × Token)} {rest : Marking} {seen : Set TokenId}
    (each : taken.map (·.1) = slot.inputs) (siblings : ∀ x ∈ taken, x.2.parent = some t)
    (distinct : (taken.map (·.2.id)).Nodup)
    (hknown : Position.Known ⟨ofPlaces taken + rest, seen⟩)
    (h : Chronicle slots past ((ofPlaces taken + rest).map (·.2))) :
    Position.Known ⟨(x, t) ::ₘ rest, seen⟩ ∧
      ∃ deeds, Chronicle slots (deeds ++ past) (((x, t) ::ₘ rest).map (·.2)) ∧
        deeds.reverse.filterMap Deed.step? = [slot.step] := by
  unfold Position.Known at hknown ⊢
  have hbefore : (ofPlaces taken + rest).map (·.2) =
      ((taken.map (·.2) : List Token) : Multiset Token) + rest.map (·.2) := tokens_ofPlaces taken rest
  have hsome : taken ≠ [] := by
    rintro rfl
    exact some_input each.symm
  rw [hbefore] at h hknown
  rw [Multiset.map_cons]
  refine ⟨fun u hu w hw => ?_, [.join slot.step t (taken.map (·.2)) (rest.map (·.2))], ?_, rfl⟩
  · rcases Multiset.mem_cons.1 hu with rfl | hold
    · -- The original is known through any of the siblings.
      obtain ⟨x, hx⟩ := List.exists_mem_of_ne_nil taken hsome
      refine hknown x.2 (Multiset.mem_add.2 (.inl (List.mem_map_of_mem hx))) w ?_
      rw [Token.ancestry_eq (siblings x hx)]
      exact List.mem_cons_of_mem _ hw
    · exact hknown u (Multiset.mem_add.2 (.inr hold)) w hw
  · refine @cons _ _ (.join slot.step t (taken.map (·.2)) (rest.map (·.2))) h
      (.join stands kind ?_ (fun hnil => hsome (List.map_eq_nil_iff.1 hnil)) (fun u hu => ?_) ?_)
    · rw [List.length_map, ← each, List.length_map]
    · obtain ⟨x, hx, rfl⟩ := List.mem_map.1 hu
      exact siblings x hx
    · rw [List.map_map]
      exact distinct

/-- Each move adds one deed to the chronicle, or none. -/
theorem move {a b : Position} {label : Option String} (hmove : Move slots label a b)
    (inputs : ∀ slot ∈ slots, ∀ n, slot.transition.outline = .join n [] → slot.inputs ≠ [])
    (hknown : a.Known) (h : Chronicle slots past (a.marking.map (·.2))) :
    b.Known ∧ ∃ deeds, Chronicle slots (deeds ++ past) (b.marking.map (·.2)) ∧
      deeds.reverse.filterMap Deed.step? = label.toList := by
  cases hmove with
  | pass stands kind =>
    exact carried (List.mem_of_getElem? stands) (by rw [kind]; exact ⟨nofun, fun _ => nofun⟩)
      hknown h
  | routed stands kind =>
    obtain ⟨rule, hrule⟩ := kind
    exact carried (List.mem_of_getElem? stands) (by rw [hrule]; exact ⟨nofun, fun _ => nofun⟩)
      hknown h
  | start stands kind =>
    refine carried (List.mem_of_getElem? stands) ?_ hknown h
    rcases kind with ⟨activity, hkind⟩ | ⟨nest, hkind⟩
    · rw [hkind]
      exact ⟨nofun, fun _ => nofun⟩
    · rw [hkind]
      exact ⟨nofun, fun _ => nofun⟩
  | finish =>
    unfold Position.Known at hknown ⊢
    rw [Multiset.map_cons] at h hknown ⊢
    exact ⟨hknown, [], h, rfl⟩
  | split stands kind _ targets siblings distinct fresh =>
    exact divided (List.mem_of_getElem? stands) kind targets siblings distinct fresh hknown h
  | join stands kind each siblings distinct =>
    have hmem := List.mem_of_getElem? stands
    obtain ⟨n, hn⟩ := kind
    exact united hmem (inputs _ hmem n hn) ⟨n, hn⟩ each siblings distinct hknown h

/-- The moves that a net makes, as a chronicle of their firings. -/
theorem extend {a b : Position} {fired : List String} (hmoves : Moves slots fired a b)
    (inputs : ∀ slot ∈ slots, ∀ n, slot.transition.outline = .join n [] → slot.inputs ≠ [])
    (hknown : a.Known) (h : Chronicle slots past (a.marking.map (·.2))) :
    ∃ more, Chronicle slots (more ++ past) (b.marking.map (·.2)) ∧
      more.reverse.filterMap Deed.step? = fired := by
  induction hmoves generalizing past with
  | nil => exact ⟨[], h, rfl⟩
  | learn grows _ ih => exact ih (fun x hx w hw => grows (hknown x hx w hw)) h
  | cons hmove _ ih =>
    obtain ⟨hnext, deeds, hone, hlabel⟩ := move hmove inputs hknown h
    obtain ⟨more, hmore, hfired⟩ := ih hnext hone
    refine ⟨more ++ deeds, by rwa [List.append_assoc], ?_⟩
    rw [List.reverse_append, List.filterMap_append, hlabel, hfired]

/-- What comes before a deed is what the earlier ones have left. -/
theorem before_mem (h : Chronicle slots past held) :
    (past = [] ∧ held = 0) ∨ ∃ deed ∈ past, held = deed.after := by
  cases h with
  | nil => exact .inl ⟨rfl, rfl⟩
  | cons => exact .inr ⟨_, List.mem_cons_self, rfl⟩

/-- A token comes to be held twice when a join makes one whole that is still held,
and in no other way. -/
theorem exclusive_iff (h : Chronicle slots past held) :
    (∀ deed ∈ past, (deed.after.map (·.id)).Nodup) ↔ ∀ deed ∈ past, ¬ deed.Early := by
  constructor
  · intro hall deed hdeed hearly
    have hnodup := hall deed hdeed
    cases deed with
    | join step t taken rest =>
      rw [Deed.after, Multiset.map_cons, Multiset.nodup_cons] at hnodup
      exact hnodup.1 hearly
    | _ => exact hearly
  intro hclean
  induction h with
  | nil => exact List.forall_mem_nil _
  | @cons past deed earlier allowed ih =>
    obtain ⟨hfirst, hrest⟩ := List.forall_mem_cons.1 hclean
    have hpast := ih hrest
    refine List.forall_mem_cons.2 ⟨?_, hpast⟩
    have hbefore : (deed.before.map (·.id)).Nodup := by
      rcases before_mem earlier with ⟨-, hnone⟩ | ⟨last, hlast, hsame⟩
      · rw [hnone]
        exact Multiset.nodup_zero
      · rw [hsame]
        exact hpast last hlast
    cases allowed with
    | enter t => exact Multiset.nodup_singleton _
    | carry => exact hbefore
    | @split slot t made rest stands kind each siblings distinct fresh =>
      rw [Deed.before, Multiset.map_cons, Multiset.nodup_cons] at hbefore
      rw [Deed.after, Multiset.map_add, Multiset.nodup_add]
      refine ⟨Multiset.coe_nodup.2 distinct, hbefore.2, Multiset.disjoint_left.2 ?_⟩
      intro id hid hrest
      obtain ⟨u, hu, rfl⟩ := List.mem_map.1 (Multiset.mem_coe.1 hid)
      obtain ⟨v, hv, hsame⟩ := Multiset.mem_map.1 hrest
      exact fresh u hu v (Multiset.mem_cons_of_mem hv) v List.mem_cons_self hsame
    | @join slot t taken rest =>
      rw [Deed.before, Multiset.map_add, Multiset.nodup_add] at hbefore
      rw [Deed.after, Multiset.map_cons, Multiset.nodup_cons]
      exact ⟨hfirst, hbefore.2.1⟩

/-- Siblings that have come about together: in one split, or as one token that the
net was started with or that this one comes from. -/
inductive Batch (past : List Deed) : List Token → Prop
  | split {step : String} {t : Token} {made : List Token} {rest : Multiset Token}
      (listed : .split step t made rest ∈ past) : Batch past made
  | start {t u : Token} (listed : .enter t ∈ past) (from_ : u ∈ t :: t.ancestry) : Batch past [u]

theorem Batch.later {batch : List Token} (h : Batch past batch) (deed : Deed) :
    Batch (deed :: past) batch := by
  cases h with
  | split listed => exact .split (.tail _ listed)
  | start listed from_ => exact .start (.tail _ listed) from_

/-- If a token is never split while siblings of it are still held, or tokens that
come from them, then all siblings of it that are held at one time are of one batch. -/
theorem one_batch {o : Token} (h : Chronicle slots past held)
    (clean : ∀ deed ∈ past, ¬ deed.Hasty o) :
    ∃ batch, (batch = [] ∨ Batch past batch) ∧
      ∀ u ∈ held, ∀ v ∈ u :: u.ancestry, v.parent = some o → v ∈ batch := by
  induction h with
  | nil => exact ⟨[], .inl rfl, fun u hu => absurd hu (Multiset.notMem_zero u)⟩
  | @cons past deed earlier allowed ih =>
    obtain ⟨hfirst, hrest⟩ := List.forall_mem_cons.1 clean
    obtain ⟨batch, hbatch, hall⟩ := ih hrest
    have hkept : batch = [] ∨ Batch (deed :: past) batch := hbatch.imp_right (·.later deed)
    cases allowed with
    | enter t =>
      by_cases hsome : ∃ v ∈ t :: t.ancestry, v.parent = some o
      · obtain ⟨v, hv, hvo⟩ := hsome
        refine ⟨[v], .inr (.start List.mem_cons_self hv), fun u hu w hw hwo => ?_⟩
        obtain rfl := Multiset.mem_singleton.1 hu
        exact List.mem_singleton.2 (Token.unique_sibling u w hw v hv hwo hvo)
      · refine ⟨[], .inl rfl, fun u hu w hw hwo => absurd ⟨w, ?_, hwo⟩ hsome⟩
        rwa [← Multiset.mem_singleton.1 hu]
    | carry => exact ⟨batch, hkept, hall⟩
    | @split slot t made rest stands kind each siblings distinct fresh =>
      -- A split of the token itself begins a new batch, and nothing of an older one is held.
      by_cases hsame : t = o
      · subst hsame
        refine ⟨made, .inr (.split List.mem_cons_self), fun u hu v hv hvo => ?_⟩
        rcases Multiset.mem_add.1 hu with hnew | hold
        · rw [Token.ancestry_eq (siblings u hnew)] at hv
          rcases List.mem_cons.1 hv with rfl | hup
          · exact hnew
          · exact absurd hup (Token.notMem_parent hvo)
        · exact absurd ⟨rfl, u, hold, Token.mem_ancestry hvo u hv⟩ hfirst
      · refine ⟨batch, hkept, fun u hu v hv hvo => ?_⟩
        rcases Multiset.mem_add.1 hu with hnew | hold
        · rw [Token.ancestry_eq (siblings u hnew)] at hv
          rcases List.mem_cons.1 hv with rfl | hup
          · exact absurd (Option.some.inj ((siblings v hnew).symm.trans hvo)) hsame
          · exact hall t (Multiset.mem_cons_self _ _) v hup hvo
        · exact hall u (Multiset.mem_cons_of_mem hold) v hv hvo
    | @join slot t taken rest stands kind each takes siblings distinct =>
      refine ⟨batch, hkept, fun u hu v hv hvo => ?_⟩
      rcases Multiset.mem_cons.1 hu with rfl | hold
      · obtain ⟨w, hw⟩ := List.exists_mem_of_ne_nil taken takes
        refine hall w (Multiset.mem_add.2 (.inl hw)) v ?_ hvo
        rw [Token.ancestry_eq (siblings w hw)]
        exact List.mem_cons_of_mem _ hv
      · exact hall u (Multiset.mem_add.2 (.inr hold)) v hv hvo

/-- What a join takes is of one batch, if the token that it makes whole was never
split while parts of it were still held. -/
theorem unmixed (h : Chronicle slots past held) {later earlier : List Deed} {step : String}
    {t : Token} {taken : List Token} {rest : Multiset Token}
    (hpast : past = later ++ .join step t taken rest :: earlier)
    (clean : ∀ deed ∈ earlier, ¬ deed.Hasty t) :
    ∃ batch, Batch earlier batch ∧ taken ⊆ batch := by
  obtain ⟨hearlier, hallowed⟩ := h.split_at hpast
  cases hallowed with
  | join stands kind each takes siblings distinct =>
    obtain ⟨batch, hbatch, hall⟩ := hearlier.one_batch clean
    have hsub : taken ⊆ batch := fun u hu =>
      hall u (Multiset.mem_add.2 (.inl hu)) u List.mem_cons_self (siblings u hu)
    rcases hbatch with rfl | hbatch
    · exact absurd (List.subset_nil.1 hsub) takes
    · exact ⟨batch, hbatch, hsub⟩

end Chronicle
end RecipeNet
