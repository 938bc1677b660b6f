import Mathlib.Data.List.Nodup
import RecipeNet.Proofs.Net.Resume

/-!
The tokens that a net mentions, by the steps that lead to them, and identities.
A net is coherent when no two tokens that it mentions at one depth share an
identity. Its acts keep it so if the identities that are drawn are fresh.
-/

namespace RecipeNet

namespace Token

/-- A token comes from what it was split from, and from what that comes from. -/
theorem ancestry_eq {t parent : Token} (h : t.parent = some parent) :
    t.ancestry = parent :: parent.ancestry := by
  obtain ⟨id, payload, _⟩ := t
  cases h
  rw [ancestry]

theorem mem_ancestry {u parent : Token} (hparent : u.parent = some parent) :
    (t : Token) → u ∈ t :: t.ancestry → parent ∈ t.ancestry
  | ⟨id, payload, some p⟩, hu => by
    rw [ancestry] at hu ⊢
    rcases List.mem_cons.1 hu with rfl | hrest
    · cases hparent
      exact List.mem_cons_self
    · exact List.mem_cons_of_mem _ (mem_ancestry hparent p hrest)
  | ⟨id, payload, none⟩, hu => by
    rw [ancestry] at hu
    obtain rfl := List.mem_singleton.1 hu
    cases hparent

/-- What holds of a token and passes to parents holds of all that it comes from. -/
theorem forall_ancestry {known : Token → Prop}
    (closed : ∀ t, known t → ∀ parent, t.parent = some parent → known parent) :
    (t : Token) → known t → ∀ u ∈ t :: t.ancestry, known u
  | ⟨id, payload, some parent⟩, ht => by
    rw [ancestry]
    exact List.forall_mem_cons.2 ⟨ht, forall_ancestry closed parent (closed _ ht parent rfl)⟩
  | ⟨id, payload, none⟩, ht => by
    rw [ancestry]
    exact List.forall_mem_singleton.2 ht

theorem sizeOf_parent {t parent : Token} (h : t.parent = some parent) :
    sizeOf parent < sizeOf t := by
  obtain ⟨id, payload, _⟩ := t
  cases h
  simp only [mk.sizeOf_spec, Option.some.sizeOf_spec]
  omega

theorem sizeOf_ancestry : (t : Token) → ∀ u ∈ t.ancestry, sizeOf u < sizeOf t
  | ⟨id, payload, some parent⟩, u, hu => by
    have hlt : sizeOf parent < sizeOf (⟨id, payload, some parent⟩ : Token) := sizeOf_parent rfl
    rw [ancestry] at hu
    rcases List.mem_cons.1 hu with rfl | hrest
    · exact hlt
    · exact (sizeOf_ancestry parent u hrest).trans hlt
  | ⟨id, payload, none⟩, u, hu => by
    rw [ancestry] at hu
    cases hu

/-- A token does not come from what was split from it. -/
theorem notMem_parent {t parent : Token} (h : t.parent = some parent) :
    t ∉ parent :: parent.ancestry := by
  intro ht
  have hlt := sizeOf_parent h
  rcases List.mem_cons.1 ht with rfl | hup
  · exact lt_irrefl _ hlt
  · exact lt_irrefl _ (hlt.trans (sizeOf_ancestry parent t hup))

end Token

/-- A token is in a net, is kept by a step, or is what such a token was split
from; or that holds of a net within. -/
inductive Engine.MentionsAt : Engine → List String → Token → Prop
  | place {e : Engine} {h : Holding} {t : Token} (stands : h ∈ e.holdings) (isHeld : t ∈ h.tokens) :
    MentionsAt e [] t
  | step {e : Engine} {slot : Slot} {t : Token} (stands : slot ∈ e.slots)
      (isKept : t ∈ slot.transition.tokens) : MentionsAt e [] t
  | parent {e : Engine} {path : List String} {t parent : Token} (child : MentionsAt e path t)
      (split : t.parent = some parent) : MentionsAt e path parent
  | nested {e : Engine} {slot : Slot} {nest : Nest} {u : Token} {child : Engine}
      {path : List String} {t : Token} (stands : slot ∈ e.slots)
      (busy : slot.transition = .busy nest u child) (inside : MentionsAt child path t) :
    MentionsAt e (slot.step :: path) t

def Engine.Mentions (e : Engine) (t : Token) : Prop := ∃ path, e.MentionsAt path t

def Engine.lore (e : Engine) : Lore := fun path => {t | e.MentionsAt path t}

namespace Engine

theorem lore_closed (e : Engine) : e.lore.Closed :=
  fun _ _ ht _ hparent => .parent ht hparent

theorem below_lore {e : Engine} {slot : Slot} (hs : slot ∈ e.slots) {nest : Nest} {u : Token}
    {child : Engine} (ht : slot.transition = .busy nest u child) :
    child.lore ≤ e.lore.below slot.step :=
  fun _ _ hmem => .nested hs ht hmem

/-- What a net itself mentions it holds or keeps, or it comes from that. -/
theorem MentionsAt.own {e : Engine} {t : Token} (h : e.MentionsAt [] t) {known : Token → Prop}
    (places : ∀ h ∈ e.holdings, ∀ t ∈ h.tokens, known t)
    (steps : ∀ slot ∈ e.slots, ∀ t ∈ slot.transition.tokens, known t)
    (closed : ∀ t, known t → ∀ parent, t.parent = some parent → known parent) : known t := by
  generalize hpath : ([] : List String) = path at h
  induction h with
  | place stands isHeld => exact places _ stands _ isHeld
  | step stands isKept => exact steps _ stands _ isKept
  | parent _ split ih => exact closed _ (ih places steps hpath) _ split
  | nested => cases hpath

theorem MentionsAt.inside {e : Engine} {step : String} {path : List String} {t : Token}
    (h : e.MentionsAt (step :: path) t) : ∃ slot ∈ e.slots, slot.step = step ∧
      ∃ nest u child, slot.transition = .busy nest u child ∧ child.MentionsAt path t := by
  generalize hpath : step :: path = whole at h
  induction h with
  | place => cases hpath
  | step => cases hpath
  | parent _ split ih =>
    obtain ⟨slot, hs, hstep, nest, u, child, hbusy, hinside⟩ := ih hpath
    exact ⟨slot, hs, hstep, nest, u, child, hbusy, .parent hinside split⟩
  | nested stands busy inside =>
    cases hpath
    exact ⟨_, stands, rfl, _, _, _, busy, inside⟩

/-- A lore that knows as much as a net mentions is informed of it. -/
theorem kept_of_lore {fitter : Fitter} {e : Engine} (h : e.Throughout (Fits fitter)) {s : Supply}
    {lore : Lore} (hle : e.lore ≤ lore) : Scene.Throughout (Scene.Kept fitter) ⟨e, s, lore⟩ := by
  induction h generalizing lore with
  | @intro e here inside ih =>
    refine .intro ⟨here, ⟨fun hold hmem t ht => hle [] (.place hmem ht),
      fun slot hs t ht => hle [] (MentionsAt.step hs ht)⟩⟩ fun slot hs nest t child ht => ?_
    refine ih slot hs nest t child ht fun path u hu => ?_
    exact hle (slot.step :: path) (.nested hs ht hu)

theorem sound_lore {fitter : Fitter} {e : Engine} (h : e.Throughout (Fits fitter)) (s : Supply) :
    Scene.Sound fitter ⟨e, s, e.lore⟩ :=
  ⟨kept_of_lore h fun _ => subset_rfl, e.lore_closed⟩

/-- A closed lore that is informed of a net knows all that the net mentions. -/
theorem lore_le {fitter : Fitter} {sc : Scene} (h : sc.Sound fitter) : sc.engine.lore ≤ sc.lore := by
  obtain ⟨hkept, hclosed⟩ := h
  intro path t ht
  change sc.engine.MentionsAt path t at ht
  generalize he : sc.engine = e at ht
  induction ht generalizing sc with
  | place stands isHeld =>
    subst he
    exact hkept.here.informed.places _ stands _ isHeld
  | step stands isKept =>
    subst he
    exact hkept.here.informed.steps _ stands _ isKept
  | parent _ split ih => exact hclosed _ _ (ih hkept hclosed he) _ split
  | nested stands busy _ ih =>
    subst he
    exact ih (hkept.child stands busy) (hclosed.below _) rfl

/-- A net that holds no tokens, and runs no nested plans, mentions none. -/
theorem not_mentionsAt {e : Engine} (places : ∀ h ∈ e.holdings, h.tokens = [])
    (steps : ∀ slot ∈ e.slots, slot.transition.tokens = [])
    (vacant : ∀ slot ∈ e.slots, ∀ nest t child, slot.transition ≠ .busy nest t child)
    (path : List String) (t : Token) : ¬ e.MentionsAt path t := by
  intro ht
  cases path with
  | nil =>
    refine @MentionsAt.own e t ht (fun _ => False) (fun h hh t ht => ?_) (fun slot hs t ht => ?_)
      fun _ h => h.elim
    · rw [places h hh] at ht
      cases ht
    · rw [steps slot hs] at ht
      cases ht
  | cons step path =>
    obtain ⟨slot, hs, -, nest, u, child, hbusy, -⟩ := ht.inside
    exact vacant slot hs nest u child hbusy

theorem throughout_fits {fitter : Fitter} {sc : Scene} (h : sc.Throughout (Scene.Kept fitter)) :
    sc.engine.Throughout (Fits fitter) := by
  induction h with
  | intro here _ ih => exact .intro here.fits fun slot hs nest t child ht => ih slot hs nest t child ht

end Engine

namespace Act

variable {sc sc' : Scene} {events : List Event}

theorem draw_eq (h : Act sc events sc') : sc'.supply.draw = sc.supply.draw := by
  induction h with
  | @fired sc i slot firing r r' running stands fires =>
    generalize slot.transition = tr at fires
    cases fires <;> rfl
  | inside _ _ _ _ ih => exact ih
  | _ => rfl

theorem used_le (h : Act sc events sc') : sc.supply.used ≤ sc'.supply.used := by
  induction h with
  | @fired sc i slot firing r r' running stands fires =>
    generalize slot.transition = tr at fires
    cases fires with
    | split => exact Nat.le_add_right _ _
    | launch => exact Nat.le_add_right _ _
    | pass => exact Nat.le_refl _
    | routed => exact Nat.le_refl _
    | join => exact Nat.le_refl _
    | begin => exact Nat.le_refl _
  | inside _ _ _ _ ih => exact ih
  | _ => exact Nat.le_refl _

end Act

theorem Course.used_le {sc sc' : Scene} {events : List Event} (h : Course sc events sc') :
    sc.supply.used ≤ sc'.supply.used := by
  induction h with
  | nil => exact Nat.le_refl _
  | cons act _ ih => exact act.used_le.trans ih

/-- What a supply gives out until it has come to another state is new: unlike
any known token, and each time something else. -/
def Supply.Fresh (known : Token → Prop) (s s' : Supply) : Prop :=
  ∀ i, s.used ≤ i → i < s'.used →
    (∀ t, known t → t.id ≠ s.draw i) ∧ ∀ j, s.used ≤ j → j < i → s.draw j ≠ s.draw i

/-- Equal identities mean equal tokens, at each depth. -/
def Lore.Coherent (lore : Lore) : Prop :=
  ∀ path, ∀ t ∈ lore path, ∀ u ∈ lore path, t.id = u.id → t = u

theorem Lore.Coherent.anti {lore lore' : Lore} (h : lore'.Coherent) (hle : lore ≤ lore') :
    lore.Coherent :=
  fun path t ht u hu => h path t (hle path ht) u (hle path hu)

structure Scene.Clear (last : Supply) (sc : Scene) : Prop where
  coherent : sc.lore.Coherent
  fresh : Supply.Fresh (fun t => ∃ path, t ∈ sc.lore path) sc.supply last

theorem Token.siblings_ids (t : Token) (ids : List TokenId) :
    (t.siblings ids).map (·.2.id) = ids := by
  rw [siblings, List.map_map]
  exact List.zipIdx_map_fst 0 ids

/-- The new tokens of a firing are those whose identities it has drawn. -/
theorem Transition.Fires.drawn {step : String} {outs : Nat} {s : Supply} {tr : Transition}
    {firing : Firing}
    (h : tr.Fires step outs s firing) : ∃ count, firing.supply.used = s.used + count ∧
      ((firing.fresh.map (·.id) = (List.range count).map (fun i => s.draw (s.used + i)) ∧
          firing.inner = []) ∨
        (firing.inner.map (·.id) = (List.range count).map (fun i => s.draw (s.used + i)) ∧
          firing.fresh = [])) := by
  cases h with
  | split input t =>
    refine ⟨outs, rfl, .inl ⟨?_, rfl⟩⟩
    rw [List.map_map]
    exact t.siblings_ids _
  | launch nest child t => exact ⟨1, rfl, .inr ⟨rfl, rfl⟩⟩
  | pass => exact ⟨0, rfl, .inl ⟨rfl, rfl⟩⟩
  | routed => exact ⟨0, rfl, .inl ⟨rfl, rfl⟩⟩
  | join => exact ⟨0, rfl, .inl ⟨rfl, rfl⟩⟩
  | begin => exact ⟨0, rfl, .inl ⟨rfl, rfl⟩⟩

/-- What a fresh supply gives out has nothing twice. -/
theorem Supply.Fresh.nodup {known : Token → Prop} {s last : Supply} {count : Nat}
    (h : Supply.Fresh known s last) (hle : s.used + count ≤ last.used) :
    ((List.range count).map fun i => s.draw (s.used + i)).Nodup := by
  refine List.Nodup.map_on (fun i hi j hj heq => ?_) List.nodup_range
  have hi' := List.mem_range.1 hi
  have hj' := List.mem_range.1 hj
  by_contra hne
  rcases Nat.lt_or_gt_of_ne hne with hlt | hlt
  · exact (h (s.used + j) (by omega) (by omega)).2 (s.used + i) (by omega) (by omega) heq
  · exact (h (s.used + i) (by omega) (by omega)).2 (s.used + j) (by omega) (by omega) heq.symm

/-- Tokens that have been given identities of a fresh supply are told apart by
them, and from all that is known. -/
theorem Supply.Fresh.apart {known : Token → Prop} {s last : Supply} {count : Nat}
    (h : Supply.Fresh known s last) (hle : s.used + count ≤ last.used) {made : List Token}
    (hids : made.map (·.id) = (List.range count).map fun i => s.draw (s.used + i)) :
    (∀ t ∈ made, ∀ u ∈ made, t.id = u.id → t = u) ∧ (∀ t ∈ made, ∀ u, known u → u.id ≠ t.id) ∧
      ∀ t ∈ made, ∀ i, s.used + count ≤ i → i < last.used → t.id ≠ s.draw i := by
  have hdrawn : ∀ t ∈ made, ∃ i < count, t.id = s.draw (s.used + i) := by
    intro t ht
    have hmem : t.id ∈ made.map (·.id) := List.mem_map_of_mem ht
    rw [hids] at hmem
    obtain ⟨i, hi, heq⟩ := List.mem_map.1 hmem
    exact ⟨i, List.mem_range.1 hi, heq.symm⟩
  have hnodup : (made.map (·.id)).Nodup := hids ▸ h.nodup hle
  refine ⟨fun t ht u hu => List.inj_on_of_nodup_map hnodup ht hu, fun t ht u hu => ?_,
    fun t ht i hi hlast => ?_⟩
  · obtain ⟨i, hi, heq⟩ := hdrawn t ht
    rw [heq]
    exact (h (s.used + i) (by omega) (by omega)).1 u hu
  · obtain ⟨j, hj, heq⟩ := hdrawn t ht
    rw [heq]
    exact (h i (by omega) hlast).2 (s.used + j) (by omega) (by omega)

/-- New tokens at one place of the lore keep the scene clear. -/
theorem Scene.Clear.learn {last : Supply} {e e' : Engine} {s s' : Supply} {lore lore' : Lore}
    (h : Scene.Clear last ⟨e, s, lore⟩) {count : Nat} (hdraw : s'.draw = s.draw)
    (hused : s'.used = s.used + count) (hle : s'.used ≤ last.used) {made : List Token}
    (hids : made.map (·.id) = (List.range count).map fun i => s.draw (s.used + i))
    (place : List String)
    (hlore : ∀ path, ∀ t ∈ lore' path, t ∈ lore path ∨ (path = place ∧ t ∈ made)) :
    Scene.Clear last ⟨e', s', lore'⟩ := by
  rw [hused] at hle
  obtain ⟨hsame, hknown, hlater⟩ := h.fresh.apart hle hids
  refine ⟨fun path t ht u hu heq => ?_, fun i hi hlast => ⟨fun t ht => ?_, fun j hj hji => ?_⟩⟩
  · rcases hlore path t ht with hold | ⟨-, hnew⟩
    · rcases hlore path u hu with hold' | ⟨-, hnew'⟩
      · exact h.coherent path t hold u hold' heq
      · exact absurd heq (hknown u hnew' t ⟨path, hold⟩)
    · rcases hlore path u hu with hold' | ⟨-, hnew'⟩
      · exact absurd heq.symm (hknown t hnew u ⟨path, hold'⟩)
      · exact hsame t hnew u hnew' heq
  · change s'.used ≤ i at hi
    rw [hused] at hi
    change t.id ≠ s'.draw i
    rw [hdraw]
    obtain ⟨path, hmem⟩ := ht
    rcases hlore path t hmem with hold | ⟨-, hnew⟩
    · exact (h.fresh i (by change s.used ≤ i; omega) hlast).1 t ⟨path, hold⟩
    · exact hlater t hnew i hi hlast
  · change s'.used ≤ i at hi
    change s'.used ≤ j at hj
    change s'.draw j ≠ s'.draw i
    rw [hused] at hi hj
    rw [hdraw]
    exact (h.fresh i (by change s.used ≤ i; omega) hlast).2 j (by change s.used ≤ j; omega) hji

theorem Scene.Clear.graft {last : Supply} {e child' : Engine} {s s' : Supply}
    {lore inner : Lore} {step : String} {e' : Engine} (h : Scene.Clear last ⟨e, s, lore⟩)
    (hused : s.used ≤ s'.used) (hdraw : s'.draw = s.draw)
    (hinner : Scene.Clear last ⟨child', s', inner⟩) :
    Scene.Clear last ⟨e', s', lore.graft step inner⟩ := by
  have hpath : ∀ path, (lore.graft step inner path = lore path) ∨
      ∃ rest, lore.graft step inner path = inner rest := by
    intro path
    cases path with
    | nil => exact .inl rfl
    | cons head rest =>
      by_cases hhead : head = step
      · exact .inr ⟨rest, if_pos hhead⟩
      · exact .inl (if_neg hhead)
  refine ⟨fun path => ?_, fun i hi hlast => ⟨fun t ht => ?_, (hinner.fresh i hi hlast).2⟩⟩
  · change ∀ t ∈ lore.graft step inner path, ∀ u ∈ lore.graft step inner path, _
    rcases hpath path with hsame | ⟨rest, hsame⟩
    · rw [hsame]
      exact h.coherent path
    · rw [hsame]
      exact hinner.coherent rest
  · obtain ⟨path, hmem⟩ := ht
    change t ∈ lore.graft step inner path at hmem
    rcases hpath path with hsame | ⟨rest, hsame⟩
    · rw [hsame] at hmem
      change t.id ≠ s'.draw i
      rw [hdraw]
      exact (h.fresh i (hused.trans hi) hlast).1 t ⟨path, hmem⟩
    · rw [hsame] at hmem
      exact (hinner.fresh i hi hlast).1 t ⟨rest, hmem⟩

theorem Scene.Clear.nested {last : Supply} {sc : Scene} (h : sc.Clear last) (slot : Slot)
    (child : Engine) : (sc.nested slot child).Clear last := by
  refine ⟨fun path => h.coherent (slot.step :: path), fun i hi hlast => ?_⟩
  obtain ⟨hknown, hother⟩ := h.fresh i hi hlast
  exact ⟨fun t ⟨path, ht⟩ => hknown t ⟨slot.step :: path, ht⟩, hother⟩

theorem Act.clear {last : Supply} {sc sc' : Scene} {events : List Event} (h : Act sc events sc')
    (hle : sc'.supply.used ≤ last.used) (hsc : sc.Clear last) : sc'.Clear last := by
  induction h with
  | @fired sc i slot firing r r' running stands fires =>
    have hdraw : firing.supply.draw = sc.supply.draw := by
      generalize slot.transition = tr at fires
      cases fires <;> rfl
    obtain ⟨count, hused, hmade⟩ := fires.drawn
    rcases hmade with ⟨hids, hnone⟩ | ⟨hids, hnone⟩
    · refine hsc.learn hdraw hused hle hids [] fun path t ht => ?_
      rcases ht with hold | hnew | ⟨-, hnew⟩
      · exact .inl hold
      · exact .inr hnew
      · rw [hnone] at hnew
        cases hnew
    · refine hsc.learn hdraw hused hle hids [slot.step] fun path t ht => ?_
      rcases ht with hold | ⟨-, hnew⟩ | hnew
      · exact .inl hold
      · rw [hnone] at hnew
        cases hnew
      · exact .inr hnew
  | @inside sc i slot nest t child child' events s' lore' running stands busy act ih =>
    exact hsc.graft act.used_le act.draw_eq (ih hle (hsc.nested slot child))
  | _ => exact ⟨hsc.coherent, hsc.fresh⟩

theorem Course.clear {last : Supply} {sc sc' : Scene} {events : List Event}
    (h : Course sc events sc') (hle : sc'.supply.used ≤ last.used) (hsc : sc.Clear last) :
    sc'.Clear last := by
  induction h with
  | nil => exact hsc
  | cons act rest ih => exact ih hle (act.clear (rest.used_le.trans hle) hsc)

/-- A net stays coherent when what a call draws is fresh. -/
theorem Course.coherent {fitter : Fitter} (hf : fitter.Regular) {e e' : Engine} {s s' : Supply}
    {lore' : Lore} {events : List Event} (h : Course ⟨e, s, e.lore⟩ events ⟨e', s', lore'⟩)
    (hfits : e.Throughout (Engine.Fits fitter)) (hcoherent : e.lore.Coherent)
    (hfresh : Supply.Fresh e.Mentions s s') : lore'.Coherent ∧ e'.lore.Coherent := by
  have hclear := h.clear (Nat.le_refl _) ⟨hcoherent, hfresh⟩
  have hsound := h.sound hf (Engine.sound_lore hfits s)
  exact ⟨hclear.coherent, hclear.coherent.anti (Engine.lore_le hsound)⟩

end RecipeNet
