import RecipeNet.Proofs.Net.Marking

/-!
The seats of a join. A generation gives its siblings seats by input; behind a seat
is the place that its input reads. Seats are counted by place and identity, like
what places hold.
-/

namespace RecipeNet

namespace Generation

variable {g : Generation} {t : Token} {inputs : List Nat} {k p : Nat} {id : TokenId}

/-- The places behind the seats that are taken, with the identities of those who
sit there. -/
def sitters (inputs : List Nat) (g : Generation) : List (Nat × TokenId) :=
  g.siblings.filterMap fun x => inputs[x.1]?.map (·, x.2.id)

theorem mem_siblings : (k, t) ∈ g.siblings ↔ g.slots[k]? = some (some t) := by
  simp only [siblings, List.mem_filterMap, Option.map_eq_some_iff, Prod.mk.injEq]
  constructor
  · rintro ⟨⟨slot, input⟩, hmem, u, hslot, rfl, rfl⟩
    dsimp only at hslot
    rw [List.mem_zipIdx_iff_getElem?.1 hmem, hslot]
  · intro hk
    exact ⟨(some t, k), List.mem_zipIdx_iff_getElem?.2 hk, t, rfl, rfl, rfl⟩

theorem mem_sitters : (p, id) ∈ g.sitters inputs ↔
    ∃ k t, (k, t) ∈ g.siblings ∧ inputs[k]? = some p ∧ t.id = id := by
  simp only [sitters, List.mem_filterMap, Option.map_eq_some_iff, Prod.mk.injEq, Prod.exists]
  constructor
  · rintro ⟨k, t, hmem, q, hq, rfl, rfl⟩
    exact ⟨k, t, hmem, hq, rfl⟩
  · rintro ⟨k, t, hmem, hp, rfl⟩
    exact ⟨k, t, hmem, p, hp, rfl, rfl⟩

theorem sitters_new (parent : Token) (width : Nat) :
    (⟨parent, List.replicate width none⟩ : Generation).sitters inputs = [] := by
  refine List.eq_nil_iff_forall_not_mem.2 fun x hx => ?_
  obtain ⟨k, t, hmem, -⟩ := mem_sitters.1 hx
  have hat := mem_siblings.1 hmem
  simp [List.getElem?_replicate] at hat

theorem siblings_seated (hk : g.slots[k]? = some none) (t : Token) :
    ({ g with slots := g.slots.set k (some t) } : Generation).siblings.Perm
      ((k, t) :: g.siblings) := by
  obtain ⟨hlt, hat⟩ := List.getElem?_eq_some_iff.1 hk
  have hlen : (g.slots.take k).length = k := List.length_take_of_le hlt.le
  have hsplit : g.slots = g.slots.take k ++ none :: g.slots.drop (k + 1) := by
    rw [← hat, List.getElem_cons_drop, List.take_append_drop]
  have hset : g.slots.set k (some t) = g.slots.take k ++ some t :: g.slots.drop (k + 1) :=
    List.set_eq_take_append_cons_drop.trans (if_pos hlt)
  have hold : g.siblings = (g.slots.take k ++ none :: g.slots.drop (k + 1)).zipIdx.filterMap
      fun x => x.1.map (x.2, ·) := by
    rw [← hsplit]
    rfl
  rw [hold, siblings, hset]
  simp only [List.zipIdx_append, List.zipIdx_cons, List.filterMap_append, List.filterMap_cons,
    Option.map_some, Option.map_none, hlen, Nat.zero_add]
  exact List.perm_middle

/-- A token that takes a seat is counted behind its input. -/
theorem sitters_seated (hk : g.slots[k]? = some none) (hp : inputs[k]? = some p) (t : Token) :
    (({ g with slots := g.slots.set k (some t) } : Generation).sitters inputs : Multiset _) =
      (p, t.id) ::ₘ (g.sitters inputs : Multiset _) := by
  have hperm := (siblings_seated hk t).filterMap fun x => inputs[x.1]?.map (·, x.2.id)
  rw [List.filterMap_cons, hp] at hperm
  exact Multiset.coe_eq_coe.2 hperm

/-- The tokens that a firing takes for a generation are those behind its seats. -/
theorem sitters_removed {removed : List (Nat × Token)}
    (h : List.Forall₂ (fun e u => inputs[e.1]? = some u.1 ∧ u.2.id = e.2.id) g.siblings removed) :
    entries removed = (g.sitters inputs : Multiset _) := by
  have hall : removed.map (fun u => (u.1, u.2.id)) =
      g.siblings.filterMap fun x => inputs[x.1]?.map (·, x.2.id) := by
    generalize g.siblings = taken at h
    induction h with
    | nil => rfl
    | cons hfirst _ ih =>
      obtain ⟨hplace, hid⟩ := hfirst
      rw [List.map_cons, List.filterMap_cons, hplace, ih, hid]
      rfl
  exact congrArg _ hall

end Generation

namespace Join

variable {inputs : List Nat} {pending placed : List Generation} {g : Generation} {j : Nat}

def sitters (inputs : List Nat) (pending : List Generation) : Multiset (Nat × TokenId) :=
  (pending.flatMap (·.sitters inputs) : List (Nat × TokenId))

theorem mem_sitters {x : Nat × TokenId} :
    x ∈ sitters inputs pending ↔ ∃ g ∈ pending, x ∈ g.sitters inputs :=
  Multiset.mem_coe.trans List.mem_flatMap

theorem sitters_cons (inputs : List Nat) (g : Generation) (pending : List Generation) :
    sitters inputs (g :: pending) = (g.sitters inputs : Multiset _) + sitters inputs pending :=
  congrArg _ List.flatMap_cons

theorem sitters_perm {pending' : List Generation} (h : pending.Perm pending') :
    sitters inputs pending = sitters inputs pending' :=
  Multiset.coe_eq_coe.2 (h.flatMap_right _)

theorem sitters_eraseIdx (hj : pending[j]? = some g) :
    sitters inputs pending = (g.sitters inputs : Multiset _) + sitters inputs (pending.eraseIdx j) := by
  obtain ⟨hlt, rfl⟩ := List.getElem?_eq_some_iff.1 hj
  rw [← sitters_cons]
  exact sitters_perm (List.getElem_cons_eraseIdx_perm hlt).symm

/-- What is left beside the generation in which a token is seated. -/
theorem located_cases {parent : Token} {width : Nat}
    (located : locate pending parent width = (placed, j)) (isPlaced : placed[j]? = some g) :
    (pending[j]? = some g ∧ placed.eraseIdx j = pending.eraseIdx j) ∨
      (g = ⟨parent, List.replicate width none⟩ ∧ placed.eraseIdx j = pending) := by
  rcases locate_cases pending parent width with ⟨i, g', hsame, -, -⟩ | ⟨hnew, -⟩
  · cases hsame.symm.trans located
    exact .inl ⟨isPlaced, rfl⟩
  · cases hnew.symm.trans located
    obtain rfl : (⟨parent, List.replicate width none⟩ : Generation) = g := by
      simpa using isPlaced
    refine .inr ⟨rfl, ?_⟩
    rw [List.eraseIdx_append_of_length_le (Nat.le_refl _), Nat.sub_self, List.eraseIdx_zero,
      List.tail_cons, List.append_nil]

theorem mem_of_located {parent : Token} {width : Nat}
    (located : locate pending parent width = (placed, j)) (isPlaced : placed[j]? = some g) :
    ∀ g' ∈ placed.eraseIdx j, g' ∈ pending := by
  intro g' hg'
  rcases located_cases located isPlaced with ⟨-, hrest⟩ | ⟨-, hrest⟩ <;> rw [hrest] at hg'
  · exact List.mem_of_mem_eraseIdx hg'
  · exact hg'

theorem sitters_located {parent : Token} {width : Nat}
    (located : locate pending parent width = (placed, j)) (isPlaced : placed[j]? = some g) :
    sitters inputs pending =
      (g.sitters inputs : Multiset _) + sitters inputs (placed.eraseIdx j) := by
  rcases located_cases located isPlaced with ⟨hj, hrest⟩ | ⟨rfl, hrest⟩ <;> rw [hrest]
  · exact sitters_eraseIdx hj
  · rw [Generation.sitters_new]
    exact (zero_add _).symm

/-- A join in which a token has been seated. -/
theorem sitters_seated {parent t : Token} {width k p : Nat}
    (located : locate pending parent width = (placed, j)) (isPlaced : placed[j]? = some g)
    (free : g.slots[k]? = some none) (hp : inputs[k]? = some p) :
    sitters inputs (placed.set j { g with slots := g.slots.set k (some t) }) =
      (p, t.id) ::ₘ sitters inputs pending := by
  obtain ⟨hlt, -⟩ := List.getElem?_eq_some_iff.1 isPlaced
  rw [sitters_perm (List.set_perm_cons_eraseIdx hlt _), sitters_cons,
    Generation.sitters_seated free hp, Multiset.cons_add, sitters_located located isPlaced]

def Parted (pending : List Generation) : Prop := (pending.map (·.parent.id)).Nodup

theorem Parted.unique (h : Parted pending) {g g' : Generation} (hg : g ∈ pending)
    (hg' : g' ∈ pending) (same : g.parent.id = g'.parent.id) : g = g' :=
  List.inj_on_of_nodup_map h hg hg' same

theorem parted_lasting : Lasting fun _ => Parted where
  dropped j h := ((List.eraseIdx_sublist _ j).map _).nodup h
  seated {inputs j k pending placed g t parent} h located isPlaced _ _ _ := by
    obtain ⟨hlt, hat⟩ := List.getElem?_eq_some_iff.1 isPlaced
    have hplaced : Parted placed := by
      rcases locate_cases pending parent inputs with ⟨i, g', hsame, -, -⟩ | ⟨hnew, hother⟩
      · cases hsame.symm.trans located
        exact h
      · cases hnew.symm.trans located
        unfold Parted
        rw [List.map_append, List.map_singleton, List.nodup_append]
        refine ⟨h, List.nodup_singleton _, fun id hid id' hid' heq => ?_⟩
        obtain ⟨g', hg', rfl⟩ := List.mem_map.1 hid
        obtain rfl := List.mem_singleton.1 hid'
        exact hother g' hg' heq
    have hparents : (placed.set j { g with slots := g.slots.set k (some t) }).map
        (·.parent.id) = placed.map (·.parent.id) := by
      subst hat
      have hlt' : j < (placed.map (·.parent.id)).length := by rwa [List.length_map]
      have hself : (placed.map (·.parent.id)).set j (placed.map (·.parent.id))[j] =
          placed.map (·.parent.id) := List.set_getElem_self hlt'
      rw [List.getElem_map] at hself
      rw [List.map_set]
      exact hself
    unfold Parted
    rw [hparents]
    exact hplaced
  refreshed {inputs j pending g} r h isPending := by
    obtain ⟨hlt, rfl⟩ := List.getElem?_eq_some_iff.1 isPending
    have hperm : (pending.eraseIdx j ++ [pending[j].refresh r]).map (·.parent.id) |>.Perm
        (pending.map (·.parent.id)) := by
      rw [List.map_append]
      refine List.perm_append_comm.trans ?_
      exact (List.getElem_cons_eraseIdx_perm hlt).map fun g : Generation => g.parent.id
    exact hperm.nodup_iff.2 h

/-- A token that its generation does not know sits nowhere in the join. -/
theorem not_sitting {t parent : Token} {width : Nat} (parted : Parted pending)
    (kin : ∀ g ∈ pending, g.Kin)
    (same : ∀ g ∈ pending, ∀ u ∈ g.slots.filterMap id, u.id = t.id → u = t)
    (located : locate pending parent width = (placed, j)) (isPlaced : placed[j]? = some g)
    (isSplit : t.parent = some parent) (unseen : g.buffers t = false) (p : Nat) :
    (p, t.id) ∉ sitters inputs pending := by
  intro hmem
  obtain ⟨g', hg', hsits⟩ := mem_sitters.1 hmem
  obtain ⟨k, u, hu, -, hid⟩ := Generation.mem_sitters.1 hsits
  have hslot : u ∈ g'.slots.filterMap id :=
    List.mem_filterMap.2 ⟨some u, List.mem_of_getElem? (Generation.mem_siblings.1 hu), rfl⟩
  obtain rfl := same g' hg' u hslot hid
  obtain ⟨parent', hparent', hkin⟩ := kin g' hg' u hslot
  obtain rfl := Option.some.inj (hparent'.symm.trans isSplit)
  rcases locate_cases pending parent' width with ⟨i, g₀, hlocate, hat, -⟩ | ⟨-, hother⟩
  · cases hlocate.symm.trans located
    obtain rfl := Option.some.inj (hat.symm.trans isPlaced)
    have hparent := (mem_located located).2 g₀ isPlaced
    obtain rfl := parted.unique hg' (List.mem_of_getElem? hat) (hkin.symm.trans hparent.symm)
    exact Generation.buffers_false unseen u hslot rfl
  · exact hother g' hg' hkin.symm

end Join

def Slot.sitters (slot : Slot) : Multiset (Nat × TokenId) :=
  match slot.transition with
  | .join _ pending => Join.sitters slot.inputs pending
  | _ => 0

namespace Slot

variable {slot : Slot}

theorem sitters_join {inputs : Nat} {pending : List Generation}
    (h : slot.transition = .join inputs pending) : slot.sitters = Join.sitters slot.inputs pending := by
  rw [sitters, h]

theorem sitters_other (h : ∀ inputs pending, slot.transition ≠ .join inputs pending) :
    slot.sitters = 0 := by
  unfold sitters
  split
  · exact absurd ‹_› (h _ _)
  · rfl

/-- They sit behind the inputs of the step. -/
theorem sitters_inputs {x : Nat × TokenId} (hx : x ∈ slot.sitters) : x.1 ∈ slot.inputs := by
  cases htr : slot.transition with
  | join inputs pending =>
    rw [sitters_join htr] at hx
    obtain ⟨g, -, hg⟩ := Join.mem_sitters.1 hx
    obtain ⟨k, t, -, hk, -⟩ := Generation.mem_sitters.1 hg
    exact List.mem_of_getElem? hk
  | _ =>
    rw [sitters_other (by rw [htr]; nofun)] at hx
    exact absurd hx (Multiset.notMem_zero x)

end Slot
end RecipeNet
