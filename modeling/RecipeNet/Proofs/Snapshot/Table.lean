import Mathlib.Data.Set.Basic
import RecipeNet.Proofs.Net.Fitting
import RecipeNet.Snapshot.TokenTable

/-!
What a token table says. A table determines a token, with all that it was made
from, by its identity; and a table that has been written for tokens that are
told apart by their identities gives each of them back.
-/

namespace RecipeNet.TokenTable

/-- A token that a table describes, with the tokens it was made from. -/
inductive Reads (records : List TokenRecord) : Token → Prop
  | whole {id : TokenId} {payload : Option Json}
      (listed : find? records id = some ⟨id, payload, none⟩) : Reads records ⟨id, payload, none⟩
  | split {id : TokenId} {payload : Option Json} {parent : Token}
      (listed : find? records id = some ⟨id, payload, some parent.id⟩)
      (known : Reads records parent) : Reads records ⟨id, payload, some parent⟩

variable {records : List TokenRecord} {t u : Token} {id : TokenId}

theorem find?_id {r : TokenRecord} (h : find? records id = some r) : r.id = id := by
  have hid := List.find?_some h
  simpa using hid

theorem find?_mem {r : TokenRecord} (h : find? records id = some r) : r ∈ records :=
  List.mem_reverse.1 (List.mem_of_find?_eq_some h)

theorem find?_isSome (h : ∃ r ∈ records, r.id = id) : ∃ r, find? records id = some r := by
  obtain ⟨r, hr, hid⟩ := h
  have hsome : (find? records id).isSome := by
    rw [find?, List.find?_isSome]
    exact ⟨r, List.mem_reverse.2 hr, by simp [hid]⟩
  exact Option.isSome_iff_exists.1 hsome

theorem Reads.parent {parent : Token} (h : Reads records t) (hp : t.parent = some parent) :
    Reads records parent := by
  cases h with
  | whole => cases hp
  | split _ known =>
    cases hp
    exact known

/-- A table describes one token for an identity. -/
theorem Reads.unique (ht : Reads records t) (hu : Reads records u) (hid : t.id = u.id) :
    t = u := by
  induction ht generalizing u with
  | whole listed =>
    cases hu with
    | whole listed' =>
      obtain rfl := hid
      cases listed.symm.trans listed'
      rfl
    | split listed' =>
      obtain rfl := hid
      cases listed.symm.trans listed'
  | split listed _ ih =>
    cases hu with
    | whole listed' =>
      obtain rfl := hid
      cases listed.symm.trans listed'
    | split listed' known' =>
      obtain rfl := hid
      obtain ⟨hpayload, hparent⟩ := TokenRecord.mk.inj (Option.some.inj
        (listed.symm.trans listed')) |>.2
      rw [hpayload, ih known' (Option.some.inj hparent)]

theorem rebuild_reads {fuel : Nat} (h : rebuild records fuel id = .ok t) :
    t.id = id ∧ Reads records t := by
  induction fuel generalizing id t with
  | zero => cases h
  | succ fuel ih =>
    rw [rebuild] at h
    cases hfind : find? records id with
    | none => simp [hfind] at h
    | some r =>
      obtain ⟨rid, payload, parent⟩ := r
      obtain rfl : rid = id := find?_id hfind
      cases parent with
      | none =>
        simp only [hfind, Except.ok.injEq] at h
        subst h
        exact ⟨rfl, .whole hfind⟩
      | some pid =>
        simp only [hfind] at h
        cases hparent : rebuild records fuel pid with
        | error reason => simp [hparent, Except.map] at h
        | ok parent =>
          simp only [hparent, Except.map, Except.ok.injEq] at h
          subst h
          obtain ⟨rfl, hreads⟩ := ih hparent
          exact ⟨rfl, .split hfind hreads⟩

theorem tokens_reads {ts : List Token} (h : tokens records = .ok ts) (ht : t ∈ ts) :
    Reads records t := by
  obtain ⟨r, -, hr⟩ := exists_left_of_forall₂ (forall₂_of_mapM h) ht
  exact (rebuild_reads hr).2

theorem resolve_ok {ts : List Token} (h : resolve ts id = .ok t) : t ∈ ts ∧ t.id = id := by
  unfold resolve at h
  cases hfind : ts.find? (·.id == id) with
  | none => simp [hfind] at h
  | some u =>
    simp only [hfind, Except.ok.injEq] at h
    subst h
    have hid := List.find?_some hfind
    exact ⟨List.mem_of_find?_eq_some hfind, by simpa using hid⟩

theorem mem_enter {r r' : TokenRecord} (h : r' ∈ enter records r) : r' ∈ records ∨ r' = r := by
  unfold enter at h
  by_cases hany : records.any (·.id == r.id) = true
  · rw [if_pos hany] at h
    exact .inl h
  · rw [if_neg hany] at h
    simpa using h

theorem enter_subset (records : List TokenRecord) (r : TokenRecord) :
    records ⊆ enter records r := by
  intro r' hr'
  unfold enter
  by_cases hany : records.any (·.id == r.id) = true
  · rw [if_pos hany]
    exact hr'
  · rw [if_neg hany]
    exact List.mem_append_left _ hr'

theorem enter_lists (records : List TokenRecord) (r : TokenRecord) :
    ∃ r' ∈ enter records r, r'.id = r.id := by
  unfold enter
  by_cases hany : records.any (·.id == r.id) = true
  · rw [if_pos hany]
    obtain ⟨r', hr', hid⟩ := List.any_eq_true.1 hany
    exact ⟨r', hr', by simpa using hid⟩
  · rw [if_neg hany]
    exact ⟨r, List.mem_append_right _ List.mem_cons_self, rfl⟩

/-- The identity of a token, and of each that it was made from, is in a table. -/
inductive Covers (records : List TokenRecord) : Token → Prop
  | whole {id : TokenId} {payload : Option Json} (listed : ∃ r ∈ records, r.id = id) :
    Covers records ⟨id, payload, none⟩
  | split {id : TokenId} {payload : Option Json} {parent : Token}
      (listed : ∃ r ∈ records, r.id = id) (known : Covers records parent) :
    Covers records ⟨id, payload, some parent⟩

theorem Covers.mono {more : List TokenRecord} (h : Covers records t) (hsub : records ⊆ more) :
    Covers more t := by
  induction h with
  | whole listed =>
    obtain ⟨r, hr, hid⟩ := listed
    exact .whole ⟨r, hsub hr, hid⟩
  | split listed _ ih =>
    obtain ⟨r, hr, hid⟩ := listed
    exact .split ⟨r, hsub hr, hid⟩ ih

theorem register_subset (records : List TokenRecord) : (t : Token) → records ⊆ register records t
  | ⟨id, payload, some parent⟩ => by
    rw [register]
    exact fun r hr => enter_subset _ _ (register_subset records parent hr)
  | ⟨id, payload, none⟩ => by
    rw [register]
    exact enter_subset _ _

theorem register_covers (records : List TokenRecord) : (t : Token) → Covers (register records t) t
  | ⟨id, payload, some parent⟩ => by
    rw [register]
    exact .split (enter_lists _ _) ((register_covers records parent).mono (enter_subset _ _))
  | ⟨id, payload, none⟩ => by
    rw [register]
    exact .whole (enter_lists _ _)

/-- Registering a token enters it and those it was made from, and nothing else. -/
theorem mem_register {known : Set Token}
    (closed : ∀ t ∈ known, ∀ parent, t.parent = some parent → parent ∈ known)
    (old : ∀ r ∈ records, ∃ u ∈ known, r = recordOf u) :
    (t : Token) → t ∈ known → ∀ r ∈ register records t, ∃ u ∈ known, r = recordOf u
  | ⟨id, payload, some parent⟩, ht => by
    intro r hr
    rw [register] at hr
    rcases mem_enter hr with hold | rfl
    · exact mem_register closed old parent (closed _ ht parent rfl) r hold
    · exact ⟨_, ht, rfl⟩
  | ⟨id, payload, none⟩, ht => by
    intro r hr
    rw [register] at hr
    rcases mem_enter hr with hold | rfl
    · exact old r hold
    · exact ⟨_, ht, rfl⟩

theorem registerAll_subset (records : List TokenRecord) (ts : List Token) :
    records ⊆ registerAll records ts := by
  induction ts generalizing records with
  | nil => exact fun r hr => hr
  | cons t rest ih => exact fun r hr => ih (register records t) (register_subset records t hr)

theorem registerAll_covers {ts : List Token} (ht : t ∈ ts) : Covers (registerAll records ts) t := by
  induction ts generalizing records with
  | nil => cases ht
  | cons u rest ih =>
    rcases List.mem_cons.1 ht with rfl | hrest
    · exact (register_covers records t).mono (registerAll_subset _ rest)
    · exact ih hrest

theorem mem_registerAll {known : Set Token}
    (closed : ∀ t ∈ known, ∀ parent, t.parent = some parent → parent ∈ known) {ts : List Token}
    (hts : ∀ t ∈ ts, t ∈ known) (old : ∀ r ∈ records, ∃ u ∈ known, r = recordOf u) :
    ∀ r ∈ registerAll records ts, ∃ u ∈ known, r = recordOf u := by
  induction ts generalizing records with
  | nil => exact old
  | cons t rest ih =>
    refine ih (fun u hu => hts u (List.mem_cons_of_mem _ hu)) ?_
    exact mem_register closed old t (hts t List.mem_cons_self)

/-- A table of tokens that are told apart by their identities describes them. -/
theorem registerAll_reads {known : Set Token}
    (closed : ∀ t ∈ known, ∀ parent, t.parent = some parent → parent ∈ known)
    (apart : ∀ t ∈ known, ∀ u ∈ known, t.id = u.id → t = u) {ts : List Token}
    (hts : ∀ t ∈ ts, t ∈ known) (ht : t ∈ ts) : Reads (registerAll [] ts) t := by
  have hrecords := mem_registerAll closed hts (List.forall_mem_nil _)
  have hfind : ∀ u ∈ known, (∃ r ∈ registerAll [] ts, r.id = u.id) →
      find? (registerAll [] ts) u.id = some (recordOf u) := by
    intro u hu hlisted
    obtain ⟨r, hr⟩ := find?_isSome hlisted
    obtain ⟨v, hv, rfl⟩ := hrecords r (find?_mem hr)
    have hid : v.id = u.id := find?_id hr
    rw [hr, apart v hv u hu hid]
  have hcovers : Covers (registerAll [] ts) t := registerAll_covers ht
  have hknown := hts t ht
  generalize registerAll [] ts = table at hfind hcovers
  clear ht hrecords hts
  induction hcovers with
  | whole listed => exact .whole (hfind _ hknown listed)
  | split listed _ ih => exact .split (hfind _ hknown listed) (ih (closed _ hknown _ rfl))

end RecipeNet.TokenTable
