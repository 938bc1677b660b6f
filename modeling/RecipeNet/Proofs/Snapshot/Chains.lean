import Mathlib.Data.List.Perm.Subperm
import Mathlib.Logic.Relation
import RecipeNet.Proofs.Snapshot.Restoring

/-!
Which token tables are read, and what they are read as. A table is accepted exactly if each of its
chains of parents ends within it, whatever the order of the records and however often an identity is
listed; reading follows a chain for as many steps as the table has identities, and that is enough. A
table that has been written for tokens lists each of them once, after what it was split from, and is
read as the same tokens.
-/

namespace RecipeNet.TokenTable

variable {records : List TokenRecord} {r : TokenRecord} {id a b c : TokenId} {t u : Token}
  {ts : List Token} {fuel : Nat}

/-- The record that counts for its identity: none that comes later has the same. -/
def Counts (records : List TokenRecord) (r : TokenRecord) : Prop :=
  ∃ before after, records = before ++ r :: after ∧ ∀ later ∈ after, later.id ≠ r.id

/-- The record that counts for one identity names the other one as its parent. -/
def Link (records : List TokenRecord) (child parent : TokenId) : Prop :=
  ∃ r, Counts records r ∧ r.id = child ∧ r.parent = some parent

/-- The chain of parents that starts from an identity ends with a record without a parent. -/
def Ends (records : List TokenRecord) (id : TokenId) : Prop :=
  ∃ last, Counts records last ∧ last.parent = none ∧
    Relation.ReflTransGen (Link records) id last.id

theorem find?_eq_some_iff : find? records id = some r ↔ Counts records r ∧ r.id = id := by
  rw [find?, List.find?_eq_some_iff_append]
  constructor
  · rintro ⟨hid, later, earlier, hsplit, hother⟩
    obtain rfl : r.id = id := by simpa using hid
    refine ⟨⟨earlier.reverse, later.reverse, ?_, fun s hs => ?_⟩, rfl⟩
    · rw [← List.reverse_reverse records, hsplit]
      simp
    · simpa using hother s (List.mem_reverse.1 hs)
  · rintro ⟨⟨before, after, rfl, hother⟩, rfl⟩
    refine ⟨by simp, after.reverse, before.reverse, by simp, fun s hs => ?_⟩
    simpa using hother s (List.mem_reverse.1 hs)

theorem link_iff : Link records a b ↔ ∃ r, find? records a = some r ∧ r.parent = some b := by
  simp only [Link, find?_eq_some_iff, and_assoc]

theorem Link.unique (hb : Link records a b) (hc : Link records a c) : b = c := by
  obtain ⟨r, hr, hp⟩ := link_iff.1 hb
  obtain ⟨s, hs, hq⟩ := link_iff.1 hc
  cases hr.symm.trans hs
  exact Option.some.inj (hp.symm.trans hq)

theorem Link.listed (h : Link records a b) : ∃ r ∈ records, r.id = a := by
  obtain ⟨r, hr, -⟩ := link_iff.1 h
  exact ⟨r, find?_mem hr, find?_id hr⟩

/-- What lies on a way that leads round comes round again. -/
theorem transGen_of_reflTransGen (round : Relation.TransGen (Link records) a a)
    (way : Relation.ReflTransGen (Link records) a b) : Relation.TransGen (Link records) b b := by
  induction way with
  | refl => exact round
  | tail _ step ih =>
    obtain ⟨next, hnext, hback⟩ := Relation.TransGen.head'_iff.1 ih
    obtain rfl := step.unique hnext
    exact .tail' hback step

/-! ### Tables that are accepted -/

theorem Reads.listed (h : Reads records t) : ∃ r ∈ records, r.id = t.id := by
  cases h with
  | whole listed | split listed => exact ⟨_, find?_mem listed, rfl⟩

theorem Reads.ends (h : Reads records t) : Ends records t.id := by
  induction h with
  | whole listed => exact ⟨_, (find?_eq_some_iff.1 listed).1, rfl, .refl⟩
  | split listed _ ih =>
    obtain ⟨last, hcounts, hnone, hway⟩ := ih
    exact ⟨last, hcounts, hnone, .head (link_iff.2 ⟨_, listed, rfl⟩) hway⟩

/-- Where the chain of an identity ends, the table describes a token for it. -/
theorem Ends.reads (h : Ends records id) : ∃ t, Reads records t ∧ t.id = id := by
  obtain ⟨⟨root, payload, parent⟩, hcounts, rfl, hway⟩ := h
  induction hway using Relation.ReflTransGen.head_induction_on with
  | refl => exact ⟨_, .whole (find?_eq_some_iff.2 ⟨hcounts, rfl⟩), rfl⟩
  | head step _ ih =>
    obtain ⟨known, hknown, rfl⟩ := ih
    obtain ⟨⟨child, carried, up⟩, hfind, hup⟩ := link_iff.1 step
    obtain rfl : up = some known.id := hup
    obtain rfl := find?_id hfind
    exact ⟨⟨child, carried, some known⟩, .split hfind hknown, rfl⟩

/-- The chain of a token leads through the tokens that it comes from. -/
theorem Reads.reaches (h : Reads records t) (way : Relation.ReflTransGen (Link records) t.id id) :
    ∃ u, Reads records u ∧ u.id = id := by
  induction way with
  | refl => exact ⟨t, h, rfl⟩
  | tail _ step ih =>
    obtain ⟨v, hv, rfl⟩ := ih
    obtain ⟨r, hfind, hparent⟩ := link_iff.1 step
    cases hv with
    | whole listed =>
      cases listed.symm.trans hfind
      cases hparent
    | split listed known =>
      cases listed.symm.trans hfind
      cases hparent
      exact ⟨_, known, rfl⟩

theorem Reads.ancestry (h : Reads records t) : ∀ u ∈ t :: t.ancestry, Reads records u :=
  Token.forall_ancestry (fun _ hu _ hparent => hu.parent hparent) t h

/-- No identity comes twice in the chain of a token that a table describes. -/
theorem Reads.nodup (h : Reads records t) : ((t :: t.ancestry).map (·.id)).Nodup := by
  induction h with
  | whole => exact List.nodup_singleton _
  | @split id payload parent listed known ih =>
    rw [Token.ancestry, List.map_cons, List.nodup_cons]
    refine ⟨fun hmem => ?_, ih⟩
    obtain ⟨u, hu, hid⟩ := List.mem_map.1 hmem
    have hsame := (known.ancestry u hu).unique (.split listed known) hid
    exact Token.notMem_parent rfl (hsame ▸ hu)

/-- The chain of a token is no longer than the table that describes it. -/
theorem Reads.length_le (h : Reads records t) : (t :: t.ancestry).length ≤ size records := by
  rw [size, ← List.length_map (f := (·.id))]
  refine (List.subperm_of_subset h.nodup fun id hid => ?_).length_le
  obtain ⟨u, hu, rfl⟩ := List.mem_map.1 hid
  obtain ⟨r, hr, hrid⟩ := (h.ancestry u hu).listed
  exact List.mem_eraseDups.2 (List.mem_map.2 ⟨r, hr, hrid⟩)

theorem rebuild_of_reads (h : Reads records t) (hfuel : (t :: t.ancestry).length ≤ fuel) :
    rebuild records fuel t.id = .ok t := by
  induction h generalizing fuel with
  | whole listed =>
    obtain ⟨fuel, rfl⟩ : ∃ k, fuel = k + 1 := ⟨fuel - 1, by
      rw [List.length_cons] at hfuel
      omega⟩
    simp only [rebuild, listed]
  | @split id payload parent listed _ ih =>
    rw [List.length_cons, Token.ancestry] at hfuel
    obtain ⟨fuel, rfl⟩ : ∃ k, fuel = k + 1 := ⟨fuel - 1, by omega⟩
    simp only [rebuild, listed, ih (Nat.le_of_succ_le_succ hfuel), Except.map]

/-- Why an identity cannot be read: its chain leads out of the table, or it has as many members as
there is fuel. -/
theorem rebuild_error {reason : Mismatch} (h : rebuild records fuel id = .error reason) :
    ∃ x, Relation.ReflTransGen (Link records) id x ∧
      ((reason = .missing x ∧ ∀ r ∈ records, r.id ≠ x) ∨
        (reason = .cyclic x ∧ ∃ path : List TokenId, path.length = fuel ∧
          path.Pairwise (Relation.TransGen (Link records)) ∧ ∀ y ∈ path,
            Relation.ReflTransGen (Link records) id y ∧ Relation.TransGen (Link records) y x)) := by
  induction fuel generalizing id with
  | zero =>
    cases h
    exact ⟨id, .refl, .inr ⟨rfl, [], rfl, .nil, List.forall_mem_nil _⟩⟩
  | succ fuel ih =>
    rw [rebuild] at h
    cases hfind : find? records id with
    | none =>
      simp only [hfind, Except.error.injEq] at h
      refine ⟨id, .refl, .inl ⟨h.symm, fun r hr hid => ?_⟩⟩
      obtain ⟨s, hs⟩ := find?_isSome ⟨r, hr, hid⟩
      cases hfind.symm.trans hs
    | some r =>
      cases hparent : r.parent with
      | none => simp [hfind, hparent] at h
      | some parent =>
        have hstep : Link records id parent := link_iff.2 ⟨r, hfind, hparent⟩
        simp only [hfind, hparent] at h
        cases hrest : rebuild records fuel parent with
        | ok u => simp [hrest, Except.map] at h
        | error reason' =>
          simp only [hrest, Except.map, Except.error.injEq] at h
          subst h
          obtain ⟨x, hway, hmissing | ⟨hcyclic, path, hlength, hpath, hon⟩⟩ := ih hrest
          · exact ⟨x, .head hstep hway, .inl hmissing⟩
          · refine ⟨x, .head hstep hway, .inr ⟨hcyclic, id :: path, congrArg (· + 1) hlength,
              .cons (fun y hy => .head' hstep (hon y hy).1) hpath, fun y hy => ?_⟩⟩
            rcases List.mem_cons.1 hy with rfl | hlater
            · exact ⟨.refl, .head' hstep hway⟩
            · exact ⟨.head hstep (hon y hlater).1, (hon y hlater).2⟩

/-- A chain with more members than the table has identities leads round. -/
theorem exists_round {path : List TokenId} (long : size records < path.length)
    (hpath : path.Pairwise (Relation.TransGen (Link records)))
    (listed : ∀ y ∈ path, ∃ r ∈ records, r.id = y) :
    ∃ y ∈ path, Relation.TransGen (Link records) y y := by
  by_contra hnone
  have hnodup : path.Nodup := by
    refine hpath.imp_of_mem fun hy _ hway heq => hnone ⟨_, hy, ?_⟩
    exact heq ▸ hway
  refine absurd (List.subperm_of_subset hnodup fun y hy => ?_).length_le (Nat.not_le.2 long)
  obtain ⟨r, hr, hid⟩ := listed y hy
  exact List.mem_eraseDups.2 (List.mem_map.2 ⟨r, hr, hid⟩)

/-- A table is accepted if it describes a token for each of its records. -/
theorem tokens_isOk_iff :
    (∃ ts, tokens records = .ok ts) ↔ ∀ r ∈ records, ∃ t, Reads records t ∧ t.id = r.id := by
  constructor
  · rintro ⟨ts, hts⟩ r hr
    obtain ⟨t, -, ht⟩ := exists_left_of_forall₂ (forall₂_of_mapM hts).flip hr
    obtain ⟨hid, hreads⟩ := rebuild_reads ht
    exact ⟨t, hreads, hid⟩
  · intro h
    refine exists_mapM fun r hr => ?_
    obtain ⟨t, ht, hid⟩ := h r hr
    exact ⟨t, hid ▸ rebuild_of_reads ht (Nat.le_succ_of_le ht.length_le)⟩

/-- What is wrong with a table that is refused. -/
theorem tokens_error {reason : Mismatch} (h : tokens records = .error reason) :
    ∃ r ∈ records, ∃ x, Relation.ReflTransGen (Link records) r.id x ∧
      ((reason = .missing x ∧ ∀ r' ∈ records, r'.id ≠ x) ∨
        (reason = .cyclic x ∧ Relation.TransGen (Link records) x x)) := by
  obtain ⟨r, hr, hrebuild⟩ := exists_error_of_mapM h
  obtain ⟨x, hway, hmissing | ⟨hcyclic, path, hlength, hpath, hon⟩⟩ := rebuild_error hrebuild
  · exact ⟨r, hr, x, hway, .inl hmissing⟩
  · obtain ⟨y, hy, hround⟩ := exists_round (by omega) hpath fun y hy => by
      obtain ⟨next, hstep, -⟩ := Relation.TransGen.head'_iff.1 (hon y hy).2
      exact hstep.listed
    exact ⟨r, hr, x, hway, .inr ⟨hcyclic, transGen_of_reflTransGen hround (hon y hy).2.to_reflTransGen⟩⟩

/-- Every identity of a table stands for a token. -/
theorem resolve_listed (h : tokens records = .ok ts) (listed : ∃ r ∈ records, r.id = id) :
    ∃ t, resolve ts id = .ok t := by
  obtain ⟨r, hr, rfl⟩ := listed
  obtain ⟨t, ht, hrebuild⟩ := exists_left_of_forall₂ (forall₂_of_mapM h).flip hr
  have hid := (rebuild_reads hrebuild).1
  have hsome : (ts.find? (·.id == r.id)).isSome :=
    List.find?_isSome.2 ⟨t, ht, by simp [hid]⟩
  obtain ⟨u, hu⟩ := Option.isSome_iff_exists.1 hsome
  exact ⟨u, by rw [resolve, hu]⟩

/-- What a table says of an identity it lists. -/
theorem resolve_record (h : tokens records = .ok ts) (ht : resolve ts id = .ok t) :
    ∃ r, Counts records r ∧ r.id = id ∧ t.id = id ∧ t.payload = r.payload ∧
      (r.parent = none → t.parent = none) ∧
      ∀ p, r.parent = some p → ∃ parent, resolve ts p = .ok parent ∧ t.parent = some parent := by
  obtain ⟨hmem, rfl⟩ := resolve_ok ht
  cases tokens_reads h hmem with
  | whole listed =>
    exact ⟨_, (find?_eq_some_iff.1 listed).1, rfl, rfl, rfl, fun _ => rfl, nofun⟩
  | @split id payload parent listed known =>
    refine ⟨_, (find?_eq_some_iff.1 listed).1, rfl, rfl, rfl, nofun, fun p hp => ?_⟩
    obtain rfl := Option.some.inj hp
    obtain ⟨u, hu⟩ := resolve_listed h known.listed
    obtain ⟨hmem', hid⟩ := resolve_ok hu
    exact ⟨u, hu, congrArg some (known.unique (tokens_reads h hmem') hid.symm)⟩

/-- A new net refuses a snapshot whose table cannot be read, and says why. -/
theorem restore_unreadable {e : Engine} {snapshot : Snapshot} {reason : Mismatch} (created : e.status = .created)
    (fits : e.misfit? snapshot.planId snapshot.version snapshot.fingerprint = none)
    (h : tokens snapshot.tokens = .error reason) :
    (e.restore snapshot).2 = .error (.snapshotMismatch e.plan.id reason) := by
  obtain ⟨planId, version, fingerprint, time, table, places, transitions⟩ := snapshot
  have hunpack : Snapshot.unpack e.holdings table places transitions = .error reason := by
    rw [Snapshot.unpack, h]
    rfl
  rw [Engine.restore, if_neg (not_not.2 created), fits]
  simp only [hunpack]

/-- A table is accepted exactly if every identity that the chains of its records lead to is in the
table and each chain ends. Any other table is refused, because a chain leads out of it or round, and
with it each snapshot that has it. What an accepted table gives for an identity is what the last
record of that identity says, and it gives nothing for others. -/
theorem accepted_iff_chains_end (records : List TokenRecord) :
    ((∃ ts, tokens records = .ok ts) ↔ ∀ r ∈ records,
      (∀ id, Relation.ReflTransGen (Link records) r.id id → ∃ r' ∈ records, r'.id = id) ∧
        Ends records r.id) ∧
    (∀ reason, tokens records = .error reason →
      (∃ r ∈ records, ∃ x, Relation.ReflTransGen (Link records) r.id x ∧
        ((reason = .missing x ∧ ∀ r' ∈ records, r'.id ≠ x) ∨
          (reason = .cyclic x ∧ Relation.TransGen (Link records) x x))) ∧
      ∀ (e : Engine) (snapshot : Snapshot), snapshot.tokens = records → e.status = .created →
        e.misfit? snapshot.planId snapshot.version snapshot.fingerprint = none →
        (e.restore snapshot).2 = .error (.snapshotMismatch e.plan.id reason)) ∧
    ∀ ts, tokens records = .ok ts → ∀ id,
      ((∃ t, resolve ts id = .ok t) ↔ ∃ r ∈ records, r.id = id) ∧
      ∀ t, resolve ts id = .ok t → ∃ r, Counts records r ∧ r.id = id ∧ t.id = id ∧
        t.payload = r.payload ∧ (r.parent = none → t.parent = none) ∧
        ∀ p, r.parent = some p → ∃ parent, resolve ts p = .ok parent ∧ t.parent = some parent := by
  refine ⟨?_, fun reason h => ⟨tokens_error h, ?_⟩, fun ts h id => ⟨⟨?_, resolve_listed h⟩, ?_⟩⟩
  · rw [tokens_isOk_iff]
    refine ⟨fun h r hr => ?_, fun h r hr => (h r hr).2.reads⟩
    obtain ⟨t, ht, hid⟩ := h r hr
    rw [← hid]
    refine ⟨fun id hway => ?_, ht.ends⟩
    obtain ⟨u, hu, rfl⟩ := ht.reaches hway
    exact hu.listed
  · rintro e snapshot rfl created fits
    exact restore_unreadable created fits h
  · rintro ⟨t, ht⟩
    obtain ⟨hmem, rfl⟩ := resolve_ok ht
    exact (tokens_reads h hmem).listed
  · exact fun t ht => resolve_record h ht

/-- A table in no order, with one identity listed twice. -/
def attic : List TokenRecord :=
  [⟨⟨1⟩, none, some ⟨2⟩⟩, ⟨⟨4⟩, none, some ⟨2⟩⟩, ⟨⟨2⟩, none, some ⟨3⟩⟩, ⟨⟨1⟩, some (.bool true), some ⟨4⟩⟩,
    ⟨⟨3⟩, none, none⟩]

/-- The attic is accepted, and the later record counts for the identity that is listed twice. Without
the record in which all its chains end it is refused. -/
theorem attic_accepted : (∃ ts, tokens attic = .ok ts ∧ (∀ r ∈ attic, Ends attic r.id) ∧
      ∃ t parent, resolve ts ⟨1⟩ = .ok t ∧ t.payload = some (.bool true) ∧
        resolve ts ⟨4⟩ = .ok parent ∧ t.parent = some parent) ∧
    tokens (attic.take 4) = .error (.missing ⟨3⟩) ∧
    ∃ r ∈ attic.take 4, Relation.ReflTransGen (Link (attic.take 4)) r.id ⟨3⟩ := by
  obtain ⟨ts, hts⟩ : ∃ ts, tokens attic = .ok ts := ⟨_, rfl⟩
  have hrefused : tokens (attic.take 4) = .error (.missing ⟨3⟩) := rfl
  have hlast : find? attic ⟨1⟩ = some ⟨⟨1⟩, some (.bool true), some ⟨4⟩⟩ := by decide
  obtain ⟨hiff, -, hread⟩ := accepted_iff_chains_end attic
  obtain ⟨hlisted, hrecord⟩ := hread ts hts ⟨1⟩
  obtain ⟨t, ht⟩ := hlisted.2 ⟨_, List.mem_cons_self, rfl⟩
  obtain ⟨r, hcounts, hid, -, hpayload, -, hparent⟩ := hrecord t ht
  cases hlast.symm.trans (find?_eq_some_iff.2 ⟨hcounts, hid⟩)
  obtain ⟨parent, hresolved, hp⟩ := hparent ⟨4⟩ rfl
  obtain ⟨⟨r, hr, x, hway, ⟨hmissing, -⟩ | ⟨hcyclic, -⟩⟩, -⟩ :=
    (accepted_iff_chains_end (attic.take 4)).2.1 _ hrefused
  · cases hmissing
    exact ⟨⟨ts, hts, fun r hr => (hiff.1 ⟨ts, hts⟩ r hr).2, t, parent, ht, hpayload, hresolved, hp⟩,
      hrefused, r, hr, hway⟩
  · cases hcyclic

/-! ### Tables that are written -/

/-- A table without two records of one identity, in which each record comes after
that of its parent. -/
inductive Grounded : List TokenRecord → Prop
  | nil : Grounded []
  | snoc {records : List TokenRecord} {r : TokenRecord} (before : Grounded records)
      (new : ∀ r' ∈ records, r'.id ≠ r.id)
      (rooted : ∀ parent, r.parent = some parent → ∃ r' ∈ records, r'.id = parent) :
    Grounded (records ++ [r])

theorem Covers.listed (h : Covers records t) : ∃ r ∈ records, r.id = t.id := by
  cases h with
  | whole listed => exact listed
  | split listed => exact listed

theorem Grounded.enter (h : Grounded records)
    (rooted : ∀ parent, r.parent = some parent → ∃ r' ∈ records, r'.id = parent) :
    Grounded (enter records r) := by
  unfold TokenTable.enter
  by_cases hany : records.any (·.id == r.id) = true
  · rw [if_pos hany]
    exact h
  · rw [if_neg hany]
    refine .snoc h (fun r' hr' hid => hany ?_) rooted
    exact List.any_eq_true.2 ⟨r', hr', by simp [hid]⟩

theorem Grounded.register (h : Grounded records) : (t : Token) → Grounded (register records t)
  | ⟨id, payload, some parent⟩ => by
    rw [TokenTable.register]
    refine (Grounded.register h parent).enter fun p hp => ?_
    obtain rfl : parent.id = p := Option.some.inj hp
    exact (register_covers records parent).listed
  | ⟨id, payload, none⟩ => by
    rw [TokenTable.register]
    exact h.enter fun _ hp => by cases hp

theorem Grounded.registerAll (h : Grounded records) (ts : List Token) :
    Grounded (registerAll records ts) := by
  induction ts generalizing records with
  | nil => exact h
  | cons t rest ih => exact ih (h.register t)

theorem Grounded.nodup (h : Grounded records) : (records.map (·.id)).Nodup := by
  induction h with
  | nil => exact List.nodup_nil
  | snoc _ new _ ih =>
    rw [List.map_append]
    refine ih.append (List.nodup_singleton _) fun id hid hlast => ?_
    obtain ⟨r', hr', rfl⟩ := List.mem_map.1 hid
    exact new r' hr' (List.mem_singleton.1 hlast)

theorem find?_concat (hne : r.id ≠ id) : find? (records ++ [r]) id = find? records id := by
  rw [find?, List.reverse_append, List.reverse_singleton, List.singleton_append,
    List.find?_cons_of_neg (by simpa using hne)]
  rfl

theorem find?_last (records : List TokenRecord) (r : TokenRecord) :
    find? (records ++ [r]) r.id = some r :=
  find?_eq_some_iff.2 ⟨⟨records, [], rfl, List.forall_mem_nil _⟩, rfl⟩

/-- A record at the end of a table does not matter to the tokens before it. -/
theorem Reads.concat (new : ∀ r' ∈ records, r'.id ≠ r.id) (h : Reads records t) :
    Reads (records ++ [r]) t := by
  have hother : ∀ {id r'}, find? records id = some r' → find? (records ++ [r]) id = some r' := by
    intro id r' hfind
    have hne := new r' (find?_mem hfind)
    rw [find?_id hfind] at hne
    rwa [find?_concat hne.symm]
  induction h with
  | whole listed => exact .whole (hother listed)
  | split listed _ ih => exact .split (hother listed) ih

/-- The chains of a table in order end within it. -/
theorem Grounded.reads (h : Grounded records) : ∀ r ∈ records, ∃ t, Reads records t ∧ t.id = r.id := by
  induction h with
  | nil => exact List.forall_mem_nil _
  | @snoc records last before new rooted ih =>
    intro r hr
    rcases List.mem_append.1 hr with hold | hlast
    · obtain ⟨t, ht, hid⟩ := ih r hold
      exact ⟨t, ht.concat new, hid⟩
    · obtain rfl := List.mem_singleton.1 hlast
      obtain ⟨id, payload, parent⟩ := r
      have hfind := find?_last records ⟨id, payload, parent⟩
      cases parent with
      | none => exact ⟨_, .whole hfind, rfl⟩
      | some parent =>
        obtain ⟨old, hmem, rfl⟩ := rooted parent rfl
        obtain ⟨t, ht, hid⟩ := ih old hmem
        rw [← hid] at hfind ⊢
        exact ⟨_, .split hfind (ht.concat new), rfl⟩

theorem Grounded.tokens (h : Grounded records) : ∃ ts, tokens records = .ok ts :=
  tokens_isOk_iff.2 h.reads

def kin (ts : List Token) : List Token := ts.flatMap fun t => t :: t.ancestry

theorem kin_closed (ht : t ∈ kin ts) {parent : Token} (hp : t.parent = some parent) :
    parent ∈ kin ts := by
  obtain ⟨u, hu, hmem⟩ := List.mem_flatMap.1 ht
  exact List.mem_flatMap.2 ⟨u, hu, List.mem_cons_of_mem _ (Token.mem_ancestry hp u hmem)⟩

theorem mem_kin (ht : t ∈ ts) : t ∈ kin ts :=
  List.mem_flatMap.2 ⟨t, ht, List.mem_cons_self⟩

/-- Tokens with the same identity are the same if they carry the same and the identities in their
chains are the same. -/
theorem eq_of_id (apart : ∀ t ∈ kin ts, ∀ u ∈ kin ts, t.id = u.id →
      t.payload = u.payload ∧ t.ancestry.map (·.id) = u.ancestry.map (·.id)) :
    ∀ t u : Token, t ∈ kin ts → u ∈ kin ts → t.id = u.id → t = u
  | ⟨id, payload, none⟩, ⟨id', payload', none⟩, ht, hu, hid => by
    obtain ⟨hpayload, -⟩ := apart _ ht _ hu hid
    obtain rfl : id = id' := hid
    obtain rfl : payload = payload' := hpayload
    rfl
  | ⟨id, payload, some p⟩, ⟨id', payload', some q⟩, ht, hu, hid => by
    obtain ⟨hpayload, hchain⟩ := apart _ ht _ hu hid
    obtain rfl : id = id' := hid
    obtain rfl : payload = payload' := hpayload
    rw [Token.ancestry, Token.ancestry] at hchain
    rw [eq_of_id apart p q (kin_closed ht rfl) (kin_closed hu rfl) (List.cons.inj hchain).1]
  | ⟨id, payload, none⟩, ⟨id', payload', some q⟩, ht, hu, hid => by
    have hchain := (apart _ ht _ hu hid).2
    rw [Token.ancestry, Token.ancestry] at hchain
    cases hchain
  | ⟨id, payload, some p⟩, ⟨id', payload', none⟩, ht, hu, hid => by
    have hchain := (apart _ ht _ hu hid).2
    rw [Token.ancestry, Token.ancestry] at hchain
    cases hchain

/-- In a table in order the record of a parent comes before each record that names it. -/
theorem Grounded.before (h : Grounded records) (hr : r ∈ records) (hp : r.parent = some a) :
    ∃ q, q.id = a ∧ [q, r].Sublist records := by
  induction h with
  | nil => cases hr
  | @snoc records last _ _ rooted ih =>
    rcases List.mem_append.1 hr with hold | hlast
    · obtain ⟨q, hq, hsub⟩ := ih hold
      exact ⟨q, hq, hsub.trans (List.sublist_append_left _ _)⟩
    · obtain rfl := List.mem_singleton.1 hlast
      obtain ⟨q, hmem, hq⟩ := rooted a hp
      exact ⟨q, hq, (List.singleton_sublist.2 hmem).append (List.Sublist.refl [r])⟩

/-- Written for tokens that their identities tell apart, a table lists each of them and each that
they were split from once and nothing else, parents come before what was split from them, and it is
read as the same tokens. -/
theorem written_read_back (ts : List Token) (apart : ∀ t ∈ kin ts, ∀ u ∈ kin ts, t.id = u.id →
      t.payload = u.payload ∧ t.ancestry.map (·.id) = u.ancestry.map (·.id)) :
    ((registerAll [] ts).map (·.id)).Nodup ∧
    (∀ r, r ∈ registerAll [] ts ↔ ∃ t ∈ kin ts, recordOf t = r) ∧
    (∀ t ∈ kin ts, ∀ parent, t.parent = some parent →
      [recordOf parent, recordOf t].Sublist (registerAll [] ts)) ∧
    ∃ restored, tokens (registerAll [] ts) = .ok restored ∧
      ∀ t ∈ kin ts, resolve restored t.id = .ok t := by
  have hsame := eq_of_id apart
  have hclosed : ∀ t ∈ {t | t ∈ kin ts}, ∀ parent, t.parent = some parent → parent ∈ {t | t ∈ kin ts} :=
    fun _ ht _ hp => kin_closed ht hp
  have hgrounded : Grounded (registerAll [] ts) := Grounded.nil.registerAll ts
  have hknown := mem_registerAll hclosed (fun _ ht => mem_kin ht) (List.forall_mem_nil _)
  have hreads : ∀ t ∈ kin ts, Reads (registerAll [] ts) t := by
    intro t ht
    obtain ⟨u, hu, hmem⟩ := List.mem_flatMap.1 ht
    have htop := registerAll_reads hclosed (fun v hv w hw => hsame v w hv hw) (fun _ => mem_kin) hu
    exact htop.ancestry t hmem
  have hlisted : ∀ t ∈ kin ts, recordOf t ∈ registerAll [] ts := by
    intro t ht
    obtain ⟨r, hr, hid⟩ := (hreads t ht).listed
    obtain ⟨v, hv, rfl⟩ := hknown r hr
    rwa [hsame t v ht hv hid.symm]
  refine ⟨hgrounded.nodup, fun r => ⟨fun hr => ?_, ?_⟩, fun t ht parent hp => ?_, ?_⟩
  · obtain ⟨t, ht, rfl⟩ := hknown r hr
    exact ⟨t, ht, rfl⟩
  · rintro ⟨t, ht, rfl⟩
    exact hlisted t ht
  · have hnamed : (recordOf t).parent = some parent.id := by
      rw [recordOf, hp]
      rfl
    obtain ⟨q, hq, hsub⟩ := hgrounded.before (hlisted t ht) hnamed
    obtain ⟨v, hv, rfl⟩ := hknown q (hsub.subset List.mem_cons_self)
    rwa [hsame v parent hv (kin_closed ht hp) hq] at hsub
  · obtain ⟨restored, hrestored⟩ := hgrounded.tokens
    refine ⟨restored, hrestored, fun t ht => ?_⟩
    obtain ⟨u, hu⟩ := resolve_listed hrestored (hreads t ht).listed
    obtain ⟨hmem, hid⟩ := resolve_ok hu
    rw [hu, (hreads t ht).unique (tokens_reads hrestored hmem) hid.symm]

def loaf : Token := ⟨⟨3⟩, some (.str "rye"), none⟩
def slice : Token := ⟨⟨1⟩, none, some loaf⟩
def heel : Token := ⟨⟨2⟩, none, some loaf⟩
def crumb : Token := ⟨⟨4⟩, none, some slice⟩

/-- A crumb is listed after the slice it is from, and the slice after the loaf, and all are read back
although two of them were not registered themselves. -/
theorem crumb_read_back :
    (registerAll [] [crumb, heel, crumb]).map (·.id) = [⟨3⟩, ⟨1⟩, ⟨4⟩, ⟨2⟩] ∧
    ∃ restored, tokens (registerAll [] [crumb, heel, crumb]) = .ok restored ∧
      ∀ t ∈ [crumb, slice, heel, loaf], resolve restored t.id = .ok t := by
  obtain ⟨-, -, -, restored, hrestored, hback⟩ := written_read_back [crumb, heel, crumb] (by decide)
  refine ⟨by decide, restored, hrestored, fun t ht => hback t ?_⟩
  simp only [List.mem_cons, List.not_mem_nil, or_false] at ht
  rcases ht with rfl | rfl | rfl | rfl <;> simp [kin, crumb, slice, heel, Token.ancestry]

end RecipeNet.TokenTable
