import RecipeNet.Proofs.Rest
import RecipeNet.Proofs.Sharing

/-!
What a work item carries. A token that is made in a run carries what the token that the
run began with does: siblings have it from what was split, the start token of a nested
net is given it, and a token table keeps it. In the net itself a token also still comes
from the token that the start token came from; a nested net starts a chain of its own.
-/

namespace RecipeNet

namespace Token

def origin : Token → Token
  | ⟨_, _, some parent⟩ => origin parent
  | t => t

/-- A token as it can be made: whole, with a payload or without one, or as a sibling of
another token. Each gets an identity of its own. -/
inductive Made : Token → Prop
  | new (id : TokenId) : Made ⟨id, none, none⟩
  | withPayload (id : TokenId) (payload : Json) : Made ⟨id, some payload, none⟩
  | splitOf {id : TokenId} {original : Token} (made : Made original)
      (own : ∀ u ∈ original :: original.ancestry, u.id ≠ id) : Made ⟨id, none, some original⟩

/-- A token that carries a payload, and has it from its parent if there is one. -/
structure Carries (payload : Option Json) (t : Token) : Prop where
  bare : ∀ parent, t.parent = some parent → t.payload = none
  effective : t.effectivePayload = payload

variable {t original : Token} {payload : Option Json}

theorem effectivePayload_split (bare : t.payload = none) (h : t.parent = some original) :
    t.effectivePayload = original.effectivePayload := by
  obtain ⟨id, own, whole⟩ := t
  obtain rfl : own = none := bare
  obtain rfl : whole = some original := h
  rw [effectivePayload]

theorem effectivePayload_whole (h : t.parent = none) : t.effectivePayload = t.payload := by
  obtain ⟨id, own, whole⟩ := t
  obtain rfl : whole = none := h
  cases own <;> rw [effectivePayload]

theorem origin_split (h : t.parent = some original) : t.origin = original.origin := by
  obtain ⟨id, own, whole⟩ := t
  obtain rfl : whole = some original := h
  rw [origin]

/-- A sibling carries what the token that was split does. -/
theorem Carries.sibling (h : t.Carries payload) {id : TokenId} :
    Carries payload ⟨id, none, some t⟩ :=
  ⟨fun _ _ => rfl, (effectivePayload_split rfl rfl).trans h.effective⟩

/-- The token that a nested net starts with carries what the one it runs for does. -/
theorem Carries.start (h : t.Carries payload) (s : Supply) :
    (Nest.startToken t s).1.Carries payload :=
  ⟨fun _ hp => (by cases hp), (effectivePayload_whole rfl).trans h.effective⟩

/-- A token that has been made is told apart from those that it comes from, all of which
carry what it carries and have come from the same one. -/
theorem Made.line (h : t.Made) : t.Proper ∧
    ∀ u ∈ t :: t.ancestry, u.Carries t.effectivePayload ∧ u.origin = t.origin := by
  have halone : ∀ id payload, (⟨id, payload, none⟩ : Token).Proper ∧
      ∀ u ∈ (⟨id, payload, none⟩ : Token) :: ancestry ⟨id, payload, none⟩,
        u.Carries (effectivePayload ⟨id, payload, none⟩) ∧ u.origin = origin ⟨id, payload, none⟩ := by
    intro id payload
    refine ⟨fun u hu v hv _ => ?_, fun u hu => ?_⟩
    · rw [List.mem_singleton.1 hu, List.mem_singleton.1 hv]
    · rw [List.mem_singleton.1 hu]
      exact ⟨⟨fun _ hp => (by cases hp), rfl⟩, rfl⟩
  induction h with
  | new id => exact halone id none
  | withPayload id payload => exact halone id (some payload)
  | @splitOf id original made own ih =>
    obtain ⟨hproper, hline⟩ := ih
    have hsame : effectivePayload ⟨id, none, some original⟩ = original.effectivePayload :=
      effectivePayload_split rfl rfl
    have horigin : origin ⟨id, none, some original⟩ = original.origin := origin_split rfl
    have hhead := (hline original List.mem_cons_self).1
    unfold Proper
    rw [ancestry_eq (t := ⟨id, none, some original⟩) rfl, hsame, horigin]
    constructor
    · intro u hu v hv hid
      rcases List.mem_cons.1 hu with rfl | hu'
      · rcases List.mem_cons.1 hv with rfl | hv'
        · rfl
        · exact absurd hid.symm (own v hv')
      · rcases List.mem_cons.1 hv with rfl | hv'
        · exact absurd hid (own u hu')
        · exact hproper u hu' v hv' hid
    · intro u hu
      rcases List.mem_cons.1 hu with rfl | hu'
      · exact ⟨hhead.sibling, horigin⟩
      · exact hline u hu'

end Token

structure Lore.Carries (t : Token) (lore : Lore) : Prop where
  payload : ∀ path, ∀ u ∈ lore path, u.Carries t.effectivePayload
  origin : ∀ u ∈ lore, u.origin = t.origin

/-- The siblings and start tokens that a firing makes carry what it takes. -/
theorem Transition.Fires.fresh_carries {step : String} {outs : Nat} {s : Supply} {tr : Transition}
    {firing : Firing} {payload : Option Json} (h : tr.Fires step outs s firing)
    (taken : ∀ x ∈ firing.taken, x.2.Carries payload) :
    (∀ u ∈ firing.fresh, u.Carries payload) ∧ ∀ u ∈ firing.inner, u.Carries payload := by
  cases h with
  | split input t =>
    refine ⟨fun u hu => ?_, List.forall_mem_nil _⟩
    obtain ⟨x, hx, rfl⟩ := List.mem_map.1 hu
    obtain ⟨y, -, rfl⟩ := List.mem_map.1 hx
    exact (taken (input, t) List.mem_cons_self).sibling
  | launch nest child t =>
    exact ⟨List.forall_mem_nil _,
      List.forall_mem_singleton.2 ((taken (0, t) List.mem_cons_self).start s)⟩
  | pass | routed | join | begin => exact ⟨List.forall_mem_nil _, List.forall_mem_nil _⟩

theorem Transition.Fires.fresh_origin {step : String} {outs : Nat} {s : Supply} {tr : Transition}
    {firing : Firing} {origin : Token} (h : tr.Fires step outs s firing)
    (taken : ∀ x ∈ firing.taken, x.2.origin = origin) : ∀ u ∈ firing.fresh, u.origin = origin := by
  cases h with
  | split input t =>
    intro u hu
    obtain ⟨x, hx, rfl⟩ := List.mem_map.1 hu
    obtain ⟨y, -, rfl⟩ := List.mem_map.1 hx
    exact (Token.origin_split rfl).trans (taken (input, t) List.mem_cons_self)
  | launch | pass | routed | join | begin => exact List.forall_mem_nil _

namespace Act

variable {sc sc' : Scene} {events : List Event}

/-- What comes to be known carries what was known before, at each depth. -/
theorem carries_payload {payload : Option Json} (h : Act sc events sc')
    (hsc : ∀ path, ∀ u ∈ sc.lore path, u.Carries payload) :
    ∀ path, ∀ u ∈ sc'.lore path, u.Carries payload := by
  induction h with
  | @fired sc i slot firing r r' running stands fires known =>
    obtain ⟨hfresh, hinner⟩ := fires.fresh_carries fun x hx => hsc [] x.2 (known x hx)
    intro path u hu
    rcases hu with hold | ⟨-, hnew⟩ | ⟨-, hnew⟩
    · exact hsc path u hold
    · exact hfresh u hnew
    · exact hinner u hnew
  | @inside sc i slot nest t child child' events s' lore' running stands busy act ih =>
    have hchild := ih fun path => hsc (slot.step :: path)
    intro path u hu
    cases path with
    | nil => exact hsc [] u hu
    | cons head path =>
      change u ∈ if head = slot.step then lore' path else sc.lore (head :: path) at hu
      by_cases hhead : head = slot.step
      · rw [if_pos hhead] at hu
        exact hchild path u hu
      · rw [if_neg hhead] at hu
        exact hsc (head :: path) u hu
  | _ => exact hsc

/-- What comes to be known in the net itself comes from what was known there. -/
theorem carries {t : Token} (h : Act sc events sc') (hsc : Lore.Carries t sc.lore) :
    Lore.Carries t sc'.lore := by
  refine ⟨h.carries_payload hsc.payload, ?_⟩
  cases h with
  | fired running stands fires known =>
    have hfresh := fires.fresh_origin fun x hx => hsc.origin x.2 (known x hx)
    intro u hu
    rcases Lore.mem_grow.1 hu with hold | hnew
    · exact hsc.origin u hold
    · exact hfresh u hnew
  | _ => exact hsc.origin

/-- A net ends with a token that is known in it. -/
theorem completion_known (h : Act sc events sc') {place : String} {u : Token}
    (hend : sc'.engine.completion = some (place, u)) :
    sc.engine.completion = some (place, u) ∨ u ∈ sc'.lore := by
  cases h with
  | ended running stands terminal known =>
    cases hend
    exact .inr known
  | botched | refused | balked | sunk =>
    left
    unfold Engine.halt at hend
    split at hend <;> exact hend
  | _ => exact .inl hend

end Act

theorem Course.carries {sc sc' : Scene} {events : List Event} {t : Token} (h : Course sc events sc')
    (hsc : Lore.Carries t sc.lore) : Lore.Carries t sc'.lore :=
  h.keeps (P := fun sc => Lore.Carries t sc.lore) (fun act ha => act.carries ha) hsc

theorem Course.completion_known {sc sc' : Scene} {events : List Event} (h : Course sc events sc')
    {place : String} {u : Token} (hend : sc'.engine.completion = some (place, u)) :
    sc.engine.completion = some (place, u) ∨ u ∈ sc'.lore := by
  induction h with
  | nil => exact .inl hend
  | cons act rest ih =>
    rcases ih hend with hmid | hknown
    · exact (act.completion_known hmid).imp_right rest.lore_mono
    · exact .inr hknown

namespace TokenTable

variable {known : Set Token}

/-- A table of tokens that are told apart by their identities describes no others. -/
theorem mem_of_reads (closed : ∀ t ∈ known, ∀ parent, t.parent = some parent → parent ∈ known)
    (apart : ∀ t ∈ known, ∀ u ∈ known, t.id = u.id → t = u) {ts : List Token}
    (hts : ∀ t ∈ ts, t ∈ known) {t : Token} (h : Reads (registerAll [] ts) t) : t ∈ known := by
  have hrecords := mem_registerAll closed hts (List.forall_mem_nil _)
  have hlisted : ∀ {id r}, find? (registerAll [] ts) id = some r →
      ∃ u ∈ known, r = recordOf u := fun hr => hrecords _ (find?_mem hr)
  induction h with
  | whole listed =>
    obtain ⟨⟨id, payload, parent⟩, hu, hr⟩ := hlisted listed
    obtain ⟨rfl, rfl, hparent⟩ := TokenRecord.mk.inj hr
    cases parent with
    | none => exact hu
    | some p => cases hparent
  | @split id payload parent listed _ ih =>
    obtain ⟨⟨id, payload, whole⟩, hu, hr⟩ := hlisted listed
    obtain ⟨rfl, rfl, hparent⟩ := TokenRecord.mk.inj hr
    cases whole with
    | none => cases hparent
    | some p =>
      have hid : p.id = parent.id := (Option.some.inj hparent).symm
      obtain rfl := apart p (closed _ hu p rfl) parent ih hid
      exact hu

end TokenTable

structure Snapshot.Carries (t : Token) (snapshot : Snapshot) : Prop where
  payload : snapshot.Throughout fun inner =>
    ∀ u, TokenTable.Reads inner.tokens u → u.Carries t.effectivePayload
  origin : ∀ u, TokenTable.Reads snapshot.tokens u → u.origin = t.origin

def World.solely (t : Token) : World := ⟨(· = t), Supply.Fresh, fun _ => False⟩

namespace Engine

variable {fitter : Fitter} {plan : Plan} {e : Engine} {t : Token} {now : Timestamp}
  {snapshot : Snapshot}

structure Carries (t : Token) (e : Engine) : Prop where
  coherent : e.lore.Coherent
  lore : Lore.Carries t e.lore
  completion : ∀ place u, e.completion = some (place, u) →
    u.Carries t.effectivePayload ∧ u.origin = t.origin

theorem Built.carries (h : Built fitter plan e) (t : Token) : e.Carries t := by
  have hnone : ∀ path u, u ∉ e.lore path := fun path u =>
    not_mentionsAt h.empty (fun slot hs => (h.fresh hs).2.2) (fun slot hs => h.vacant hs) path u
  refine ⟨fun path u hu => absurd hu (hnone path u), ⟨fun path u hu => absurd hu (hnone path u),
    fun u hu => absurd hu (hnone [] u)⟩, fun place u hend => ?_⟩
  cases h.completion.symm.trans hend

/-- What is known of all tokens that a net mentions is known of those that a net within
mentions. -/
theorem throughout_mentions {P : Engine → Prop} (h : e.Throughout P) {Q : Token → Prop}
    (all : ∀ path, ∀ u ∈ e.lore path, Q u) :
    e.Throughout fun e => ∀ path, ∀ u ∈ e.lore path, Q u := by
  induction h with
  | @intro e here inside ih =>
    refine .intro all fun slot hs nest t child hbusy => ih slot hs nest t child hbusy ?_
    exact fun path u hu => all (slot.step :: path) u (below_lore hs hbusy path hu)

/-- What a snapshot of a net describes is known in the net, at each depth. -/
theorem Carries.captured (h : e.Carries t) (hp : e.Pausable) (now : Timestamp) :
    (e.captured now).Carries t := by
  have hknown : ∀ {e : Engine}, e.lore.Coherent → ∀ u,
      TokenTable.Reads (e.captured now).tokens u → u ∈ e.lore := fun {e} hcoherent u hu =>
    TokenTable.mem_of_reads (e.lore_closed []) (hcoherent []) (fun _ hu => mem_tokens hu) hu
  have hall := (throughout_coherent hp h.coherent).and (throughout_mentions hp h.lore.payload)
  exact ⟨captured_throughout hall hp fun e ⟨hcoherent, hlore⟩ u hu => hlore [] u (hknown hcoherent u hu),
    fun u hu => h.lore.origin u (hknown h.coherent u hu)⟩

theorem restore_unended (h : e.completion = none) (snapshot : Snapshot) :
    (e.restore snapshot).1.completion = none := by
  rcases restore_cases e snapshot with ⟨e', hok, hloads⟩ | ⟨f, herror⟩ | ⟨slots, f, herror, -⟩
  · obtain ⟨_, _, -, -, -, -, rfl⟩ := hloads.loaded
    rw [hok]
    exact h
  · rw [herror]
    exact h
  · rw [herror]
    exact h

/-- What a new net gets from a snapshot is described by it, at each depth. -/
theorem Carries.restore (hf : fitter.Regular) (hbuild : build fitter plan = .ok e)
    (h : snapshot.Carries t) : (e.restore snapshot).1.Carries t := by
  have hstocked := (restore_throughout hf h.payload hbuild).2
  have hpayload : ∀ {e : Engine}, (e.Throughout fun e => ∃ snapshot,
      (∀ u, TokenTable.Reads snapshot.tokens u → u.Carries t.effectivePayload) ∧
        e.Stocked fitter snapshot) → ∀ path, ∀ u ∈ e.lore path, u.Carries t.effectivePayload := by
    intro e hall path
    induction path generalizing e with
    | nil =>
      obtain ⟨inner, htable, hown⟩ := hall.here
      exact fun u hu => htable u (hown.own hu)
    | cons step path ih =>
      intro u hu
      obtain ⟨slot, hs, -, nest, v, child, hbusy, hinside⟩ := MentionsAt.inside hu
      exact ih (hall.child hs hbusy) u hinside
  refine ⟨coherent_of_stocked (hstocked.imp fun e ⟨inner, _, hs⟩ => ⟨inner, hs⟩),
    ⟨hpayload hstocked, fun u hu => h.origin u ((restore_stocked hf hbuild snapshot).own hu)⟩,
    fun place u hend => ?_⟩
  cases (restore_unended (built_of_build hbuild).completion snapshot).symm.trans hend

/-- What a call sets to work carries what the start token does. -/
theorem Carries.opened (hsteady : e.Steady fitter plan) (made : t.Made) (h : e.Carries t)
    {call : Call} (starts : ∀ u, call = .start u → u = t) : (e.opened call).Carries t := by
  refine ⟨hsteady.opened_coherent h.coherent fun u hu => starts u hu ▸ made.line.1, ?_, ?_⟩
  · rcases opened_cases e call with hsame | ⟨u, rfl, hcreated, hentered⟩
    · rw [hsame]
      exact h.lore
    · obtain rfl := starts u rfl
      have hb := built_of_build (hsteady.created hcreated)
      rw [hentered]
      exact ⟨fun path v hv => (made.line.2 v (entered_mentions hb hv).2).1,
        fun v hv => (made.line.2 v (entered_mentions hb hv).2).2⟩
  · rcases opened_cases e call with hsame | ⟨u, -, hcreated, hentered⟩
    · rw [hsame]
      exact h.completion
    · intro place v hend
      rw [hentered] at hend
      exact h.completion place v hend

theorem Reachable.carries (hf : fitter.Regular) (made : t.Made)
    (h : Reachable (World.solely t) fitter plan e) : e.Carries t := by
  refine h.keeps hf (I := Carries t) (A := Snapshot.Carries t)
    (fun hbuild => (built_of_build hbuild).carries t) ?_ ?_ (fun hw => False.elim hw) ?_ ?_ ?_
  · intro e call s events e' s' lore' hsteady he starts hopens hcourse fresh
    have hopened := he.opened hsteady made starts
    have hlore := hcourse.carries hopened.lore
    have hknown := lore_le (hcourse.sound hf (sound_lore hopens.fits s))
    refine ⟨(hcourse.coherent hf hopens.fits hopened.coherent fresh).2,
      ⟨fun path u hu => hlore.payload path u (hknown path hu),
        fun u hu => hlore.origin u (hknown [] hu)⟩, fun place u hend => ?_⟩
    rcases hcourse.completion_known hend with hbefore | hmem
    · exact hopened.completion place u hbefore
    · exact ⟨hlore.payload [] u hmem, hlore.origin u hmem⟩
  · intro e now he
    refine ⟨?_, ?_, fun place u hend => he.completion place u ?_⟩
    · rw [lore_pause]
      exact he.coherent
    · rw [lore_pause]
      exact he.lore
    · rwa [completion_pause] at hend
  · exact fun now _ hp he => he.captured hp now
  · exact fun hbuild hA => Carries.restore hf hbuild hA
  · intro e _ he
    have hle := lore_dispose e
    exact ⟨he.coherent.anti hle, ⟨fun path u hu => he.lore.payload path u (hle path hu),
      fun u hu => he.lore.origin u (hle [] hu)⟩, he.completion⟩

/-- Whatever is asked of nets that are started with one token, every token that one of
them holds, in a place, in a task or with a nested net, carries what the start token
does, at each depth, and so does the token that it ends with. In the net itself they all
come from the token that the start token comes from. -/
theorem payload_kept (hf : fitter.Regular) (made : t.Made)
    (h : Reachable (World.solely t) fitter plan e) :
    (e.Throughout fun e => ∀ u ∈ e.work, u.effectivePayload = t.effectivePayload) ∧
    (∀ u ∈ e.work, u.origin = t.origin) ∧
    ∀ place u, e.completion = some (place, u) →
      u.effectivePayload = t.effectivePayload ∧ u.origin = t.origin := by
  have hcarries := h.carries hf made
  refine ⟨?_, fun u hu => hcarries.lore.origin u (mentions_work hu), fun place u hend => ?_⟩
  · exact (throughout_mentions (h.steady hf).fits hcarries.lore.payload).imp
      fun e he u hu => (he [] u (mentions_work hu)).effective
  · obtain ⟨hcarried, horigin⟩ := hcarries.completion place u hend
    exact ⟨hcarried.effective, horigin⟩

def ticket : Token := ⟨⟨0⟩, some (.str "soup"), none⟩

/-- The kitchen is given the note of a half that carries nothing itself. -/
theorem canteen_payload_kept : ∃ (e : Engine) (run : Run) (slot : Slot) (nest : Nest)
    (half inner : Token) (child : Engine), build .standard canteen = .ok e ∧
    e.answer 40 counting (.start ticket) = some run ∧ slot ∈ run.engine.slots ∧
    slot.transition = .busy nest half child ∧ inner ∈ child.work ∧
    half.payload = none ∧ inner.parent = none ∧ inner.id ≠ half.id ∧
    half.effectivePayload = some (.str "soup") ∧ half.origin = ticket ∧
    inner.effectivePayload = some (.str "soup") := by
  obtain ⟨e, hbuild⟩ : ∃ e, build .standard canteen = .ok e := ⟨_, rfl⟩
  obtain ⟨run, slot, nest, half, inner, child, hanswer, hused, hslot, hbusy, hinner, hbare, hwhole,
      hother⟩ : ∃ run slot nest half inner child, e.answer 40 counting (.start ticket) = some run ∧
        run.supply.used = 3 ∧ run.engine.slots[3]? = some slot ∧
        slot.transition = .busy nest half child ∧
        child.slots.flatMap (·.transition.taken) = [inner] ∧
        half.payload = none ∧ inner.parent = none ∧ inner.id ≠ half.id := by
    cases hbuild
    exact ⟨_, _, _, _, _, _, rfl, rfl, rfl, rfl, rfl, rfl, rfl, by decide⟩
  have hf := Fitter.standard_regular
  have hfresh := counting_apart hbuild (t := ticket) rfl rfl 3 (by decide)
  have hreachable : Reachable (World.solely ticket) .standard canteen run.engine :=
    .called (.built hbuild) (fun t ht => by cases ht; rfl) hanswer (hfresh.anti hused.le)
  obtain ⟨hall, horigin, -⟩ := payload_kept hf (.withPayload _ _) hreachable
  have hmem := List.mem_of_getElem? hslot
  have hhalf : half ∈ run.engine.work := by
    rw [work_eq]
    refine List.mem_append_right _ (List.mem_flatMap.2 ⟨slot, hmem, ?_⟩)
    rw [hbusy]
    exact List.mem_cons_self
  have hchild : inner ∈ child.work := by
    rw [work_eq, hinner]
    exact List.mem_append_right _ List.mem_cons_self
  exact ⟨e, run, slot, nest, half, inner, child, hbuild, hanswer, hmem, hbusy, hchild, hbare, hwhole,
    hother, hall.here half hhalf, horigin half hhalf, (hall.child hmem hbusy).here inner hchild⟩

end Engine
end RecipeNet
