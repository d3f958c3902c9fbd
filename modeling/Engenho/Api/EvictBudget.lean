import Engenho.Api.Evict
import Engenho.Store.Pointer

/-!
# How much of a budget evictions spend

A decision to spend is made on the budget that the LIST returned, but the revision of the
compare-and-swap is read afterwards, by a separate GET.

* `evictions_within_budget`: if every such GET still finds the budget the eviction was judged by
  (and the patch does not release a Terminating budget), no more evictions than the budget allows go
  on to delete their pod.
* `evictions_overspend`: without that, two evictions share one disruption.

The invariant is `Evictions.Account`: what the stored budget still allows and what was taken add up
to no more than it allowed. `Evicting.step_keeps` is the step, one lemma for each place of the
program.
-/

namespace Engenho
open Eviction Assoc ResourceCatalog ResourceCommand List OrdMap

/-! ## What spending does to the budget -/

/-- Two states of a budget judge a pod alike, up to what they still allow. -/
structure SameRules (a b : Json) : Prop where
  spec : a.get "spec" = b.get "spec"
  current : Eviction.statusInt "currentHealthy" a = Eviction.statusInt "currentHealthy" b
  desired : Eviction.statusInt "desiredHealthy" a = Eviction.statusInt "desiredHealthy" b

namespace SameRules
variable {a b c : Json}

theorem refl (a : Json) : SameRules a a := ⟨rfl, rfl, rfl⟩

theorem trans (h : SameRules a b) (h' : SameRules b c) : SameRules a c :=
  ⟨h.spec.trans h'.spec, h.current.trans h'.current, h.desired.trans h'.desired⟩

theorem selects (h : SameRules a b) (pod : Json) : pdbSelects a pod = pdbSelects b pod := by
  simp [pdbSelects, selectorMatchLabels, h.spec]

theorem spares (h : SameRules a b) (pod : Json) :
    Eviction.spares pod a = Eviction.spares pod b := by
  simp [Eviction.spares, h.spec, h.current, h.desired]

end SameRules

variable {pod patch : Json} {now : String} {revision : Nat}
variable {pdb : Json} {m : VersionMeta}

/-- The inversion lemma of a decision to spend. -/
theorem Eviction.decide_spend (h : Eviction.decide pod pdb now = .ok (.spend patch)) :
    Eviction.spares pod pdb = false ∧ 0 < disruptionsAllowed pdb ∧
      ∃ podName, patch = spendPatch (disruptionsAllowed pdb) podName now := by
  unfold Eviction.decide at h
  simp only at h
  split at h
  · cases h
  rename_i hs
  split at h
  · cases h
  split at h
  · cases h
  split at h
  · cases h
  · cases h
    exact ⟨by simpa using hs, by omega, _, rfl⟩

/-- A budget that allows something is an object with a status that says so. -/
theorem Eviction.status_of_allowed (h : 0 < disruptionsAllowed pdb) :
    ∃ fields st, pdb = .obj fields ∧ fields.lookup "status" = some (.obj st) ∧
      (st.lookup "disruptionsAllowed").bind Json.asI64 = some (disruptionsAllowed pdb) := by
  have hint : statusInt "disruptionsAllowed" pdb = some (disruptionsAllowed pdb) := by
    unfold disruptionsAllowed at h ⊢
    cases hs : statusInt "disruptionsAllowed" pdb with
    | none => rw [hs] at h; exact absurd h (by decide)
    | some i => rfl
  unfold statusInt statusField at hint
  cases hst : pdb.get "status" with
  | none => rw [hst] at hint; cases hint
  | some st =>
    rw [hst] at hint
    cases st with
    | obj st =>
      cases pdb with
      | obj fields => exact ⟨fields, st, rfl, hst, hint⟩
      | _ => cases hst
    | _ => cases hint

/-- What the patch of a granted disruption makes of the budget. -/
theorem mergeRfc7396_spendPatch {fields st : JsonMap}
    (hst : fields.lookup "status" = some (.obj st)) (allowed : Int) (podName now : String) :
    ∃ st', mergeRfc7396 (.obj fields) (Eviction.spendPatch allowed podName now) =
        .obj (put "status" (.obj st') fields) ∧
      st'.lookup "disruptionsAllowed" = some (.num (.int (allowed - 1))) ∧
      ∀ name, name ≠ "disruptionsAllowed" → name ≠ "disruptedPods" →
      st'.lookup name = st.lookup name := by
  let pods := mergeRfc7396 ((st.lookup "disruptedPods").getD .null) (.obj [(podName, .str now)])
  refine ⟨put "disruptionsAllowed" (.num (.int (allowed - 1)))
    (put "disruptedPods" pods st), ?_, ?_, ?_⟩
  · simp [Eviction.spendPatch, mergeRfc7396, mergeRfc7396Fields, hst, Json.isNull, pods]
  · rw [lookup_put, if_pos rfl]
  · intro name hne hne'
    rw [lookup_put_ne hne, lookup_put_ne hne']

/-- The spent budget: same rules, one disruption less, same metadata, and not the same object. -/
structure SpentOne (pdb merged : Json) : Prop where
  rules : SameRules merged pdb
  allowed : Eviction.disruptionsAllowed merged = Eviction.disruptionsAllowed pdb - 1
  metadata : merged.get "metadata" = pdb.get "metadata"
  changed : unchanged pdb merged none = false

theorem spentOne_merge (h : 0 < Eviction.disruptionsAllowed pdb) (podName now : String) :
    SpentOne pdb (mergeRfc7396 pdb
      (Eviction.spendPatch (Eviction.disruptionsAllowed pdb) podName now)) := by
  obtain ⟨fields, st, hpdb, hst, hint⟩ := status_of_allowed h
  obtain ⟨st', hmerge, hallowed, hrest⟩ :=
    mergeRfc7396_spendPatch hst (Eviction.disruptionsAllowed pdb) podName now
  rw [← hpdb] at hmerge
  rw [hmerge]
  obtain ⟨v, hv, hvi⟩ := Option.bind_eq_some_iff.mp hint
  have hb := (Json.asI64_eq_some hvi).2
  have hless := Json.asI64_int (i := Eviction.disruptionsAllowed pdb - 1) (by omega)
  have hget : ∀ name, name ≠ "status" →
      (Json.obj (put "status" (.obj st') fields)).get name = pdb.get name := by
    intro name hne
    rw [hpdb, Json.get_obj, Json.get_obj, lookup_put_ne hne]
  have hstatus : ∀ name, statusField name (Json.obj (put "status" (.obj st') fields)) =
      st'.lookup name := by
    simp [statusField]
  have hbefore : ∀ name, statusField name pdb = st.lookup name := by simp [statusField, hpdb, hst]
  refine ⟨⟨hget "spec" (by decide), ?_, ?_⟩, ?_, hget "metadata" (by decide), ?_⟩
  · simp [Eviction.statusInt, hstatus, hbefore, hrest "currentHealthy" (by decide) (by decide)]
  · simp [Eviction.statusInt, hstatus, hbefore, hrest "desiredHealthy" (by decide) (by decide)]
  · rw [Eviction.disruptionsAllowed, Eviction.statusInt, hstatus, hallowed, Option.bind_some, hless]
    rfl
  · -- the status itself differs, by what it allows
    have hne : st ≠ st' := by
      rintro rfl
      rw [hv] at hallowed
      cases hallowed
      rw [hvi] at hless
      have := Option.some.inj hless
      omega
    rw [hpdb]
    simp only [unchanged, objectsEqualExcept, Bool.and_eq_false_iff]
    right
    rw [all_eq_false]
    refine ⟨("status", .obj st), by simpa using mem_of_lookup hst, ?_⟩
    simpa [lookup_put] using hne

variable {key : ResourceKey} {res : Resources}
variable (env : Env)

/-- A compare-and-swap on another revision than the stored one does nothing. -/
theorem applyPatch_stale (hlive : res.get key = some (pdb, m)) (patch : Json)
    (hne : m.modRevision ≠ revision) (on : OnIdentical) (rev : Nat) :
    applyPatch env res key patch .merge none (some revision) on rev =
    (res, .noChange .conflict) := by
  unfold applyPatch
  rw [if_neg (by decide), hlive]
  simp only
  rw [if_pos (by simpa [checkPrecondition] using hne)]

/-- A granted disruption, at the revision it was judged at, is stored. -/
theorem applyPatch_spends (hlive : res.get key = some (pdb, m))
    (hd : Eviction.decide pod pdb now = .ok (.spend patch)) (hrel : finalizersReleased pdb = false)
    (rev : Nat) :
    ∃ pdb', ((applyPatch env res key patch .merge none (some m.modRevision) .skip rev).1.get key =
        some (pdb', m.bumpedAt rev)) ∧ SameRules pdb' pdb ∧
      Eviction.disruptionsAllowed pdb' = Eviction.disruptionsAllowed pdb - 1 := by
  obtain ⟨-, hpos, podName, rfl⟩ := decide_spend hd
  have hspent := spentOne_merge hpos podName now
  revert hspent
  generalize hmerged : mergeRfc7396 pdb _ = merged
  intro hspent
  have hkept : finalizersReleased merged = false := by
    rw [← hrel]
    apply finalizersReleased_congr <;> simp [metaField, hspent.metadata]
  have hskip : OnIdentical.skip.skips (some pdb) merged none = false := by
    simp [OnIdentical.skips, hspent.changed]
  refine ⟨stampRevision merged rev (computeGenerationOnPut (some pdb) merged), ?_, ?_, ?_⟩
  · unfold applyPatch
    rw [hlive]
    simp [checkPrecondition, PatchBody.fromRaw, applyPatchBody, hmerged, hskip,
      finalizerReleaseRemoval, finalizersReleased_stampRevision, hkept, get_insert_self]
  · refine SameRules.trans ⟨?_, ?_, ?_⟩ hspent.rules <;>
      simp [Eviction.statusInt, statusField,
        get_stampRevision _ _ _ (by decide : "spec" ≠ "metadata"),
        get_stampRevision _ _ _ (by decide : "status" ≠ "metadata")]
  · rw [← hspent.allowed]
    simp [Eviction.disruptionsAllowed, Eviction.statusInt, statusField,
      get_stampRevision _ _ _ (by decide : "status" ≠ "metadata")]

/-! ## Proposals -/

/-- The budget is stored at `key`, and its revision is not of the future. -/
structure Stored (key : ResourceKey) (c : ResourceCatalog) (pdb : Json) (m : VersionMeta) :
    Prop where
  live : c.resources.get key = some (pdb, m)
  le : m.modRevision ≤ c.revision

namespace ResourceCatalog
variable (env : Env) {c : ResourceCatalog} (t : Turn)

/-- The inversion lemma of a proposal: an error with nothing applied, or the command applied, with
its outcome or with an error. -/
theorem propose_cases (c : ResourceCatalog) (cmd : ResourceCommand) :
    (∃ err, c.propose env cmd t = (c, .error err)) ∨
    (c.unreadableTouchedBy cmd = none ∧
      (c.propose env cmd t).1 = (c.applyUnder env cmd .v1 t.term t.index).1 ∧
      ((∃ err, (c.propose env cmd t).2 = .error err) ∨
        (c.propose env cmd t).2 = .ok (c.applyUnder env cmd .v1 t.term t.index).2)) := by
  unfold propose
  split
  · exact .inl ⟨_, rfl⟩
  rename_i hread
  split
  · rename_i text applied _
    cases applied with
    | true => exact .inr ⟨hread, rfl, .inl ⟨_, rfl⟩⟩
    | false => exact .inl ⟨_, rfl⟩
  · exact .inr ⟨hread, rfl, .inr rfl⟩

variable {key : ResourceKey}

/-- A proposal that does not name the budget leaves it alone. -/
theorem propose_stored_ne (h : Stored key c pdb m) {cmd : ResourceCommand} (hk : key ∉ cmd.keys) :
    Stored key (c.propose env cmd t).1 pdb m := by
  obtain ⟨err, he⟩ | ⟨-, he, -⟩ := propose_cases env t c cmd
  · rw [he]; exact h
  · rw [he]
    exact ⟨(c.applyUnder_get_ne env cmd .v1 t.term t.index hk).trans h.live,
      h.le.trans (c.applyUnder_revision env cmd .v1 t.term t.index)⟩

/-- A compare-and-swap at a revision that is not the budget's leaves it alone, and if it answers, it
answers Conflict. -/
theorem propose_stale (h : Stored key c pdb m) (patch : Json) (hne : m.modRevision ≠ revision) :
    Stored key (c.propose env (.patchCas key patch (some revision)) t).1 pdb m ∧
      ∀ o, (c.propose env (.patchCas key patch (some revision)) t).2 = .ok o →
      o.op = .conflict := by
  obtain ⟨err, he⟩ | ⟨hread, he, hans⟩ :=
    propose_cases env t c (.patchCas key patch (some revision))
  · rw [he]
    exact ⟨h, fun o ho => by cases ho⟩
  have happly : c.applyUnder env (.patchCas key patch (some revision)) .v1 t.term t.index =
      ({ c with lastAppliedTerm := t.term, lastAppliedIndex := t.index }, .noChange .conflict) := by
    unfold applyUnder
    rw [hread]
    simp only [patchCas, dispatch, applyPatch_stale env h.live patch hne]
    rfl
  rw [happly] at he hans
  refine ⟨by rw [he]; exact ⟨h.live, h.le⟩, fun o ho => ?_⟩
  rcases hans with ⟨err, herr⟩ | hok
  · rw [herr] at ho; cases ho
  · rw [hok] at ho
    cases ho
    rfl

/-- A compare-and-swap of a granted disruption at the revision of the budget it was judged by:
nothing was applied and it answers an error, or the budget allows one disruption less, at a new
revision. -/
theorem propose_fresh (h : Stored key c pdb m)
    (hd : Eviction.decide pod pdb now = .ok (.spend patch))
    (hrel : finalizersReleased pdb = false) :
    (Stored key (c.propose env (.patchCas key patch (some m.modRevision)) t).1 pdb m ∧
      ∃ err, (c.propose env (.patchCas key patch (some m.modRevision)) t).2 = .error err) ∨
    ∃ pdb' m', Stored key (c.propose env (.patchCas key patch (some m.modRevision)) t).1 pdb' m' ∧
      m.modRevision < m'.modRevision ∧ SameRules pdb' pdb ∧
      Eviction.disruptionsAllowed pdb' = Eviction.disruptionsAllowed pdb - 1 := by
  obtain ⟨err, he⟩ | ⟨hread, he, -⟩ :=
    propose_cases env t c (.patchCas key patch (some m.modRevision))
  · rw [he]
    exact .inl ⟨h, err, rfl⟩
  right
  obtain ⟨pdb', hget, hrules, hallowed⟩ :=
    applyPatch_spends env h.live hd hrel c.history.nextRevision
  refine ⟨pdb', m.bumpedAt c.history.nextRevision, ?_, Nat.lt_succ_of_le h.le, hrules, hallowed⟩
  rw [he]
  have hstored : (c.applyUnder env (.patchCas key patch (some m.modRevision)) .v1 t.term
      t.index).1.resources.get key = some (pdb', m.bumpedAt c.history.nextRevision) := by
    unfold applyUnder
    rw [hread]
    exact hget
  refine ⟨hstored, ?_⟩
  -- the map changed, so the command committed
  obtain ⟨-, -, hcat⟩ | ⟨first, rest, -, -, -, hcat⟩ :=
    c.applyUnder_cases env (.patchCas key patch (some m.modRevision)) .v1 t.term t.index
  · rw [hcat, h.live] at hstored
    have hm : m = m.bumpedAt c.history.nextRevision := congrArg Prod.snd (Option.some.inj hstored)
    have hle := h.le
    rw [hm] at hle
    exact absurd hle (Nat.not_succ_le_self _)
  · rw [hcat]
    simp [revision, VersionMeta.bumpedAt, WatchHistory.nextRevision]

end ResourceCatalog

/-! ## The invariant -/

/-- `budget` judges the pod and does not spare it. -/
structure Covers (key : ResourceKey) (ns : Option String) (budget pod : Json) : Prop where
  inScope : ListScope.contains ⟨"policy", "v1", "PodDisruptionBudget", ns⟩ key = true
  selects : pdbSelects budget pod = true
  notSpared : Eviction.spares pod budget = false

theorem Eviction.decide_delete (h : Eviction.decide pod pdb now = .ok .delete) :
    Eviction.spares pod pdb = true := by
  unfold Eviction.decide at h
  simp only at h
  split at h
  · assumption
  split at h
  · cases h
  · split at h
    · cases h
    · split at h <;> cases h

namespace Evicting

/-- An eviction that was judged to spend from the budget at `key` goes on with that budget. -/
structure Judged (key : ResourceKey) (budget : Json) (e : Evicting) (pod : Json)
    (pdbKey : ResourceKey) (pdb patch : Json) : Prop where
  same : key ∈ e.spent → pdbKey = key
  covers : key ∈ e.spent → Covers key e.ns budget pod
  decided : ∃ now, Eviction.decide pod pdb now = .ok (.spend patch)

/-- What holds of an eviction at its place, when the budget that was `budget` is stored as `pdb`
with metadata `m`. A proposal at the budget's own revision was judged by the budget as it is
stored. -/
def Sound (key : ResourceKey) (budget pdb : Json) (m : VersionMeta) (e : Evicting) : Prop :=
  match e.stage with
  | .reading => e.spent = []
  | .judging pod _ _ => key ∈ e.spent → Covers key e.ns budget pod
  | .judged pod _ _ pdbKey listed patch => Judged key budget e pod pdbKey listed patch
  | .proposing pod _ _ pdbKey listed patch revision =>
    Judged key budget e pod pdbKey listed patch ∧
      (pdbKey = key → revision ≤ m.modRevision ∧
        (revision = m.modRevision → listed = pdb ∧ finalizersReleased pdb = false))
  | _ => True

variable {key : ResourceKey} {budget pdb pdb' : Json} {m m' : VersionMeta} {e : Evicting}

/-- A newer budget makes every revision read before a stale one. -/
theorem Sound.later (h : e.Sound key budget pdb m) (hm : m.modRevision < m'.modRevision) :
    e.Sound key budget pdb' m' := by
  unfold Sound at h ⊢
  cases hst : e.stage with
  | proposing pod expected left pdbKey listed patch revision =>
    rw [hst] at h
    refine ⟨h.1, fun hk => ?_⟩
    have hle := (h.2 hk).1
    exact ⟨hle.trans hm.le, fun hr => by omega⟩
  | _ => rw [hst] at h; exact h

theorem takes_of_not_proceeds (h : e.stage.proceeds = false) : e.takes key = false := by
  simp [takes, h]

theorem takes_of_not_spent (h : key ∉ e.spent) : e.takes key = false := by simp [takes, h]

/-- One eviction's share of what the budget allowed. -/
def share (key : ResourceKey) (e : Evicting) : Nat := if e.takes key then 1 else 0

theorem share_le_one (key : ResourceKey) (e : Evicting) : e.share key ≤ 1 := by
  unfold share
  split <;> omega

/-- What a step of the eviction from `c` leaves: the budget as it was, or a later one; the eviction
sound; and never more taken than the budget gave up. -/
def Keeps (key : ResourceKey) (budget pdb : Json) (m : VersionMeta) (e : Evicting)
    (out : ResourceCatalog × Evicting) : Prop :=
  ∃ pdb' m', Stored key out.1 pdb' m' ∧ SameRules pdb' budget ∧
    ((pdb' = pdb ∧ m' = m) ∨ m.modRevision < m'.modRevision) ∧ out.2.Sound key budget pdb' m' ∧
    (Eviction.disruptionsAllowed pdb').toNat + out.2.share key ≤
      (Eviction.disruptionsAllowed pdb).toNat + e.share key

variable {c : ResourceCatalog}
variable {e' : Evicting} {ns : Option String} {left : Nat} {listed : Json} {pdbKey : ResourceKey}
section
variable (hs : Stored key c pdb m) (hr : SameRules pdb budget) (he : e'.Sound key budget pdb m)
include hs hr he

theorem Keeps.same (ht : e'.share key ≤ e.share key) : Keeps key budget pdb m e (c, e') :=
  ⟨pdb, m, hs, hr, .inl ⟨rfl, rfl⟩, he, Nat.add_le_add_left ht _⟩

/-- A step that leaves the budget alone, to a place that takes nothing. -/
theorem Keeps.idle (ht : e'.share key = 0) : Keeps key budget pdb m e (c, e') :=
  Keeps.same hs hr he (ht.trans_le (Nat.zero_le _))

end

theorem share_of_not_proceeds (h : e.stage.proceeds = false) : e.share key = 0 := by
  simp [share, takes_of_not_proceeds h]

theorem share_of_not_spent (h : key ∉ e.spent) : e.share key = 0 := by
  simp [share, takes_of_not_spent h]

/-! ### The steps -/

theorem readPod_stage {env : Env} {stage : Stage} (h : readPod env c e = .ok stage) :
    (∃ expected, stage = .deleting expected) ∨ ∃ pod expected, stage = .judging pod expected 2 := by
  obtain ⟨key, -, h⟩ := Except.of_bind_ok h
  split at h
  · cases h
  simp only at h
  split at h
  · cases h
  obtain ⟨expected, -, h⟩ := Except.of_bind_ok h
  split at h
  · cases h
  · split at h
    · cases h; exact .inl ⟨_, rfl⟩
    · cases h; exact .inr ⟨_, _, rfl⟩

theorem mem_selecting {x : ResourceKey × Json} : x ∈ selecting c ns pod ↔ c.get x.1 = some x.2 ∧
      ListScope.contains ⟨"policy", "v1", "PodDisruptionBudget", ns⟩ x.1 = true ∧
      pdbSelects x.2 pod = true := by
  obtain ⟨k, v⟩ := x
  rw [selecting, mem_filter, ResourceCatalog.mem_listed, and_assoc, and_left_comm]

variable (t : Turn) (hs : Stored key c pdb m) (hr : SameRules pdb budget)

include hs hr in
theorem step_reading (hst : e.stage = .reading) (he : e.Sound key budget pdb m) :
    Keeps key budget pdb m e (e.step env c t) := by
  have hspent : e.spent = [] := by simpa [Sound, hst] using he
  have hnot : key ∉ e.spent := by simp [hspent]
  unfold step
  rw [hst]
  simp only
  split
  · rename_i stage hread
    refine Keeps.idle hs hr ?_ (share_of_not_spent hnot)
    obtain ⟨expected, rfl⟩ | ⟨pod, expected, rfl⟩ := readPod_stage hread
    · trivial
    · intro h
      exact absurd h hnot
  · exact Keeps.idle hs hr trivial (share_of_not_spent hnot)

variable {expected : Option Nat}

include hs hr in
/-- An eviction that was judged to spend finds its budget again, or is refused. -/
theorem step_judging (hst : e.stage = .judging pod expected left) (he : e.Sound key budget pdb m) :
    Keeps key budget pdb m e (e.step env c t) := by
  have hcov : key ∈ e.spent → Covers key e.ns budget pod := by simpa [Sound, hst] using he
  have hget : c.get key = some pdb := by simp [ResourceCatalog.get, hs.live]
  have hfound : key ∈ e.spent → (key, pdb) ∈ selecting c e.ns pod := by
    intro h
    exact mem_selecting.mpr ⟨hget, (hcov h).inScope, (hr.selects pod).trans (hcov h).selects⟩
  -- the delete without spending is out of reach once the eviction was judged to spend
  have free : key ∉ e.spent →
      Keeps key budget pdb m e (c, { e with stage := .deleting expected }) := by
    intro h
    exact Keeps.idle hs hr trivial (share_of_not_spent h)
  have refused : ∀ err, Keeps key budget pdb m e (c, { e with stage := .refused err }) := by
    intro err
    exact Keeps.idle hs hr trivial (share_of_not_proceeds rfl)
  unfold step
  rw [hst]
  simp only [judge]
  split
  · rename_i hnone
    refine free fun h => ?_
    have := hfound h
    rw [hnone] at this
    cases this
  · rename_i pdbKey listed hone
    have hlisted : (pdbKey, listed) ∈ selecting c e.ns pod := by
      rw [hone]; exact mem_singleton_self _
    obtain ⟨hlive, hscope, hsel⟩ := mem_selecting.mp hlisted
    have hsame : key ∈ e.spent → pdbKey = key ∧ listed = pdb := by
      intro h
      have := hfound h
      rw [hone, mem_singleton] at this
      cases this
      exact ⟨rfl, rfl⟩
    split
    · exact refused _
    · rename_i hd
      refine free fun h => ?_
      obtain ⟨-, rfl⟩ := hsame h
      have hno := (hr.spares pod).trans (hcov h).notSpared
      rw [decide_delete hd] at hno
      cases hno
    · rename_i patch hd
      -- the eviction is now judged to spend from `pdbKey`, whether or not it was before
      have hcov' : key ∈ pdbKey :: e.spent → pdbKey = key ∧ Covers key e.ns budget pod := by
        intro h
        rcases mem_cons.mp h with rfl | h
        · rw [hget] at hlive
          cases hlive
          refine ⟨rfl, hscope, (hr.selects pod).symm.trans hsel, ?_⟩
          exact (hr.spares pod).symm.trans (decide_spend hd).1
        · exact ⟨(hsame h).1, hcov h⟩
      by_cases hdry : e.dry
      · have hno : Evicting.takes key { e with
            stage := .deleting expected, spent := pdbKey :: e.spent } = false := by
          have : Evicting.dry { e with stage := .deleting expected, spent := pdbKey :: e.spent } =
            true := hdry
          simp [takes, this]
        rw [if_pos hdry]
        exact Keeps.same hs hr trivial (by simp [share, hno])
      · rw [if_neg hdry]
        refine Keeps.idle hs hr ?_ (share_of_not_proceeds rfl)
        exact ⟨fun h => (hcov' h).1, fun h => (hcov' h).2, t.now, hd⟩
  · exact refused _

theorem retry_sound (left : Nat) (hcov : key ∈ e.spent → Covers key e.ns budget pod) :
    Sound key budget pdb m { e with stage := retry pod expected left } := by
  cases left with
  | zero => trivial
  | succ left => exact hcov

theorem retry_share (left : Nat) : share key { e with stage := retry pod expected left } = 0 := by
  cases left <;> exact share_of_not_proceeds rfl

/-- The budget an eviction is about to read is still the one that judged it, and the patch will not
release it. -/
def readsJudged (key : ResourceKey) (c : ResourceCatalog) (e : Evicting) : Prop :=
  match e.stage with
  | .judged _ _ _ pdbKey pdb _ =>
    pdbKey = key → c.get key = some pdb ∧ finalizersReleased pdb = false
  | _ => True

instance (key : ResourceKey) (c : ResourceCatalog) (e : Evicting) :
    Decidable (e.readsJudged key c) :=
  match h : e.stage with
  | .judged _ _ _ pdbKey pdb _ =>
    decidable_of_iff (pdbKey = key → c.get key = some pdb ∧ finalizersReleased pdb = false)
      (by rw [readsJudged, h])
  | .reading | .judging .. | .proposing .. | .deleting _ | .answered _ | .refused _ =>
    .isTrue (by rw [readsJudged, h]; trivial)

include hs hr in
theorem step_judged (hst : e.stage = .judged pod expected left pdbKey listed patch)
    (he : e.Sound key budget pdb m)
    (hok : e.readsJudged key c) : Keeps key budget pdb m e (e.step env c t) := by
  have hj : Judged key budget e pod pdbKey listed patch := by simpa [Sound, hst] using he
  have hfresh : pdbKey = key → c.get key = some listed ∧ finalizersReleased listed = false := by
    simpa [readsJudged, hst] using hok
  unfold step
  rw [hst]
  simp only
  split
  · exact Keeps.idle hs hr (retry_sound left hj.covers) (retry_share left)
  rename_i w m' hread
  refine Keeps.idle hs hr ⟨⟨hj.same, hj.covers, hj.decided⟩, fun hk => ?_⟩
    (share_of_not_proceeds rfl)
  subst hk
  obtain ⟨hget, hrel⟩ := hfresh rfl
  rw [ResourceCatalog.getWithMeta, hs.live] at hread
  cases hread
  rw [ResourceCatalog.get, hs.live] at hget
  cases hget
  exact ⟨le_rfl, fun _ => ⟨rfl, hrel⟩⟩

include hs hr in
/-- Wherever the budget is left as it was: refused, or again in line, or past another budget. -/
theorem proposed_idle (hj : Judged key budget e pod pdbKey listed patch)
    {ans : Except ApiError ApplyOutcome} :
    (∀ o, ans = .ok o → o.op = .conflict ∨ key ∉ e.spent) → Keeps key budget pdb m e (match ans with
      | .error err => (c, { e with stage := .refused err })
      | .ok o => (c, { e with
          stage := if o.op ≠ .conflict then .deleting expected else retry pod expected
            left })) := by
  intro hans
  cases ans with
  | error err => exact Keeps.idle hs hr trivial (share_of_not_proceeds rfl)
  | ok o =>
    simp only
    by_cases hc : o.op = .conflict
    · rw [if_neg (by simpa using hc)]
      exact Keeps.idle hs hr (retry_sound left hj.covers) (retry_share left)
    · rw [if_pos hc]
      have hnot := (hans o rfl).resolve_left hc
      exact Keeps.idle hs hr trivial (share_of_not_spent hnot)

include hs hr in
theorem step_proposing (hst : e.stage = .proposing pod expected left pdbKey listed patch revision)
    (he : e.Sound key budget pdb m) : Keeps key budget pdb m e (e.step env c t) := by
  obtain ⟨hj, hrev⟩ : Judged key budget e pod pdbKey listed patch ∧ (pdbKey = key →
      revision ≤ m.modRevision ∧
        (revision = m.modRevision → listed = pdb ∧ finalizersReleased pdb = false)) := by
    simpa [Sound, hst] using he
  unfold step
  rw [hst]
  simp only
  by_cases hk : pdbKey = key
  · subst hk
    by_cases hm : revision = m.modRevision
    · -- the budget is the one the eviction was judged by
      obtain ⟨rfl, hrel⟩ := (hrev rfl).2 hm
      subst hm
      obtain ⟨now, hd⟩ := hj.decided
      obtain ⟨hs', err, herr⟩ | ⟨pdb', m', hs', hlt, hrules, hallowed⟩ :=
        propose_fresh env t hs hd hrel
      · refine proposed_idle hs' hr hj fun o ho => ?_
        rw [herr] at ho
        cases ho
      have hpos := (decide_spend hd).2.1
      have hbound : ∀ e' : Evicting, (Eviction.disruptionsAllowed pdb').toNat + e'.share pdbKey ≤
          (Eviction.disruptionsAllowed listed).toNat + e.share pdbKey := by
        intro e'
        have := share_le_one pdbKey e'
        omega
      have hr' := hrules.trans hr
      split
      · exact ⟨pdb', m', hs', hr', .inr hlt, trivial, hbound _⟩
      · refine ⟨pdb', m', hs', hr', .inr hlt, ?_, hbound _⟩
        split
        · trivial
        · exact retry_sound left hj.covers
    · have hstale := propose_stale env t hs patch (Ne.symm hm)
      exact proposed_idle hstale.1 hr hj fun o ho => .inl (hstale.2 o ho)
  · have hother : key ∉ (patchCas pdbKey patch (some revision)).keys := by
      simpa [patchCas, ResourceCommand.keys] using Ne.symm hk
    exact proposed_idle (propose_stored_ne env t hs hother) hr hj fun o _ => .inr fun h =>
      hk (hj.same h)

theorem key_kind {name : String} {k : ResourceKey} (h : Evicting.key ns name = .ok k) :
    k.kind = "Pod" := by
  unfold Evicting.key at h
  split at h <;> cases h
  rfl

section
variable (hkind : key.kind ≠ "Pod")
include hs hr hkind

theorem step_deleting (hst : e.stage = .deleting expected) :
    Keeps key budget pdb m e (e.step env c t) := by
  have hshare : ∀ result, share key { e with stage := .answered result } = e.share key := by
    simp [share, takes, hst, Stage.proceeds, dry]
  have hs' : Stored key (deletePod env c e expected t).1 pdb m := by
    unfold deletePod
    split
    · exact hs
    · exact hs
    · rename_i k hk _
      split
      · exact hs
      · refine propose_stored_ne env t hs ?_
        simp only [ResourceCommand.keys, mem_singleton]
        rintro rfl
        exact hkind (key_kind hk)
  unfold step
  rw [hst]
  exact Keeps.same hs' hr trivial (hshare _).le

/-- Every step of an eviction keeps the account of the budget, if it reads the budget that judged
it. -/
theorem step_keeps (he : e.Sound key budget pdb m) (hok : e.readsJudged key c) :
    Keeps key budget pdb m e (e.step env c t) := by
  cases hst : e.stage with
  | reading => exact step_reading env t hs hr hst he
  | judging pod expected left => exact step_judging env t hs hr hst he
  | judged pod expected left pdbKey listed patch => exact step_judged env t hs hr hst he hok
  | proposing pod expected left pdbKey listed patch revision =>
    exact step_proposing env t hs hr hst he
  | deleting expected => exact step_deleting env t hs hr hkind hst
  | answered result | refused err =>
    unfold step
    rw [hst]
    exact Keeps.same hs hr he le_rfl

end
end Evicting

namespace Evictions
variable {key : ResourceKey} {budget : Json} {s : Evictions}

/-- The account of a budget: what it still allows and what was taken are covered by what it allowed,
and every eviction under way is sound. -/
structure Account (key : ResourceKey) (budget pdb : Json) (m : VersionMeta) (s : Evictions) :
    Prop where
  stored : Stored key s.cat pdb m
  rules : SameRules pdb budget
  covered : (Eviction.disruptionsAllowed pdb).toNat + s.taken key ≤
    (Eviction.disruptionsAllowed budget).toNat
  sound : ∀ e ∈ s.calls, e.Sound key budget pdb m

theorem taken_set (key : ResourceKey) {i : Nat} {e : Evicting} (e' : Evicting)
    (he : s.calls[i]? = some e) (c : ResourceCatalog) :
    taken key ⟨c, s.calls.set i e'⟩ + e.share key = s.taken key + e'.share key := by
  obtain ⟨hi, rfl⟩ := List.getElem?_eq_some_iff.mp he
  have hle := boole_getElem_le_countP (p := Evicting.takes key) hi
  simp only [taken, Evicting.share, countP_set hi]
  omega

/-- At a step of an eviction that reads its budget, the budget is still the one that judged it. -/
def ReadsJudged (key : ResourceKey) (s : Evictions) : EvictionEvent → Prop
  | .turn i _ => ∀ e ∈ s.calls[i]?, e.readsJudged key s.cat
  | .other _ => True

instance (key : ResourceKey) (s : Evictions) : ∀ ev, Decidable (ReadsJudged key s ev)
  | .turn i _ => inferInstanceAs (Decidable (∀ e ∈ s.calls[i]?, e.readsJudged key s.cat))
  | .other _ => .isTrue trivial

theorem Account.step (hkind : key.kind ≠ "Pod") (h : Account key budget pdb m s)
    (ev : EvictionEvent) (hleaves : ev.leaves key) (hreads : ReadsJudged key s ev) :
    ∃ pdb' m', Account key budget pdb' m' (s.step env ev) := by
  cases ev with
  | other op =>
    have hget := perform_get_ne env s.cat op hleaves
    have hrev := perform_revision env s.cat op
    exact ⟨pdb, m, ⟨hget.trans
      h.stored.live, by have := h.stored.le; simp only [Evictions.step]; omega⟩,
      h.rules, h.covered, h.sound⟩
  | turn i t =>
    simp only [Evictions.step]
    cases hi : s.calls[i]? with
    | none => exact ⟨pdb, m, h⟩
    | some e =>
      simp only
      obtain ⟨pdb', m', hs, hr, hlater, hsound, hshare⟩ := Evicting.step_keeps env t h.stored
        h.rules hkind (h.sound e (mem_of_getElem? hi)) (hreads e hi)
      refine ⟨pdb', m', hs, hr, ?_, fun e' he' => ?_⟩
      · have hcount := taken_set key (e.step env s.cat t).2 hi (e.step env s.cat t).1
        have := h.covered
        omega
      · rcases mem_or_eq_of_mem_set he' with hmem | rfl
        · rcases hlater with ⟨rfl, rfl⟩ | hlt
          · exact h.sound e' hmem
          · exact (h.sound e' hmem).later hlt
        · exact hsound

theorem account_start {c : ResourceCatalog} (hs : Stored key c budget m)
    (requests : List EvictRequest) :
    Account key budget budget m (start c requests) := by
  refine ⟨hs, .refl budget, ?_, fun e he => ?_⟩
  · have hnone : (start c requests).taken key = 0 := by
      simp only [taken, start]
      simp [Evicting.start, Evicting.takes]
    omega
  · obtain ⟨r, -, rfl⟩ := mem_map.mp he
    rfl

end Evictions

/-! ## The runs -/

def budgetKey (ns name : String) : ResourceKey :=
  ⟨"policy", "v1", "PodDisruptionBudget", some ns, name⟩

/-- From any state of the store, any number of evictions, in any order of steps, with no other
writer of the budget: if every eviction reads the revision of the very budget it was judged by, no
more of those judged to spend from it delete their pod than it allowed. -/
theorem evictions_within_budget (env : Env) (capacity : Nat) (ops : List CatalogOp)
    (ns name : String)
    {budget : Json} (hbudget : (Logged.after env capacity ops).cat.get (budgetKey ns name) =
      some budget)
    (requests : List EvictRequest) (events : List EvictionEvent)
    (hrun : Run.Along (Evictions.step env)
      (fun s ev => ev.leaves (budgetKey ns name) ∧ Evictions.ReadsJudged (budgetKey ns name) s ev)
      (Evictions.start (Logged.after env capacity ops).cat requests) events) :
    (Run.exec (Evictions.step env) (Evictions.start (Logged.after env capacity ops).cat requests)
      events).taken (budgetKey ns name) ≤ (Eviction.disruptionsAllowed budget).toNat := by
  obtain ⟨⟨v, m⟩, hlive, rfl⟩ := Option.map_eq_some_iff.mp hbudget
  have hstored : Stored (budgetKey ns name) (Logged.after env capacity ops).cat v m :=
    ⟨hlive, Logged.modRevision_le env capacity ops hlive⟩
  have hkind : (budgetKey ns name).kind ≠ "Pod" := by simp [budgetKey]
  obtain ⟨pdb, m', hacc⟩ := Run.Along.exec_inv
    (I := fun s => ∃ pdb m, Evictions.Account (budgetKey ns name) v pdb m s)
    (fun s ev hok ⟨_, _, h⟩ => h.step env hkind ev hok.1 hok.2)
    ⟨v, m, Evictions.account_start hstored requests⟩ hrun
  exact (Nat.le_add_left ..).trans hacc.covered

/-- A budget that allows one disruption, and two ready pods it selects. -/
def twoPodsOneDisruption : List CatalogOp :=
  let labels := .obj [("app", .str "web")]
  let pod := fun name => .command (.put ⟨"", "v1", "Pod", some "default", name⟩
    (.obj [("metadata", .obj [("labels", labels), ("name", .str name)]),
      ("status", .obj [
        ("conditions", .arr [.obj [("status", .str "True"), ("type", .str "Ready")]]),
        ("phase", .str "Running")])]) none) .v1 1 1
  [.command (.put (budgetKey "default" "web")
    (.obj [("metadata", .obj [("name", .str "web")]),
      ("spec", .obj [("selector", .obj [("matchLabels", labels)])]),
      ("status", .obj [("currentHealthy", .num (.int 2)), ("desiredHealthy", .num (.int 1)),
        ("disruptionsAllowed", .num (.int 1)), ("observedGeneration", .num (.int 1))])]) none)
          .v1 1 1,
    pod "web-0", pod "web-1"]

def evictBoth : Evictions :=
  let request := fun name => (⟨some "default", name, ⟨none, none, false⟩, false⟩ : EvictRequest)
  .start (Logged.after atomicEnv 8 twoPodsOneDisruption).cat [request "web-0", request "web-1"]

/-- The evictions take their steps in the given order. -/
def turns (is : List Nat) : List EvictionEvent := is.map fun i => .turn i ⟨"now", 1, 1, none, none⟩

/-- One eviction after the other: the second finds the budget spent. -/
theorem evictions_one_by_one :
    (Run.exec (Evictions.step atomicEnv) evictBoth (turns [0, 0, 0, 0, 0, 1, 1])).taken
        (budgetKey "default" "web") ≤ 1 ∧
      (Run.exec (Evictions.step atomicEnv) evictBoth (turns [0, 0, 0, 0, 0, 1, 1])).taken
        (budgetKey "default" "web") = 1 := by
  have hbudget : (Logged.after atomicEnv 8 twoPodsOneDisruption).cat.get
    (budgetKey "default" "web") = some _ := rfl
  have h := evictions_within_budget atomicEnv 8 twoPodsOneDisruption "default" "web" hbudget
    [⟨some "default", "web-0", ⟨none, none, false⟩, false⟩,
      ⟨some "default", "web-1", ⟨none, none, false⟩, false⟩]
    (turns [0, 0, 0, 0, 0, 1, 1]) (by decide +kernel)
  exact ⟨h, by decide +kernel⟩

/-- Both evictions list the budget while it allows one disruption. The second one reads the budget's
revision after the first has spent it, and its patch, judged on the old budget, passes the
compare-and-swap: both pods are deleted. -/
theorem evictions_overspend :
    let s := Run.exec (Evictions.step atomicEnv) evictBoth (turns [0, 1, 0, 1, 0, 0, 1, 1, 0, 1])
    ((evictBoth.cat.get (budgetKey "default" "web")).map Eviction.disruptionsAllowed = some 1) ∧
      s.taken (budgetKey "default" "web") = 2 ∧
      s.cat.get ⟨"", "v1", "Pod", some "default", "web-0"⟩ = none ∧
      s.cat.get ⟨"", "v1", "Pod", some "default", "web-1"⟩ = none := by
  decide +kernel

end Engenho
