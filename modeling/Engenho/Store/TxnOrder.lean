import Engenho.Store.Finalizers

/-!
# A transaction against its operations run alone

The operations of a transaction all commit at one revision; run as commands of their own they commit
at one revision each. `Shared` is the relation between the two results at one key: the same entry,
but for the revisions it was written and created at, the resource version and a uid minted on the
way.

* `putEntry` and `deleteEntry` are the operations as functions of the entry at their key; both keep
  the relation (`Shared.put`, `Shared.delete`).
* `txn_runs_in_order`: what a transaction does to every catalog.
-/

namespace Engenho
open Assoc ApplyOutcome Option

/-! ## Objects up to their stamps -/

/-- Equal but for the resource version and the uid. -/
inductive SameButStamps : Json → Json → Prop
  | same (v : Json) : SameButStamps v v
  | stamped (m m' md md' : JsonMap) (hm : Assoc.AgreeExcept ["metadata"] m m')
      (hmd : Assoc.AgreeExcept ["resourceVersion", "uid"] md md')
      (h : m.lookup "metadata" = some (.obj md)) (h' : m'.lookup "metadata" = some (.obj md')) :
      SameButStamps (.obj m) (.obj m')

namespace SameButStamps
variable {v w : Json}
section
variable (h : SameButStamps v w)
include h

theorem get {name : String} (hn : name ≠ "metadata") : v.get name = w.get name := by
  cases h with
  | same => rfl
  | stamped m m' md md' hm => exact hm.lookup (by simpa using hn)

theorem metaField {name : String} (hn : name ∉ ["resourceVersion", "uid"]) :
    metaField name v = metaField name w := by
  cases h with
  | same => rfl
  | stamped m m' md md' hm hmd hl hl' =>
    simp only [Engenho.metaField, Json.get_obj, hl, hl']
    exact hmd.lookup hn

theorem finalizersReleased : finalizersReleased v = finalizersReleased w :=
  finalizersReleased_congr (h.metaField (by decide)) (h.metaField (by decide))

theorem hasFinalizers : hasFinalizers v = hasFinalizers w := by
  simp [Engenho.hasFinalizers, h.metaField (by decide : "finalizers" ∉ ["resourceVersion", "uid"])]

theorem deletionTimestampOf : deletionTimestampOf v = deletionTimestampOf w := by
  simp [Engenho.deletionTimestampOf,
    h.metaField (by decide : "deletionTimestamp" ∉ ["resourceVersion", "uid"])]

theorem computeGenerationOnPut (next : Json) :
    computeGenerationOnPut (some v) next = computeGenerationOnPut (some w) next := by
  have hgeneration : generationOf v = generationOf w := by
    unfold generationOf
    rw [h.metaField (by decide)]
  have hspec : specOf v = specOf w := h.get (by decide)
  simp [Engenho.computeGenerationOnPut, hgeneration, hspec]

end

/-- Two stamps of one object that agree except at the resource version and the uid. -/
theorem of_updateMetadata (v : Json) {f g : JsonMap → JsonMap}
    (hfg : ∀ md, AgreeExcept ["resourceVersion", "uid"] (f md) (g md)) :
    SameButStamps (Engenho.updateMetadata f v) (Engenho.updateMetadata g v) := by
  cases hb : metaBase v with
  | none =>
    rw [updateMetadata_of_none hb, updateMetadata_of_none hb]
    exact .same v
  | some md =>
    obtain ⟨m, rfl, hf⟩ := updateMetadata_of_some hb f
    obtain ⟨m', hm', hg⟩ := updateMetadata_of_some hb g
    cases hm'
    rw [hf, hg]
    exact .stamped _ _ (f md) (g md) ((AgreeExcept.refl ..).put (by simp)) (hfg md)
      (lookup_put_self ..) (lookup_put_self ..)

section
variable (h : SameButStamps v w)
include h

/-- Stamps that agree except at the resource version and the uid keep the relation. -/
theorem updateMetadata {f g : JsonMap → JsonMap}
    (hfg : ∀ md md', AgreeExcept ["resourceVersion", "uid"] md md' →
      AgreeExcept ["resourceVersion", "uid"] (f md) (g md')) :
    SameButStamps (updateMetadata f v) (updateMetadata g w) := by
  cases h with
  | same => exact of_updateMetadata v fun md => hfg md md (.refl ..)
  | stamped m m' md md' hm hmd hl hl' =>
    simp only [Engenho.updateMetadata, hl, hl']
    exact .stamped _ _ (f md) (g md') (hm.put (by simp)) (hfg _ _ hmd) (lookup_put_self ..)
      (lookup_put_self ..)

theorem put {k : String} {x y : Json} (hxy : k ∉ ["resourceVersion", "uid"] → x = y) :
    SameButStamps (Engenho.updateMetadata (put k x) v) (Engenho.updateMetadata (put k y) w) :=
  h.updateMetadata fun _ _ hmd => hmd.put hxy

theorem stampRevision (rev rev' : Nat) (g : Int) :
    SameButStamps (stampRevision v rev g) (stampRevision w rev' g) :=
  (h.put (by simp)).put fun _ => rfl

theorem terminating (ts : String) (rev rev' : Nat) :
    SameButStamps (stampResourceVersion (stampDeletionTimestamp v ts) rev)
      (stampResourceVersion (stampDeletionTimestamp w ts) rev') :=
  (h.put fun _ => rfl).put (by simp)

end
end SameButStamps

/-! ## The entry at one key -/

/-- What an unconditional put under the first semantics makes of the entry at its key. -/
def putEntry (env : Env) (key : ResourceKey) (value : ResourceValue) (rev : Nat)
    (prior : Option (ResourceValue × VersionMeta)) : Option (ResourceValue × VersionMeta) :=
  let versionMeta := nextMeta (prior.map Prod.snd) rev
  let post := stampRevision
    (stampIdentity env value key versionMeta.createRevision (prior.map Prod.fst)) rev
    (computeGenerationOnPut (prior.map Prod.fst) value)
  if prior.isSome && finalizersReleased post then none else some (post, versionMeta)

/-- The entry is Terminating already, or nothing says when it was deleted: a delete leaves it. -/
def deleteKeeps (ts : Option String) (live : ResourceValue) : Bool :=
  hasFinalizers live && ((deletionTimestampOf live).isSome || ts.isNone)

/-- What an unconditional delete makes of the entry at its key. -/
def deleteEntry (ts : Option String) (rev : Nat) :
    Option (ResourceValue × VersionMeta) → Option (ResourceValue × VersionMeta)
  | none => none
  | some (live, m) =>
    if deleteKeeps ts live then some (live, m)
    else if hasFinalizers live then
      some (stampResourceVersion (stampDeletionTimestamp live (ts.getD "")) rev, m.bumpedAt rev)
    else none

/-- The entry at the operation's key after it. -/
def TxnOp.entry (env : Env) (rev : Nat) (prior : Option (ResourceValue × VersionMeta)) :
    TxnOp → Option (ResourceValue × VersionMeta)
  | .put key value => putEntry env key value rev prior
  | .delete _ ts => deleteEntry ts rev prior

/-- Whether the operation is a change. -/
def TxnOp.changes (prior : Option (ResourceValue × VersionMeta)) : TxnOp → Bool
  | .put _ _ => true
  | .delete _ ts => prior.any fun live => !deleteKeeps ts live.1

variable {key : ResourceKey}
variable {res : Resources} {rev : Nat} {env : Env} {c : ResourceCatalog}

/-- The common end of the writes, at their key. -/
theorem release_or_store_entry (post : Json) (op : ResourceOp) :
    let out := match finalizerReleaseRemoval res key post ((res.get key).map Prod.fst) rev with
      | some out => out
      | none =>
        (res.insert key (post, nextMeta ((res.get key).map Prod.snd) rev),
          .withChange op ⟨rev, key, .put, post, (res.get key).map Prod.fst,
            nextMeta ((res.get key).map Prod.snd) rev⟩)
    out.1.get key = (if (res.get key).isSome && finalizersReleased post then none
      else some (post, nextMeta ((res.get key).map Prod.snd) rev)) ∧
        out.2.change.isSome = true := by
  unfold finalizerReleaseRemoval
  by_cases hrel : ((res.get key).isSome && finalizersReleased post) = true
  · have hc : ¬ ((((res.get key).map Prod.fst).isNone || !finalizersReleased post) = true) := by
      cases hlive : res.get key with
      | none => simp [hlive] at hrel
      | some e => simpa [hlive] using hrel
    rw [if_pos hrel, if_neg hc]
    exact ⟨OrdMap.get_erase_self .., rfl⟩
  · have hc : (((res.get key).map Prod.fst).isNone || !finalizersReleased post) = true := by
      cases hlive : res.get key with
      | none => rfl
      | some e => simpa [hlive] using hrel
    rw [if_neg hrel, if_pos hc]
    exact ⟨OrdMap.get_insert_self .., rfl⟩

theorem applyTxnOp_entry (env : Env) (rev : Nat) (res : Resources) (op : TxnOp) :
    (applyTxnOp env rev res op).1.get op.key = op.entry env rev (res.get op.key) ∧
      (applyTxnOp env rev res op).2.change.isSome = op.changes (res.get op.key) := by
  cases op with
  | put key value => exact release_or_store_entry _ _
  | delete key ts =>
    simp only [applyTxnOp, applyDelete, checkPrecondition, TxnOp.key, TxnOp.entry, TxnOp.changes,
      Bool.not_true, Bool.false_eq_true, if_false]
    cases hlive : res.get key with
    | none => simp [hlive, deleteEntry, noChange]
    | some e =>
      obtain ⟨live, m⟩ := e
      simp only [deleteEntry, deleteKeeps, any_some]
      by_cases hf : hasFinalizers live = true
      · by_cases hd : (deletionTimestampOf live).isSome = true
        · simp [hf, hd, hlive, noChange]
        · cases ts with
          | none => simp [hf, hlive, noChange]
          | some t => simp [hf, hd, withChange, committed]
      · simp [hf, withChange, committed]

/-! ## Entries up to the revision -/

/-- The uid that a write over `prior` carries on. -/
def priorUid (prior : Option Json) : Option Json := (prior.bind (metaField "uid")).filter uidSet

theorem metaField_uid_stamped (env : Env) (value : Json) (key : ResourceKey) (cr : Nat)
    (prior : Option Json) (rev : Nat) (g : Int) :
    metaField "uid" (stampRevision (stampIdentity env value key cr prior) rev g) =
      (metaBase value).bind fun md =>
        match priorUid prior with
        | some uid => some uid
        | none =>
          if (md.lookup "uid").any uidSet then md.lookup
            "uid" else some (.str (env.mintUid key.label cr)) := by
  rw [metaField_stampRevision _ _ _ (by decide) (by decide), stampIdentity,
    metaField_updateMetadata]
  congr 1
  funext md
  rw [stampCreation_lookup_ne _ _ (by decide)]
  unfold stampUid priorUid
  cases (prior.bind (metaField "uid")).filter uidSet with
  | some uid => exact lookup_put_self ..
  | none =>
    simp only
    split
    · rfl
    · exact lookup_put_self ..

/-- `vt` with `mt` is what a transaction that starts at `head` stored, `vs` with `ms` what the
operations run alone stored. -/
structure Restamped (env : Env) (head : Nat) (key : ResourceKey) (vt : Json) (mt : VersionMeta)
    (vs : Json) (ms : VersionMeta) : Prop where
  value : SameButStamps vt vs
  version : mt.version = ms.version
  shared : mt.modRevision = head + 1
  alone : head < ms.modRevision
  create : mt.createRevision = ms.createRevision ∨
    (mt.createRevision = head + 1 ∧ head < ms.createRevision)
  resourceVersion : objectMeta vt = true → objectMeta vs = true →
    metaField "resourceVersion" vt = some (.str (toString mt.modRevision)) ∧
    metaField "resourceVersion" vs = some (.str (toString ms.modRevision))
  uid : metaField "uid" vt = metaField "uid" vs ∨
    (mt.createRevision = head + 1 ∧ head < ms.createRevision ∧
      metaField "uid" vt = some (.str (env.mintUid key.label mt.createRevision)) ∧
      metaField "uid" vs = some (.str (env.mintUid key.label ms.createRevision)))

section
variable {head : Nat} {value vt vs : Json} {pt ps : Option Json} {ts : String} (mt ms : VersionMeta)
  (hversion : mt.version = ms.version) (hshared : mt.modRevision = head + 1)
    (halone : head < ms.modRevision)
  (hcreate : mt.createRevision = ms.createRevision ∨
    (mt.createRevision = head + 1 ∧ head < ms.createRevision))
include hversion hshared halone hcreate

/-- A put over two priors that only differ in their stamps. -/
theorem Restamped.write
    (hcreation : pt.bind (metaField "creationTimestamp") = ps.bind (metaField "creationTimestamp"))
    (hgeneration : computeGenerationOnPut pt value = computeGenerationOnPut ps value)
    (huid : priorUid pt = priorUid ps ∨ (mt.createRevision = head + 1 ∧ head < ms.createRevision ∧
        priorUid pt = some (.str (env.mintUid key.label mt.createRevision)) ∧
        priorUid ps = some (.str (env.mintUid key.label ms.createRevision)))) :
    Restamped env head key
      (stampRevision (stampIdentity env value key mt.createRevision pt) mt.modRevision
        (computeGenerationOnPut pt value))
      mt
      (stampRevision (stampIdentity env value key ms.createRevision ps) ms.modRevision
        (computeGenerationOnPut ps value))
      ms where
  value := by
    rw [hgeneration]
    refine SameButStamps.stampRevision (.of_updateMetadata value fun md => ?_) _ _ _
    have huids : AgreeExcept ["resourceVersion", "uid"]
        (stampUid (env.mintUid key.label mt.createRevision) pt md)
        (stampUid (env.mintUid key.label ms.createRevision) ps md) := by
      have hagree : ∀ x y, AgreeExcept ["resourceVersion", "uid"] (put "uid" x md)
          (put "uid" y md) := fun x y => (AgreeExcept.refl ..).put (by simp)
      unfold stampUid
      rcases huid with he | ⟨-, -, ht, hs⟩
      · unfold priorUid at he
        rw [he]
        split
        · exact hagree _ _
        · split
          · exact .refl ..
          · exact hagree _ _
      · unfold priorUid at ht hs
        rw [ht, hs]
        exact hagree _ _
    unfold stampCreation
    rw [hcreation]
    split
    · exact huids.put fun _ => rfl
    · exact huids
  version := hversion
  shared := hshared
  alone := halone
  create := hcreate
  resourceVersion := fun ht hs =>
    ⟨metaField_resourceVersion_stampRevision ht, metaField_resourceVersion_stampRevision hs⟩
  uid := by
    rw [metaField_uid_stamped, metaField_uid_stamped]
    cases hb : metaBase value with
    | none => exact .inl rfl
    | some md =>
      simp only [bind_some]
      rcases huid with he | ⟨hct, hcs, ht, hs⟩
      · rw [he]
        cases priorUid ps with
        | some uid => exact .inl rfl
        | none =>
          simp only
          split
          · exact .inl rfl
          · rcases hcreate with hc | ⟨hct, hcs⟩
            · rw [hc]
              exact .inl rfl
            · exact .inr ⟨hct, hcs, rfl, rfl⟩
      · rw [ht, hs]
        exact .inr ⟨hct, hcs, rfl, rfl⟩

/-- Two objects that only differ in their stamps, marked for deletion. -/
theorem Restamped.terminating (hvalue : SameButStamps vt vs)
    (huid : metaField "uid" vt = metaField "uid" vs ∨
      (mt.createRevision = head + 1 ∧ head < ms.createRevision ∧
        metaField "uid" vt = some (.str (env.mintUid key.label mt.createRevision)) ∧
        metaField "uid" vs = some (.str (env.mintUid key.label ms.createRevision)))) :
    Restamped env head key (stampResourceVersion (stampDeletionTimestamp vt ts) mt.modRevision) mt
      (stampResourceVersion (stampDeletionTimestamp vs ts) ms.modRevision) ms where
  value := hvalue.terminating ts _ _
  version := hversion
  shared := hshared
  alone := halone
  create := hcreate
  resourceVersion :=
    fun ht hs => ⟨metaField_resourceVersion_stamp ht, metaField_resourceVersion_stamp hs⟩
  uid := by
    have hkept : ∀ v rev, metaField "uid" (stampResourceVersion (stampDeletionTimestamp v ts) rev) =
        metaField "uid" v := by
      intro v rev
      rw [stampResourceVersion, metaField_put_ne _ _ _ _ (by decide), stampDeletionTimestamp,
        metaField_put_ne _ _ _ _ (by decide)]
    rw [hkept, hkept]
    exact huid

end

/-- The entry of a transaction that starts at `head` against that of its operations run alone: both
absent, the entry there was before, or a new one with other stamps. -/
inductive Shared (env : Env) (head : Nat) (key : ResourceKey)
    (before : Option (Json × VersionMeta)) :
    Option (Json × VersionMeta) → Option (Json × VersionMeta) → Prop
  | absent : Shared env head key before none none
  | untouched (e : Json × VersionMeta)
    (h : before = some e) : Shared env head key before (some e) (some e)
  | written (vt : Json) (mt : VersionMeta) (vs : Json) (ms : VersionMeta)
      (h : Restamped env head key vt mt vs ms) : Shared env head key before (some (vt, mt))
      (some (vs, ms))

section
variable {env : Env} {head : Nat} {key : ResourceKey} {before et es : Option (Json × VersionMeta)}

theorem Shared.put (hmint : ∀ label rev, env.mintUid label rev ≠ "")
    (h : Shared env head key before et es) (value : ResourceValue) (hrev : head < rev) :
    Shared env head key before (putEntry env key value (head + 1) et)
    (putEntry env key value rev es) := by
  -- whatever the prior, the two images only differ in their stamps
  have hwrite : Restamped env head key
      (stampRevision (stampIdentity env value key
        (nextMeta (et.map Prod.snd) (head + 1)).createRevision
        (et.map Prod.fst)) (nextMeta (et.map Prod.snd) (head + 1)).modRevision
        (computeGenerationOnPut (et.map Prod.fst) value))
      (nextMeta (et.map Prod.snd) (head + 1))
      (stampRevision (stampIdentity env value key (nextMeta (es.map Prod.snd) rev).createRevision
        (es.map Prod.fst)) (nextMeta (es.map Prod.snd) rev).modRevision
        (computeGenerationOnPut (es.map Prod.fst) value))
      (nextMeta (es.map Prod.snd) rev) := by
    cases h with
    | absent => exact .write _ _ rfl rfl hrev (.inr ⟨rfl, hrev⟩) rfl rfl (.inl rfl)
    | untouched e => exact .write _ _ rfl rfl hrev (.inl rfl) rfl rfl (.inl rfl)
    | written vt mt vs ms h =>
      refine .write _ _ (congrArg (· + 1) h.version) rfl hrev h.create ?_
        (h.value.computeGenerationOnPut value) ?_
      · exact h.value.metaField (by decide)
      rcases h.uid with huid | ⟨hct, hcs, ht, hs⟩
      · left
        simp [priorUid, huid]
      · have hset : ∀ r, uidSet (.str (env.mintUid key.label r)) = true := by
          simp [uidSet, Json.isNull, Json.asStr, hmint]
        right
        simp only [priorUid, map_some, bind_some, ht, hs, filter_some, hset]
        exact ⟨hct, hcs, rfl, rfl⟩
  have hsome : et.isSome = es.isSome := by cases h <;> rfl
  have hmod : ∀ (p : Option VersionMeta) r, (nextMeta p r).modRevision = r := by
    intro p r
    cases p <;> rfl
  have hreleased := hwrite.value.finalizersReleased
  rw [hmod, hmod] at hwrite hreleased
  unfold putEntry
  simp only [hsome, hreleased]
  split
  · exact .absent
  · exact .written _ _ _ _ hwrite

theorem Shared.delete (h : Shared env head key before et es) (ts : Option String)
    (hrev : head < rev) :
    Shared env head key before (deleteEntry ts (head + 1) et) (deleteEntry ts rev es) := by
  cases h with
  | absent => exact .absent
  | untouched e he =>
    obtain ⟨live, m⟩ := e
    unfold deleteEntry
    simp only
    split
    · exact .untouched _ he
    · split
      · exact .written _ _ _ _ (.terminating (m.bumpedAt (head + 1)) (m.bumpedAt rev) rfl rfl
          hrev (.inl rfl)
          (.same live) (.inl rfl))
      · exact .absent
  | written vt mt vs ms h =>
    have hkeeps : deleteKeeps ts vt = deleteKeeps ts vs := by
      simp [deleteKeeps, h.value.hasFinalizers, h.value.deletionTimestampOf]
    unfold deleteEntry
    simp only [hkeeps, h.value.hasFinalizers]
    split
    · exact .written _ _ _ _ h
    · split
      · exact .written _ _ _ _ (.terminating (mt.bumpedAt (head + 1)) (ms.bumpedAt rev)
          (congrArg (· + 1) h.version) rfl hrev h.create h.value h.uid)
      · exact .absent

theorem Shared.changes (h : Shared env head key before et es) (op : TxnOp) :
    op.changes et = op.changes es := by
  cases h with
  | absent | untouched => rfl
  | written vt mt vs ms h =>
    cases op with
    | put => rfl
    | delete k ts =>
      simp [TxnOp.changes, deleteKeeps, h.value.hasFinalizers, h.value.deletionTimestampOf]

end

/-! ## The operations run alone -/

/-- The operation as a command of its own. -/
def TxnOp.toCommand : TxnOp → ResourceCommand
  | .put key value => .put key value none
  | .delete key ts => .delete key none ts

namespace ResourceCatalog

/-- The operations one after another, each as a command of its own under the first semantics. -/
def runAlone (env : Env) (term index : Nat) (c : ResourceCatalog) : List TxnOp → ResourceCatalog
  | [] => c
  | op :: ops => runAlone env term index (c.applyUnder env op.toCommand .v0 term index).1 ops

theorem unreadableTouchedBy_none {cmd : ResourceCommand} :
    c.unreadableTouchedBy cmd = none ↔ ∀ key ∈ cmd.keys, c.unreadable.get key = none := by
  simp [unreadableTouchedBy, secretFault]

theorem applyUnder_alone (env : Env) (c : ResourceCatalog) {op : TxnOp}
    (h : c.unreadable.get op.key = none) (term index : Nat) :
    let out := (c.applyUnder env op.toCommand .v0 term index).1
    let step := applyTxnOp env (c.revision + 1) c.resources op
    out.resources = step.1 ∧ out.unreadable = c.unreadable ∧
      out.revision = if step.2.change.isSome then c.revision + 1 else c.revision := by
  have hkeys : op.toCommand.keys = [op.key] := by cases op <;> rfl
  have hun : c.unreadableTouchedBy op.toCommand = none :=
    unreadableTouchedBy_none.mpr (by rw [hkeys]; simpa using h)
  have hstep : dispatch env c.resources op.toCommand (.under .v0) (c.revision + 1) =
      applyTxnOp env (c.revision + 1) c.resources op := by
    cases op <;> rfl
  have hrev : c.history.nextRevision = c.revision + 1 := rfl
  simp only [applyUnder, hun, hrev, hstep]
  refine ⟨trivial, trivial, ?_⟩
  cases (applyTxnOp env (c.revision + 1) c.resources op).2.change with
  | none => rfl
  | some ch => simp [revision]

end ResourceCatalog

/-- The operations of a transaction against the same operations run alone. -/
theorem applyTxnOps_alone (hmint : ∀ label rev, env.mintUid label rev ≠ "") (head term index : Nat)
    (before : Resources) {ops : List TxnOp} (hhead : head ≤ c.revision)
    (hread : ∀ op ∈ ops, c.unreadable.get op.key = none)
    (h : ∀ key, Shared env head key (before.get key) (res.get key) (c.resources.get key)) :
    (∀ key, Shared env head key (before.get key) ((applyTxnOps env (head + 1) res ops).1.get key)
      ((c.runAlone env term index ops).resources.get key)) ∧
    c.revision ≤ (c.runAlone env term index ops).revision ∧
    ((applyTxnOps env (head + 1) res ops).2 = [] ↔ (c.runAlone env term index ops).revision =
      c.revision) := by
  induction ops generalizing res c with
  | nil => exact ⟨h, le_rfl, by simp [applyTxnOps, ResourceCatalog.runAlone]⟩
  | cons op ops ih =>
    obtain ⟨hres, hunr, hrev⟩ :=
      c.applyUnder_alone env (hread op (List.mem_cons_self ..)) term index
    have hnext : head < c.revision + 1 := by omega
    obtain ⟨hentry, hchange⟩ := applyTxnOp_entry env (head + 1) res op
    obtain ⟨hentry', hchange'⟩ := applyTxnOp_entry env (c.revision + 1) c.resources op
    have hop := h op.key
    -- both take the same branch, so both change something or neither does
    have hsame : (applyTxnOp env (head + 1) res op).2.change.isSome =
        (applyTxnOp env (c.revision + 1) c.resources op).2.change.isSome := by
      rw [hchange, hchange', hop.changes op]
    have hstep : ∀ key, Shared env head key (before.get key)
      ((applyTxnOp env (head + 1) res op).1.get key)
        ((c.applyUnder env op.toCommand .v0 term index).1.resources.get key) := by
      intro key
      rw [hres]
      by_cases hk : key = op.key
      · subst hk
        rw [hentry, hentry']
        cases op with
        | put key value => exact hop.put hmint value hnext
        | delete key ts => exact hop.delete ts hnext
      · rw [(applyTxnOp_write env (head + 1) res op).get_ne hk,
          (applyTxnOp_write env (c.revision + 1) c.resources op).get_ne hk]
        exact h key
    have hle : c.revision ≤ (c.applyUnder env op.toCommand .v0 term index).1.revision := by
      rw [hrev]
      split <;> omega
    obtain ⟨hshared, hle', hiff⟩ := ih (hhead.trans hle)
      (fun op' hop' => by rw [hunr]; exact hread op' (.tail _ hop')) hstep
    refine ⟨hshared, hle.trans hle', ?_⟩
    simp only [applyTxnOps, List.append_eq_nil_iff, hiff, ResourceCatalog.runAlone]
    cases hc : (applyTxnOp env (head + 1) res op).2.change with
    | none =>
      rw [hc] at hsame
      rw [← hsame] at hrev
      rw [hrev]
      simp
    | some ch =>
      rw [hc] at hsame
      rw [← hsame] at hrev
      simp only [isSome_some, if_true] at hrev
      simp only [toList_some, List.cons_ne_nil, false_and, false_iff]
      omega

/-- A transaction takes the branch that its compares choose on the catalog before it. It leaves the
entries that the operations of the branch leave when they run alone, one command each, but for the
one revision that they share. The head moves by one if one of them changes something. If a key the
transaction names cannot be read, it does nothing. -/
theorem txn_runs_in_order (env : Env) (hmint : ∀ label rev, env.mintUid label rev ≠ "")
    (c : ResourceCatalog)
    (compares : List TxnCompare) (success failure : List TxnOp) (sem : ApplySemantics)
    (term index : Nat) :
    let cmd := ResourceCommand.txn compares success failure
    let branch := if compares.all (evalCompare c.resources) then success else failure
    let out := (c.applyUnder env cmd sem term index).1
    let alone := c.runAlone env term index branch
    ((∀ key ∈ cmd.keys, c.unreadable.get key = none) →
      (∀ key, Shared env c.revision key (c.resources.get key) (out.resources.get key)
        (alone.resources.get key)) ∧
      out.revision = if alone.revision = c.revision then c.revision else c.revision + 1) ∧
    ((∃ key ∈ cmd.keys, c.unreadable.get key ≠ none) → out = c.atLog term index) := by
  intro cmd branch out alone
  constructor
  · intro hread
    have hun := ResourceCatalog.unreadableTouchedBy_none.mpr hread
    have hops : ∀ op ∈ branch, c.unreadable.get op.key = none := by
      intro op hop
      refine hread op.key (List.mem_append_right _ (List.mem_map_of_mem ?_))
      simp only [branch] at hop
      split at hop
      · exact List.mem_append_left _ hop
      · exact List.mem_append_right _ hop
    have huntouched : ∀ key, Shared env c.revision key (c.resources.get key) (c.resources.get key)
        (c.resources.get key) := by
      intro key
      cases he : c.resources.get key with
      | none => exact .absent
      | some e => exact .untouched e rfl
    obtain ⟨hshared, -, hiff⟩ :=
      applyTxnOps_alone hmint c.revision term index c.resources le_rfl hops huntouched
    have hrev : c.history.nextRevision = c.revision + 1 := rfl
    have hres : out.resources = (applyTxnOps env (c.revision + 1) c.resources branch).1 := by
      simp only [out, ResourceCatalog.applyUnder, hun, ResourceCatalog.dispatch]
      rw [applyTxn_resources]
      rfl
    refine ⟨fun key => by rw [hres]; exact hshared key, ?_⟩
    have hhead : out.revision =
        if (applyTxnOps env (c.revision + 1) c.resources branch).2 =
          [] then c.revision else c.revision + 1 := by
      simp only [out, ResourceCatalog.applyUnder, hun, cmd, ResourceCatalog.dispatch,
        hrev, applyTxn]
      generalize applyTxnOps env (c.revision + 1) c.resources _ = p
      obtain ⟨res', chs⟩ := p
      cases chs with
      | nil => rfl
      | cons first rest =>
        simp [ApplyOutcome.committed, ResourceCatalog.revision]
    rw [hhead]
    simp only [hiff]
    rfl
  · rintro ⟨key, hkey, hunreadable⟩
    refine c.applyUnder_noChange env cmd sem term index fun hnone => ?_
    exact absurd (ResourceCatalog.unreadableTouchedBy_none.mp hnone key hkey) hunreadable

theorem atomicEnv_mintUid (label : String) (rev : Nat) : atomicEnv.mintUid label rev ≠ "" := by
  simp [atomicEnv]

/-- A held pod is deleted, put again without its finalizers and thereby removed, and created
anew. -/
def replaceHeld : List TxnOp :=
  [.delete podKey (some "now"), .put podKey (podBody [("deletionTimestamp", .str "now")]),
    .put podKey (podBody [])]

theorem replaceHeld_in_order :
    let c := (Logged.after atomicEnv 8 [putHeld]).cat
    let out := (c.applyUnder atomicEnv (.txn [.notExists podKey] [] replaceHeld) .v1 1 2).1
    let alone := c.runAlone atomicEnv 1 2 replaceHeld
    (∀ key, Shared atomicEnv 1 key (c.resources.get key) (out.resources.get key)
      (alone.resources.get key)) ∧
    out.revision = 2 ∧ alone.revision = 4 := by
  intro c out alone
  have halone : alone.revision = 4 := by decide +kernel
  have h := (txn_runs_in_order atomicEnv atomicEnv_mintUid c [.notExists podKey] []
    replaceHeld .v1 1 2).1
    (by decide +kernel)
  refine ⟨h.1, ?_, halone⟩
  refine h.2.trans ?_
  rw [if_neg]
  · decide +kernel
  · decide +kernel

end Engenho
