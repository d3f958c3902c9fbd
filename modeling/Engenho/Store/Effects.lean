import Engenho.Lib.Except
import Engenho.Lib.Run
import Engenho.Store.Stamp

/-!
# What a command can do to the catalog

Every mutation path does one of four things to its key: nothing, a put, a delete, or the release of
a Terminating object. The mutation functions are inverted once (`WriteEnd`, `DeleteEnd`), with the
image that a write would store. `KeyWrite rev res ch` says that `ch` records such a step from the
live map `res`, with all that the step checked; a whole command is a list of such steps at one
revision (`Writes`), and `ResourceCatalog.applyUnder_cases` is the inversion lemma of the catalog.
-/

namespace Engenho
open Option List Except

/-- The live map after a change: a put sets the key, a delete removes it. -/
def Change.applyTo (res : Resources) (ch : Change) : Resources :=
  match ch.kind with
  | .put => res.insert ch.key (ch.value, ch.versionMeta)
  | .delete => res.erase ch.key

variable {k key : ResourceKey} {rev : Nat} {res : Resources}

theorem Change.get_applyTo_ne (res : Resources) (ch : Change) (h : k ≠ ch.key) :
    (ch.applyTo res).get k = res.get k := by
  unfold Change.applyTo
  split
  · exact OrdMap.get_insert_ne _ h _
  · exact OrdMap.get_erase_ne _ h

/-- What a write stores: the new object with its revision and generation, or the live object
stamped Terminating. -/
inductive StampedValue (prior : Option Json) (rev : Nat) : Json → Prop where
  | write (v : Json) : StampedValue prior rev (stampRevision v rev (computeGenerationOnPut prior v))
  | terminating {live : Json} (ts : String) (hprior : prior = some live)
      (hfin : hasFinalizers live = true) :
      StampedValue prior rev (stampResourceVersion (stampDeletionTimestamp live ts) rev)

/-- `ch` records one step from `res` at `rev`. -/
inductive KeyWrite (rev : Nat) (res : Resources) : Change → Prop where
  | put {key : ResourceKey} {v : Json} (hv : StampedValue ((res.get key).map Prod.fst) rev v) :
      KeyWrite rev res
        ⟨rev, key, .put, v, (res.get key).map Prod.fst, nextMeta ((res.get key).map Prod.snd) rev⟩
  | delete {key : ResourceKey} {v : Json} {m : VersionMeta} (hlive : res.get key = some (v, m)) :
      KeyWrite rev res ⟨rev, key, .delete, v, some v, m⟩
  | release {key : ResourceKey} {v post : Json} {m : VersionMeta}
      (hlive : res.get key = some (v, m)) (hpost : StampedValue (some v) rev post)
      (hrel : finalizersReleased post = true) :
      KeyWrite rev res ⟨rev, key, .delete, post, some post, m⟩

variable {ch : Change} {out : Resources × ApplyOutcome}

theorem KeyWrite.revision (h : KeyWrite rev res ch) : ch.revision = rev := by cases h <;> rfl

/-- A list of steps, each from the map the ones before it left. -/
inductive Writes (rev : Nat) : Resources → List Change → Prop where
  | nil {res : Resources} : Writes rev res []
  | cons {res : Resources} {ch : Change} {chs : List Change} (hch : KeyWrite rev res ch)
      (hchs : Writes rev (ch.applyTo res) chs) : Writes rev res (ch :: chs)

theorem Writes.revision {chs : List Change} (h : Writes rev res chs) :
    ∀ ch ∈ chs, ch.revision = rev := by
  induction h with
  | nil => simp
  | cons hch _ ih =>
    intro ch hmem
    rcases mem_cons.mp hmem with rfl | hmem
    · exact hch.revision
    · exact ih ch hmem

/-- The result of a single-key mutation: nothing, or one step on `key`. -/
def OneWrite (rev : Nat) (res : Resources) (key : ResourceKey) (out : Resources × ApplyOutcome) :
    Prop :=
  out.2.extraChanges = [] ∧
    ((out.2.change = none ∧ out.1 = res) ∨
     ∃ ch, out.2.change = some ch ∧ ch.key = key ∧ KeyWrite rev res ch ∧ out.1 = ch.applyTo res)

theorem OneWrite.none {o : ApplyOutcome} (h : o.change = none) (h' : o.extraChanges = []) :
    OneWrite rev res key (res, o) :=
  ⟨h', .inl ⟨h, rfl⟩⟩

variable (op : ResourceOp)

theorem OneWrite.one (hk : ch.key = key) (h : KeyWrite rev res ch) :
    OneWrite rev res key (ch.applyTo res, .withChange op ch) :=
  ⟨rfl, .inr ⟨ch, rfl, hk, h, rfl⟩⟩

theorem OneWrite.get_ne (h : OneWrite rev res key out) (hne : k ≠ key) :
    out.1.get k = res.get k := by
  obtain ⟨-, ⟨-, hres⟩ | ⟨ch, -, hkey, -, hres⟩⟩ := h
  · rw [hres]
  · rw [hres, Change.get_applyTo_ne _ _ (hkey ▸ hne)]

theorem OneWrite.changes (h : OneWrite rev res key out) : (out.2.changes = [] ∧ out.1 = res) ∨
      ∃ ch, out.2.change = some ch ∧ out.2.changes = [ch] ∧ ch.key = key ∧ KeyWrite rev res ch ∧
        out.1 = ch.applyTo res := by
  obtain ⟨hx, ⟨hn, hres⟩ | ⟨ch, hs, hkey, hw, hres⟩⟩ := h
  · exact .inl ⟨by rw [ApplyOutcome.changes, hn, hx]; rfl, hres⟩
  · exact .inr ⟨ch, hs, by rw [ApplyOutcome.changes, hs, hx]; rfl, hkey, hw, hres⟩

/-! ## The images of the writes -/

section
variable (env : Env) (res : Resources) (key : ResourceKey)

/-- The object a put would store. -/
def putImage (value : ResourceValue) (rev : Nat) : Json :=
  let prior := res.get key
  stampRevision
    (stampIdentity env value key (nextMeta (prior.map Prod.snd) rev).createRevision
      (prior.map Prod.fst))
    rev (computeGenerationOnPut (prior.map Prod.fst) value)

/-- The object a patch would store, if there is one to patch and the patch succeeds. -/
def patchImage (patch : ResourceValue) (patchType : PatchType) (rev : Nat) : Option Json :=
  (res.get key).bind fun live =>
    (PatchBody.fromRaw env patchType patch).toOption.bind fun body =>
      (applyPatchBody env (Gvk.ofKey key) patchType live.1 body).toOption.map fun merged =>
        stampRevision merged rev (computeGenerationOnPut (some live.1) merged)

/-- The object a server-side apply would store, if it finds no conflict. -/
def applyImage (body : ResourceValue) (am : ApplyMeta) (rev : Nat) : Option Json :=
  let prior := res.get key
  (applySsa env (Gvk.ofKey key) (prior.map Prod.fst) body am.manager am.force am.time).toOption.map
    fun out =>
    let candidate := stampIdentity env out.merged key
      (nextMeta (prior.map Prod.snd) rev).createRevision
      (prior.map Prod.fst)
    stampRevision candidate rev (computeGenerationOnPut (prior.map Prod.fst) candidate)

end

/-- The image of a command that writes one object. -/
def ResourceCommand.image (env : Env) (res : Resources) (rev : Nat) : ResourceCommand → Option Json
  | .put key value _ => some (putImage env res key value rev)
  | .patch key body patchType apply _ =>
    if patchType = .apply then apply.bind fun am => applyImage env res key body am rev
    else patchImage env res key body patchType rev
  | .delete _ _ _ => none
  | .txn _ _ _ => none

section
variable {env : Env} {post : Json}

theorem applyImage_eq_some {body : ResourceValue} {am : ApplyMeta}
    (h : applyImage env res key body am rev = some post) :
    ∃ out, applySsa env (Gvk.ofKey key) ((res.get key).map Prod.fst) body am.manager am.force
        am.time = .ok out ∧
      ∃ candidate, candidate = stampIdentity env out.merged key
          (nextMeta ((res.get key).map Prod.snd) rev).createRevision ((res.get key).map Prod.fst) ∧
        post = stampRevision candidate rev
        (computeGenerationOnPut ((res.get key).map Prod.fst) candidate) := by
  obtain ⟨out, hout, rfl⟩ := map_eq_some_iff.mp h
  exact ⟨out, of_toOption hout, _, rfl, rfl⟩

theorem patchImage_eq_some {patch : ResourceValue} {type : PatchType}
    (h : patchImage env res key patch type rev = some post) :
    ∃ v m body merged, res.get key = some (v, m) ∧ PatchBody.fromRaw env type patch = .ok body ∧
      applyPatchBody env (Gvk.ofKey key) type v body = .ok merged ∧
      post = stampRevision merged rev (computeGenerationOnPut (some v) merged) := by
  obtain ⟨⟨v, m⟩, hlive, h⟩ := bind_eq_some_iff.mp h
  obtain ⟨body, hbody, h⟩ := bind_eq_some_iff.mp h
  obtain ⟨merged, hmerged, rfl⟩ := map_eq_some_iff.mp h
  exact ⟨v, m, body, merged, hlive, of_toOption hbody, of_toOption hmerged, rfl⟩

end

/-! ## The single-key mutations -/

/-- How a write with the image `image` ends: it leaves the map, stores the image, or removes the
object because the image is Terminating and has no finalizers. -/
inductive WriteEnd (expected : Option Nat) (rev : Nat) (res : Resources) (key : ResourceKey)
    (image : Option Json) :
    Resources × ApplyOutcome → Prop
  | same (o : ApplyOutcome) (hchange : o.change = none) (hextra : o.extraChanges = []) :
      WriteEnd expected rev res key image (res, o)
  | stored (post : Json) (op : ResourceOp) (himage : image = some post)
      (hpre : checkPrecondition expected ((res.get key).map Prod.snd) = true)
      (hkept : (res.get key).isSome = true → finalizersReleased post = false) :
      WriteEnd expected rev res key image
        (res.insert key (post, nextMeta ((res.get key).map Prod.snd) rev),
          .withChange op ⟨rev, key, .put, post, (res.get key).map Prod.fst,
            nextMeta ((res.get key).map Prod.snd) rev⟩)
  | released (post v : Json) (m : VersionMeta) (himage : image = some post)
      (hpre : checkPrecondition expected ((res.get key).map Prod.snd) = true)
      (hlive : res.get key = some (v, m)) (hrel : finalizersReleased post = true) :
      WriteEnd expected rev res key image
        (res.erase key, .withChange .deleted ⟨rev, key, .delete, post, some post, m⟩)

section
variable {expected : Option Nat} {image : Option Json} {out : Resources × ApplyOutcome}
  {post : Json}

theorem WriteEnd.of_change (h : WriteEnd expected rev res key image out)
    (hch : out.2.change = some ch) :
    ∃ post, image = some post ∧ checkPrecondition expected ((res.get key).map Prod.snd) = true ∧
      ((ch = ⟨rev, key, .put, post, (res.get key).map Prod.fst,
        nextMeta ((res.get key).map Prod.snd) rev⟩ ∧
          out.1 = res.insert key (post, nextMeta ((res.get key).map Prod.snd) rev)) ∨
        ∃ v m, ch = ⟨rev, key, .delete, post, some post, m⟩ ∧ res.get key = some (v, m) ∧
          finalizersReleased post = true) := by
  cases h with
  | same o hchange =>
    rw [hchange] at hch
    cases hch
  | stored post op himage hpre =>
    cases hch
    exact ⟨post, himage, hpre, .inl ⟨rfl, rfl⟩⟩
  | released post v m himage hpre hlive hrel =>
    cases hch
    exact ⟨post, himage, hpre, .inr ⟨v, m, rfl, hlive, hrel⟩⟩

theorem WriteEnd.oneWrite (h : WriteEnd expected rev res key image out)
    (hv : ∀ post, image = some post → StampedValue ((res.get key).map Prod.fst) rev post) :
    OneWrite rev res key out := by
  cases h with
  | same o hchange hextra => exact .none hchange hextra
  | stored post op himage => exact .one op rfl (.put (hv post himage))
  | released post v m himage _ hlive hrel =>
    have hpost := hv post himage
    rw [hlive] at hpost
    exact .one _ rfl (.release hlive hpost hrel)

/-- The common end of the three writes. -/
theorem release_or_store (himage : image = some post)
    (hpre : checkPrecondition expected ((res.get key).map Prod.snd) = true) :
    WriteEnd expected rev res key image
      (match finalizerReleaseRemoval res key post ((res.get key).map Prod.fst) rev with
       | some out => out
       | none =>
         (res.insert key (post, nextMeta ((res.get key).map Prod.snd) rev),
          .withChange op ⟨rev, key, .put, post, (res.get key).map Prod.fst,
            nextMeta ((res.get key).map Prod.snd) rev⟩)) := by
  unfold finalizerReleaseRemoval
  split
  · rename_i out hout
    split at hout
    · cases hout
    rename_i hc
    cases hlive : res.get key with
    | none => simp [hlive] at hc
    | some e =>
      rw [hlive] at hout
      cases hout
      exact .released post e.1 e.2 himage hpre hlive (by simpa [hlive] using hc)
  · rename_i hnone
    split at hnone
    · rename_i hc
      refine .stored post op himage hpre fun hsome => ?_
      obtain ⟨e, he⟩ := isSome_iff_exists.mp hsome
      simpa [he] using hc
    · cases hnone

end

section
variable (env : Env) (res : Resources) (key : ResourceKey)
variable (value patch : ResourceValue)

variable (type : PatchType) (am : Option ApplyMeta) (expected : Option Nat) (on : OnIdentical)

theorem applyPut_end (rev : Nat) :
    WriteEnd expected rev res key (some (putImage env res key value rev))
      (applyPut env res key value expected on rev) := by
  unfold applyPut
  simp only
  split
  · exact .same _ rfl rfl
  · rename_i hpre
    split
    · exact .same _ rfl rfl
    · exact release_or_store _ rfl (by simpa using hpre)

theorem applySsaCommand_end (body : ResourceValue) (am : ApplyMeta) (expected : Option Nat)
    (on : OnIdentical)
    (rev : Nat) : WriteEnd expected rev res key (applyImage env res key body am rev)
      (applySsaCommand env res key body am expected on rev) := by
  unfold applySsaCommand
  simp only
  split
  · exact .same _ rfl rfl
  rename_i hpre
  split
  · exact .same _ rfl rfl
  rename_i out hout
  split
  · exact .same _ rfl rfl
  -- without a prior there is no release to check
  have hguard : ∀ v, (if ((res.get key).map Prod.fst).isSome = true then
      finalizerReleaseRemoval res key v ((res.get key).map Prod.fst) rev else none) =
      finalizerReleaseRemoval res key v ((res.get key).map Prod.fst) rev := fun v => by
    cases res.get key <;> simp [finalizerReleaseRemoval]
  rw [hguard]
  exact release_or_store _ (by simp only [applyImage, hout, Except.toOption, map_some])
    (by simpa using hpre)

theorem applyPatch_end (rev : Nat) :
    WriteEnd expected rev res key
    ((ResourceCommand.patch key patch type am expected).image env res rev)
      (applyPatch env res key patch type am expected on rev) := by
  simp only [ResourceCommand.image]
  unfold applyPatch
  by_cases htype : type = .apply
  · rw [if_pos htype, if_pos htype]
    cases am with
    | none => exact .same _ rfl rfl
    | some am => exact applySsaCommand_end env res key patch am expected on rev
  · rw [if_neg htype, if_neg htype]
    split
    · exact .same _ rfl rfl
    rename_i v m hlive
    split
    · exact .same _ rfl rfl
    rename_i hpre
    split
    · exact .same _ rfl rfl
    rename_i body hbody
    split
    · exact .same _ rfl rfl
    rename_i merged hmerged
    split
    · exact .same _ rfl rfl
    have himage : patchImage env res key patch type rev =
        some (stampRevision merged rev (computeGenerationOnPut (some v) merged)) := by
      simp only [patchImage, hlive, bind_some, hbody, Except.toOption, hmerged, map_some]
    have hend : WriteEnd expected rev res key _ _ :=
      release_or_store .patched himage (by rw [hlive]; simpa using hpre)
    rw [hlive] at hend
    exact hend

theorem applyPut_write (rev : Nat) :
    OneWrite rev res key (applyPut env res key value expected on rev) := by
  refine (applyPut_end env res key value expected on rev).oneWrite fun post himage => ?_
  cases himage
  rw [putImage, ← computeGenerationOnPut_congr _ (specOf_stampIdentity env value key
    (nextMeta ((res.get key).map Prod.snd) rev).createRevision ((res.get key).map Prod.fst))]
  exact .write _

theorem applyPatch_write (rev : Nat) :
    OneWrite rev res key (applyPatch env res key patch type am expected on rev) := by
  refine (applyPatch_end env res key patch type am expected on rev).oneWrite fun post himage => ?_
  simp only [ResourceCommand.image] at himage
  split at himage
  · obtain ⟨am, -, himage⟩ := bind_eq_some_iff.mp himage
    obtain ⟨out, -, candidate, -, rfl⟩ := applyImage_eq_some himage
    exact .write candidate
  · obtain ⟨v, m, body, merged, hlive, -, -, rfl⟩ := patchImage_eq_some himage
    rw [hlive]
    exact .write merged

end

/-- How a delete ends: it leaves the map, removes an object without finalizers, or stamps one with
finalizers. -/
inductive DeleteEnd (rev : Nat) (res : Resources) (key : ResourceKey) (ts : Option String) :
    Resources × ApplyOutcome → Prop
  | same (op : ResourceOp) : DeleteEnd rev res key ts (res, .noChange op)
  | removed (live : Json) (m : VersionMeta) (hlive : res.get key = some (live, m))
      (hfree : hasFinalizers live = false) :
      DeleteEnd rev res key ts (res.erase key, .withChange .deleted ⟨rev, key, .delete,
        live, some live, m⟩)
  | stamped (live : Json) (m : VersionMeta) (stamp : String) (hlive : res.get key = some (live, m))
      (hheld : hasFinalizers live = true) (hts : ts = some stamp)
      (hnew : deletionTimestampOf live = none) :
      DeleteEnd rev res key ts
        (res.insert key (stampResourceVersion (stampDeletionTimestamp live stamp) rev,
          m.bumpedAt rev),
          .withChange .deletionPending ⟨rev, key, .put,
            stampResourceVersion (stampDeletionTimestamp live stamp) rev, some live,
            m.bumpedAt rev⟩)

theorem applyDelete_end (res : Resources) (key : ResourceKey) (expected : Option Nat)
    (ts : Option String)
    (rev : Nat) : DeleteEnd rev res key ts (applyDelete res key expected ts rev) := by
  unfold applyDelete
  split
  · exact .same _
  split
  · exact .same _
  rename_i live m hlive
  split
  · rename_i hfree
    exact .removed live m hlive (by simpa using hfree)
  rename_i hheld
  split
  · exact .same _
  rename_i hnew
  split
  · exact .same _
  · rename_i stamp
    exact .stamped live m stamp hlive (by simpa using hheld) rfl (by simpa using hnew)

theorem DeleteEnd.oneWrite {ts : Option String} (h : DeleteEnd rev res key ts out) :
    OneWrite rev res key out := by
  cases h with
  | same op => exact .none rfl rfl
  | removed live m hlive => exact .one _ rfl (.delete hlive)
  | stamped live m stamp hlive hheld =>
    have h : KeyWrite rev res ⟨rev, key, .put, _, (res.get key).map Prod.fst,
        nextMeta ((res.get key).map Prod.snd) rev⟩ :=
      .put (.terminating stamp (by rw [hlive]; rfl) hheld)
    rw [hlive] at h
    exact .one _ rfl h

theorem applyDelete_write (res : Resources) (key : ResourceKey) (expected : Option Nat)
    (ts : Option String) (rev : Nat) : OneWrite rev res key (applyDelete res key expected ts rev) :=
  (applyDelete_end res key expected ts rev).oneWrite

/-! ## Transactions and commands -/

/-- The live map after a list of changes. -/
def applyChanges (res : Resources) (chs : List Change) : Resources := chs.foldl Change.applyTo res

@[simp] theorem applyChanges_nil (res : Resources) : applyChanges res [] = res := rfl

@[simp] theorem applyChanges_cons (res : Resources) (ch : Change) (chs : List Change) :
    applyChanges res (ch :: chs) = applyChanges (ch.applyTo res) chs := rfl

@[simp] theorem applyChanges_append (res : Resources) (chs chs' : List Change) :
    applyChanges res (chs ++ chs') = applyChanges (applyChanges res chs) chs' := foldl_append ..

section
variable (env : Env)

theorem applyTxnOp_write (rev : Nat) (res : Resources) (op : TxnOp) :
    OneWrite rev res op.key (applyTxnOp env rev res op) := by
  cases op with
  | put key value => exact applyPut_write env ..
  | delete key ts => exact applyDelete_write ..

theorem applyTxnOps_writes (rev : Nat) (res : Resources) (ops : List TxnOp) :
    Writes rev res (applyTxnOps env rev res ops).2 ∧
      (applyTxnOps env rev res ops).1 = applyChanges res (applyTxnOps env rev res ops).2 := by
  induction ops generalizing res with
  | nil => exact ⟨.nil, rfl⟩
  | cons op ops ih =>
    obtain ⟨-, ⟨hn, hres⟩ | ⟨ch, hs, -, hw, hres⟩⟩ := applyTxnOp_write env rev res op
    · simp only [applyTxnOps, hn, hres]
      exact ih res
    · simp only [applyTxnOps, hs, hres]
      exact ⟨.cons hw (ih _).1, (ih _).2⟩

/-- The branch of a transaction that runs. -/
def takenBranch (res : Resources) (compares : List TxnCompare) (success failure : List TxnOp) :
    List TxnOp :=
  if compares.all (evalCompare res) then success else failure

/-- A transaction does what its branch does. -/
theorem applyTxn_eq (res : Resources) (compares : List TxnCompare) (success failure : List TxnOp)
    (rev : Nat) :
    let out := applyTxn env res compares success failure rev
    out.1 = (applyTxnOps env rev res (takenBranch res compares success failure)).1 ∧
      out.2.changes = (applyTxnOps env rev res (takenBranch res compares success failure)).2 ∧
      (out.2.change = none → out.2.changes = []) := by
  simp only [applyTxn, takenBranch]
  generalize applyTxnOps env rev res _ = p
  obtain ⟨res', _ | ⟨first, rest⟩⟩ := p
  · exact ⟨rfl, rfl, fun _ => rfl⟩
  · exact ⟨rfl, rfl, fun h => nomatch h⟩

theorem applyTxnOps_get_ne (rev : Nat) (ops : List TxnOp) (res : Resources)
    (h : k ∉ ops.map TxnOp.key) : (applyTxnOps env rev res ops).1.get k = res.get k := by
  induction ops generalizing res with
  | nil => rfl
  | cons op ops ih =>
    simp only [map_cons, mem_cons, not_or] at h
    have hop := (applyTxnOp_write env rev res op).get_ne h.1
    simp only [applyTxnOps]
    rw [ih _ h.2, hop]

theorem dispatch_get_ne (res : Resources) (cmd : ResourceCommand) (on : OnIdentical) (rev : Nat)
    (h : k ∉ cmd.keys) : (ResourceCatalog.dispatch env res cmd on rev).1.get k = res.get k := by
  cases cmd with
  | put key value expected =>
    exact (applyPut_write env ..).get_ne (by simpa [ResourceCommand.keys] using h)
  | patch key patch type am expected =>
    exact (applyPatch_write env ..).get_ne (by simpa [ResourceCommand.keys] using h)
  | delete key expected ts =>
    exact (applyDelete_write ..).get_ne (by simpa [ResourceCommand.keys] using h)
  | txn compares success failure =>
    simp only [ResourceCommand.keys, map_append, mem_append, not_or] at h
    rw [ResourceCatalog.dispatch, (applyTxn_eq env res compares success failure rev).1]
    refine applyTxnOps_get_ne env rev _ res ?_
    unfold takenBranch
    split
    · exact h.2.1
    · exact h.2.2

/-- A mutation is a list of steps; an outcome without a first change has none at all. -/
theorem dispatch_writes (res : Resources) (cmd : ResourceCommand) (on : OnIdentical) (rev : Nat) :
    let out := ResourceCatalog.dispatch env res cmd on rev
    (out.2.change = none → out.2.changes = []) ∧ Writes rev res out.2.changes ∧
      out.1 = applyChanges res out.2.changes := by
  have single : ∀ {key : ResourceKey} {out : Resources × ApplyOutcome}, OneWrite rev res key out →
      (out.2.change = none → out.2.changes = []) ∧ Writes rev res out.2.changes ∧
        out.1 = applyChanges res out.2.changes := by
    intro key out h
    obtain ⟨hn, hres⟩ | ⟨ch, hs, hch, -, hw, hres⟩ := h.changes
    · rw [hn, hres]
      exact ⟨fun _ => rfl, .nil, rfl⟩
    · rw [hs, hch, hres]
      exact ⟨(fun h => nomatch h), .cons hw .nil, rfl⟩
  cases cmd with
  | put key value expected => exact single (applyPut_write env ..)
  | patch key patch type am expected => exact single (applyPatch_write env ..)
  | delete key expected ts => exact single (applyDelete_write ..)
  | txn compares success failure =>
    obtain ⟨htxn, hchs, hnone⟩ := applyTxn_eq env res compares success failure rev
    obtain ⟨hw, hres⟩ := applyTxnOps_writes env rev res (takenBranch res compares success failure)
    rw [← hchs] at hw hres
    exact ⟨hnone, hw, htxn.trans hres⟩

end

namespace ResourceCatalog
variable (env : Env)

/-- The inversion lemma of a command: it leaves the catalog but for the log position, or it commits
its steps as the next revision. -/
theorem applyUnder_cases (c : ResourceCatalog) (cmd : ResourceCommand) (sem : ApplySemantics)
    (term index : Nat) :
    let out := c.applyUnder env cmd sem term index
    (out.2.changes = [] ∧ out.2.change = none ∧
      out.1 = { c with lastAppliedTerm := term, lastAppliedIndex := index }) ∨
    (∃ first rest, out.2.changes = first :: rest ∧ out.2.change = some first ∧
      Writes (c.revision + 1) c.resources (first :: rest) ∧
      out.1 = { c with
        resources := applyChanges c.resources (first :: rest)
        history := c.history.commit first rest
        lastAppliedTerm := term
        lastAppliedIndex := index }) := by
  simp only [applyUnder]
  split
  · exact .inl ⟨rfl, rfl, rfl⟩
  obtain ⟨hnone, hw, hres⟩ := dispatch_writes env c.resources cmd (.under sem)
    c.history.nextRevision
  revert hnone hw hres
  generalize dispatch env c.resources cmd _ _ = out
  obtain ⟨res', op, change, err, extra⟩ := out
  intro hnone hw hres
  cases change with
  | none =>
    have hchs := hnone rfl
    refine .inl ⟨hchs, rfl, ?_⟩
    rw [hres, hchs]
    rfl
  | some first =>
    refine .inr ⟨first, extra, rfl, rfl, hw, ?_⟩
    rw [hres]
    rfl

variable (c : ResourceCatalog)

variable (cmd : ResourceCommand) (sem : ApplySemantics)

theorem applyUnder_get_ne (term index : Nat)
    (h : k ∉ cmd.keys) :
    (c.applyUnder env cmd sem term index).1.resources.get k = c.resources.get k := by
  simp only [applyUnder]
  split
  · rfl
  · exact dispatch_get_ne env c.resources cmd _ _ h

theorem applyUnder_revision (term index : Nat) :
    c.revision ≤ (c.applyUnder env cmd sem term index).1.revision := by
  obtain ⟨-, -, hcat⟩ | ⟨first, rest, -, -, -, hcat⟩ := c.applyUnder_cases env cmd sem term index
  · rw [hcat]; exact le_rfl
  · rw [hcat]; simp [revision]

end ResourceCatalog
end Engenho
