import Engenho.Store.MergePatch
import Engenho.Store.Pointer
import Engenho.Store.SsaMerge
import Engenho.Store.Versions

/-!
# The identity of an object

`uid` and `creationTimestamp` are assigned when an object is created. Every put and every
server-side apply goes through `stampIdentity`, which carries them over from the live object; the
Terminating stamp of a delete does not touch them. A plain patch does not go through it, and keeps
what its body does not write.

* `Keeps old v`: `v` has the identity of `old`.
* `PatchBody.leaves`: the body of a patch does not write a metadata field.
* `identityKept`: what every command keeps but a patch that writes the identity, and that a key
  deleted by one command and created again by a later one gets another minted uid.
-/

namespace Engenho
open Logged ResourceCommand ResourceCatalog Option List OrdMap

/-- `v` has the uid of `old` if that is set, and its creation time if it has one. -/
def Keeps (old v : Json) : Prop :=
  (∀ uid, metaField "uid" old = some uid → uidSet uid = true → metaField "uid" v = some uid) ∧
    ∀ t, metaField "creationTimestamp" old = some t → metaField "creationTimestamp" v = some t

theorem Keeps.refl (v : Json) : Keeps v v := ⟨fun _ h _ => h, fun _ h => h⟩

theorem Keeps.trans {a b c : Json} (h : Keeps a b) (h' : Keeps b c) : Keeps a c :=
  ⟨fun uid hu hs => h'.1 uid (h.1 uid hu hs) hs, fun t ht => h'.2 t (h.2 t ht)⟩

/-- The body carries no uid that counts. -/
def withoutUid (body : Json) : Bool := !(metaField "uid" body).any uidSet

/-! ## Stamping the identity -/

variable {old : Json} {m : VersionMeta}
section
variable (env : Env) {w : Json} {key : ResourceKey} {cr rev : Nat} {prior : Option Json} {g : Int}

theorem objectMeta_identity :
    objectMeta (stampRevision (stampIdentity env w key cr prior) rev g) = (metaBase w).isSome := by
  rw [objectMeta_stampRevision, stampResourceVersion, objectMeta_updateMetadata, stampIdentity,
    metaBase_updateMetadata, isSome_map]

variable {md : JsonMap}

theorem metaField_uid_identity (h : metaBase w = some md) :
    metaField "uid" (stampRevision (stampIdentity env w key cr prior) rev g) =
      (stampUid (env.mintUid key.label cr) prior md).lookup "uid" := by
  rw [metaField_stampRevision _ _ _ (by decide) (by decide), stampIdentity,
    metaField_updateMetadata, h, bind_some, stampCreation_lookup_ne _ _ (by decide)]

theorem metaField_creation_identity (h : metaBase w = some md) :
    metaField "creationTimestamp" (stampRevision (stampIdentity env w key cr prior) rev g) =
      (stampCreation prior (stampUid (env.mintUid key.label cr) prior md)).lookup
        "creationTimestamp" := by
  rw [metaField_stampRevision _ _ _ (by decide) (by decide), stampIdentity,
    metaField_updateMetadata, h, bind_some]

/-- Over a live object the stamp carries its identity over. -/
theorem keeps_of_stampIdentity
    (h : objectMeta (stampRevision (stampIdentity env w key cr (some old)) rev g) = true) :
    Keeps old (stampRevision (stampIdentity env w key cr (some old)) rev g) := by
  rw [objectMeta_identity] at h
  obtain ⟨md, hmd⟩ := isSome_iff_exists.mp h
  refine ⟨fun uid hu hs => ?_, fun t ht => ?_⟩
  · rw [metaField_uid_identity env hmd]
    simp [stampUid, hu, hs, Option.filter]
  · rw [metaField_creation_identity env hmd]
    simp [stampCreation, ht]

/-- A body without uid over no object, or over one of the same create revision whose uid was minted,
has the minted one. -/
theorem uid_minted {prior : Option Json} (hw : withoutUid w = true)
    (hprior : ∀ old ∈ prior, metaField "uid" old = some (.str (env.mintUid key.label cr)))
    (h : objectMeta (stampRevision (stampIdentity env w key cr prior) rev g) = true) :
    metaField "uid" (stampRevision (stampIdentity env w key cr prior) rev g) =
      some (.str (env.mintUid key.label cr)) := by
  rw [objectMeta_identity] at h
  obtain ⟨md, hmd⟩ := isSome_iff_exists.mp h
  rw [metaField_uid_identity env hmd]
  rw [withoutUid, metaField_of_metaBase, hmd] at hw
  have hw : (md.lookup "uid").any uidSet = false := by simpa using hw
  cases prior with
  | none => simp [stampUid, hw]
  | some old =>
    have hold := hprior old rfl
    -- An empty minted uid does not count as set; the body then has it minted again.
    by_cases hs : uidSet (.str (env.mintUid key.label cr)) = true
    · simp [stampUid, hold, hs, Option.filter]
    · simp [stampUid, hold, hs, hw, Option.filter]

end

theorem keeps_of_terminating (live : Json) (ts : String) (rev : Nat) :
    Keeps live (stampResourceVersion (stampDeletionTimestamp live ts) rev) := by
  have h : ∀ name, name ≠ "resourceVersion" → name ≠ "deletionTimestamp" →
      metaField name (stampResourceVersion (stampDeletionTimestamp live ts) rev) =
        metaField name live := by
    intro name hr hd
    rw [stampResourceVersion, metaField_put_ne _ _ _ _ hr, stampDeletionTimestamp,
      metaField_put_ne _ _ _ _ hd]
  exact ⟨fun uid hu _ => by rw [h _ (by decide) (by decide)]; exact hu,
    fun t ht => by rw [h _ (by decide) (by decide)]; exact ht⟩

/-! ## Patches -/

/-- A pointer that goes neither to the metadata field `name` nor to what holds it. -/
def leavesTokens (name : String) : List String → Bool
  | [] => false
  | [t] => t ≠ "metadata"
  | t :: k :: _ => t ≠ "metadata" || k ≠ name

/-- What the operation writes or removes is not the metadata field `name`. -/
def JsonPatchOp.leaves (name : String) : JsonPatchOp → Bool
  | .add path _ | .remove path | .replace path _ | .copy _ path =>
    leavesTokens name (pointerTokens path)
  | .move source path =>
    leavesTokens name (pointerTokens source) && leavesTokens name (pointerTokens path)
  | .test _ _ => true

/-- A merge patch that leaves the metadata field `name`. -/
def leavesMerge (name : String) : Json → Bool
  | .obj fields =>
    fields.all fun e => e.1 ≠ "metadata" || e.2.asObject.any fun md => md.all fun f => f.1 ≠ name
  | _ => false

/-- A patch that leaves the metadata field `name`. -/
def PatchBody.leaves (env : Env) (gvk : Gvk) (name : String) : PatchBody → Bool
  | .merge body => leavesMerge name body
  | .strategic body =>
    let field : Path := [.field "metadata", .field name]
    uniqueKeys body && sparesNode env gvk false [] field body && (valueAt body field).isNone
  | .json ops => ops.all (·.leaves name)
  | .apply _ => true

section
variable {name t last : String} {ts : List String} {doc doc' x : Json} {α : Type}
  {bad : PatchError} {a : α}

theorem metaField_eq_some (h : metaField name doc = some x) :
    ∃ m md, doc = .obj m ∧ m.lookup "metadata" = some (.obj md) ∧ md.lookup name = some x := by
  obtain ⟨metadata, hmetadata, hx⟩ := bind_eq_some_iff.mp h
  cases doc with
  | obj m =>
    cases metadata with
    | obj md => exact ⟨m, md, rfl, hmetadata, hx⟩
    | _ => cases hx
  | _ => cases hmetadata

theorem metaField_of_lookup {m md : JsonMap} (h : m.lookup "metadata" = some (.obj md)) :
    metaField name (.obj m) = md.lookup name := by
  rw [metaField, Json.get_obj, h]
  rfl

theorem OnlyField.metaField_eq (h : OnlyField t doc doc') (ht : "metadata" ≠ t) :
    metaField name doc' = metaField name doc := by
  rw [metaField, h.get ht, metaField]

/-- A change inside the parent of the last token, as every pointer operation is. -/
theorem atParent_metaField {f : String → Json → Except PatchError (Json × α)}
    (hf : ∀ {last : String} {m : JsonMap} {v' : Json} {a : α}, f last (.obj m) = .ok (v', a) →
      OnlyField last (.obj m) v') (hlast : ts.getLast? = some last) (hleaves :
      leavesTokens name ts = true)
    (h : modifyAt bad (f last) ts.dropLast doc = .ok (doc', a)) (hx : metaField name doc = some x) :
    metaField name doc' = some x := by
  obtain ⟨m, md, rfl, hm, hmd⟩ := metaField_eq_some hx
  cases ts with
  | nil => cases hleaves
  | cons t ts =>
    by_cases ht : t = "metadata"
    · subst ht
      cases ts with
      | nil => simp [leavesTokens] at hleaves
      | cons k ts =>
        have hk : k ≠ name := by simpa [leavesTokens] using hleaves
        rw [dropLast_cons_of_ne_nil (cons_ne_nil k ts), modifyAt, hm] at h
        obtain ⟨⟨md', a'⟩, hinner, h⟩ := Except.of_bind_ok h
        cases h
        have honly := atParent_onlyField hf (by simpa using hlast) hinner
        rw [metaField, Json.get_obj, Assoc.lookup_put_self, bind_some, honly.get hk.symm]
        exact hmd
    · rw [(atParent_onlyField hf hlast h).metaField_eq (Ne.symm ht)]
      exact hx

theorem tokens_ne_nil (h : leavesTokens name ts = true) : ∃ last, ts.getLast? = some last := by
  cases ts with
  | nil => cases h
  | cons t ts => exact ⟨_, getLast?_cons⟩

variable {path : String} {value v : Json}

theorem pointerAdd_metaField (hl : leavesTokens name (pointerTokens path) = true)
    (h : pointerAdd doc path value = .ok doc') (hx : metaField name doc = some x) :
    metaField name doc' = some x := by
  obtain ⟨last, hlast⟩ := tokens_ne_nil hl
  simp only [pointerAdd, hlast] at h
  obtain ⟨a, ha⟩ := map_fst_ok h
  exact atParent_metaField (f := fun last => addLast _ last value) addLast_onlyField hlast hl ha hx

theorem pointerRemove_metaField (hl : leavesTokens name (pointerTokens path) = true)
    (h : pointerRemove doc path = .ok (doc', v)) (hx : metaField name doc = some x) :
    metaField name doc' = some x := by
  obtain ⟨last, hlast⟩ := tokens_ne_nil hl
  simp only [pointerRemove, hlast] at h
  exact atParent_metaField (f := removeLast _) (fun h => (removeLast_removes h).onlyField)
    hlast hl h hx

theorem applyOneOp_metaField {op : JsonPatchOp} (hl : op.leaves name = true)
    (h : applyOneOp doc op = .ok doc') (hx : metaField name doc = some x) :
    metaField name doc' = some x := by
  cases op with
  | add path value => exact pointerAdd_metaField hl h hx
  | remove path =>
    obtain ⟨v, hv⟩ := map_fst_ok h
    exact pointerRemove_metaField hl hv hx
  | replace path value =>
    obtain ⟨last, hlast⟩ := tokens_ne_nil hl
    simp only [applyOneOp, pointerReplace, hlast] at h
    obtain ⟨a, ha⟩ := map_fst_ok h
    exact atParent_metaField (f := fun last => replaceLast _ last value)
      replaceLast_onlyField hlast hl ha hx
  | copy source path =>
    rw [applyOneOp] at h
    split at h
    · cases h
    · exact pointerAdd_metaField hl h hx
  | move source path =>
    obtain ⟨hsource, hpath⟩ := Bool.and_eq_true_iff.mp hl
    obtain ⟨⟨mid, v⟩, hremove, h⟩ := Except.of_bind_ok h
    exact pointerAdd_metaField hpath h (pointerRemove_metaField hsource hremove hx)
  | test path value =>
    rw [applyOneOp] at h
    split at h
    · cases h
    · split at h
      · cases h
        exact hx
      · cases h

theorem applyJsonPatch_metaField {ops : List JsonPatchOp} (hl : ops.all (·.leaves name) = true)
    (h : applyJsonPatch doc ops = .ok doc') (hx : metaField name doc = some x) :
    metaField name doc' = some x := by
  induction ops generalizing doc with
  | nil =>
    cases h
    exact hx
  | cons op ops ih =>
    obtain ⟨hop, hops⟩ := Bool.and_eq_true_iff.mp hl
    obtain ⟨mid, hmid, h⟩ := Except.of_bind_ok h
    exact ih hops h (applyOneOp_metaField hop hmid hx)

theorem mergeRfc7396_metaField {patch : Json} (hl : leavesMerge name patch = true)
    (hx : metaField name doc = some x) : metaField name (mergeRfc7396 doc patch) = some x := by
  cases patch with
  | obj fields =>
    rw [mergeRfc7396]
    obtain ⟨m, md, rfl, hm, hmd⟩ := metaField_eq_some hx
    rw [Json.asObject_obj, getD_some]
    clear hx
    -- the loop keeps an object at `metadata` with the field
    induction fields generalizing m md with
    | nil => exact (metaField_of_lookup hm).trans hmd
    | cons e fields ih =>
      obtain ⟨k, w⟩ := e
      obtain ⟨hfirst, hrest⟩ := Bool.and_eq_true_iff.mp hl
      rw [mergeRfc7396Fields]
      by_cases hk : k = "metadata"
      · subst hk
        obtain ⟨fs, hfs, hnames⟩ := (any_eq_true _ _).mp (by simpa using hfirst)
        obtain rfl := Json.asObject_eq_some.mp hfs
        rw [if_neg (by simp [Json.isNull])]
        refine ih hrest _ (mergeRfc7396Fields md fs) (by simp [hm, mergeRfc7396]) ?_
        rw [mergeRfc7396Fields_lookup fs md (by simpa using hnames)]
        exact hmd
      · have hother : ∀ w' : JsonMap, (w' = Assoc.drop k m ∨ ∃ y, w' = Assoc.put k y m) →
            w'.lookup "metadata" = some (.obj md) := by
          rintro _ (rfl | ⟨y, rfl⟩)
          · rw [Assoc.lookup_drop_ne (Ne.symm hk)]
            exact hm
          · rw [Assoc.lookup_put_ne (Ne.symm hk)]
            exact hm
        refine ih hrest _ md (hother _ ?_) hmd
        split
        · exact .inl rfl
        · exact .inr ⟨_, rfl⟩
  | _ => cases hl

/-- A patch that leaves a metadata field keeps the value it has. -/
theorem PatchBody.leaves_metaField {env : Env} {gvk : Gvk} {type : PatchType} {body : PatchBody}
    (hl : body.leaves env gvk name = true) (h : applyPatchBody env gvk type doc body = .ok doc')
    (hx : metaField name doc = some x) : metaField name doc' = some x := by
  unfold applyPatchBody at h
  split at h
  · cases h
    exact mergeRfc7396_metaField hl hx
  · exact applyJsonPatch_metaField hl h hx
  · simp only [PatchBody.leaves, Bool.and_eq_true, isNone_iff_eq_none] at hl
    have hsame := strategicMerge_spares _ hl.1.1 h hl.1.2 ⟨.inl hl.2,
      fun habsent => by cases habsent⟩
    have hfield : ∀ v : Json, valueAt v [.field "metadata", .field name] = metaField name v := by
      intro v
      simp only [metaField, valueAt, bind_fun_some]
      rfl
    rw [hfield, hfield] at hsame
    exact hsame.trans hx
  · cases h
  · cases h

end

/-! ## The mutations -/

/-- The command is no patch of `key` that writes the identity of its object. -/
def ResourceCommand.leavesIdentity (env : Env) (cmd : ResourceCommand) (key : ResourceKey) : Bool :=
  match cmd with
  | .patch k body type _ _ => k ≠ key || (PatchBody.fromRaw env type body).toOption.all fun patch =>
    patch.leaves env (Gvk.ofKey key) "uid" && patch.leaves env (Gvk.ofKey key) "creationTimestamp"
  | _ => true

/-- What a put-kind change stored, as far as identity goes: the stamped `w`, a patched object, or
the live object made Terminating. `bare` promises that `w` has no uid. -/
inductive IdentityPut (env : Env) (rev : Nat) (res : Resources) (bare : Bool) (ch : Change) :
    Prop where
  | stamped (w : Json) (g : Int) (hbare : bare = true → withoutUid w = true)
      (hvalue : ch.value = stampRevision (stampIdentity env w ch.key
        (nextMeta ((res.get ch.key).map Prod.snd) rev).createRevision
        ((res.get ch.key).map Prod.fst)) rev g)
      (hmeta : ch.versionMeta = nextMeta ((res.get ch.key).map Prod.snd) rev)
  | patched {live : Json} {m : VersionMeta} (merged : Json) (g : Int) (hbare : bare = false)
      (hlive : res.get ch.key = some (live, m)) (hkeeps : Keeps live merged)
      (hvalue : ch.value = stampRevision merged rev g)
  | terminating {live : Json} {m : VersionMeta} (ts : String)
      (hlive : res.get ch.key = some (live, m))
      (hvalue : ch.value = stampResourceVersion (stampDeletionTimestamp live ts) rev)
      (hmeta : ch.versionMeta = m.bumpedAt rev)

/-- Every put-kind change of a single-key mutation stored an identity as above. -/
def PutsIdentity (env : Env) (rev : Nat) (res : Resources) (bare : Bool) (o : ApplyOutcome) :
    Prop :=
  ∀ ch, o.change = some ch → ch.kind = .put → IdentityPut env rev res bare ch

variable {value : Json}
section
variable {env : Env} {rev : Nat} {res : Resources} {bare : Bool}

theorem PutsIdentity.none {o : ApplyOutcome} (h : o.change = none) :
    PutsIdentity env rev res bare o := by
  intro ch hch
  rw [h] at hch
  cases hch

variable {key : ResourceKey}
variable (expected : Option Nat)

theorem applyPut_identity (on : OnIdentical) (hbare : bare = true → withoutUid value = true) :
    PutsIdentity env rev res bare (applyPut env res key value expected on rev).2 := by
  intro ch hch hk
  obtain ⟨post, himage, -, ⟨rfl, -⟩ | ⟨v, m, rfl, -⟩⟩ :=
    (applyPut_end env res key value expected on rev).of_change hch
  · cases himage
    exact .stamped value _ hbare rfl rfl
  · cases hk

theorem metaField_setManagedFields (object managed : Json) {name : String}
    (hn : name ≠ "managedFields") :
    metaField name (setManagedFields object managed) = metaField name object := by
  have h : setManagedFields object managed =
      updateMetadata (Assoc.put "managedFields" managed) object := by
    cases object <;> rfl
  rw [h, metaField_put_ne _ _ _ _ hn]

theorem applySsaCommand_identity {body : Json} (am : ApplyMeta) (expected : Option Nat)
    (on : OnIdentical) (hbare : bare = true → withoutUid body = true ∧ res.get key = none) :
    PutsIdentity env rev res bare (applySsaCommand env res key body am expected on rev).2 := by
  intro ch hch hk
  obtain ⟨post, himage, -, ⟨rfl, -⟩ | ⟨v, m, rfl, -⟩⟩ :=
    (applySsaCommand_end env res key body am expected on rev).of_change hch
  · obtain ⟨out, hssa, candidate, rfl, rfl⟩ := applyImage_eq_some himage
    refine .stamped out.merged _ (fun hb => ?_) rfl rfl
    -- a create stores the config itself, with its managed fields
    obtain ⟨hbody, hnone⟩ := hbare hb
    rw [hnone] at hssa
    simp only [map_none, applySsa, Except.ok.injEq] at hssa
    rw [← hssa, SsaOutcome.merged, withoutUid, metaField_setManagedFields _ _ (by decide)]
    exact hbody
  · cases hk

/-- A plain patch, of an object that is there. -/
theorem patchImage_identity {body : Json} {type : PatchType} {ch : Change} (hkey : ch.key = key)
    (himage : patchImage env res key body type rev = some ch.value)
    (hleaves : (ResourceCommand.patch key body type none none).leavesIdentity env key = true)
    (hbare : bare = true → res.get key = none) : IdentityPut env rev res bare ch := by
  subst hkey
  obtain ⟨live, m, patch, merged, hlive, hpatch, hmerged, hvalue⟩ := patchImage_eq_some himage
  have hbare : bare = false := by
    cases bare with
    | false => rfl
    | true =>
      rw [hbare rfl] at hlive
      cases hlive
  simp only [leavesIdentity, hpatch, Except.toOption, all_some, Bool.and_eq_true, ne_eq,
    not_true_eq_false, decide_false, Bool.false_or] at hleaves
  refine .patched merged _ hbare hlive ⟨fun uid hu _ => ?_, fun t ht => ?_⟩ hvalue
  · exact PatchBody.leaves_metaField hleaves.1 hmerged hu
  · exact PatchBody.leaves_metaField hleaves.2 hmerged ht

theorem applyDelete_identity (ts : Option String) :
    PutsIdentity env rev res bare (applyDelete res key expected ts rev).2 := by
  have hend := applyDelete_end res key expected ts rev
  generalize applyDelete res key expected ts rev = out at hend ⊢
  intro ch hch hk
  cases hend with
  | same => cases hch
  | removed =>
    cases hch
    cases hk
  | stamped live m stamp hlive =>
    cases hch
    exact .terminating stamp hlive rfl rfl

end

/-! ## Commands -/

/-- The bodies a command may store under `key`. -/
def ResourceCommand.bodies (cmd : ResourceCommand) (key : ResourceKey) : List Json :=
  let ofOp : TxnOp → Option Json
    | .put k value => if k = key then some value else none
    | .delete _ _ => none
  match cmd with
  | .put k value _ => if k = key then [value] else []
  | .patch k body _ _ _ => if k = key then [body] else []
  | .delete _ _ _ => []
  | .txn _ success failure => (success ++ failure).filterMap ofOp

/-- The put-kind changes of `key` in a list of steps from `res`, as `IdentityPut` describes them. -/
def IdentityWrites (env : Env) (rev : Nat) (key : ResourceKey) (bare : Bool) :
    Resources → List Change → Prop
  | _, [] => True
  | res, ch :: chs =>
    (ch.key = key → ch.kind = .put → IdentityPut env rev res bare ch) ∧
      IdentityWrites env rev key bare (ch.applyTo res) chs

section
variable {env : Env} {rev : Nat} {key : ResourceKey} {bare : Bool}
variable {res : Resources}

theorem IdentityWrites.single {k : ResourceKey} {out : Resources × ApplyOutcome}
    (hone : OneWrite rev res k out) (h : k = key → PutsIdentity env rev res bare out.2) :
    IdentityWrites env rev key bare res out.2.changes := by
  obtain ⟨hn, -⟩ | ⟨ch, hs, hch, hk, -⟩ := hone.changes
  · rw [hn]
    exact trivial
  · rw [hch]
    exact ⟨fun he => h (hk.symm.trans he) ch hs, trivial⟩

theorem applyTxnOps_identity (res : Resources) (ops : List TxnOp)
    (hbare : bare = true → ∀ k value, TxnOp.put k value ∈ ops → k = key → withoutUid value = true) :
    IdentityWrites env rev key bare res (applyTxnOps env rev res ops).2 := by
  induction ops generalizing res with
  | nil => exact trivial
  | cons op ops ih =>
    have htail := fun res => ih res fun hb k v hm => hbare hb k v (.tail _ hm)
    have hop : op.key = key → PutsIdentity env rev res bare (applyTxnOp env rev res op).2 := by
      intro hk
      cases op with
      | put k value => exact applyPut_identity none .commit fun hb => hbare hb k value (by simp) hk
      | delete k ts => exact applyDelete_identity none ts
    obtain ⟨-, ⟨hn, hres⟩ | ⟨ch, hs, hk, -, hres⟩⟩ := applyTxnOp_write env rev res op
    · simp only [applyTxnOps, hn, hres]
      exact htail res
    · simp only [applyTxnOps, hs, hres]
      exact ⟨fun he => hop (hk.symm.trans he) ch hs, htail _⟩

variable {cmd : ResourceCommand} {chs : List Change}

/-- Every command but a patch that writes the identity writes the key as above. -/
theorem dispatch_identity (on : OnIdentical) (hleaves : cmd.leavesIdentity env key = true)
    (hbare : bare = true → (∀ body ∈ cmd.bodies key, withoutUid body = true) ∧ res.get key = none) :
    IdentityWrites env rev key bare res (dispatch env res cmd on rev).2.changes := by
  cases cmd with
  | put k value expected =>
    refine .single (applyPut_write env ..) ?_
    rintro rfl
    exact applyPut_identity expected on fun hb => (hbare hb).1 value (by simp [bodies])
  | patch k body type am expected =>
    refine .single (applyPatch_write env ..) ?_
    rintro rfl
    by_cases htype : type = .apply
    · subst htype
      cases am with
      | none => exact .none rfl
      | some am =>
        refine applySsaCommand_identity am expected on fun hb => ?_
        exact ⟨(hbare hb).1 body (by simp [bodies]), (hbare hb).2⟩
    · intro ch hch hkind
      obtain ⟨post, himage, -, ⟨rfl, -⟩ | ⟨v, m, rfl, -⟩⟩ :=
        (applyPatch_end env res k body type am expected on rev).of_change hch
      · rw [image, if_neg htype] at himage
        exact patchImage_identity rfl himage hleaves fun hb => (hbare hb).2
      · cases hkind
  | delete k expected ts =>
    exact .single (applyDelete_write ..) fun _ => applyDelete_identity expected ts
  | txn compares success failure =>
    rw [dispatch, (applyTxn_eq env res compares success failure rev).2.1]
    refine applyTxnOps_identity res _ fun hb k value hm hk => ?_
    subst hk
    refine (hbare hb).1 value ?_
    rw [bodies]
    refine mem_filterMap.mpr ⟨.put k value, ?_, if_pos rfl⟩
    unfold takenBranch at hm
    split at hm
    · exact mem_append_left _ hm
    · exact mem_append_right _ hm

theorem applyUnder_identity {c : ResourceCatalog} (sem : ApplySemantics) (term index : Nat)
    (hleaves : cmd.leavesIdentity env key = true) (hbare : bare = true →
      (∀ body ∈ cmd.bodies key, withoutUid body = true) ∧ c.resources.get key = none) :
    IdentityWrites env (c.revision + 1) key bare c.resources
      (c.applyUnder env cmd sem term index).2.changes := by
  simp only [applyUnder]
  split
  · exact trivial
  · exact dispatch_identity (.under sem) hleaves hbare

/-! ## A list of steps -/

theorem IdentityPut.keeps {ch : Change} (h : IdentityPut env rev res bare ch)
    (hlive : res.get ch.key = some (old, m)) (hmeta : objectMeta ch.value = true) :
    Keeps old ch.value := by
  cases h with
  | stamped w g hbare hvalue _ =>
    rw [hlive] at hvalue
    rw [hvalue] at hmeta ⊢
    exact keeps_of_stampIdentity env hmeta
  | patched merged g _ hlive' hkeeps hvalue =>
    rw [hlive] at hlive'
    cases hlive'
    rw [hvalue]
    refine hkeeps.trans ⟨fun uid hu _ => ?_, fun t ht => ?_⟩
    · rwa [metaField_stampRevision _ _ _ (by decide) (by decide)]
    · rwa [metaField_stampRevision _ _ _ (by decide) (by decide)]
  | terminating ts hlive' hvalue _ =>
    rw [hlive] at hlive'
    cases hlive'
    rw [hvalue]
    exact keeps_of_terminating old ts rev

/-- Steps that do not delete the key keep the identity of its object. -/
theorem IdentityWrites.keeps (h : IdentityWrites env rev key bare res chs)
    (hmeta : ∀ ch ∈ chs, ch.kind = .put → objectMeta ch.value = true)
    (hdel : ∀ ch ∈ chs, ch.key = key → ch.kind ≠ .delete) (hlive : res.get key = some (old, m)) :
    ∃ v m', (applyChanges res chs).get key = some (v, m') ∧ Keeps old v := by
  induction chs generalizing res old m with
  | nil => exact ⟨old, m, hlive, .refl old⟩
  | cons ch chs ih =>
    obtain ⟨hput, hrest⟩ := h
    have step : ∃ v m', (ch.applyTo res).get key = some (v, m') ∧ Keeps old v := by
      by_cases hk : ch.key = key
      · subst hk
        have hkind : ch.kind = .put := by
          cases hkind : ch.kind with
          | put => rfl
          | delete => exact absurd hkind (hdel ch (by simp) rfl)
        have hkeep := (hput rfl hkind).keeps hlive (hmeta ch (by simp) hkind)
        exact ⟨ch.value, ch.versionMeta, by simp [Change.applyTo, hkind], hkeep⟩
      · refine ⟨old, m, ?_, .refl old⟩
        rw [Change.applyTo]
        split
        · rw [get_insert_ne _ (Ne.symm hk)]; exact hlive
        · rw [get_erase_ne _ (Ne.symm hk)]; exact hlive
    obtain ⟨v, m', hv, hkeep⟩ := step
    obtain ⟨w, m'', hw, hkeep'⟩ := ih hrest (fun c hc => hmeta c (.tail _ hc))
      (fun c hc => hdel c (.tail _ hc)) hv
    exact ⟨w, m'', hw, hkeep.trans hkeep'⟩

/-- The object of `key`, if there is one, was created at `rev` and has the uid minted for that. -/
def Minted (env : Env) (rev : Nat) (key : ResourceKey) (res : Resources) : Prop :=
  ∀ v m, res.get key = some (v, m) →
    m.createRevision = rev ∧ metaField "uid" v = some (.str (env.mintUid key.label rev))

theorem IdentityPut.minted {ch : Change} (h : IdentityPut env rev res true ch)
    (hmint : Minted env rev ch.key res) (hmeta : objectMeta ch.value = true) :
    ch.versionMeta.createRevision = rev ∧
      metaField "uid" ch.value = some (.str (env.mintUid ch.key.label rev)) := by
  cases h with
  | stamped w g hbare hvalue hvm =>
    cases hlive : res.get ch.key with
    | none =>
      rw [hlive] at hvalue hvm
      rw [hvalue] at hmeta ⊢
      exact ⟨by rw [hvm]; rfl, uid_minted env (hbare rfl) (by simp) hmeta⟩
    | some e =>
      obtain ⟨old, m⟩ := e
      obtain ⟨hcr, huid⟩ := hmint old m hlive
      rw [hlive] at hvalue hvm
      have hcr' : (nextMeta ((some (old, m)).map Prod.snd) rev).createRevision = rev := hcr
      rw [hcr'] at hvalue
      rw [hvalue] at hmeta ⊢
      exact ⟨by rw [hvm]; exact hcr', uid_minted env (hbare rfl) (by simpa using huid) hmeta⟩
  | patched merged g hbare => cases hbare
  | terminating ts hlive hvalue hvm =>
    rename_i live m
    obtain ⟨hcr, huid⟩ := hmint live m hlive
    refine ⟨by rw [hvm]; exact hcr, ?_⟩
    rw [hvalue, stampResourceVersion, metaField_put_ne _ _ _ _ (by decide), stampDeletionTimestamp,
      metaField_put_ne _ _ _ _ (by decide)]
    exact huid

/-- Bodies without uid leave the key with the uid minted at this revision, or absent. -/
theorem IdentityWrites.minted (h : IdentityWrites env rev key true res chs)
    (hmeta : ∀ ch ∈ chs, ch.kind = .put → objectMeta ch.value = true)
    (hmint : Minted env rev key res) :
    Minted env rev key (applyChanges res chs) := by
  induction chs generalizing res with
  | nil => exact hmint
  | cons ch chs ih =>
    obtain ⟨hput, hrest⟩ := h
    refine ih hrest (fun c hc => hmeta c (.tail _ hc)) fun v m hv => ?_
    by_cases hk : ch.key = key
    · subst hk
      cases hkind : ch.kind with
      | put =>
        simp only [Change.applyTo, hkind, get_insert_self] at hv
        cases hv
        exact (hput rfl hkind).minted hmint (hmeta ch (by simp) hkind)
      | delete => simp [Change.applyTo, hkind] at hv
    · refine hmint v m ?_
      rw [Change.applyTo] at hv
      split at hv
      · rwa [get_insert_ne _ (Ne.symm hk)] at hv
      · rwa [get_erase_ne _ (Ne.symm hk)] at hv

end

/-! ## Every run -/

theorem Logged.after_createRevision_le (env : Env) (capacity : Nat) (ops : List CatalogOp)
    {key : ResourceKey}
    {v : Json} (h : (after env capacity ops).cat.resources.get key = some (v, m)) :
    m.createRevision ≤ (after env capacity ops).cat.revision := by
  refine live_inv (P := fun rev _ m => m.createRevision ≤ rev) Nat.le_succ_of_le ?_
    env capacity ops h
  intro rev prior v hprior _
  cases prior with
  | none => exact le_rfl
  | some e => exact hprior e.1 e.2 rfl

theorem Logged.after_revision_mono (env : Env) (capacity : Nat) (pre post : List CatalogOp) :
    (after env capacity pre).cat.revision ≤ (after env capacity (pre ++ post)).cat.revision := by
  rw [after, after, Run.exec_append]
  exact Run.exec_rel (R := fun a b : Logged => a.cat.revision ≤ b.cat.revision)
    (fun _ => le_rfl) (fun h h' => h.trans h') (fun s op => s.step_head op) _ _

/-- A command on a reachable catalog that stores objects with object metadata and is no patch of
`key` that writes its identity keeps the identity of the object under `key` unless it deletes it. A
key that is absent when the command begins and is created by bodies without uid gets another uid
than any object the run had there before and whose uid was minted. -/
theorem identityKept (env : Env)
    (hinj : ∀ (key : ResourceKey) (r r' : Nat), env.mintUid key.label r = env.mintUid key.label r' →
      r = r')
    (capacity : Nat) (ops : List CatalogOp) (cmd : ResourceCommand) (sem : ApplySemantics)
    (term index : Nat) (key : ResourceKey) (hleaves : cmd.leavesIdentity env key = true)
    (hmeta :
      ∀ ch ∈ ((Logged.after env capacity ops).cat.applyUnder env cmd sem term index).2.changes,
        ch.kind = .put → objectMeta ch.value = true) :
    let s := (Logged.after env capacity ops).cat
    let out := s.applyUnder env cmd sem term index
    (∀ old v u, s.get key = some old → out.1.get key = some v →
      metaField "uid" old = some (.str u) → u ≠ "" →
      (∀ ch ∈ out.2.changes, ch.key = key → ch.kind ≠ .delete) →
      metaField "uid" v = some (.str u) ∧
        ∀ t, metaField "creationTimestamp" old = some t →
        metaField "creationTimestamp" v = some t) ∧
    ∀ pre post old m v, ops = pre ++ post →
      (Logged.after env capacity pre).cat.getWithMeta key = some (old, m) →
      metaField "uid" old = some (.str (env.mintUid key.label m.createRevision)) →
      s.get key = none → (∀ body ∈ cmd.bodies key, withoutUid body = true) →
      out.1.get key = some v → metaField "uid" v ≠ metaField "uid" old := by
  intro s out
  -- what the command left under the key, from its list of steps
  have hres : out.1.resources = applyChanges s.resources out.2.changes := by
    obtain ⟨hchs, -, he⟩ | ⟨first, rest, hchs, -, -, he⟩ :=
      s.applyUnder_cases env cmd sem term index
    · rw [hchs]; simp only [out, he]; rfl
    · rw [hchs]; simp only [out, he]
  constructor
  · intro old v u hold hv huid hne hdel
    obtain ⟨⟨old, m⟩, hlive, rfl⟩ := Option.map_eq_some_iff.mp hold
    have hw : IdentityWrites env (s.revision + 1) key false s.resources out.2.changes :=
      applyUnder_identity sem term index hleaves (fun h => nomatch h)
    obtain ⟨v', m', hv', hkeep⟩ := hw.keeps hmeta hdel hlive
    have : v' = v := by
      rw [ResourceCatalog.get, hres, hv'] at hv
      exact Option.some.inj hv
    subst this
    exact ⟨hkeep.1 _ huid (by simp [uidSet, Json.isNull, Json.asStr, hne]), hkeep.2⟩
  · intro pre post old m v hops hold huid hnone hbodies hv
    have habsent := Option.map_eq_none_iff.mp hnone
    have hw : IdentityWrites env (s.revision + 1) key true s.resources out.2.changes :=
      applyUnder_identity sem term index hleaves fun _ => ⟨hbodies, habsent⟩
    have hmint := hw.minted hmeta (fun w n hw => by rw [habsent] at hw; cases hw)
    obtain ⟨⟨v, n⟩, hlive, rfl⟩ := Option.map_eq_some_iff.mp hv
    rw [hres] at hlive
    rw [(hmint v n hlive).2, huid]
    intro he
    -- the earlier object was created no later than the head the command started from
    have hle := Logged.after_createRevision_le env capacity pre hold
    have hmono := Logged.after_revision_mono env capacity pre post
    rw [← hops] at hmono
    have hrev : s.revision + 1 = m.createRevision := hinj key _ _ (by simpa using he)
    have : s.revision = (Logged.after env capacity ops).cat.revision := rfl
    omega

theorem atomicEnv_mintUid_injective (key : ResourceKey) (r r' : Nat)
    (h : atomicEnv.mintUid key.label r = atomicEnv.mintUid key.label r') : r = r' := by
  have hrepr : toString r = toString r' := (String.append_right_inj _).mp h
  have hdigits := congrArg (fun s : String => Nat.ofDigitChars 10 s.toList 0) hrepr
  simpa [Nat.ofDigitChars_ten_toDigits] using hdigits

/-- A put of the pod as the `index`-th command. -/
def putPod (md : JsonMap) (index : Nat) : CatalogOp :=
  .command (.put podKey (podBody md) none) .v1 1 index

def deletePod (index : Nat) : CatalogOp := .command (.delete podKey none none) .v1 1 index

/-- A merge patch of a label. -/
def labelPod : ResourceCommand :=
  .patch podKey (.obj [("metadata", .obj [("labels", .obj [("app", .str "web")])])])
    .merge none none

/-- A put with another uid and creation time leaves those of the live pod, a patch of a label leaves
its uid, and a pod created again has another. -/
theorem identityKept_pod :
    (∃ v, ((Logged.after atomicEnv 8 [putPod [("creationTimestamp", .str "t0")] 1]).cat.applyUnder
        atomicEnv (.put podKey (podBody [("uid", .str "x"), ("creationTimestamp", .str "t1")]) none)
        .v1 1 2).1.get podKey = some v ∧
      metaField "uid" v = some (.str "v1/v1/Pod/default/web@1") ∧
      metaField "creationTimestamp" v = some (.str "t0")) ∧
    (∃ v, ((Logged.after atomicEnv 8 [putPod [] 1]).cat.applyUnder atomicEnv labelPod .v1 1 2).1.get
      podKey =
        some v ∧ metaField "labels" v = some (.obj [("app", .str "web")]) ∧
      metaField "uid" v = some (.str "v1/v1/Pod/default/web@1")) ∧
    ∃ v, ((Logged.after atomicEnv 8 [putPod [] 1, deletePod 2]).cat.applyUnder atomicEnv
        (.put podKey (podBody []) none) .v1 1 3).1.get podKey = some v ∧
      metaField "uid" v ≠ some (.str "v1/v1/Pod/default/web@1") := by
  refine ⟨?_, ?_, ?_⟩
  · have h := (identityKept atomicEnv atomicEnv_mintUid_injective 8
      [putPod [("creationTimestamp", .str "t0")] 1]
      (.put podKey (podBody [("uid", .str "x"), ("creationTimestamp", .str "t1")]) none)
      .v1 1 2 podKey rfl (by decide)).1 _ _ "v1/v1/Pod/default/web@1" rfl rfl rfl
        (by decide) (by decide)
    exact ⟨_, rfl, h.1, h.2 _ rfl⟩
  · have h := (identityKept atomicEnv atomicEnv_mintUid_injective 8 [putPod [] 1] labelPod
      .v1 1 2 podKey rfl
      (by decide)).1 _ _ "v1/v1/Pod/default/web@1" rfl rfl rfl (by decide) (by decide)
    exact ⟨_, rfl, rfl, h.1⟩
  · have h := (identityKept atomicEnv atomicEnv_mintUid_injective 8 [putPod [] 1, deletePod 2]
      (.put podKey (podBody []) none) .v1 1 3 podKey rfl (by decide)).2 [putPod [] 1] [deletePod 2]
      _ _ _ rfl rfl rfl rfl (by decide) rfl
    exact ⟨_, rfl, h⟩

/-- The uid and the creation time of the pod after a run. -/
def identityAfter (ops : List CatalogOp) : Option (Option Json × Option Json) :=
  ((Logged.after atomicEnv 8 ops).cat.get podKey).map fun v =>
    (metaField "uid" v, metaField "creationTimestamp" v)

/-- No change of the last operation of a run deleted anything. -/
def lastDeletesNothing (pre : List CatalogOp) (op : CatalogOp) : Bool :=
  ((Logged.after atomicEnv 8 pre).cat.perform atomicEnv op).2.all fun ch => ch.kind = .put

/-- One transaction whose first put loses the metadata. -/
def loseMetadata : CatalogOp :=
  .command (.txn [] [.put podKey (.obj [("metadata", .null)]),
    .put podKey (podBody [("uid", .str "x")])]
    []) .v1 1 2

/-- One transaction that deletes the pod and creates it twice. -/
def recreateTwice : CatalogOp :=
  .command (.txn [] [.put podKey (podBody []), .delete podKey none, .put podKey (podBody [])] [])
    .v1 1 1

def patchUid : CatalogOp :=
  .command (.patch podKey (.obj [("metadata", .obj [("uid", .str "x")])]) .merge none none) .v1 1 2

/-- Where identity is not kept: a put adds a creation time to an object without one; a transaction
loses the metadata and sets it anew; a client chose the uid minted later; a transaction creates
the object twice at one revision; a plain patch writes the uid. -/
theorem identity_not_immutable :
    (identityAfter [putPod [] 1] = some (some (.str "v1/v1/Pod/default/web@1"), none) ∧
      identityAfter [putPod [] 1, putPod [("creationTimestamp", .str "t1")] 2] =
        some (some (.str "v1/v1/Pod/default/web@1"), some (.str "t1")) ∧
      lastDeletesNothing [putPod [] 1] (putPod [("creationTimestamp", .str "t1")] 2)) ∧
    (identityAfter [putPod [] 1, loseMetadata] = some (some (.str "x"), none) ∧
      lastDeletesNothing [putPod [] 1] loseMetadata) ∧
    (identityAfter [putPod [("uid", .str "v1/v1/Pod/default/web@3")] 1] =
        some (some (.str "v1/v1/Pod/default/web@3"), none) ∧
      identityAfter [putPod [("uid", .str "v1/v1/Pod/default/web@3")] 1, deletePod 2, putPod [] 3] =
        some (some (.str "v1/v1/Pod/default/web@3"), none)) ∧
    (Logged.after atomicEnv 8 [recreateTwice]).log.map
    (fun ch => (ch.kind, metaField "uid" ch.value)) =
      [(.put, some (.str "v1/v1/Pod/default/web@1")),
        (.delete, some (.str "v1/v1/Pod/default/web@1")),
        (.put, some (.str "v1/v1/Pod/default/web@1"))] ∧
    (identityAfter [putPod [] 1, patchUid] = some (some (.str "x"), none) ∧
      lastDeletesNothing [putPod [] 1] patchUid) := by
  decide

end Engenho
