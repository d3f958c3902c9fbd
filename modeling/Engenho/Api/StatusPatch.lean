import Engenho.Store.MergePatch
import Engenho.Store.Pointer
import Engenho.Store.Strategic
import Engenho.Api.ListPage

/-!
# PATCH of the status subresource

`scopeStatusPatch` confines a patch to `.status`. Of a merge or strategic body it keeps `status` and
the resource version; of a JSON patch it checks the `path` of every operation. It does not check the
`from` of a `move`, which the patch engine removes (`statusPatch_moves_out`).

`statusPatch_scoped_iff` says which accepted patches leave everything else of the stored object
alone.
-/

namespace Engenho
open Assoc Except JsonPatchOp List Option

/-- The pointer is `/status` or below it. -/
def targetsStatus (path : String) : Bool :=
  path = "/status" || "/status/".toList.isPrefixOf path.toList

/-- The path of an operation as the scope check reads it. -/
def opPath (op : Json) : String := ((op.get "path").bind Json.asStr).getD ""

/-- The fields a merge or strategic body may set: `status`, and the resource version. -/
def scopedFields (patch : Json) : JsonMap :=
  let fields := patch.asObject.getD []
  let out : JsonMap := match fields.lookup "status" with
    | some status => Assoc.put "status" status []
    | none => []
  match (fields.lookup "metadata").bind (Json.get "resourceVersion") with
  | some rv => Assoc.put "metadata" (.obj [("resourceVersion", rv)]) out
  | none => out

/-- The patch, cut to the status. -/
def scopeStatusPatch (env : Env) (patch : Json) (type : PatchType) : Except ApiError Json :=
  match type with
  | .merge => .ok (.obj (scopedFields patch))
  | .strategic => .ok (.obj (scopedFields patch))
  | .json =>
    match patch.asArray with
    | none => .error (.badRequest "json-patch body must be an array of operations")
    | some ops =>
      match ops.find? fun op => !targetsStatus (opPath op) with
      | some op => .error (.badRequest
          ("the status subresource patch may only target /status; got op path " ++
            env.debugStr (opPath op)))
      | none => .ok patch
  | .apply => .ok patch

/-! ## What is compared -/

/-- The stored objects agree on every field but `status`, and on every metadata field but the
resource version. Metadata that is no object is compared as a whole. -/
structure AgreesOutsideStatus (before after : Json) : Prop where
  fields : ∀ name, name ≠ "status" → name ≠ "metadata" → after.get name = before.get name
  metadata : ∀ name, name ≠ "resourceVersion" → metaField name after = metaField name before
  metadataKind : objectMeta after = objectMeta before
  plainMetadata : objectMeta before = false → after.get "metadata" = before.get "metadata"

/-- The metadata holds what the store stamps on every write, and nothing else. -/
def onlyStamps (before : Json) : Bool :=
  match before.get "metadata" with
  | some (.obj md) => md.all fun e => e.1 = "resourceVersion" || e.1 = "generation"
  | _ => false

/-- A `move` from there leaves the rest of the object alone, or the store stamps it again. -/
def moveStays (before : Json) (source : List String) : Bool :=
  source.head? = some "status" || source = ["metadata", "resourceVersion"] ||
    source = ["metadata", "generation"] || (source = ["metadata"] && onlyStamps before)

def opStays (before : Json) : JsonPatchOp → Bool
  | .move source _ => moveStays before (pointerTokens source)
  | _ => true

/-- The patch only touches the status of `before`. -/
def staysInStatus (type : PatchType) (before patch : Json) : Bool :=
  match type with
  | .merge | .strategic =>
    ((patch.get "metadata").bind (Json.get "resourceVersion")).isNone || objectMeta before
  | .json => ((patch.asArray.getD []).filterMap JsonPatchOp.decode).all (opStays before)
  | .apply => true

/-! ## Stamped objects -/

/-- What a stored object's metadata always has. -/
structure StampedMeta (v : Json) : Prop where
  present : v.isObject = true → (v.get "metadata").isSome = true
  generation : objectMeta v = true → ∃ g, 1 ≤ g ∧ metaField "generation" v = some (.num (.int g))
  resourceVersion : objectMeta v = true → ∃ s, metaField "resourceVersion" v = some (.str s)

variable {v before merged patch v' doc' : Json} {fields m : JsonMap} {t : String}
  {part : Json → Option Json} {op : JsonPatchOp} {ops : List JsonPatchOp}

variable (f : JsonMap → JsonMap)

theorem get_metadata_updateMetadata (h : v.isObject = true) :
    ((updateMetadata f v).get "metadata").isSome = true := by
  cases hm : metaBase v with
  | some md =>
    obtain ⟨m, rfl, he⟩ := updateMetadata_of_some hm f
    simp [he]
  | none =>
    rw [updateMetadata_of_none hm]
    obtain ⟨m, rfl⟩ := Json.isObject_iff.mp h
    -- without a metadata field there would be an empty one to work on
    cases hl : m.lookup "metadata" with
    | some x => simp [hl]
    | none => simp [metaBase, hl] at hm

theorem isObject_updateMetadata (v : Json) : (updateMetadata f v).isObject = v.isObject := by
  cases hm : metaBase v with
  | some md =>
    obtain ⟨m, rfl, he⟩ := updateMetadata_of_some hm f
    rw [he]
    rfl
  | none => rw [updateMetadata_of_none hm]

theorem one_le_computeGeneration (prior : Option Json) (v : Json) :
    1 ≤ computeGenerationOnPut prior v := by
  unfold computeGenerationOnPut
  split
  · exact le_rfl
  · simp only
    split <;> omega

theorem stampedMeta_stampRevision (w : Json) (rev : Nat) {g : Int} (hg : 1 ≤ g) :
    StampedMeta (stampRevision w rev g) := by
  refine ⟨fun h => ?_, fun h => ⟨g, hg, metaField_generation_stamp h⟩,
    fun h => ⟨_, metaField_resourceVersion_stampRevision h⟩⟩
  rw [stampRevision, isObject_updateMetadata] at h
  exact get_metadata_updateMetadata _ h

theorem StampedMeta.terminating {live : Json} (h : StampedMeta live) (ts : String) (rev : Nat) :
    StampedMeta (stampResourceVersion (stampDeletionTimestamp live ts) rev) := by
  -- a live object that can carry metadata has some already
  have hmeta : objectMeta (stampResourceVersion (stampDeletionTimestamp live ts) rev) = true →
      objectMeta live = true := by
    intro hm
    rw [stampResourceVersion, objectMeta_updateMetadata, stampDeletionTimestamp,
      metaBase_updateMetadata, isSome_map] at hm
    obtain ⟨md, hmd⟩ := isSome_iff_exists.mp hm
    obtain ⟨m, rfl, -⟩ := updateMetadata_of_some hmd id
    obtain ⟨x, hx⟩ := isSome_iff_exists.mp (h.present rfl)
    rw [Json.get_obj] at hx
    simp only [metaBase, hx, getD_some] at hmd
    simp [objectMeta, hx, hmd]
  refine ⟨fun ho => ?_, fun hm => ?_, fun hm => ⟨_, metaField_resourceVersion_stamp hm⟩⟩
  · rw [stampResourceVersion, isObject_updateMetadata] at ho
    exact get_metadata_updateMetadata _ ho
  · obtain ⟨g, hg, hgen⟩ := h.generation (hmeta hm)
    refine ⟨g, hg, ?_⟩
    rw [stampResourceVersion, metaField_put_ne _ _ _ _ (by decide), stampDeletionTimestamp,
      metaField_put_ne _ _ _ _ (by decide), hgen]

variable {key : ResourceKey} {doc final : Json} {ts : List String} {type : PatchType}

/-- Every object the store holds was stamped. -/
theorem Logged.after_stampedMeta (env : Env) (capacity : Nat) (ops : List CatalogOp)
    {m : VersionMeta}
    (h : (Logged.after env capacity ops).cat.resources.get key = some (v, m)) : StampedMeta v := by
  refine Logged.live_inv (P := fun _ v _ => StampedMeta v) (fun h => h) ?_ env capacity ops h
  intro rev prior v hprior hv
  cases hv with
  | write w => exact stampedMeta_stampRevision w rev (one_le_computeGeneration ..)
  | terminating ts hlive _ =>
    obtain ⟨⟨live, m⟩, he, rfl⟩ := map_eq_some_iff.mp hlive
    exact (hprior live m he).terminating ts rev

/-! ## The patched document and what is stored of it -/

/-- The patched document has the fields of `before` but for `status` and what the store stamps. -/
structure KeptOutside (before doc : Json) : Prop where
  fields : ∀ name, name ≠ "status" → name ≠ "metadata" → doc.get name = before.get name
  metadata :
    (objectMeta before = true ∧ ∃ md, metaBase doc = some md ∧
      ∀ k, k ≠ "resourceVersion" → k ≠ "generation" → md.lookup k = metaField k before) ∨
    (objectMeta before = false ∧ doc.get "metadata" = before.get "metadata")

theorem metaBase_of_objectMeta (h : objectMeta v = true) :
    ∃ md, v.get "metadata" = some (.obj md) ∧ metaBase v = some md ∧
    ∀ k, metaField k v = md.lookup k := by
  obtain ⟨md, hmd⟩ := isSome_iff_exists.mp h
  obtain ⟨x, hx, hobj⟩ := bind_eq_some_iff.mp hmd
  have hx' := Json.asObject_eq_some.mp hobj
  refine ⟨md, by rw [hx, hx'], metaBase_of_meta hmd, fun k => ?_⟩
  rw [metaField_of_metaBase, metaBase_of_meta hmd]
  rfl

theorem KeptOutside.refl : KeptOutside v v := by
  refine ⟨fun _ _ _ => rfl, ?_⟩
  cases hm : objectMeta v with
  | false => exact .inr ⟨rfl, rfl⟩
  | true =>
    obtain ⟨md, -, hbase, hfield⟩ := metaBase_of_objectMeta hm
    exact .inl ⟨rfl, md, hbase, fun k _ _ => (hfield k).symm⟩

theorem metaBase_eq_none_of_plain (hpresent : (v.get "metadata").isSome = true)
    (h : objectMeta v = false) : metaBase v = none := by
  obtain ⟨x, hx⟩ := isSome_iff_exists.mp hpresent
  cases v with
  | obj m =>
    rw [Json.get_obj] at hx
    have : x.asObject = none := by simpa [objectMeta, hx] using h
    simp [metaBase, hx, this]
  | _ => cases hx

/-- The object stored for a patched document agrees with the one before outside `status` exactly if
the document does. -/
theorem agreesOutsideStatus_iff (hb : StampedMeta before) (hobj : before.isObject = true)
    (rev : Nat) :
    AgreesOutsideStatus before
        (stampRevision merged rev (computeGenerationOnPut (some before) merged)) ↔
      KeptOutside before merged := by
  generalize hstamp : stampRevision merged rev (computeGenerationOnPut (some before) merged) = after
  have hother : ∀ k, k ≠ "resourceVersion" → k ≠ "generation" →
      metaField k after = (metaBase merged).bind fun md => md.lookup k := by
    intro k hr hg
    rw [← hstamp, metaField_stampRevision _ _ _ hr hg, metaField_of_metaBase]
  have hkind : objectMeta after = (metaBase merged).isSome := by
    rw [← hstamp, objectMeta_stampRevision, stampResourceVersion, objectMeta_updateMetadata]
  constructor
  · intro h
    refine ⟨fun name hs hm => ?_, ?_⟩
    · rw [← h.fields name hs hm, ← hstamp, get_stampRevision _ _ _ hm]
    cases hm : objectMeta before with
    | true =>
      have hsome := h.metadataKind
      rw [hkind, hm] at hsome
      obtain ⟨md, hmd⟩ := isSome_iff_exists.mp hsome
      refine .inl ⟨rfl, md, hmd, fun k hr hg => ?_⟩
      rw [← h.metadata k hr, hother k hr hg, hmd]
      rfl
    | false =>
      have hnone := h.metadataKind
      rw [hkind, hm, isSome_eq_false_iff, isNone_iff_eq_none] at hnone
      refine .inr ⟨rfl, ?_⟩
      rw [← h.plainMetadata hm, ← hstamp, stampRevision, stampResourceVersion,
        updateMetadata_of_none hnone, updateMetadata_of_none hnone]
  · intro h
    have hfields : ∀ name, name ≠ "status" → name ≠ "metadata" →
        after.get name = before.get name := by
      intro name hs hm
      rw [← hstamp, get_stampRevision _ _ _ hm, h.fields name hs hm]
    rcases h.metadata with ⟨hm, md, hmd, hlookup⟩ | ⟨hm, heq⟩
    · have hafter : objectMeta after = true := by
        rw [hkind, hmd]
        rfl
      refine ⟨hfields, fun k hr => ?_, hafter.trans hm.symm, fun hf => ?_⟩
      · by_cases hg : k = "generation"
        · -- the spec did not change, so the stamp is the generation it had
          subst hg
          obtain ⟨g, hg, hgen⟩ := hb.generation hm
          have hspec : specOf before = specOf merged :=
            (h.fields "spec" (by decide) (by decide)).symm
          have hval : generationOf before = g := by simp [generationOf, hgen, Json.asInt]
          rw [← hstamp] at hafter ⊢
          rw [metaField_generation_stamp hafter, hgen]
          simp only [computeGenerationOnPut, hspec, if_true, hval, max_eq_left hg]
        · rw [hother k hr hg, hmd, bind_some, hlookup k hr hg]
      · rw [hm] at hf
        cases hf
    · have hplain : objectMeta merged = false := by
        rw [objectMeta, heq]
        exact hm
      have hnone : metaBase merged = none := by
        refine metaBase_eq_none_of_plain ?_ hplain
        rw [heq]
        exact hb.present hobj
      obtain rfl : merged = after := by
        rw [← hstamp, stampRevision, stampResourceVersion, updateMetadata_of_none hnone,
          updateMetadata_of_none hnone]
      have hnoField : ∀ {v : Json}, objectMeta v = false → ∀ k, metaField k v = none := by
        intro v hv k
        rw [objectMeta, isSome_eq_false_iff, isNone_iff_eq_none] at hv
        rw [metaField_eq, hv]
        rfl
      refine ⟨hfields, fun k _ => ?_, hplain.trans hm.symm, fun _ => heq⟩
      rw [hnoField hplain, hnoField hm]

/-! ## Merge and strategic patches -/

/-- What merging a scoped body made of the fields of an object; `rv` says whether the body carries a
resource version. -/
structure ScopedMerge (fields : JsonMap) (rv : Bool) (fields' : JsonMap) : Prop where
  other : ∀ name, name ≠ "status" → name ≠ "metadata" → fields'.lookup name = fields.lookup name
  withoutRv : rv = false → fields'.lookup "metadata" = fields.lookup "metadata"
  withRv : rv = true → ∃ md, fields'.lookup "metadata" = some (.obj md) ∧
    ∀ k, k ≠ "resourceVersion" →
      md.lookup k = (((fields.lookup "metadata").bind Json.asObject).getD []).lookup k

theorem ScopedMerge.keptOutside_iff {fields' : JsonMap} {rv : Bool}
    (h : ScopedMerge fields rv fields') :
    KeptOutside (.obj fields) (.obj fields') ↔ (!rv || objectMeta (.obj fields)) = true := by
  cases rv with
  | false =>
    have hmd := h.withoutRv rfl
    refine iff_of_true ⟨h.other, ?_⟩ rfl
    rcases (KeptOutside.refl (v := .obj fields)).metadata with ⟨hm, md, hbase, hl⟩ | ⟨hm, -⟩
    · refine .inl ⟨hm, md, ?_, hl⟩
      rw [← hbase, metaBase, metaBase, hmd]
    · exact .inr ⟨hm, hmd⟩
  | true =>
    obtain ⟨md, hmd, hl⟩ := h.withRv rfl
    have hbase : metaBase (.obj fields') = some md := by simp [metaBase, hmd]
    cases hm : objectMeta (.obj fields) with
    | true =>
      obtain ⟨md₀, hget, -, hfield⟩ := metaBase_of_objectMeta hm
      rw [Json.get_obj] at hget
      refine iff_of_true ⟨h.other, .inl ⟨hm, md, hbase, fun k hr _ => ?_⟩⟩ rfl
      rw [hl k hr, hfield k, hget]
      rfl
    | false =>
      -- the metadata became an object
      refine iff_of_false (fun hk => ?_) (by decide)
      rcases hk.metadata with ⟨hm', -⟩ | ⟨-, heq⟩
      · rw [hm] at hm'
        cases hm'
      · rw [Json.get_obj, hmd] at heq
        rw [objectMeta, ← heq] at hm
        cases hm

/-- The resource version of a patch body. -/
def bodyRv (patch : Json) : Option Json := (patch.get "metadata").bind (Json.get "resourceVersion")

theorem scopedFields_eq (patch : Json) : scopedFields patch = ((bodyRv patch).map fun rv =>
        ("metadata", Json.obj [("resourceVersion", rv)])).toList ++
      ((patch.get "status").map fun status => ("status", status)).toList := by
  have hget : ∀ name, (patch.asObject.getD []).lookup name = patch.get name := by
    intro name
    cases patch <;> rfl
  rw [scopedFields, hget, hget, bodyRv]
  cases (patch.get "metadata").bind (Json.get "resourceVersion") <;>
    cases patch.get "status" <;> rfl

theorem merge_scoped (fields : JsonMap) (patch : Json) :
    ∃ fields', mergeRfc7396 (.obj fields) (.obj (scopedFields patch)) = .obj fields' ∧
      ScopedMerge fields (bodyRv patch).isSome fields' := by
  refine ⟨mergeRfc7396Fields fields (scopedFields patch), by rw [mergeRfc7396]; rfl, ?_⟩
  rw [scopedFields_eq]
  have hstatus : ∀ (out : JsonMap) name, name ≠ "status" → (mergeRfc7396Fields out
        ((patch.get "status").map fun status => ("status", status)).toList).lookup name =
        out.lookup name := by
    intro out name hn
    refine mergeRfc7396Fields_lookup _ _ fun e he => ?_
    obtain ⟨x, -, rfl⟩ := map_eq_some_iff.mp (mem_toList.mp he)
    exact hn.symm
  cases hrv : bodyRv patch with
  | none => exact ⟨fun name hs _ => hstatus _ name hs, fun _ => hstatus _ _ (by decide), by simp⟩
  | some rv =>
    have hcons : ∀ rest, mergeRfc7396Fields fields
        (((some rv).map fun rv => ("metadata", Json.obj [("resourceVersion", rv)])).toList ++
          rest) =
        mergeRfc7396Fields (put "metadata"
          (mergeRfc7396 ((fields.lookup "metadata").getD .null) (.obj [("resourceVersion", rv)]))
          fields)
          rest := by
      intro rest
      rfl
    rw [hcons]
    have hbase : ((fields.lookup "metadata").getD Json.null).asObject =
        (fields.lookup "metadata").bind Json.asObject := by
      cases fields.lookup "metadata" <;> rfl
    refine ⟨fun name hs hm => ?_, by simp, fun _ => ⟨mergeRfc7396Fields
      (((fields.lookup "metadata").bind Json.asObject).getD []) [("resourceVersion", rv)], ?_,
      fun k hk => mergeRfc7396Fields_lookup _ _ (by simpa using hk.symm)⟩⟩
    · rw [hstatus _ name hs, lookup_put_ne hm]
    · rw [hstatus _ _ (by decide), lookup_put_self, mergeRfc7396, hbase]

theorem strategic_scoped (env : Env) (gvk : Gvk)
    (h : strategicMerge env gvk [] (.obj fields) (.obj (scopedFields patch)) = .ok merged) :
    ∃ fields', merged = .obj fields' ∧ ScopedMerge fields (bodyRv patch).isSome fields' := by
  have hnone : ∀ name, name ≠ "status" → name ≠ "metadata" →
      (scopedFields patch).lookup name = none := by
    intro name hs hm
    rw [scopedFields_eq]
    cases bodyRv patch <;> cases patch.get "status" <;> simp [hs, hm]
  rw [strategicMerge_fields (hnone _ (by decide) (by decide))
    (hnone _ (by decide) (by decide))] at h
  obtain ⟨fields', hf, rfl⟩ := of_map_ok h
  refine ⟨fields', rfl, ?_⟩
  rw [scopedFields_eq, Json.asObject_obj, getD_some] at hf
  have hstatus : ∀ {out : JsonMap}, strategicFields env gvk [] out
      ((patch.get "status").map fun status => ("status", status)).toList = .ok fields' →
      ∀ name, name ≠ "status" → fields'.lookup name = out.lookup name := by
    intro out hout name hn
    refine strategicFields_other hout fun hmem => ?_
    obtain ⟨e, he, rfl⟩ := mem_map.mp hmem
    obtain ⟨x, -, rfl⟩ := map_eq_some_iff.mp (mem_toList.mp he)
    exact hn rfl
  cases hrv : bodyRv patch with
  | none =>
    rw [hrv] at hf
    exact ⟨fun name hs _ => hstatus hf name hs, fun _ => hstatus hf _ (by decide),
      fun h => nomatch h⟩
  | some rv =>
    rw [hrv] at hf
    obtain ⟨md, hmd, hf⟩ := of_bind_ok hf
    rw [strategicMerge_fields rfl rfl] at hmd
    obtain ⟨md', hmd', rfl⟩ := of_map_ok hmd
    refine ⟨fun name hs hm => ?_, by simp, fun _ => ⟨md', ?_, fun k hk => ?_⟩⟩
    · rw [hstatus hf name hs, lookup_put_ne hm]
    · rw [hstatus hf _ (by decide), lookup_put_self]
    · have hbase : (((fields.lookup "metadata").getD (Json.obj [])).asObject).getD [] =
          ((fields.lookup "metadata").bind Json.asObject).getD [] := by
        cases fields.lookup "metadata" <;> rfl
      rw [hbase] at hmd'
      exact strategicFields_other hmd' (by simpa using hk)

/-! ## JSON patches -/

/-- The scope check reads the pointer as the engine does. -/
theorem pointerTokens_of_targetsStatus {path : String} (h : targetsStatus path = true) :
    ∃ ts, pointerTokens path = "status" :: ts := by
  rw [targetsStatus, Bool.or_eq_true, decide_eq_true_eq] at h
  rcases h with rfl | h
  · exact ⟨[], by decide⟩
  obtain ⟨rest, hrest⟩ := isPrefixOf_iff_prefix.mp h
  have hne : path.isEmpty = false := by
    rw [Bool.eq_false_iff]
    intro he
    rw [String.isEmpty_iff.mp he] at hrest
    simp at hrest
  have hsplit : path.toList.splitOn '/' = [] :: "status".toList :: rest.splitOn '/' := by
    have hlist : path.toList = [] ++ '/' :: ("status".toList ++ '/' :: rest) := by
      rw [← hrest]
      rfl
    rw [hlist, List.splitOn, splitOnP_append_cons_of_forall_mem (by simp) _ (by simp),
      splitOnP_append_cons_of_forall_mem (by simp) _ (by simp)]
    rfl
  refine ⟨(rest.splitOn '/').map fun t =>
    String.ofList (replacePair '~' '0' '~' (replacePair '~' '1' '/' t)), ?_⟩
  rw [pointerTokens, hne, hsplit]
  rfl

/-- The operation's path is below `/status`. -/
def JsonPatchOp.path : JsonPatchOp → String
  | .add path _ => path
  | .remove path => path
  | .replace path _ => path
  | .copy _ path => path
  | .move _ path => path
  | .test path _ => path

/-- The values the store stamps are scalars, so no pointer goes through them. -/
def StampsScalar (doc : Json) : Prop :=
  ∀ k, k = "resourceVersion" ∨ k = "generation" → ∀ x, metaField k doc = some x →
    x.isObject = false ∧ x.isArray = false

theorem metaField_onlyField (h : OnlyField t v v') (ht : t ≠ "metadata") (k : String) :
    metaField k v' = metaField k v := by
  rw [metaField, metaField, h.get ht.symm]

theorem metaBase_onlyField (h : OnlyField t v v') (ht : t ≠ "metadata") :
    metaBase v' = metaBase v := by
  obtain ⟨m, m', rfl, rfl, hm⟩ := h
  rw [metaBase, metaBase, hm _ ht.symm]

/-- A document on the way through the operations of a patch that stays in `status`. -/
structure OnTheWay (before doc : Json) : Prop where
  object : doc.isObject = true
  kept : KeptOutside before doc
  scalar : StampsScalar doc

theorem OnTheWay.start (hb : StampedMeta before) (hobj : before.isObject = true) :
    OnTheWay before before := by
  refine ⟨hobj, .refl, ?_⟩
  intro k hk x hx
  have hm : objectMeta before = true := by
    by_contra hf
    rw [Bool.not_eq_true, objectMeta, isSome_eq_false_iff, isNone_iff_eq_none] at hf
    rw [metaField_eq, hf] at hx
    cases hx
  rcases hk with rfl | rfl
  · obtain ⟨s, hs⟩ := hb.resourceVersion hm
    rw [hs] at hx
    cases hx
    exact ⟨rfl, rfl⟩
  · obtain ⟨g, -, hg⟩ := hb.generation hm
    rw [hg] at hx
    cases hx
    exact ⟨rfl, rfl⟩

/-- A change of `status` alone stays on the way. -/
theorem OnTheWay.status (h : OnTheWay before doc) (hd : OnlyField "status" doc doc') :
    OnTheWay before doc' := by
  have hmeta : "status" ≠ "metadata" := by decide
  refine ⟨?_, ⟨fun name hs hm => ?_, ?_⟩, fun k hk x hx => ?_⟩
  · obtain ⟨m, m', rfl, rfl, -⟩ := hd
    rfl
  · rw [hd.get hs, h.kept.fields name hs hm]
  · rw [metaBase_onlyField hd hmeta, hd.get hmeta.symm]
    exact h.kept.metadata
  · rw [metaField_onlyField hd hmeta] at hx
    exact h.scalar k hk x hx

/-- Taking out one of the stamped values stays on the way. -/
theorem OnTheWay.stamp (h : OnTheWay before (.obj m)) {k : String}
    (hk : k = "resourceVersion" ∨ k = "generation") (hr : Removes ["metadata", k] (.obj m) doc') :
    OnTheWay before doc' := by
  cases hr with
  | @underField _ _ _ x x' hx hr =>
    -- a list has no such index, so the metadata is an object
    have hnum : parseUsize k = none := by rcases hk with rfl | rfl <;> decide
    cases hr with
    | item ht _ => rw [hnum] at ht; cases ht
    | underField _ hr => cases hr
    | underItem ht _ _ => rw [hnum] at ht; cases ht
    | @field _ md y hy =>
      have hfield : ∀ k', metaField k' (.obj (put "metadata" (.obj (drop k md)) m)) =
          (drop k md).lookup k' := by
        simp [metaField]
      have hold : ∀ k', metaField k' (.obj m) = md.lookup k' := by simp [metaField, hx]
      have hbase : metaBase (.obj m) = some md := by simp [metaBase, hx]
      refine ⟨rfl, ⟨fun name hs hm => ?_, ?_⟩, fun k' hk' x hx' => ?_⟩
      · rw [Json.get_obj, lookup_put_ne hm]
        exact h.kept.fields name hs hm
      · rcases h.kept.metadata with ⟨hm, md₀, hmd₀, hl⟩ | ⟨hm, heq⟩
        · rw [hbase] at hmd₀
          cases hmd₀
          refine .inl ⟨hm, drop k md, by simp [metaBase], fun k' hr hg => ?_⟩
          have hne : k' ≠ k := by rcases hk with rfl | rfl <;> assumption
          rw [lookup_drop_ne hne, hl k' hr hg]
        · rw [Json.get_obj, hx] at heq
          rw [objectMeta, ← heq] at hm
          cases hm
      · rw [hfield, lookup_drop] at hx'
        split at hx'
        · cases hx'
        · exact h.scalar k' hk' x (by rw [hold]; exact hx')

/-- Taking out metadata that holds nothing but the stamps stays on the way. -/
theorem OnTheWay.metadata (h : OnTheWay before (.obj m)) (hstamps : onlyStamps before = true)
    (hr : Removes ["metadata"] (.obj m) doc') : OnTheWay before doc' := by
  cases hr with
  | underField _ hr => cases hr
  | field hx =>
    have hnone : ∀ k, metaField k (.obj (drop "metadata" m)) = none := by simp [metaField]
    refine ⟨rfl, ⟨fun name hs hm => ?_, .inl ?_⟩, fun k _ x hx' => ?_⟩
    · rw [Json.get_obj, lookup_drop_ne hm]
      exact h.kept.fields name hs hm
    · unfold onlyStamps at hstamps
      split at hstamps
      · rename_i md hmd
        refine ⟨by simp [objectMeta, hmd], [], by simp [metaBase], fun k hr hg => ?_⟩
        have hfield : metaField k before = md.lookup k := by simp [metaField, hmd]
        rw [hfield]
        cases hl : md.lookup k with
        | none => rfl
        | some x =>
          have := all_eq_true.mp hstamps _ (mem_of_lookup hl)
          simp [hr, hg] at this
      · cases hstamps
    · rw [hnone] at hx'
      cases hx'

/-- The parts of an object a patch must not touch: a field, or a field of its metadata. -/
inductive Watched (before : Json) : (Json → Option Json) → Prop where
  | field {name : String} (hs : name ≠ "status")
      (hm : name = "metadata" → objectMeta before = false) :
      Watched before (Json.get name)
  | metaField {k : String} (hr : k ≠ "resourceVersion") (hg : k ≠ "generation")
      (hm : objectMeta before = true) : Watched before (metaField k)

theorem KeptOutside.watched (h : KeptOutside before doc) (hp : Watched before part) :
    part doc = part before := by
  cases hp with
  | @field name hs hm =>
    by_cases he : name = "metadata"
    · subst he
      rcases h.metadata with ⟨hm', -⟩ | ⟨-, heq⟩
      · rw [hm rfl] at hm'
        cases hm'
      · exact heq
    · exact h.fields name hs he
  | @metaField k hr hg hm =>
    rcases h.metadata with ⟨-, md, hmd, hl⟩ | ⟨hm', -⟩
    · rw [metaField_of_metaBase, hmd, bind_some, hl k hr hg]
    · rw [hm] at hm'
      cases hm'

/-- A removal makes no watched part heavier. -/
theorem Removes.watched_le (h : Removes (t :: ts) (.obj m) v') (hp : Watched before part)
    (n : Nat) :
    fieldWeight n (part v') ≤ fieldWeight n (part (.obj m)) := by
  cases hp with
  | @field name hs hm =>
    by_cases he : name = t
    · subst he
      exact (h.weighField n).1
    · rw [h.onlyField.get he]
  | @metaField k hr hg hm =>
    by_cases he : t = "metadata"
    · subst he
      obtain ⟨x, hx, ⟨-, hgone⟩ | ⟨x', hx', hr⟩⟩ := h.get_field
      · rw [metaField, hgone]
        exact Nat.zero_le _
      rw [metaField, metaField, hx', Json.get_obj, hx, bind_some, bind_some]
      cases hr with
      | item | underItem => exact le_rfl
      | @field t' md y hy =>
        simp only [Json.get_obj, lookup_drop]
        split
        · exact Nat.zero_le _
        · exact le_rfl
      | @underField t' ts' md y y' hy hr =>
        have hrem : Removes (t' :: ts') (.obj md) (.obj (put t' y' md)) := .underField hy hr
        by_cases hk : k = t'
        · subst hk
          exact (hrem.weighField n).1
        · rw [hrem.onlyField.get hk]
    · rw [metaField_onlyField h.onlyField he]

/-- A removal outside of `status` that the store does not stamp over makes some watched part
lighter, for good. -/
theorem OnTheWay.lighter (hway : OnTheWay before (.obj m)) (h : Removes (t :: ts) (.obj m) v')
    (hbad : moveStays before (t :: ts) = false) : ∃ part, Watched before part ∧
      fieldWeight ts.length (part v') < fieldWeight ts.length (part (.obj m)) := by
  simp only [moveStays, Bool.or_eq_false_iff, List.head?_cons, decide_eq_false_iff_not,
    Option.some.injEq, Bool.and_eq_false_iff] at hbad
  obtain ⟨⟨⟨hstatus, hrv⟩, hgen⟩, hmd⟩ := hbad
  by_cases hwhole : t = "metadata" → objectMeta before = false
  · exact ⟨_, .field hstatus hwhole, (h.weighField ts.length).2 le_rfl⟩
  -- the metadata is an object: some field of it is gone or lighter
  obtain ⟨rfl, hobj⟩ : t = "metadata" ∧ objectMeta before = true := by simpa using hwhole
  obtain ⟨x, hx, hcase⟩ := h.get_field
  obtain ⟨md, rfl, hl⟩ : ∃ md, x = .obj md ∧
      ∀ k, k ≠ "resourceVersion" → k ≠ "generation" → md.lookup k = metaField k before := by
    rcases hway.kept.metadata with ⟨-, md, hbase, hl⟩ | ⟨hf, -⟩
    · simp only [metaBase, hx, Json.asObject_eq_some] at hbase
      exact ⟨md, hbase, hl⟩
    · rw [hobj] at hf
      cases hf
  have hold : ∀ k, metaField k (.obj m) = md.lookup k := fun k => by simp [metaField, hx]
  rcases hcase with ⟨rfl, hgone⟩ | ⟨x', hx', hr⟩
  · -- all of the metadata is gone, and with it a field that is no stamp
    have hother : onlyStamps before = false := by simpa using hmd
    obtain ⟨md₀, hmd₀, -, hfield⟩ := metaBase_of_objectMeta hobj
    rw [onlyStamps, hmd₀, List.all_eq_false] at hother
    obtain ⟨e, he, hne⟩ := hother
    simp only [Bool.or_eq_true, decide_eq_true_eq, not_or] at hne
    obtain ⟨y, hy⟩ := mem_keySet.mp (mem_toFinset.mpr (mem_map_of_mem (f := Prod.fst) he))
    refine ⟨_, .metaField hne.1 hne.2 hobj, ?_⟩
    rw [hold, hl _ hne.1 hne.2, hfield, hy, metaField, hgone]
    exact Nat.succ_pos _
  · have hnew : ∀ k, metaField k v' = x'.get k := fun k => by simp [metaField, hx']
    cases ts with
    | nil => cases hr
    | cons k ts =>
      have hne : k ≠ "resourceVersion" ∧ k ≠ "generation" := by
        -- a stamp is a scalar: a pointer ends at it
        have hend : k = "resourceVersion" ∨ k = "generation" → False := by
          intro hk
          obtain ⟨y, hy, ⟨rfl, -⟩ | ⟨y', -, hry⟩⟩ := hr.get_field
          · rcases hk with rfl | rfl
            · exact hrv rfl
            · exact hgen rfl
          · have hscalar := hway.scalar k hk y (by rw [hold, hy])
            cases hry <;> simp [Json.isObject, Json.isArray] at hscalar
        exact ⟨fun h => hend (.inl h), fun h => hend (.inr h)⟩
      refine ⟨_, .metaField hne.1 hne.2 hobj, ?_⟩
      rw [hold, hnew]
      exact (hr.weighField _).2 (Nat.le_succ _)

/-- What an operation below `/status` does: it changes `status` alone, or it is a `move` that first
takes something out. -/
theorem applyOneOp_cases (hpath : targetsStatus op.path = true)
    (h : applyOneOp (.obj m) op = .ok doc') :
    ((∀ before, opStays before op = true) ∧ OnlyField "status" (.obj m) doc') ∨
      ∃ source path t ts doc₁, op = .move source path ∧ pointerTokens source = t :: ts ∧
        Removes (t :: ts) (.obj m) doc₁ ∧ OnlyField "status" doc₁ doc' := by
  obtain ⟨rest, htokens⟩ := pointerTokens_of_targetsStatus hpath
  have hsame : OnlyField "status" (.obj m) (.obj m) := ⟨m, m, rfl, rfl, fun _ _ => rfl⟩
  cases op with
  | add path value => exact .inl ⟨fun _ => rfl, pointerAdd_onlyField htokens h⟩
  | replace path value => exact .inl ⟨fun _ => rfl, pointerReplace_onlyField htokens h⟩
  | remove path =>
    obtain ⟨x, hx⟩ := map_fst_ok h
    have htokens : pointerTokens path = "status" :: rest := htokens
    have hr := pointerRemove_removes (by rw [htokens]; simp) hx
    rw [htokens] at hr
    exact .inl ⟨fun _ => rfl, hr.onlyField⟩
  | copy source path =>
    rw [applyOneOp] at h
    split at h
    · cases h
    · exact .inl ⟨fun _ => rfl, pointerAdd_onlyField htokens h⟩
  | test path value =>
    rw [applyOneOp] at h
    split at h
    · cases h
    · split at h
      · cases h
        exact .inl ⟨fun _ => rfl, hsame⟩
      · cases h
  | move source path =>
    obtain ⟨⟨doc₁, x⟩, hx, hadd⟩ := of_bind_ok h
    cases hsource : pointerTokens source with
    | nil =>
      -- the whole document is taken out, and nothing can be added to what is left
      have hnull : doc₁ = .null := by
        simp only [pointerRemove, hsource] at hx
        cases hx
        rfl
      subst hnull
      unfold pointerAdd at hadd
      simp only [show pointerTokens path = _ from htokens] at hadd
      cases rest with
      | nil => cases hadd
      | cons t ts => cases hadd
    | cons t ts =>
      have hr := pointerRemove_removes (by rw [hsource]; simp) hx
      rw [hsource] at hr
      obtain ⟨m₀, m₁, hm₀, rfl, -⟩ := hr.onlyField
      exact .inr ⟨source, path, t, ts, _, rfl, hsource, hr, pointerAdd_onlyField htokens hadd⟩

theorem Watched.of_status (hp : Watched before part) (h : OnlyField "status" doc doc') :
    part doc' = part doc := by
  cases hp with
  | field hs _ => exact h.get hs
  | metaField => exact metaField_onlyField h (by decide) _

/-- No operation below `/status` makes a watched part heavier, and objects stay objects. -/
theorem applyOneOp_watched (before : Json) (hpath : targetsStatus op.path = true)
    (h : applyOneOp (.obj m) op = .ok doc') :
    (∃ m', doc' = .obj m') ∧ ∀ {part : Json → Option Json}, Watched before part → ∀ n,
      fieldWeight n (part doc') ≤ fieldWeight n (part (.obj m)) := by
  rcases applyOneOp_cases hpath h with ⟨-, hs⟩ | ⟨_, _, t, ts, doc₁, -, -, hr, hs⟩
  · obtain ⟨_, m', -, rfl, -⟩ := id hs
    exact ⟨⟨m', rfl⟩, fun hp n => by rw [hp.of_status hs]⟩
  · obtain ⟨_, m', -, rfl, -⟩ := id hs
    exact ⟨⟨m', rfl⟩, fun hp n => by rw [hp.of_status hs]; exact hr.watched_le hp n⟩

theorem applyJsonPatch_watched (hp : Watched before part) (n : Nat)
    (hpath : ∀ op ∈ ops, targetsStatus op.path = true)
    (h : applyJsonPatch (.obj m) ops = .ok final) :
    fieldWeight n (part final) ≤ fieldWeight n (part (.obj m)) := by
  induction ops generalizing m with
  | nil =>
    cases h
    exact le_rfl
  | cons op ops ih =>
    obtain ⟨doc', hop, hrest⟩ := of_bind_ok h
    obtain ⟨⟨m', rfl⟩, hle⟩ := applyOneOp_watched before (hpath op (by simp)) hop
    exact (ih (fun o ho => hpath o (.tail _ ho)) hrest).trans (hle hp n)

/-- An operation that stays in `status` stays on the way. -/
theorem OnTheWay.step (h : OnTheWay before (.obj m)) (hpath : targetsStatus op.path = true)
    (hstays : opStays before op = true) (hop : applyOneOp (.obj m) op = .ok doc') :
    OnTheWay before doc' := by
  rcases applyOneOp_cases hpath hop with ⟨-, hs⟩ | ⟨source, path, t, ts, doc₁, rfl, hsource, hr, hs⟩
  · exact h.status hs
  refine OnTheWay.status ?_ hs
  simp only [opStays, hsource, moveStays, Bool.or_eq_true, Bool.and_eq_true, decide_eq_true_eq,
    List.head?_cons, Option.some.injEq] at hstays
  rcases hstays with ((rfl | hrv) | hgen) | ⟨hmd, hstamps⟩
  · exact h.status hr.onlyField
  · rw [hrv] at hr
    exact h.stamp (.inl rfl) hr
  · rw [hgen] at hr
    exact h.stamp (.inr rfl) hr
  · rw [hmd] at hr
    exact h.metadata hstamps hr

/-- The operations keep what is outside of `status` exactly if each of them stays in it. What a
`move` takes out elsewhere does not come back. -/
theorem applyJsonPatch_kept_iff (h : OnTheWay before (.obj m))
    (hpath : ∀ op ∈ ops, targetsStatus op.path = true)
    (hrun : applyJsonPatch (.obj m) ops = .ok final) :
    KeptOutside before final ↔ ops.all (opStays before) = true := by
  induction ops generalizing m with
  | nil =>
    cases hrun
    exact iff_of_true h.kept rfl
  | cons op ops ih =>
    obtain ⟨doc', hop, hrest⟩ := of_bind_ok hrun
    have hpaths : ∀ o ∈ ops, targetsStatus o.path = true := fun o ho => hpath o (.tail _ ho)
    obtain ⟨m', rfl⟩ : ∃ m', doc' = .obj m' :=
      (applyOneOp_watched before (hpath op (by simp)) hop).1
    rw [all_cons]
    cases hstays : opStays before op with
    | true => exact ih (h.step (hpath op (by simp)) hstays hop) hpaths hrest
    | false =>
      refine iff_of_false (fun hkept => ?_) (by simp)
      rcases applyOneOp_cases (hpath op (by simp)) hop with
        ⟨hall, -⟩ | ⟨source, path, t, ts, doc₁, rfl, hsource, hr, hs⟩
      · rw [hall before] at hstays
        cases hstays
      · rw [opStays, hsource] at hstays
        obtain ⟨part, hp, hlt⟩ := h.lighter hr hstays
        have hle := applyJsonPatch_watched hp ts.length hpaths hrest
        rw [hp.of_status hs] at hle
        rw [hkept.watched hp, ← h.kept.watched hp] at hle
        omega

/-- A decoded operation has the path the scope check read. -/
theorem path_of_decode {raw : Json} (h : decode raw = some op)
    (hpath : targetsStatus (opPath raw) = true) : targetsStatus op.path = true := by
  cases raw with
  | obj m =>
    have hstr : ∀ path, (∃ x, m.lookup "path" = some x ∧ x.asStr = some path) →
        opPath (.obj m) = path := by
      intro path hp
      rw [opPath, Json.get_obj, bind_eq_some_iff.mpr hp]
      rfl
    obtain ⟨tag, -, h⟩ := bind_eq_some_iff.mp h
    split at h
    case h_7 => cases h
    all_goals simp only [bind_eq_bind, bind_eq_some_iff, Option.pure_def, Option.some.injEq] at h
    case h_1 | h_3 | h_6 =>
      obtain ⟨path, hp, value, -, rfl⟩ := h
      rwa [hstr path hp] at hpath
    case h_2 =>
      obtain ⟨path, hp, rfl⟩ := h
      rwa [hstr path hp] at hpath
    case h_4 | h_5 =>
      obtain ⟨source, -, path, hp, rfl⟩ := h
      rwa [hstr path hp] at hpath
  | _ => simp [opPath, Json.get, targetsStatus] at hpath

theorem filterMap_of_mapM {raws : List Json} (h : raws.mapM decode = some ops) :
    raws.filterMap decode = ops ∧ ∀ op ∈ ops, ∃ raw ∈ raws, decode raw = some op := by
  induction raws generalizing ops with
  | nil =>
    cases h
    simp
  | cons raw raws ih =>
    rw [mapM_cons] at h
    obtain ⟨op, hop, h⟩ := bind_eq_some_iff.mp h
    obtain ⟨rest, hrest, h⟩ := bind_eq_some_iff.mp h
    cases h
    obtain ⟨hfil, hmem⟩ := ih hrest
    refine ⟨by rw [filterMap_cons, hop, hfil], fun o ho => ?_⟩
    rcases mem_cons.mp ho with rfl | ho
    · exact ⟨raw, by simp, hop⟩
    · obtain ⟨raw', hr, hd⟩ := hmem o ho
      exact ⟨raw', mem_cons_of_mem _ hr, hd⟩

/-! ## The stored object -/

/-- A patch that stored an object stored the patched document, stamped. -/
theorem applyPatch_put {env : Env} {res : Resources} (htype : type ≠ .apply) {am : Option ApplyMeta}
    {expected : Option Nat} {on : OnIdentical} {rev : Nat} {ch : Change}
    (hch : (applyPatch env res key patch type am expected on rev).2.change = some ch)
    (hput : ch.kind = .put) {m : VersionMeta} (hlive : res.get key = some (before, m)) :
    ∃ body merged, PatchBody.fromRaw env type patch = .ok body ∧
      applyPatchBody env (Gvk.ofKey key) type before body = .ok merged ∧
      ((applyPatch env res key patch type am expected on rev).1.get key).map Prod.fst =
        some (stampRevision merged rev (computeGenerationOnPut (some before) merged)) := by
  obtain ⟨post, himage, -, ⟨rfl, hout⟩ | ⟨v, m, rfl, -⟩⟩ :=
    (applyPatch_end env res key patch type am expected on rev).of_change hch
  · rw [ResourceCommand.image, if_neg htype] at himage
    obtain ⟨v, m', body, merged, hlive', hbody, hmerged, rfl⟩ := patchImage_eq_some himage
    cases hlive.symm.trans hlive'
    exact ⟨body, merged, hbody, hmerged, by rw [hout, OrdMap.get_insert_self]; rfl⟩
  · cases hput

theorem keptOutside_iff_stays {env : Env} {gvk : Gvk} (htype : type ≠ .apply)
    (hb : StampedMeta (.obj fields)) {narrowed : Json} {body : PatchBody}
    (hscope : scopeStatusPatch env patch type = .ok narrowed)
    (hbody : PatchBody.fromRaw env type narrowed = .ok body)
    (hmerged : applyPatchBody env gvk type (.obj fields) body = .ok merged) :
    KeptOutside (.obj fields) merged ↔ staysInStatus type (.obj fields) patch = true := by
  have hmerge : (!(bodyRv patch).isSome || objectMeta (.obj fields)) =
      ((bodyRv patch).isNone || objectMeta (.obj fields)) := by
    cases bodyRv patch <;> rfl
  cases type with
  | apply => exact absurd rfl htype
  | merge =>
    cases hscope
    cases hbody
    cases hmerged
    obtain ⟨fields', he, hm⟩ := merge_scoped fields patch
    rw [he, hm.keptOutside_iff, hmerge]
    rfl
  | strategic =>
    cases hscope
    cases hbody
    obtain ⟨fields', rfl, hm⟩ := strategic_scoped env gvk hmerged
    rw [hm.keptOutside_iff, hmerge]
    rfl
  | json =>
    rw [scopeStatusPatch] at hscope
    split at hscope
    · cases hscope
    rename_i raws hraws
    split at hscope
    · cases hscope
    rename_i hfind
    cases hscope
    rw [PatchBody.fromRaw, hraws] at hbody
    split at hbody
    · rename_i ops hops
      cases hbody
      obtain ⟨hfil, hmem⟩ := filterMap_of_mapM hops
      have hpath : ∀ op ∈ ops, targetsStatus op.path = true := by
        intro op ho
        obtain ⟨raw, hr, hd⟩ := hmem op ho
        have := List.find?_eq_none.mp hfind raw hr
        exact path_of_decode hd (by simpa using this)
      rw [staysInStatus, hraws, getD_some, hfil]
      exact applyJsonPatch_kept_iff (.start hb rfl) hpath hmerged
    · cases hbody

/-- An accepted status patch that stores an object changes nothing but `status` and the resource
version exactly if it stays in `status`. -/
theorem statusPatch_scoped_iff (env : Env) (capacity : Nat) (ops : List CatalogOp)
    (key : ResourceKey)
    (patch narrowed : Json) (type : PatchType) (expected : Option Nat) (sem : ApplySemantics)
    (term index : Nat) (before after : Json) (ch : Change) (htype : type ≠ .apply)
    (hbefore : (Logged.after env capacity ops).cat.get key = some before)
    (hobj : before.isObject = true) (hscope : scopeStatusPatch env patch type = .ok narrowed)
    (hch : ((Logged.after env capacity ops).cat.applyUnder env
      (.patch key narrowed type none expected) sem term index).2.change = some ch)
      (hput : ch.kind = .put)
    (hafter : ((Logged.after env capacity ops).cat.applyUnder env
      (.patch key narrowed type none expected) sem term index).1.get key = some after) :
    AgreesOutsideStatus before after ↔ staysInStatus type before patch = true := by
  obtain ⟨⟨before, m⟩, hlive, rfl⟩ := Option.map_eq_some_iff.mp hbefore
  have hb := Logged.after_stampedMeta env capacity ops hlive
  obtain ⟨fields, hfields⟩ := Json.isObject_iff.mp hobj
  simp only [ResourceCatalog.applyUnder] at hch hafter
  split at hch
  · cases hch
  rename_i hreadable
  simp only [hreadable] at hafter
  obtain ⟨body, merged, hbody, hmerged, hget⟩ := applyPatch_put htype hch hput hlive
  rw [Option.some.inj (hafter.symm.trans hget), agreesOutsideStatus_iff hb hobj]
  subst hfields
  exact keptOutside_iff_stays htype hb hscope hbody hmerged

/-- A pod on a node. -/
def scheduledPod : CatalogOp :=
  .command (.put podKey (.obj [("metadata", .obj [("name", .str "web")]),
    ("spec", .obj [("nodeName", .str "a")])]) none) .v1 1 1

/-- Sets the phase, then moves it inside the status. -/
def phasePatch : Json := .arr [
  .obj [("op", .str "add"), ("path", .str "/status"), ("value", .obj [("phase", .str "Running")])],
  .obj [("from", .str "/status/phase"), ("op", .str "move"), ("path", .str "/status/last")]]

theorem phasePatch_agrees :
    ∃ before after, (Logged.after atomicEnv 8 [scheduledPod]).cat.get podKey = some before ∧
      ((Logged.after atomicEnv 8 [scheduledPod]).cat.applyUnder atomicEnv
        (.patch podKey phasePatch .json none none) .v1 1 2).1.get podKey = some after ∧
      AgreesOutsideStatus before after := by
  refine ⟨_, _, rfl, rfl, ?_⟩
  exact (statusPatch_scoped_iff atomicEnv 8 [scheduledPod] podKey phasePatch phasePatch .json
    none .v1 1 2 _ _ _
    (by decide) rfl rfl (by decide +kernel) rfl rfl rfl).mpr (by decide +kernel)

/-- Moves the pod off its node, into the status. -/
def nodePatch : Json := .arr [
  .obj [("from", .str "/spec/nodeName"), ("op", .str "move"), ("path", .str "/status")]]

/-- The scope check accepts the patch, and the stored pod loses its node and counts a new
generation. -/
theorem statusPatch_moves_out : scopeStatusPatch atomicEnv nodePatch .json = .ok nodePatch ∧
    ((Logged.after atomicEnv 8 [scheduledPod]).cat.get podKey).map
      (fun v => (v.get "spec", metaField "generation" v)) =
        some (some (.obj [("nodeName", .str "a")]), some (.num (.int 1))) ∧
    (((Logged.after atomicEnv 8 [scheduledPod]).cat.applyUnder atomicEnv
        (.patch podKey nodePatch .json none none) .v1 1 2).1.get podKey).map
      (fun v => (v.get "spec", metaField "generation" v)) =
        some (some (.obj []), some (.num (.int 2))) := by
  decide +kernel

end Engenho
