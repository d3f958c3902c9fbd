import Engenho.Api.StatusPut

/-!
# The scale subresource

`/scale` is a view of an object: its replica counts, its selector and some of its metadata. A PATCH
of it is read for an integer at `spec.replicas`, whatever its type, and written back to the object
as a merge patch of that one field.

* `SpecInt`, `DefaultedInt`: a count in its three states.
* `projectScale`, `patchScale`: the view and the handler.
* `patchScale_means_iff`: when the count that is stored is the one of the patched view.
* `patchScale_ignores_type`: JSON Patches and nulls that are accepted and change nothing.
-/

namespace Engenho
open Assoc Except Option

/-! ## Reading a count -/

/-- An integer field of an object: left out (or null), an integer, or something else. -/
inductive SpecInt where
  | absent
  | int (n : Int)
  | malformed (found : Json)
deriving DecidableEq

/-- Reads an integer that may be absent. -/
def SpecInt.of : Option Json → SpecInt
  | none => .absent
  | some .null => .absent
  | some value =>
    match value.asI64 with
    | some n => .int n
    | none => .malformed value

/-- The field at a path. A step that is left out leaves out the field, one that is no object stands
in the way. -/
def SpecInt.atPath (object : Json) : List String → SpecInt
  | [] => .of (some object)
  | step :: path =>
    match object with
    | .null => .absent
    | .obj map =>
      match map.lookup step with
      | some next => atPath next path
      | none => .absent
    | other => .malformed other

/-- The kind of a value that stands in the way; null never does. -/
inductive ShapeKind where
  | bool
  | number
  | string
  | array
  | object
deriving DecidableEq, Repr

/-- What stands where an integer should. -/
def ShapeKind.of : Json → Option ShapeKind
  | .null => none
  | .bool _ => some .bool
  | .num _ => some .number
  | .str _ => some .string
  | .arr _ => some .array
  | .obj _ => some .object

def ShapeKind.text : ShapeKind → String
  | .bool => "a boolean"
  | .number => "a number"
  | .string => "a string"
  | .array => "an array"
  | .object => "an object"

/-- There is no integer where one should be. -/
inductive ShapeError where
  | notAnInteger (path : List String) (found : ShapeKind)
deriving DecidableEq, Repr

def ShapeError.text : ShapeError → String
  | .notAnInteger path found =>
    (if path = [] then "the object itself" else dotted path) ++ " is not an integer (found " ++
      found.text ++ ")"

/-- The integer at a path, if any. -/
def intAt (object : Json) (path : List String) : Except ShapeError (Option Int) :=
  match SpecInt.atPath object path with
  | .absent => .ok none
  | .int n => .ok (some n)
  | .malformed found =>
    match ShapeKind.of found with
    | some kind => .error (.notAnInteger path kind)
    | none => .ok none

/-- An integer field whose absence means its default. -/
structure DefaultedInt where
  path : List String
  absent : Int
deriving DecidableEq, Repr

/-- The integer, or its default. -/
def DefaultedInt.read (field : DefaultedInt) (object : Json) : Except ShapeError Int :=
  (intAt object field.path).map fun n => n.getD field.absent

def replicas : DefaultedInt := ⟨["spec", "replicas"], 1⟩

def statusReplicas : DefaultedInt := ⟨["status", "replicas"], 0⟩

/-! ## The view -/

/-- The metadata of a Scale. -/
structure ScaleMeta where
  name : String
  ns : Option String
  uid : Option String
  resourceVersion : String
  creationTimestamp : Option String
deriving DecidableEq, Repr

structure ScaleSpec where
  replicas : Int
deriving DecidableEq, Repr

structure ScaleStatus where
  replicas : Int
  selector : Option String
deriving DecidableEq, Repr

/-- The scale subresource. -/
structure Scale where
  apiVersion : String
  kind : String
  metadata : ScaleMeta
  spec : ScaleSpec
  status : ScaleStatus
deriving DecidableEq, Repr

def readStr (obj : Json) (a b : String) : Option String :=
  ((obj.get a).bind (Json.get b)).bind Json.asStr

/-- The labels as a selector text. -/
def labelSelectorToString (env : Env) (matchLabels : Json) : Option String :=
  match matchLabels.asObject with
  | none => none
  | some obj =>
    if obj.isEmpty then none
    else
      let text : Json → String
        | .str s => s
        | other => env.render other
      let pairs := obj.foldl (fun pairs e => Assoc.put e.1 (text e.2) pairs) []
      some (",".intercalate (pairs.map fun e => e.1 ++ "=" ++ e.2))

/-- The Scale of an object. -/
def projectScale (env : Env) (parent : Json) : Except ShapeError Scale := do
  let specReplicas ← replicas.read parent
  let observed ← statusReplicas.read parent
  let selector := (((parent.get "spec").bind (Json.get "selector")).bind
    (Json.get "matchLabels")).bind
    (labelSelectorToString env)
  let metadata : ScaleMeta :=
    ⟨(readStr parent "metadata" "name").getD "", readStr parent "metadata" "namespace",
      readStr parent "metadata" "uid", (readStr parent "metadata" "resourceVersion").getD "",
      readStr parent "metadata" "creationTimestamp"⟩
  return ⟨"autoscaling/v1", "Scale", metadata, ⟨specReplicas⟩, ⟨observed, selector⟩⟩

/-- A string field that is left out when there is nothing in it. -/
def optionalField (name : String) (value : Option String) : JsonMap :=
  (value.map fun s => (name, Json.str s)).toList

def nonEmpty (s : String) : Option String := if s.isEmpty then none else some s

def ScaleMeta.toValue (m : ScaleMeta) : Json :=
  .obj (optionalField "creationTimestamp" m.creationTimestamp ++
    optionalField "name" (nonEmpty m.name) ++
    optionalField "namespace" m.ns ++
    optionalField "resourceVersion" (nonEmpty m.resourceVersion) ++ optionalField "uid" m.uid)

def ScaleStatus.toValue (s : ScaleStatus) : Json :=
  .obj (("replicas", .num (.int s.replicas)) :: optionalField "selector" s.selector)

def Scale.toValue (s : Scale) : Json :=
  .obj [("apiVersion", .str s.apiVersion), ("kind", .str s.kind), ("metadata", s.metadata.toValue),
    ("spec", .obj [("replicas", .num (.int s.spec.replicas))]), ("status", s.status.toValue)]

/-! ## The handler -/

def unprojectable (e : ShapeError) : ApiError :=
  .internal ("no Scale can be projected from this object: " ++ e.text)

/-- The count a patch body names. -/
def bodyReplicas (patch : Json) : Option Int :=
  ((patch.get "spec").bind (Json.get "replicas")).bind Json.asI64

/-- The merge patch of the object for a patch of its view. -/
def scopedReplicas (patch : Json) : Json :=
  match bodyReplicas patch with
  | some n => .obj [("spec", .obj [("replicas", .num (.int n))])]
  | none => .obj []

namespace WriteHandler

variable (h : WriteHandler) (env : Env) (c : ResourceCatalog) (ns : Option String) (name : String)

/-- The object of a request, read. -/
def liveObject : Except ApiError (ResourceKey × Json) := do
  let key ← h.key env ns name
  match c.get key with
  | some live => return (key, live)
  | none => throw (h.notFound name)

/-- GET of the scale. -/
def getScale : Except ApiError Json := do
  let (_, live) ← h.liveObject env c ns name
  let scale ← (projectScale env live).mapError unprojectable
  return scale.toValue

/-- What `patchScale` proposes: the key, the merge patch of the object and the precondition. The
type of the patch is not looked at. -/
def planScale (patch : Json) (_type : PatchType) :
    Except ApiError (ResourceKey × Json × Option Nat) := do
  let (key, live) ← h.liveObject env c ns name
  -- projectable before anything is written
  let _ ← (projectScale env live).mapError unprojectable
  let expected ← bodyPrecondition env patch
  return (key, scopedReplicas patch, expected)

/-- PATCH of the scale. -/
def patchScale (patch : Json) (type : PatchType) (t : Turn) :
    ResourceCatalog × Except ApiError Json :=
  match h.planScale env c ns name patch type with
  | .error e => (c, .error e)
  | .ok (key, body, expected) =>
    let out := h.proposeScopedPatch env c key name body expected t
    (out.1, do
      let _ ← out.2
      h.getScale env out.1 ns name)

end WriteHandler

/-! ## Counts -/

variable {v : Json} {n : Int} {fields : JsonMap} {env : Env} {name : String}

theorem SpecInt.of_int {v : Option Json} : SpecInt.of v = .int n ↔ v.bind Json.asI64 = some n := by
  rcases v with _ | v
  · simp [SpecInt.of]
  cases v with
  | null => simp [SpecInt.of, Json.asI64]
  | _ =>
    simp only [SpecInt.of]
    split <;> simp_all

/-- Only the `spec` of an object is read for its replicas. -/
theorem read_replicas_congr {fields' : JsonMap} (h : fields.lookup "spec" = fields'.lookup "spec") :
    replicas.read (.obj fields) = replicas.read (.obj fields') := by
  have hpath : SpecInt.atPath (.obj fields) replicas.path =
      SpecInt.atPath (.obj fields') replicas.path := by
    simp only [replicas, SpecInt.atPath, h]
  rw [DefaultedInt.read, DefaultedInt.read, intAt, intAt, hpath]

theorem read_replicas_int {spec : JsonMap} (hspec : fields.lookup "spec" = some (.obj spec))
    (hn : spec.lookup "replicas" = some (.num (.int n))) (hrange : -2 ^ 63 ≤ n ∧ n < 2 ^ 63) :
    replicas.read (.obj fields) = .ok n := by
  have hpath : SpecInt.atPath (.obj fields) replicas.path = .int n := by
    simp only [replicas, SpecInt.atPath, hspec, hn]
    exact SpecInt.of_int.mpr (Json.asI64_int hrange)
  rw [DefaultedInt.read, intAt, hpath]
  rfl

theorem replicas_of_projectScale {scale : Scale} (h : projectScale env v = .ok scale) :
    replicas.read v = .ok scale.spec.replicas := by
  obtain ⟨n, hn, h⟩ := of_bind_ok h
  obtain ⟨m, -, h⟩ := of_bind_ok h
  cases h
  exact hn

/-! ## The patched view -/

/-- `spec.replicas` of a Scale document: 0 where it is left out, and nothing but an integer. -/
def scaleReplicas : Json → Option Int
  | .obj fields =>
    match fields.lookup "spec" with
    | none => some 0
    | some (.obj spec) =>
      match spec.lookup "replicas" with
      | none => some 0
      | some count => count.asI64
    | some _ => none
  | _ => none

def scaleKind : Gvk := ⟨"autoscaling", "v1", "Scale"⟩

/-- The view with the patch applied, as the type of the patch says. -/
def patchedScale (env : Env) (type : PatchType) (view patch : Json) : Except PatchError Json := do
  let body ← PatchBody.fromRaw env type patch
  applyPatchBody env scaleKind type view body

theorem scaleReplicas_of_get {doc spec : Json} (hspec : doc.get "spec" = some spec)
    (hn : spec.get "replicas" = some (.num (.int n))) (hrange : -2 ^ 63 ≤ n ∧ n < 2 ^ 63) :
    scaleReplicas doc = some n := by
  cases doc with
  | obj fields =>
    cases spec with
    | obj m =>
      rw [Json.get_obj] at hspec hn
      simp only [scaleReplicas, hspec, hn]
      exact Json.asI64_int hrange
    | _ => cases hn
  | _ => cases hspec

/-- An object in a field of a patch is merged, or taken as it is. -/
theorem strategicMerge_object {gvk : Gvk} {path : List String} {current m : Json} {fs : JsonMap}
    (h : strategicMerge env gvk path current (.obj fields) = .ok m)
    (hnd : (fields.map Prod.fst).Nodup) (hl : fields.lookup name = some (.obj fs))
    (hname : name ≠ patchSentinel ∧ name ≠ retainKeysSentinel) :
    m.get name = some (.obj fs) ∨ ∃ old merged, m.get name = some merged ∧
      strategicMerge env gvk (path ++ [name]) old (.obj fs) = .ok merged := by
  obtain ⟨-, rfl⟩ | ⟨-, -, out, hout, rfl⟩ := strategicMerge_obj h
  · exact .inl (by rw [Json.get_obj, lookup_drop_ne hname.1, hl])
  right
  obtain ⟨start, mid, -, hstep, hmid⟩ := strategicFields_at hout hnd hl
  cases hstep with
  | sentinel _ hs => exact absurd hs (by simp [hname])
  | object _ merged hm => exact ⟨_, merged, by rw [Json.get_obj, hmid, lookup_put_self], hm⟩
  | scalar _ hv => cases hv

/-- A body that names a count asks for that count in a merge patch and in a strategic one. -/
theorem patchedScale_count {type : PatchType} {view patch doc : Json} (hc : patch.canonical = true)
    (h : patchedScale env type view patch = .ok doc) (hn : bodyReplicas patch = some n) :
    scaleReplicas doc = some n := by
  obtain ⟨v, hv, hint⟩ := bind_eq_some_iff.mp hn
  obtain ⟨spec, hspec, hv⟩ := bind_eq_some_iff.mp hv
  obtain ⟨rfl, hrange⟩ := Json.asI64_eq_some hint
  cases patch with
  | obj fields =>
    rw [Json.get_obj] at hspec
    cases spec with
    | obj fs =>
      rw [Json.get_obj] at hv
      have hsorted := Json.sorted_of_canonicalFields hc
      have hsorted' : Assoc.Sorted fs :=
        Json.sorted_of_canonicalFields (Json.canonical_of_lookup hc hspec)
      obtain ⟨body, hbody, h⟩ := of_bind_ok h
      cases type with
      | json => cases hbody
      | apply => cases h
      | merge =>
        cases hbody
        cases h
        have hmerged : ∃ old, (mergeRfc7396 view (.obj fields)).get "spec" =
            some (.obj (mergeRfc7396Fields old fs)) := by
          rw [mergeRfc7396, Json.get_obj, lookup_mergeRfc7396Fields hsorted, hspec]
          exact ⟨_, rfl⟩
        obtain ⟨old, hmerged⟩ := hmerged
        refine scaleReplicas_of_get hmerged ?_ hrange
        rw [Json.get_obj, lookup_mergeRfc7396Fields hsorted', hv]
        simp [Json.isNull, mergeRfc7396]
      | strategic =>
        cases hbody
        rcases strategicMerge_object h hsorted.nodup_keys hspec (by decide) with
          hsame | ⟨old, merged, hget, hm⟩
        · exact scaleReplicas_of_get hsame hv hrange
        · exact scaleReplicas_of_get hget
            (strategicMerge_scalar hm hsorted'.nodup_keys hv rfl (by decide)) hrange
    | _ => cases hv
  | _ => cases hspec

/-! ## What is stored -/

/-- An object agrees with an earlier one but for its replicas and what the store stamps. -/
structure AgreesOutsideReplicas (before after : Json) : Prop where
  fields : ∀ name, name ≠ "spec" → name ≠ "metadata" → after.get name = before.get name
  spec : ∀ name, name ≠ "replicas" →
    (after.get "spec").bind (Json.get name) = (before.get "spec").bind (Json.get name)
  metadata : ∀ name, name ≠ "resourceVersion" → name ≠ "generation" →
    metaField name after = metaField name before
  metadataKind : objectMeta after = objectMeta before
  plainMetadata : objectMeta before = false → after.get "metadata" = before.get "metadata"

theorem AgreesOutsideReplicas.refl (v : Json) : AgreesOutsideReplicas v v :=
  ⟨fun _ _ _ => rfl, fun _ _ => rfl, fun _ _ _ => rfl, rfl, fun _ => rfl⟩

/-- The fields of an object with another count, or with the one they had. -/
def withCount (fields : JsonMap) : Option Int → JsonMap
  | some n => Assoc.put "spec" (.obj (Assoc.put "replicas" (.num (.int n))
      (((fields.lookup "spec").bind Json.asObject).getD []))) fields
  | none => fields

theorem merge_scopedReplicas (fields : JsonMap) (patch : Json) :
    mergeRfc7396 (.obj fields) (scopedReplicas patch) = .obj
    (withCount fields (bodyReplicas patch)) := by
  unfold scopedReplicas withCount
  cases bodyReplicas patch with
  | none => simp [mergeRfc7396, mergeRfc7396Fields]
  | some n =>
    have hbase : ((fields.lookup "spec").getD Json.null).asObject =
        (fields.lookup "spec").bind Json.asObject := by
      cases fields.lookup "spec" <;> rfl
    simp [mergeRfc7396, mergeRfc7396Fields, Json.isNull, hbase]

theorem lookup_withCount (fields : JsonMap) (count : Option Int) (hname : name ≠ "spec") :
    (withCount fields count).lookup name = fields.lookup name := by
  cases count with
  | none => rfl
  | some n => exact lookup_put_ne hname ..

theorem spec_withCount (fields : JsonMap) (count : Option Int) (hname : name ≠ "replicas") :
    ((withCount fields count).lookup "spec").bind (Json.get name) =
      (fields.lookup "spec").bind (Json.get name) := by
  cases count with
  | none => rfl
  | some n =>
    rw [withCount, lookup_put_self, bind_some, Json.get_obj, lookup_put_ne hname]
    cases hspec : fields.lookup "spec" with
    | none => rfl
    | some spec => cases spec <;> rfl

theorem agreesOutsideReplicas_stamp (hb : StampedMeta (.obj fields)) (count : Option Int)
    (rev : Nat) (g : Int) :
    AgreesOutsideReplicas (.obj fields) (stampRevision (.obj (withCount fields count)) rev g) := by
  have hmd : (withCount fields count).lookup "metadata" = fields.lookup "metadata" :=
    lookup_withCount fields count (by decide)
  have hbase : metaBase (.obj (withCount fields count)) = metaBase (.obj fields) := by
    rw [metaBase, metaBase, hmd]
  have hkind : (metaBase (.obj fields)).isSome = objectMeta (.obj fields) := by
    cases hm : objectMeta (.obj fields) with
    | true =>
      obtain ⟨md, -, hmd, -⟩ := metaBase_of_objectMeta hm
      rw [hmd]
      rfl
    | false => rw [metaBase_eq_none_of_plain (hb.present rfl) hm]; rfl
  refine ⟨fun name hs hm => ?_, fun name hn => ?_, fun name hr hg => ?_, ?_, fun hplain => ?_⟩
  · rw [get_stampRevision _ _ _ hm, Json.get_obj, lookup_withCount fields count hs, Json.get_obj]
  · rw [get_stampRevision _ _ _ (by decide), Json.get_obj, spec_withCount fields count hn,
      Json.get_obj]
  · rw [metaField_stampRevision _ _ _ hr hg, metaField_of_metaBase, metaField_of_metaBase, hbase]
  · rw [objectMeta_stampRevision, stampResourceVersion, objectMeta_updateMetadata, hbase, hkind]
  · have hnone := metaBase_eq_none_of_plain (hb.present rfl) hplain
    rw [stampRevision, stampResourceVersion, updateMetadata_of_none (hbase.trans hnone),
      updateMetadata_of_none (hbase.trans hnone), Json.get_obj, hmd, Json.get_obj]

/-- The count of an object after a scale patch: the one the body names, or the one it had. -/
theorem read_withCount {r : Int} (hr : replicas.read (.obj fields) = .ok r) (patch : Json) :
    replicas.read (.obj (withCount fields (bodyReplicas patch))) =
    .ok ((bodyReplicas patch).getD r) := by
  cases hn : bodyReplicas patch with
  | none => exact hr
  | some n =>
    obtain ⟨v, -, hint⟩ := bind_eq_some_iff.mp hn
    exact read_replicas_int (lookup_put_self ..) (lookup_put_self ..) (Json.asI64_eq_some hint).2

theorem read_replicas_stamp (fields : JsonMap) (rev : Nat) (g : Int) :
    replicas.read (stampRevision (.obj fields) rev g) = replicas.read (.obj fields) := by
  have hobj : (stampRevision (.obj fields) rev g).isObject = true := by
    rw [stampRevision, isObject_updateMetadata, stampResourceVersion, isObject_updateMetadata]
    rfl
  obtain ⟨fields', hfields⟩ := Json.isObject_iff.mp hobj
  have hspec := get_stampRevision (.obj fields) rev g (show "spec" ≠ "metadata" by decide)
  rw [hfields] at hspec ⊢
  exact read_replicas_congr hspec

namespace WriteHandler

theorem patchScale_ok {h : WriteHandler} {c : ResourceCatalog} {ns : Option String}
    {patch answer : Json}
    {type : PatchType} {t : Turn} (ha : (h.patchScale env c ns name patch type t).2 = .ok answer) :
    ∃ key live scale expected stored, h.key env ns name = .ok key ∧ c.get key = some live ∧
      projectScale env live = .ok scale ∧
      (h.patchScale env c ns name patch type t).1 =
        (h.proposeScopedPatch env c key name (scopedReplicas patch) expected t).1 ∧
      (h.proposeScopedPatch env c key name (scopedReplicas patch) expected t).2 = .ok stored := by
  unfold patchScale at ha ⊢
  cases hplan : h.planScale env c ns name patch type with
  | error e =>
    rw [hplan] at ha
    cases ha
  | ok plan =>
    rw [hplan] at ha
    obtain ⟨⟨key, live⟩, hlive, hplan⟩ := of_bind_ok hplan
    obtain ⟨scale, hscale, hplan⟩ := of_bind_ok hplan
    obtain ⟨expected, -, hplan⟩ := of_bind_ok hplan
    cases hplan
    obtain ⟨key', hkey, hlive⟩ := of_bind_ok hlive
    obtain ⟨stored, hstored, -⟩ := of_bind_ok ha
    split at hlive
    · rename_i live' hget
      cases hlive
      exact ⟨key, live, scale, expected, stored, hkey, hget, of_mapError_ok hscale, rfl, hstored⟩
    · cases hlive

/-- What an accepted PATCH of the view leaves: the count the body names, or the old one, and nothing
else that is new. -/
theorem patchScale_stored (h : WriteHandler) (env : Env) (capacity : Nat) (ops : List CatalogOp)
    (ns : Option String) (name : String) (patch : Json) (type : PatchType) (t : Turn)
    {key : ResourceKey} {before answer : Json} (hkey : h.key env ns name = .ok key)
    (hbefore : (Logged.after env capacity ops).cat.get key = some before)
    (hobj : before.isObject = true)
    (ha : (h.patchScale env (Logged.after env capacity ops).cat ns name patch type t).2 =
      .ok answer) :
    ∃ scale after, projectScale env before = .ok scale ∧
      (h.patchScale env (Logged.after env capacity ops).cat ns name patch type t).1.get key =
        some after ∧
      replicas.read after = .ok ((bodyReplicas patch).getD scale.spec.replicas) ∧
      AgreesOutsideReplicas before after := by
  obtain ⟨key', live, scale, expected, stored, hkey', hget, hscale, hcat, hout⟩ := patchScale_ok ha
  obtain rfl : key = key' := Except.ok.inj (hkey.symm.trans hkey')
  obtain rfl : before = live := Option.some.inj (hbefore.symm.trans hget)
  obtain ⟨⟨before, m⟩, hlive, rfl⟩ := map_eq_some_iff.mp hbefore
  have hb := Logged.after_stampedMeta env capacity ops hlive
  obtain ⟨fields, hfields⟩ := Json.isObject_iff.mp hobj
  subst hfields
  have hread := read_withCount (replicas_of_projectScale hscale) patch
  have hmerge := merge_scopedReplicas fields patch
  obtain ⟨hres, hop, hsome⟩ := proposeScopedPatch_ok hout
  rw [hcat, ResourceCatalog.get, hres]
  rcases applyPatch_merge_cases env hlive (scopedReplicas patch) expected
      ((Logged.after env capacity ops).cat.revision + 1) with
    hconflict | hgone | ⟨hunchanged, hsame⟩ | hstored
  · exact absurd hconflict hop
  · exact absurd (hsome.symm.trans (congrArg Option.isSome hgone)) (by simp)
  · -- nothing was stored: the object had this count
    refine ⟨scale, .obj fields, hscale, congrArg (Option.map Prod.fst) hsame, ?_, .refl _⟩
    rw [← hread]
    refine read_replicas_congr ?_
    rw [hmerge] at hunchanged
    cases hn : bodyReplicas patch with
    | none => rfl
    | some n =>
      rw [hn] at hunchanged
      rw [withCount, lookup_put_self]
      exact lookup_of_unchanged (by decide) hunchanged
  · refine ⟨scale, _, hscale, hstored, ?_, ?_⟩
    · rw [hmerge, read_replicas_stamp, hread]
    · rw [hmerge]
      exact agreesOutsideReplicas_stamp hb ..

/-- The patch applies to the view, and it names a count or leaves the one of the view. -/
def scaleMeans (env : Env) (type : PatchType) (scale : Scale) (patch : Json) : Bool :=
  (patchedScale env type scale.toValue patch).toOption.any fun doc =>
    (bodyReplicas patch).isSome || scaleReplicas doc = some scale.spec.replicas

/-- An accepted PATCH of the view stores the count of the patched view, and nothing else that is
new, exactly if the patch applies to the view and its body has an integer at `spec.replicas` or the
patch leaves the count of the view alone. -/
theorem patchScale_means_iff (h : WriteHandler) (env : Env) (capacity : Nat) (ops : List CatalogOp)
    (ns : Option String) (name : String) (patch : Json) (type : PatchType) (t : Turn)
    {key : ResourceKey} {before answer : Json} {scale : Scale} (hkey : h.key env ns name = .ok key)
    (hbefore : (Logged.after env capacity ops).cat.get key = some before)
    (hobj : before.isObject = true)
    (hcanon : patch.canonical = true) (hview : projectScale env before = .ok scale)
    (ha : (h.patchScale env (Logged.after env capacity ops).cat ns name patch type t).2 =
      .ok answer) :
    ∃ after, (h.patchScale env (Logged.after env capacity ops).cat ns name patch type t).1.get key =
        some after ∧
      ((∃ doc n, patchedScale env type scale.toValue patch = .ok doc ∧ scaleReplicas doc = some n ∧
          replicas.read after = .ok n) ∧ AgreesOutsideReplicas before after ↔
        scaleMeans env type scale patch = true) := by
  obtain ⟨scale', after, hview', hafter, hread, hagrees⟩ :=
    patchScale_stored h env capacity ops ns name patch type t hkey hbefore hobj ha
  obtain rfl : scale = scale' := Except.ok.inj (hview.symm.trans hview')
  refine ⟨after, hafter, ?_⟩
  unfold scaleMeans
  constructor
  · rintro ⟨⟨doc, n, hdoc, hn, hn'⟩, -⟩
    have hcount := Except.ok.inj (hread.symm.trans hn')
    rw [hdoc]
    cases hbody : bodyReplicas patch with
    | some m => rfl
    | none =>
      rw [hbody, Option.getD_none] at hcount
      simp [Except.toOption, hn, hcount]
  · intro hmeans
    obtain ⟨doc, hdoc, hmeans⟩ := (Option.any_eq_true ..).mp hmeans
    have hdoc := of_toOption hdoc
    refine ⟨⟨doc, _, hdoc, ?_, hread⟩, hagrees⟩
    cases hbody : bodyReplicas patch with
    | some m => exact patchedScale_count hcanon hdoc hbody
    | none => simpa [hbody] using hmeans

/-! ## Concrete patches -/

def deploymentWrites : WriteHandler :=
  ⟨⟨"apps", "v1", "Deployment"⟩, "deployments", true, true, none⟩

def webDeployment : ResourceKey := ⟨"apps", "v1", "Deployment", some "default", "web"⟩

/-- A Deployment of three replicas. -/
def storeThree : CatalogOp :=
  .command (.put webDeployment (.obj [("metadata", .obj [("name", .str "web")]),
    ("spec", .obj [("paused", .bool true), ("replicas", .num (.int 3))])]) none) .v1 1 1

def countBody (count : Json) : Json := .obj [("spec", .obj [("replicas", count)])]

/-- A JSON Patch that replaces the count. -/
def replaceCount (n : Int) : Json :=
  .arr [.obj [("op", .str "replace"), ("path", .str "/spec/replicas"), ("value", .num (.int n))]]

theorem patchScale_means_seven :
    let c := (Logged.after atomicEnv 4 [storeThree]).cat
    let out := deploymentWrites.patchScale atomicEnv c (some "default") "web"
      (countBody (.num (.int 7)))
      .strategic quiet
    ∃ after, out.1.get webDeployment = some after ∧ replicas.read after = .ok 7 := by
  intro c out
  have hbefore : c.get webDeployment = some _ := rfl
  have hanswer : out.2 = .ok _ := rfl
  obtain ⟨after, hafter, hiff⟩ := patchScale_means_iff deploymentWrites atomicEnv 4 [storeThree]
    (some "default") "web" (countBody (.num (.int 7))) .strategic quiet rfl hbefore rfl
    (by decide +kernel) rfl
    hanswer
  obtain ⟨⟨doc, n, hdoc, hn, hread⟩, -⟩ := hiff.mpr (by decide +kernel)
  cases hdoc
  cases hn
  exact ⟨after, hafter, hread⟩

/-- A JSON Patch to five replicas, and a merge patch that removes the count, are accepted; the
object keeps its three replicas, where the patched view has five and, naming none, zero. -/
theorem patchScale_ignores_type :
    let c := (Logged.after atomicEnv 4 [storeThree]).cat
    let send (patch : Json) (type : PatchType) :=
      deploymentWrites.patchScale atomicEnv c (some "default") "web" patch type quiet
    let counts (patch : Json) (type : PatchType) :=
      (((send patch type).1.get webDeployment).map fun v => (replicas.read v).toOption,
        (c.get webDeployment).bind fun v => (projectScale atomicEnv v).toOption.bind fun scale =>
          (patchedScale atomicEnv type scale.toValue patch).toOption.map scaleReplicas)
    (send (replaceCount 5) .json).2.toBool = true ∧
    counts (replaceCount 5) .json = (some (some 3), some (some 5)) ∧
    (send (countBody .null) .merge).2.toBool = true ∧
    counts (countBody .null) .merge = (some (some 3), some (some 0)) := by
  decide +kernel

end WriteHandler
end Engenho
