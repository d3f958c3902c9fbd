import Engenho.Api.ListPage

/-!
# The object a write stores, before admission

`normalize` is the part of a typed decode the server needs: the metadata is an object or absent, its
maps hold strings and its lists hold what they should, at the root and in the pod templates of the
kinds that embed one. `applyDefaults` and `applySchemaDefaults` fill absent fields, by kind and by
the schema of a custom resource.

What later stages need of all this is that the object can carry metadata (`metaBase`):
`metaBase_normalize` establishes it, and no default takes it away.
-/

namespace Engenho
open Assoc List Option Except

/-! ## Errors of shape -/

/-- The kind of a value. -/
inductive JsonKind where
  | null
  | boolean
  | number
  | string
  | array
  | object
deriving DecidableEq, Repr

def JsonKind.of : Json → JsonKind
  | .null => .null
  | .bool _ => .boolean
  | .num _ => .number
  | .str _ => .string
  | .arr _ => .array
  | .obj _ => .object

def JsonKind.text : JsonKind → String
  | .null => "null"
  | .boolean => "boolean"
  | .number => "number"
  | .string => "string"
  | .array => "array"
  | .object => "object"

/-- A step of a field path. -/
inductive Segment where
  | field (name : String)
  | key (key : String)
  | index (i : Nat)
deriving DecidableEq, Repr

/-- A path into a request body. -/
abbrev FieldPath := List Segment

def Segment.text (first : Bool) : Segment → String
  | .field name => if first then name else "." ++ name
  | .key k => "[" ++ k ++ "]"
  | .index i => "[" ++ toString i ++ "]"

def FieldPath.text : FieldPath → String
  | [] => "(root)"
  | s :: rest => s.text true ++ String.join (rest.map (Segment.text false))

/-- A field of the metadata has the wrong kind. -/
structure MetaShapeError where
  path : FieldPath
  expected : JsonKind
  found : JsonKind
deriving DecidableEq, Repr

namespace MetaShapeError

def text (e : MetaShapeError) : String :=
  FieldPath.text e.path ++ ": expected " ++ e.expected.text ++ ", got " ++ e.found.text

variable (e : MetaShapeError)

def undecodable (version kind : String) : String :=
  kind ++ " in version \"" ++ version ++ "\" cannot be handled as a " ++ kind ++ ": " ++ e.text

/-- The client sent the body. -/
def requestError (version kind : String) : ApiError :=
  .badRequest (e.undecodable version kind)

/-- A webhook made the body. -/
def admissionError (version kind : String) : ApiError :=
  .internal (e.undecodable version kind)

end MetaShapeError

/-! ## Normalization -/

def stringMapFields : List String := ["labels", "annotations"]

def arrayFields : List (String × JsonKind) :=
  [("ownerReferences", .object), ("finalizers", .string)]

/-- The entries of a string map. A null entry is the empty string. -/
def normalizeEntries (path : FieldPath) : JsonMap → Except MetaShapeError JsonMap
  | [] => .ok []
  | (key, value) :: rest => do
    let value ← match value with
      | .str s => .ok (Json.str s)
      | .null => .ok (Json.str "")
      | other => .error ⟨path ++ [.key key], .string, .of other⟩
    let rest ← normalizeEntries path rest
    return (key, value) :: rest

/-- Labels and annotations are texts. -/
def normalizeStringMap (at_ : FieldPath) (md : JsonMap) (field : String) :
    Except MetaShapeError JsonMap :=
  let path := at_ ++ [.field "metadata", .field field]
  match md.lookup field with
  | none => .ok md
  | some .null => .ok (Assoc.drop field md)
  | some (.obj entries) =>
    (normalizeEntries path entries).map fun entries => Assoc.put field (.obj entries) md
  | some other => .error ⟨path, .object, .of other⟩

/-- A list of the metadata has elements of one kind. -/
def normalizeArray (at_ : FieldPath) (md : JsonMap) (spec : String × JsonKind) :
    Except MetaShapeError JsonMap :=
  let path := at_ ++ [.field "metadata", .field spec.1]
  match md.lookup spec.1 with
  | none => .ok md
  | some .null => .ok (Assoc.drop spec.1 md)
  | some (.arr items) =>
    match items.zipIdx.find? fun item => JsonKind.of item.1 ≠ spec.2 with
    | some (item, index) => .error ⟨path ++ [.index index], spec.2, .of item⟩
    | none => .ok md
  | some other => .error ⟨path, .array, .of other⟩

/-- The metadata, each field of its kind. -/
def normalizeObjectMeta (at_ : FieldPath) (md : JsonMap) : Except MetaShapeError JsonMap := do
  let md ← stringMapFields.foldlM (normalizeStringMap at_) md
  arrayFields.foldlM (normalizeArray at_) md

/-- The metadata held by `container`, which sits at `at_`. -/
def normalizeMetaSlot (at_ : FieldPath) (container : JsonMap) : Except MetaShapeError JsonMap :=
  match container.lookup "metadata" with
  | none => .ok container
  | some (.obj md) =>
    (normalizeObjectMeta at_ md).map fun md => Assoc.put "metadata" (.obj md) container
  | some .null => .ok (Assoc.drop "metadata" container)
  | some other => .error ⟨at_ ++ [.field "metadata"], .object, .of other⟩

/-- Where a built-in kind embeds a second metadata. -/
def embeddedMetaParents (group kind : String) : List (List String) :=
  if (group = "apps" ∧ kind ∈ ["Deployment", "ReplicaSet", "DaemonSet", "StatefulSet"]) ∨
      (group = "batch" ∧ kind = "Job") ∨ (group = "" ∧ kind = "ReplicationController") then
    [["spec", "template"]]
  else if group = "" ∧ kind = "PodTemplate" then [["template"]]
  else if group = "batch" ∧ kind = "CronJob" then
    [["spec", "jobTemplate"], ["spec", "jobTemplate", "spec", "template"]]
  else []

/-- Normalizes the metadata slot of the object at `path`, when every step is an object. -/
def normalizeAt (at_ : FieldPath) : List String → JsonMap → Except MetaShapeError JsonMap
  | [], container => normalizeMetaSlot at_ container
  | step :: rest, fields =>
    match fields.lookup step with
    | some (.obj inner) =>
      (normalizeAt at_ rest inner).map fun inner => Assoc.put step (.obj inner) fields
    | _ => .ok fields

/-- The object, with metadata of the right shape. -/
def normalize (group kind : String) (body : Json) : Except MetaShapeError Json :=
  match body with
  | .obj root => do
    let root ← normalizeMetaSlot [] root
    let root ← (embeddedMetaParents group kind).foldlM
      (fun root parent => normalizeAt (parent.map Segment.field) parent root) root
    return .obj root
  | other => .error ⟨[], .object, .of other⟩

/-! ## Defaults by kind -/

/-- Sets a field that is absent. -/
def fill (k : String) (v : Json) (fields : JsonMap) : JsonMap :=
  if (fields.lookup k).isSome then fields else Assoc.put k v fields

/-- Changes the object at a field, when there is one. -/
def modifyObject (k : String) (f : JsonMap → JsonMap) (fields : JsonMap) : JsonMap :=
  match fields.lookup k with
  | some (.obj inner) => Assoc.put k (.obj (f inner)) fields
  | _ => fields

/-- Changes every object of the list at a field, when there is one. -/
def modifyItems (k : String) (f : JsonMap → JsonMap) (fields : JsonMap) : JsonMap :=
  match fields.lookup k with
  | some (.arr items) =>
    Assoc.put k (.arr (items.map fun item =>
      match item with
      | .obj inner => .obj (f inner)
      | other => other)) fields
  | _ => fields

/-- The image has the tag `latest` or none. A colon before a slash belongs to a registry's port. -/
def pullsAlways (image : String) : Bool :=
  let tag := (image.toList.reverse.takeWhile (· ≠ ':')).reverse
  if ':' ∈ image.toList ∧ '/' ∉ tag then tag = "latest".toList else true

def defaultContainer (c : JsonMap) : JsonMap :=
  let c := fill "terminationMessagePath" (.str "/dev/termination-log") c
  let c := fill "terminationMessagePolicy" (.str "File") c
  let image := ((c.lookup "image").bind Json.asStr).getD ""
  let c := fill "imagePullPolicy" (.str (if pullsAlways image then "Always" else "IfNotPresent")) c
  modifyItems "ports" (fill "protocol" (.str "TCP")) c

def defaultPodSpec (spec : JsonMap) : JsonMap :=
  let spec := fill "restartPolicy" (.str "Always") spec
  let spec := fill "dnsPolicy" (.str "ClusterFirst") spec
  let spec := fill "schedulerName" (.str "default-scheduler") spec
  let spec := fill "terminationGracePeriodSeconds" (.num (.int 30)) spec
  let spec := fill "securityContext" (.obj []) spec
  let spec := modifyItems "containers" defaultContainer spec
  modifyItems "initContainers" defaultContainer spec

def defaultServiceSpec (spec : JsonMap) : JsonMap :=
  let spec := fill "type" (.str "ClusterIP") spec
  let spec := fill "sessionAffinity" (.str "None") spec
  modifyItems "ports" (fill "protocol" (.str "TCP")) spec

/-- Changes the fields of an object. -/
def mapFields (f : JsonMap → JsonMap) : Json → Json
  | .obj fields => .obj (f fields)
  | other => other

/-- The defaults of a kind. -/
def applyDefaults (group version kind : String) (body : Json) : Json :=
  if group = "" ∧ version = "v1" then
    if kind = "Pod" then mapFields (modifyObject "spec" defaultPodSpec) body
    else if kind = "Secret" then mapFields (fill "type" (.str "Opaque")) body
    else if kind = "Service" then mapFields (modifyObject "spec" defaultServiceSpec) body
    else body
  else body

/-! ## Defaults by schema -/

/-- The schema leaves the subtree to its author. -/
def schemaIsOpaque (schema : JsonMap) : Bool :=
  schema.lookup "x-kubernetes-preserve-unknown-fields" = some (.bool true) ||
    schema.lookup "x-kubernetes-int-or-string" = some (.bool true)

mutual
/-- Fills what the schema has a default for. Null counts as absent. -/
def applySchemaDefaults : Json → Json → Json
  | .obj schema, value =>
    if schemaIsOpaque schema then value
    else itemDefaults schema (propertyDefaults schema value)
  | _, value => value
/-- The defaults of the fields, from the schema's `properties`. -/
def propertyDefaults : List (String × Json) → Json → Json
  | [], value => value
  | (k, sub) :: rest, value =>
    if k = "properties" then
      match sub, value with
      | .obj props, .obj fields => .obj (fieldDefaults props fields)
      | _, value => value
    else propertyDefaults rest value
def fieldDefaults : List (String × Json) → JsonMap → JsonMap
  | [], fields => fields
  | (k, sub) :: rest, fields =>
    fieldDefaults rest
      (match fields.lookup k with
      | none => ((sub.get "default").map fun d => Assoc.put k d fields).getD fields
      | some .null => ((sub.get "default").map fun d => Assoc.put k d fields).getD fields
      | some v => Assoc.put k (applySchemaDefaults sub v) fields)
/-- The defaults of the elements of a list, from the schema's `items`. -/
def itemDefaults : List (String × Json) → Json → Json
  | [], value => value
  | (k, sub) :: rest, value =>
    if k = "items" then
      match value with
      | .arr elements => .arr (elements.map (applySchemaDefaults sub))
      | value => value
    else itemDefaults rest value
end

/-! ## The object can carry metadata -/

variable {fields : JsonMap} {k : String}

theorem metaBase_obj_isSome : (metaBase (.obj fields)).isSome = true ↔
      fields.lookup "metadata" = none ∨ ∃ md, fields.lookup "metadata" = some (.obj md) := by
  simp only [metaBase]
  cases h : fields.lookup "metadata" with
  | none => simp [Json.asObject]
  | some v => cases v <;> simp [Json.asObject]

variable {at_ : FieldPath} {group kind : String} {v : Json}

theorem normalizeMetaSlot_metadata {container container' : JsonMap}
    (h : normalizeMetaSlot at_ container = .ok container') :
    (metaBase (.obj container')).isSome = true := by
  unfold normalizeMetaSlot at h
  rw [metaBase_obj_isSome]
  split at h
  · rename_i hnone
    cases h
    exact .inl hnone
  · obtain ⟨md, -, rfl⟩ := of_map_ok h
    exact .inr ⟨md, lookup_put_self ..⟩
  · cases h
    exact .inl (lookup_drop_self ..)
  · cases h

/-- Normalizing below another field leaves the metadata as it is. -/
theorem normalizeAt_lookup {step : String} {rest : List String} {fields' : JsonMap}
    (h : normalizeAt at_ (step :: rest) fields = .ok fields') (hk : k ≠ step) :
    fields'.lookup k = fields.lookup k := by
  unfold normalizeAt at h
  split at h
  · obtain ⟨inner', -, rfl⟩ := of_map_ok h
    exact lookup_put_ne hk ..
  · cases h
    rfl

theorem embeddedMetaParents_head {parent : List String}
    (h : parent ∈ embeddedMetaParents group kind) :
    ∃ step rest, parent = step :: rest ∧ "metadata" ≠ step := by
  unfold embeddedMetaParents at h
  split at h
  · obtain rfl := mem_singleton.mp h
    exact ⟨"spec", _, rfl, by decide⟩
  split at h
  · obtain rfl := mem_singleton.mp h
    exact ⟨"template", _, rfl, by decide⟩
  · split at h
    · rcases mem_cons.mp h with rfl | h
      · exact ⟨"spec", _, rfl, by decide⟩
      · obtain rfl := mem_singleton.mp h
        exact ⟨"spec", _, rfl, by decide⟩
    · cases h

theorem foldlM_normalizeAt_lookup {parents : List (List String)}
    (hp : ∀ parent ∈ parents, ∃ step rest, parent = step :: rest ∧ "metadata" ≠ step)
    {root root' : JsonMap}
    (h : parents.foldlM (fun root parent => normalizeAt (parent.map Segment.field) parent root)
      root =
      .ok root') : root'.lookup "metadata" = root.lookup "metadata" := by
  induction parents generalizing root with
  | nil => cases h; rfl
  | cons parent parents ih =>
    obtain ⟨step, rest, rfl, hne⟩ := hp parent (by simp)
    obtain ⟨root₁, hfirst, hrest⟩ := of_bind_ok h
    rw [ih (fun p hmem => hp p (.tail _ hmem)) hrest]
    exact normalizeAt_lookup hfirst hne

theorem metaBase_normalize {body : Json} (h : normalize group kind body = .ok v) :
    (metaBase v).isSome = true := by
  unfold normalize at h
  split at h
  · obtain ⟨root₁, hslot, h⟩ := of_bind_ok h
    obtain ⟨root₂, hfold, h⟩ := of_bind_ok h
    cases h
    have hkeep := foldlM_normalizeAt_lookup (fun p hmem => embeddedMetaParents_head hmem) hfold
    rw [metaBase_obj_isSome, hkeep]
    exact metaBase_obj_isSome.mp (normalizeMetaSlot_metadata hslot)
  · cases h

theorem lookup_fill_ne {k' : String} (h : k' ≠ k) (v : Json) (fields : JsonMap) :
    (fill k v fields).lookup k' = fields.lookup k' := by
  unfold fill
  split
  · rfl
  · exact lookup_put_ne h ..

theorem lookup_modifyObject_ne {k' : String} (h : k' ≠ k) (f : JsonMap → JsonMap)
    (fields : JsonMap) : (modifyObject k f fields).lookup k' = fields.lookup k' := by
  unfold modifyObject
  split
  · exact lookup_put_ne h ..
  · rfl

/-- A change of the fields that leaves one alone. -/
theorem get_mapFields {f : JsonMap → JsonMap}
    (hf : ∀ fields : JsonMap, (f fields).lookup k = fields.lookup k) (v : Json) :
    (mapFields f v).get k = v.get k := by
  cases v with
  | obj fields => exact hf fields
  | _ => rfl

/-- The defaults of the built-in kinds are not in the metadata. -/
theorem get_metadata_applyDefaults (group version kind : String) (body : Json) :
    (applyDefaults group version kind body).get "metadata" = body.get "metadata" := by
  unfold applyDefaults
  split
  · split
    · exact get_mapFields (fun fields => lookup_modifyObject_ne (by decide) ..) body
    split
    · exact get_mapFields (fun fields => lookup_fill_ne (by decide) ..) body
    · split
      · exact get_mapFields (fun fields => lookup_modifyObject_ne (by decide) ..) body
      · rfl
  · rfl

/-- The properties that a schema declares, if it does not leave the subtree to its author. -/
def declaredProperties : Json → JsonMap
  | .obj schema =>
    if schemaIsOpaque schema then [] else ((schema.lookup "properties").bind Json.asObject).getD []
  | _ => []

variable (schema : List (String × Json))

theorem propertyDefaults_obj (fields : JsonMap) : propertyDefaults schema (.obj fields) =
      .obj (fieldDefaults (((schema.lookup "properties").bind Json.asObject).getD []) fields) := by
  induction schema with
  | nil => rw [propertyDefaults, lookup_nil, bind_none, getD_none, fieldDefaults]
  | cons e schema ih =>
    obtain ⟨k, sub⟩ := e
    unfold propertyDefaults
    by_cases hk : k = "properties"
    · rw [if_pos hk, lookup_cons_ite, if_pos hk.symm]
      cases sub with
      | obj props => rfl
      | _ => simp [Json.asObject, fieldDefaults]
    · rw [if_neg hk, lookup_cons_ite, if_neg (Ne.symm hk), ih]

/-- The defaults of list elements leave all but a list alone. -/
theorem itemDefaults_of_not_array (h : v.isArray = false) : itemDefaults schema v = v := by
  induction schema with
  | nil => rw [itemDefaults]
  | cons e schema ih =>
    unfold itemDefaults
    split
    · cases v with
      | arr => cases h
      | _ => rfl
    · exact ih

/-- Schema defaults make an object of an object, from the declared properties. -/
theorem applySchemaDefaults_obj (schema : Json) (fields : JsonMap) :
    applySchemaDefaults schema (.obj fields) = .obj
    (fieldDefaults (declaredProperties schema) fields) := by
  cases schema with
  | obj schema =>
    rw [applySchemaDefaults, declaredProperties]
    split
    · rw [fieldDefaults]
    · rw [propertyDefaults_obj, itemDefaults_of_not_array _ rfl]
  | _ => simp [applySchemaDefaults, declaredProperties, fieldDefaults]

/-- A field that is an object stays one. -/
theorem lookup_fieldDefaults (props : List (String × Json)) {inner : JsonMap}
    (h : fields.lookup k = some (.obj inner)) :
    ∃ inner', (fieldDefaults props fields).lookup k = some (.obj inner') := by
  induction props generalizing fields inner with
  | nil => exact ⟨inner, by rwa [fieldDefaults]⟩
  | cons e props ih =>
    obtain ⟨k', sub⟩ := e
    unfold fieldDefaults
    by_cases hk : k = k'
    · subst hk
      rw [h]
      simp only [applySchemaDefaults_obj]
      exact ih (lookup_put_self ..)
    · have hopt : ∀ d : Option Json,
          ((d.map fun d => Assoc.put k' d fields).getD fields).lookup k = some (.obj inner) := by
        intro d
        cases d with
        | none => exact h
        | some d => exact (lookup_put_ne hk ..).trans h
      split
      · exact ih (hopt _)
      · exact ih (hopt _)
      · exact ih ((lookup_put_ne hk ..).trans h)

/-- An object with an object for metadata keeps both through the schema's defaults. -/
theorem objectMeta_applySchemaDefaults (schema : Json) (h : objectMeta v = true) :
    objectMeta (applySchemaDefaults schema v) = true := by
  obtain ⟨md, hmd⟩ := isSome_iff_exists.mp h
  obtain ⟨x, hx, hobj⟩ := bind_eq_some_iff.mp hmd
  obtain rfl := Json.asObject_eq_some.mp hobj
  cases v with
  | obj fields =>
    rw [applySchemaDefaults_obj]
    obtain ⟨md', hmd'⟩ := lookup_fieldDefaults (declaredProperties schema) hx
    simp [objectMeta, hmd']
  | _ => cases hx

end Engenho
