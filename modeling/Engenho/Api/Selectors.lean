import Engenho.Store.Resource

/-!
# Label and field selectors

What a LIST or a WATCH asks of an object. Requirements are conjoined; a missing label map counts as
no labels, and a field that is not on the list of supported ones matches nothing.
-/

namespace Engenho

/-- A clause of a label selector. -/
inductive LabelRequirement where
  | equals (key value : String)
  | notEquals (key value : String)
  | isIn (key : String) (set : List String)
  | notIn (key : String) (set : List String)
  | present (key : String)
  | absent (key : String)
deriving DecidableEq, Repr

/-- The labels meet the clause. -/
def LabelRequirement.satisfiedBy (r : LabelRequirement) (labels : Option Json) : Bool :=
  let have_ (k : String) : Option String := (labels.bind (Json.get k)).bind Json.asStr
  match r with
  | .equals k v => have_ k = some v
  | .notEquals k v => have_ k ≠ some v
  | .isIn k set => (have_ k).any fun h => set.any fun s => s = h
  | .notIn k set => (have_ k).all fun h => !set.any fun s => s = h
  | .present k => (have_ k).isSome
  | .absent k => (have_ k).isNone

/-- A clause of a field selector. -/
inductive FieldRequirement where
  | equals (key value : String)
  | notEquals (key value : String)
deriving DecidableEq, Repr

/-- The fields that can be selected by. -/
def supportedFieldSelectors : List String :=
  ["metadata.name", "metadata.namespace", "spec.nodeName", "status.phase", "spec.restartPolicy",
    "spec.schedulerName", "spec.serviceAccountName", "status.podIP", "status.nominatedNodeName",
    "spec.unschedulable", "type", "involvedObject.kind", "involvedObject.name",
    "involvedObject.namespace", "involvedObject.uid", "reason"]

/-- The text of a scalar, as a selector compares it. -/
def scalarText : Json → Option String
  | .str s => some s
  | .bool b => some (if b then "true" else "false")
  | .num (.int i) => some (toString i)
  | .num (.float text) => some text
  | _ => none

/-- The text at a path of fields. -/
def resolvePath (obj : Json) (path : String) : Option String :=
  let segments := (path.toList.splitOn '.').map String.ofList
  (segments.foldl (fun cur seg => cur.bind (Json.get seg)) (some obj)).bind scalarText

def FieldRequirement.key : FieldRequirement → String
  | .equals k _ => k
  | .notEquals k _ => k

/-- The object meets the clause. -/
def FieldRequirement.satisfiedBy (r : FieldRequirement) (obj : Json) : Bool :=
  if !supportedFieldSelectors.contains r.key then false
  else
    let have_ := resolvePath obj r.key
    match r with
    | .equals _ v => have_ = some v
    | .notEquals _ v => have_ ≠ some v

/-- What a LIST or a watch selects. -/
structure Selectors where
  labels : List LabelRequirement
  fields : List FieldRequirement
deriving DecidableEq, Repr

/-- The object is selected. -/
def Selectors.matches (sel : Selectors) (obj : Json) : Bool :=
  let labels := (obj.get "metadata").bind (Json.get "labels")
  (sel.labels.all fun r => r.satisfiedBy labels) && sel.fields.all fun r => r.satisfiedBy obj

/-- The store has one watch for all kinds; an event is for a reader if its key is in scope. -/
def gvkNsMatches (key : ResourceKey) (scope : ListScope) : Bool :=
  if key.group ≠ scope.group || key.version ≠ scope.version || key.kind ≠ scope.kind then false
  else
    match scope.ns, key.ns with
    | none, _ => true
    | some want, some have_ => want = have_
    | some _, none => false

/-- The filter of events and the range of a LIST take the same keys. -/
theorem gvkNsMatches_eq_contains (key : ResourceKey) (scope : ListScope) :
    gvkNsMatches key scope = scope.contains key := by
  unfold gvkNsMatches ListScope.contains
  obtain ⟨g, v, k, ns⟩ := scope
  by_cases hg : key.group = g <;> by_cases hv : key.version = v <;> by_cases hk : key.kind = k <;>
    cases ns <;> cases key.ns <;> simp [hg, hv, hk, eq_comm]

/-- A LIST item has its kind and version from the envelope. -/
def stripTypeMeta : Json → Json
  | .obj m => .obj (Assoc.drop "apiVersion" (Assoc.drop "kind" m))
  | v => v

end Engenho
