import Engenho.Controllers.OwnedChildren

/-!
# Templates and updates

A template is compared, and named, in a normal form without what means nothing
(`NormalizedTemplate`). The pods of DaemonSets and StatefulSets carry the name of the template they
were built from, and the update strategy says how many pods of an older one may be replaced at once.
-/

namespace Engenho
namespace Controllers

/-! ## Normal forms -/

def podTemplateHashLabel : String := "pod-template-hash"

/-- The fields that hold maps, whose entries are kept as they are. -/
def mapFieldNames : List String :=
  ["labels", "annotations", "nodeSelector", "overhead", "limits", "requests", "matchLabels",
    "volumeAttributes", "options"]

/-- A field that says what its absence says. -/
def isAbsentField (field : String) (v : Json) : Bool :=
  match v with
  | .null => true
  | .arr items => items.isEmpty
  | .obj entries => entries.isEmpty && (mapFieldNames.contains field || field = "metadata")
  | _ => false

mutual

/-- A value without what counts as absent. -/
def normalizeValue (field : Option String) : Json → Json
  | .obj fields =>
    if field.any mapFieldNames.contains then .obj fields else .obj (normalizeFields fields)
  | .arr items => .arr (normalizeElements items)
  | v => v

def normalizeFields : List (String × Json) → List (String × Json)
  | [] => []
  | (k, v) :: rest =>
    if isAbsentField k (normalizeValue (some k) v) then normalizeFields rest
    else (k, normalizeValue (some k) v) :: normalizeFields rest

def normalizeElements : List Json → List Json
  | [] => []
  | v :: rest => normalizeValue none v :: normalizeElements rest

end

/-- The template, as it is compared. -/
def NormalizedTemplate.of (template : Json) : Json :=
  normalizeValue none
    (mapFields (modifyObject "metadata" (modifyObject "labels" (Assoc.drop podTemplateHashLabel)))
    template)

def NormalizedTemplate.ofSpecTemplate (owner : Json) : Option Json :=
  (templateOf owner).map NormalizedTemplate.of

/-! ## Revisions -/

def controllerRevisionHashLabel : String := "controller-revision-hash"

def podTemplateGenerationLabel : String := "pod-template-generation"

namespace TemplateRevision

/-- The name of the parent's template, by the hash of its normal form. -/
def of (namingHash : Json → String) (parent : Json) : Option String :=
  (NormalizedTemplate.ofSpecTemplate parent).map namingHash

/-- The revision a pod is of. -/
def ofPod (pod : Json) : Option String :=
  ((metaField "labels" pod).bind (Json.get controllerRevisionHashLabel)).bind Json.asStr

/-- The pod is of the revision. -/
def isCurrent (rev : String) (pod : Json) : Bool := ofPod pod = some rev

/-- Writes the revision to a pod. -/
def stamp (rev : String) (generation : Option Int) (pod : Json) : Except ShapeFault Json :=
  editObject [] (fun labels =>
    let labels := Assoc.put controllerRevisionHashLabel (.str rev) labels
    .ok (match generation with
      | some g => Assoc.put podTemplateGenerationLabel (.str (toString g)) labels
      | none => labels)) ["metadata", "labels"] pod

end TemplateRevision

/-- A pod in its place, stamped with the revision of its template. -/
def stampRevisionOf (rev : Option String) (generation : Option Int) (pod : Json) :
    Except ShapeFault Json :=
  match rev with
  | none => .ok pod
  | some rev => (TemplateRevision.stamp rev generation pod).mapError (ShapeFault.under templatePath)

/-- Stamps a pod that was built. -/
def stampBuilt (rev : Option String) (generation : Option Int) :
    Option (String × Json) → Except ShapeFault (Option (String × Json))
  | none => .ok none
  | some (podName, pod) => (stampRevisionOf rev generation pod).map fun pod => some (podName, pod)

/-! ## Strategies -/

/-- A number, or a percentage. -/
inductive MaxUnavailable where
  | count (n : Nat)
  | percent (p : Nat)
deriving DecidableEq, Repr

namespace MaxUnavailable

/-- The number of pods, at least one. A part of a pod counts whole. -/
def resolve (m : MaxUnavailable) (desired : Nat) : Nat :=
  max 1 (match m with
    | .count n => n
    | .percent p => (desired * p + 99) / 100)

/-- An unsigned word of 32 bits. -/
def asU32 (v : Json) : Option Nat := (v.asInt.filter fun i => 0 ≤ i ∧ i < 2 ^ 32).map Int.toNat

/-- What stands before a percent sign at the end. -/
def beforePercent (s : String) : Option (List Char) :=
  match s.toList.reverse with
  | '%' :: rest => some rest.reverse
  | _ => none

/-- Reads a number or a percentage. -/
def parse (env : Env) (v : Json) : Except String MaxUnavailable :=
  match v with
  | .num n =>
    match asU32 v with
    | some n => .ok (.count n)
    | none => .error ("maxUnavailable " ++ env.render (.num n) ++ " is not a non-negative integer")
  | .str s =>
    match ((beforePercent s).bind (Machine.readUnsigned 32)).filter fun p => p ≤ 100 with
    | some p => .ok (.percent p)
    | none => .error ("maxUnavailable " ++ env.debugStr s ++ " is not an integer or a percentage")
  | other => .error ("maxUnavailable is " ++ env.render other ++ ", not an integer or a percentage")

end MaxUnavailable

/-- How a template is rolled out. -/
inductive UpdateStrategy where
  | rollingUpdate (maxUnavailable : MaxUnavailable) (partition : Nat)
  | onDelete
deriving DecidableEq, Repr

/-- A value that is there and not null. -/
def present (v : Option Json) : Option Json := v.filter fun v => !v.isNull

namespace UpdateStrategy

/-- Reads the strategy of a parent. -/
def of (env : Env) (parent : Json) : Except ControllerError UpdateStrategy :=
  match present (specField "updateStrategy" parent) with
  | none => .ok (.rollingUpdate (.count 1) 0)
  | some s =>
    match ((s.get "type").bind Json.asStr).getD "RollingUpdate" with
    | "OnDelete" => .ok .onDelete
    | "RollingUpdate" => do
      let ru := present (s.get "rollingUpdate")
      let maxUnavailable ← match present (ru.bind (Json.get "maxUnavailable")) with
        | none => .ok (.count 1)
        | some v => (MaxUnavailable.parse env v).mapError .invalidResource
      let partition ← match present (ru.bind (Json.get "partition")) with
        | none => .ok 0
        | some v =>
          match MaxUnavailable.asU32 v with
          | some p => .ok p
          | none =>
            .error (.invalidResource ("partition " ++ env.render v ++
              " is not a non-negative integer"))
      return .rollingUpdate maxUnavailable partition
    | other => .error (.invalidResource ("updateStrategy.type " ++ env.debugStr other ++
        " is neither RollingUpdate nor OnDelete"))

end UpdateStrategy

/-! ## Pods -/

/-- The pod has failed. -/
def podIsFailed (pod : Json) : Bool := (statusField "phase" pod).bind Json.asStr = some "Failed"

/-! ## What is read of the parent -/

namespace SameParent
variable {v w : Json}

theorem ofSpecTemplate_eq (h : SameParent v w) :
    NormalizedTemplate.ofSpecTemplate v = NormalizedTemplate.ofSpecTemplate w := by
  rw [NormalizedTemplate.ofSpecTemplate, h.templateOf_eq, NormalizedTemplate.ofSpecTemplate]

theorem revision_eq (h : SameParent v w) (namingHash : Json → String) :
    TemplateRevision.of namingHash v = TemplateRevision.of namingHash w := by
  rw [TemplateRevision.of, h.ofSpecTemplate_eq, TemplateRevision.of]

theorem strategy_eq (h : SameParent v w) (env : Env) :
    UpdateStrategy.of env v = UpdateStrategy.of env w := by
  rw [UpdateStrategy.of, h.specField_eq, UpdateStrategy.of]

end SameParent
end Controllers
end Engenho
