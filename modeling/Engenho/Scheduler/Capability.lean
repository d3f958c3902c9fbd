import Engenho.Scheduler.Predicates

/-!
# Capabilities

What a node says it can run, in labels, and what a pod needs, read from its images and annotations.
The needs are an ordered set, and the first unmet one is what a rejection names.
-/

namespace Engenho

def gpuLabel : String := "capability.engenho.pleme.io/gpu"

def houseLabel : String := "capability.engenho.pleme.io/house"

def gpuRequirement : String := "requirements.engenho.pleme.io/gpu"

def houseRequirement : String := "requirements.engenho.pleme.io/house"

def nixImageMark : String := "nix:"

/-- How a node runs containers. -/
inductive Runtime where
  | native
  | oci
deriving DecidableEq, Repr

namespace Runtime

def all : List Runtime := [.native, .oci]

def label : Runtime → String
  | .native => "capability.engenho.pleme.io/runtime.native"
  | .oci => "capability.engenho.pleme.io/runtime.oci"

def name : Runtime → String
  | .native => "runtime.native"
  | .oci => "runtime.oci"

end Runtime

/-- What a node can do. -/
structure NodeCapabilities where
  runtimes : Option (List Runtime)
  gpus : Nat
  house : Bool
deriving DecidableEq, Repr

/-- Reads the labels of a node. -/
def NodeCapabilities.observe (node : Json) : NodeCapabilities :=
  let labels := (metaField "labels" node).bind Json.asObject
  let label (key : String) : Option String := (labels.bind fun l => l.lookup key).bind Json.asStr
  let declared := Runtime.all.any fun r => (label r.label).isSome
  { runtimes := if declared then some (Runtime.all.filter fun r => label r.label =
    some "true") else none
    gpus := ((label gpuLabel).bind fun v => Machine.readUnsigned 32 v.toList).getD 0
    house := label houseLabel = some "true" }

/-- What a pod needs of a node. -/
inductive Requirement where
  | runtime (r : Runtime)
  /-- A positive number of them. -/
  | gpus (n : Nat)
  | house
  | unreadable (key : String)
deriving DecidableEq, Repr

namespace Requirement

def text : Requirement → String
  | .runtime r => r.name
  | .gpus _ => "gpu"
  | .house => "house"
  | .unreadable key => key

/-- The tuple that the derived order compares: the variant, then what it holds. -/
def ord : Requirement → Nat ×ₗ Nat ×ₗ String
  | .runtime .native => toLex (0, toLex (0, ""))
  | .runtime .oci => toLex (0, toLex (1, ""))
  | .gpus n => toLex (1, toLex (n, ""))
  | .house => toLex (2, toLex (0, ""))
  | .unreadable key => toLex (3, toLex (0, key))

theorem ord_injective : Function.Injective ord := by
  intro a b h
  rcases a with (_ | _) | n | _ | key <;> rcases b with (_ | _) | n' | _ | key' <;> simp_all [ord]

instance : LinearOrder Requirement := LinearOrder.lift' ord ord_injective
end Requirement

/-- The needs of a workload, in order. -/
structure WorkloadRequirements where
  needs : OrdMap Requirement Unit

namespace WorkloadRequirements

/-- The runtime each image of a container list needs. -/
def ofImages (pod : Json) (list : String) : List Requirement :=
  let containers := ((specField list pod).bind Json.asArray).getD []
  let images := (containers.filterMap fun c => (c.get "image").bind Json.asStr).filter fun i =>
    !i.isEmpty
  images.map fun image =>
    .runtime (if nixImageMark.toList.isPrefixOf image.toList then .native else .oci)

/-- What a pod needs, from image and annotations. -/
def infer (pod : Json) : WorkloadRequirements :=
  let annotations := (metaField "annotations" pod).bind Json.asObject
  let annotation (key : String) : Option String :=
    (annotations.bind fun a => a.lookup key).bind Json.asStr
  let gpus := match annotation gpuRequirement with
    | none => []
    | some raw =>
      match Machine.readUnsigned 32 raw.toList with
      | some 0 => []
      | some n => [.gpus n]
      | none => [.unreadable gpuRequirement]
  let house := match annotation houseRequirement with
    | none | some "false" => []
    | some "true" => [.house]
    | some _ => [.unreadable houseRequirement]
  let needs := ofImages pod "initContainers" ++ ofImages pod "containers" ++ gpus ++ house
  ⟨.ofList (needs.map fun r => (r, ()))⟩

/-- The node can do it. -/
def met (node : NodeCapabilities) : Requirement → Bool
  | .runtime r => node.runtimes.all fun rs => r ∈ rs
  | .gpus n => n ≤ node.gpus
  | .house => node.house
  | .unreadable _ => false

/-- The first need the node does not meet. -/
def unmet (w : WorkloadRequirements) (node : NodeCapabilities) : Option Requirement :=
  (w.needs.entries.map Prod.fst).find? fun need => !met node need

end WorkloadRequirements
end Engenho
