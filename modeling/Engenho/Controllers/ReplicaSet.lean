import Engenho.Controllers.Indices
import Engenho.Controllers.Rollout

/-!
# The ReplicaSet controller

A ReplicaSet keeps as many live pods as it asks for: it creates the missing ones at the lowest
indices no pod of it uses, and evicts those of the highest names.
-/

namespace Engenho
open List
namespace Controllers
namespace ReplicaSet

variable (live : Items) (toDelete : Nat) (scope : Option String) (now : String) (rs : Json)
  (owned : Items)

/-- The pod of an index. -/
def buildPodFromTemplate (index : Nat) (owner : OwnerReference) :
    Except ShapeFault (Option (String × Json)) :=
  match name rs with
  | none => .ok none
  | some rsName =>
    let podName := indexed rsName index
    (podFromTemplate rs podName ((nsOf rs).getD "default") owner).map fun pod =>
      pod.map (podName, ·)

/-- The live pods of the highest names. -/
def evicted : Items :=
  ((live.insertionSort fun a b => a.1.name ≤ b.1.name).reverse).take toDelete

/-- The writes of a pass. -/
def reconcileOne : Except ControllerError (List ResourceCommand) := do
  let desired ← readCount replicas rs
  let live := liveChildren owned
  if live.length = desired then return []
  else
    match ownerRefFor rs "apps/v1" "ReplicaSet" with
    | none => return []
    | some owner =>
      if live.length < desired then
        let free := FreeIndices.take (usedIndices (name rs) owned) (desired - live.length) 0
        (createAll (childNamespace rs scope) (buildPodFromTemplate rs · owner) free).mapError .shape
      else return (evicted live (live.length - desired)).map fun e => deleteAt now e.1

def computeStatus (observedGeneration : Int) : Json :=
  let live := liveChildren owned
  let ready := live.countP fun e => podIsReady e.2
  .obj [("availableReplicas", countJson ready), ("fullyLabeledReplicas", countJson live.length),
    ("observedGeneration", .num (.int observedGeneration)), ("readyReplicas", countJson ready),
    ("replicas", countJson live.length)]

def controller : Workload where
  parentScope := ⟨"apps", "v1", "ReplicaSet", scope⟩
  childKinds := [podKind]
  reconcileOne _ := reconcileOne scope now
  computeStatus _ owned g := some (computeStatus owned g)

/-! ## What is written and read -/

theorem evicted_subset : ∀ e ∈ evicted live toDelete, e ∈ live := by
  intro e he
  have hmem := mem_reverse.mp (mem_of_mem_take he)
  exact (mem_insertionSort _).mp hmem

theorem reconcileOne_onChildren {scope : Option String} {now : String} {rs : Json}
    {owned : Items} {cmds : List ResourceCommand}
    (h : reconcileOne scope now rs owned = .ok cmds) : ∀ cmd ∈ cmds, OnChildren owned cmd := by
  obtain ⟨desired, -, h⟩ := Except.of_bind_ok h
  simp only at h
  split at h
  · cases h
    exact forall_mem_nil _
  split at h
  · cases h
    exact forall_mem_nil _
  · split at h
    · exact createAll_onChildren (Except.of_mapError_ok h) owned
    · cases h
      intro cmd hcmd
      obtain ⟨e, he, rfl⟩ := mem_map.mp hcmd
      exact mem_map.mpr ⟨e, mem_of_mem_filter (evicted_subset _ _ e he), rfl⟩

theorem buildPodFromTemplate_congr {v w : Json} (h : SameParent v w) (index : Nat)
    (owner : OwnerReference) :
    buildPodFromTemplate v index owner = buildPodFromTemplate w index owner := by
  simp only [buildPodFromTemplate, h.name_eq, h.nsOf_eq, h.podFromTemplate_eq]

theorem reconcileOne_congr {v w : Json} (h : SameParent v w) (hv : v.isObject = true)
    (scope : Option String) (now : String) (owned : Items) :
    reconcileOne scope now v owned = reconcileOne scope now w owned := by
  simp only [reconcileOne, replicas, h.readCount_eq hv, h.ownerRefFor_eq, h.name_eq,
    h.childNamespace_eq, buildPodFromTemplate_congr h]

end ReplicaSet
end Controllers
end Engenho
