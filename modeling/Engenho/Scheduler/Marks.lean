import Engenho.Scheduler.Overcommit

/-!
# Marks of pods that no node admits

The mark is a merge patch with the one condition, and a merge patch replaces a list whole: a pod
that had conditions of other types loses them (`mark_drops_ready`). A pod whose conditions are all
of the marked type loses nothing, and only such a pod (`mark_keeps_iff`).
-/

namespace Engenho.Scheduler

/-- The command of a mark. A pod that was read with the condition is left alone. -/
def markUnschedulable (key : ResourceKey) (read : Json) (d : Diagnosis) : Option PlannedWrite :=
  if alreadyMarked read (unschedulableCondition d) then none
  else some ⟨key, read, .markUnschedulable (unschedulableCondition d)⟩

def conditions (pod : Json) : List Json := (conditionsOf pod).getD []

def isPodScheduled (condition : Json) : Bool := condition.get "type" = some (.str "PodScheduled")

variable {env : Env} {c : ResourceCatalog} {key : ResourceKey} {read pod pod' : Json}
  {d : Diagnosis} {slot : LogSlot} {w : PlannedWrite}

section
variable (hmark : markUnschedulable key read d = some w) (hlive : c.get key = some pod)
  (hafter : (commit env c (w, slot)).get key = some pod') (hwrote : pod' ≠ pod)
include hmark hlive hafter hwrote

/-- The status of the pod after the mark, merged from the patch. -/
theorem status_marked : ∃ status, pod'.get "status" = some (mergeRfc7396 status
    (.obj [("conditions", .arr [unschedulableCondition d]), ("phase", .str "Pending")])) := by
  unfold markUnschedulable at hmark
  split at hmark
  · cases hmark
  cases hmark
  have h := mergePatch_cases env c key
    (PodWrite.markUnschedulable (unschedulableCondition d)).patch none
    slot.semantics slot.term slot.index
  unfold commit PlannedWrite.command ResourceCatalog.get at hafter
  generalize (c.applyUnder ..).1.resources = res at h hafter
  cases h with
  | same => exact absurd (Option.some.inj (hafter.symm.trans hlive)) hwrote
  | stored g =>
    rw [OrdMap.get_insert, if_pos rfl] at hafter
    cases hafter
    rw [get_stampRevision _ _ _ (by decide)]
    exact ⟨_, get_mergeRfc7396_single_self _ rfl _⟩
  | released =>
    rw [OrdMap.get_erase, if_pos rfl] at hafter
    cases hafter

theorem fields_marked : (pod'.get "status").bind (Json.get "phase") = some (.str "Pending") ∧
    conditionsOf pod' = some [unschedulableCondition d] := by
  obtain ⟨status, h⟩ := status_marked hmark hlive hafter hwrote
  have hsorted (condition : Json) : Assoc.Sorted [("conditions", condition),
      ("phase", .str "Pending")] :=
    List.pairwise_pair.mpr (show "conditions" < "phase" by decide)
  rw [conditionsOf, h, Option.bind_some, Option.bind_some, get_mergeRfc7396 (hsorted _),
    get_mergeRfc7396 (hsorted _)]
  exact ⟨rfl, rfl⟩

end

/-- A mark that was written keeps the other conditions of the pod just when it had none. The pod has
the condition once, and the same mark writes nothing to it again. -/
theorem mark_keeps_iff (hmark : markUnschedulable key read d = some w)
    (hlive : c.get key = some pod)
    (hafter : (commit env c (w, slot)).get key = some pod') (hwrote : pod' ≠ pod) :
    ((∀ x ∈ conditions pod, isPodScheduled x = false → x ∈ conditions pod') ↔
        ∀ x ∈ conditions pod, isPodScheduled x = true) ∧
      (conditions pod').countP isPodScheduled = 1 ∧ markUnschedulable key pod' d = none := by
  obtain ⟨hphase, hconds⟩ := fields_marked hmark hlive hafter hwrote
  have hlist : conditions pod' = [unschedulableCondition d] := by rw [conditions, hconds]; rfl
  have htype : isPodScheduled (unschedulableCondition d) = true := rfl
  refine ⟨⟨fun h x hx => ?_, fun h x hx hno => ?_⟩, ?_, ?_⟩
  · by_contra hno
    have hmem := h x hx (by simpa using hno)
    rw [hlist, List.mem_singleton] at hmem
    exact hno (hmem ▸ htype)
  · rw [h x hx] at hno
    cases hno
  · rw [hlist, List.countP_singleton, if_pos htype]
  · have hmarked : alreadyMarked pod' (unschedulableCondition d) = true := by
      simp [alreadyMarked, hphase, hconds, Json.asStr]
    exact if_pos hmarked

/-! ## A pod with another condition -/

/-- The catalog with one pod, that has a condition of the type. -/
def oneCondition (type : String) : ResourceCatalog :=
  (Logged.after atomicEnv 8 [.command (.put podKey (.obj [("status", .obj [("conditions",
    .arr [.obj [("type", .str type)]])])]) none) .v1 1 1]).cat

def noNodeReady : Diagnosis := ⟨.ofList [(.notReady, 1)]⟩

/-- The mark of the pod of such a catalog. -/
def mark : PlannedWrite × LogSlot :=
  (⟨podKey, .null, .markUnschedulable (unschedulableCondition noNodeReady)⟩, ⟨.v1, 1, 2⟩)

theorem mark_drops_ready : markUnschedulable podKey .null noNodeReady = some mark.1 ∧
    ((oneCondition "Ready").get podKey).map conditions = some [.obj [("type", .str "Ready")]] ∧
    ((commit atomicEnv (oneCondition "Ready") mark).get podKey).map conditions =
      some [unschedulableCondition noNodeReady] := by
  refine ⟨rfl, ?_⟩
  decide +kernel

theorem mark_keeps_iff_marked : ∃ pod pod', (oneCondition "PodScheduled").get podKey = some pod ∧
    (commit atomicEnv (oneCondition "PodScheduled") mark).get podKey = some pod' ∧
    ∀ x ∈ conditions pod, isPodScheduled x = false → x ∈ conditions pod' := by
  have hmark : markUnschedulable podKey .null noNodeReady = some mark.1 := rfl
  have hafter : (commit atomicEnv (oneCondition "PodScheduled") mark).get podKey = some _ := rfl
  exact ⟨_, _, rfl, hafter, (mark_keeps_iff hmark rfl hafter (by decide +kernel)).1.mpr
    (by decide +kernel)⟩

end Engenho.Scheduler
