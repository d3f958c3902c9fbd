import Engenho.Lib.Tally
import Engenho.Controllers.Rollout

/-!
# The DaemonSet controller

One pod on each schedulable node, pinned to it and named after it. A pass creates the pods of the
nodes that have none, deletes those whose node is gone or cordoned, replaces failed ones as the
backoff allows, and rolls an update within the budget of unavailable nodes.
-/

namespace Engenho
open List Except
namespace Controllers
namespace DaemonSet

/-! ## Nodes and pods -/

/-- The node is not cordoned. -/
def nodeIsSchedulable (node : Json) : Bool :=
  !((specField "unschedulable" node).bind Json.asBool).getD false

/-- The names of the schedulable nodes, in order. -/
def schedulableNodes (c : ResourceCatalog) : List String :=
  (((c.listed nodeScope).filter fun e => nodeIsSchedulable e.2).filterMap
    fun e => name e.2).dedup.insertionSort (· ≤ ·)

/-- The node a pod is bound to. -/
def podNode (pod : Json) : Option String := nonEmpty ((specField "nodeName" pod).bind Json.asStr)

/-- The pod of a node. -/
def buildPodForNode (ds : Json) (nodeName : String) (owner : OwnerReference) :
    Except ShapeFault (Option (String × Json)) :=
  match name ds with
  | none => .ok none
  | some dsName => do
    let podName := dsName ++ "-" ++ nodeName
    match ← podFromTemplate ds podName ((nsOf ds).getD "default") owner with
    | none => return none
    | some pod =>
      let pod ← editTemplate ["spec"] (Assoc.put "nodeName" (.str nodeName)) pod
      return some (podName, pod)

/-! ## Failed pods -/

/-- How often, and when last, a failed pod was deleted; by the uid of the set and the node. -/
abbrev FailedPodBackoff := List ((String × String) × Nat × Nat)

namespace FailedPodBackoff

/-- A second that doubles with every deletion, up to a quarter of an hour. -/
def wait (n : Nat) : Nat := min (1000 * 2 ^ min (n - 1) 20) (15 * 60 * 1000)

variable (entries : FailedPodBackoff) (key : String × String)

/-- The wait of the key is over. -/
def admits (nowMs : Nat) : Bool :=
  (entries.lookup key).all fun e => wait e.1 ≤ nowMs - e.2

/-- One more failure of the key. -/
def record (nowMs : Nat) : FailedPodBackoff :=
  (key, (((entries.lookup key).map Prod.fst).getD 0 + 1, nowMs)) :: entries.filter fun e =>
    e.1 ≠ key

def clear : FailedPodBackoff :=
  entries.filter fun e => e.1 ≠ key

/-- A node whose pod is ready starts anew. -/
def forgiven (ready : Bool) : FailedPodBackoff :=
  if ready then entries.clear key else entries

end FailedPodBackoff

/-- The failed pods to delete, over the live pods. What the backoff is afterwards is dropped here: a
pass starts with any. -/
def failedDeletions (dsUid : String) (nowMs : Nat) (deleting : List ResourceKey) :
    FailedPodBackoff → Items → List ResourceKey
  | _, [] => []
  | entries, (key, pod) :: rest =>
    let slot := (dsUid, (podNode pod).getD "")
    let entries := entries.forgiven slot (podIsReady pod)
    if deleting.contains key || !podIsFailed pod then failedDeletions dsUid nowMs
      deleting entries rest
    else if entries.admits slot nowMs then
      key :: failedDeletions dsUid nowMs deleting (entries.record slot nowMs) rest
    else failedDeletions dsUid nowMs deleting entries rest

/-! ## Updates -/

/-- The nodes without a serving pod, the pods to replace at once, and those to replace if there is
room. -/
structure Rolling where
  unavailable : Nat
  replaceNow : List ResourceKey
  candidates : List ResourceKey

/-- The pods that run on a node: not going or about to be deleted, and not failed. -/
def liveOn (owned : Items) (deleting : List ResourceKey) (node : String) : Items :=
  owned.filter fun e => podNode e.2 = some node && !isTerminating e.2 && !deleting.contains e.1 &&
    !podIsFailed e.2

/-- One node of the walk of `rolling_deletions`. -/
def Rolling.visit (rev : String) (owned : Items) (deleting : List ResourceKey) (r : Rolling)
    (node : String) : Rolling :=
  match liveOn owned deleting node with
  | [(key, pod)] =>
    match TemplateRevision.isCurrent rev pod, podIsReady pod with
    | true, true => r
    | true, false => { r with unavailable := r.unavailable + 1 }
    | false, false => { r with replaceNow := r.replaceNow ++ [key] }
    | false, true => { r with candidates := r.candidates ++ [key] }
  | _ => { r with unavailable := r.unavailable + 1 }

/-- The pods that an update replaces. -/
def rollingDeletions (rev : String) (budget : Nat) (schedulable : List String)
    (owned : Items) (deleting : List ResourceKey) : List ResourceKey :=
  let r := schedulable.foldl (Rolling.visit rev owned deleting) ⟨0, [], []⟩
  r.replaceNow ++ r.candidates.take (budget - (r.unavailable + r.replaceNow.length))

/-! ## The pass -/

section
variable (env : Env) (namingHash : Json → String) (scope : Option String) (now : String)
  (backoff : FailedPodBackoff) (nowMs : Nat)

/-- The writes of a pass. -/
def reconcileOne (c : ResourceCatalog) (ds : Json) (owned : Items) :
    Except ControllerError (List ResourceCommand) :=
  match name ds, ownerRefFor ds "apps/v1" "DaemonSet" with
  | some dsName, some owner => do
    let strategy ← UpdateStrategy.of env ds
    let revision := TemplateRevision.of namingHash ds
    let schedulable := schedulableNodes c
    let covered := owned.filterMap fun e => podNode e.2
    let bare := schedulable.filter fun node => !covered.contains node
    let generation := (readInt generation ds).toOption
    let creates ← (createAll (childNamespace ds scope)
      (fun node => buildPodForNode ds node owner >>= stampBuilt revision generation)
      bare).mapError .shape
    let stray := (owned.filter fun e => !(podNode e.2).any schedulable.contains).map Prod.fst
    let failed := failedDeletions ((uid ds).getD dsName) nowMs stray backoff (liveChildren owned)
    let rolled := match revision, strategy with
      | some rev, .rollingUpdate maxUnavailable _ =>
        rollingDeletions rev (maxUnavailable.resolve schedulable.length) schedulable owned
          (stray ++ failed)
      | _, _ => []
    return creates ++ (stray ++ failed ++ rolled).map (deleteAt now)
  | _, _ => .ok []

def computeStatus (ds : Json) (owned : Items) (observedGeneration : Int) : Json :=
  let ready := owned.countP fun e => podIsReady e.2
  let updated := match TemplateRevision.of namingHash ds with
    | none => owned.length
    | some rev => owned.countP fun e => TemplateRevision.isCurrent rev e.2
  .obj [("currentNumberScheduled", countJson owned.length),
    ("desiredNumberScheduled", countJson owned.length),
    ("numberAvailable", countJson ready), ("numberReady", countJson ready),
    ("numberUnavailable", countJson (owned.length - ready)),
    ("observedGeneration", .num (.int observedGeneration)),
      ("updatedNumberScheduled", countJson updated)]

def controller : Workload where
  parentScope := ⟨"apps", "v1", "DaemonSet", scope⟩
  childKinds := [podKind]
  reconcileOne := reconcileOne env namingHash scope now backoff nowMs
  computeStatus ds owned g := some (computeStatus namingHash ds owned g)

end

/-! ## What is written and read -/

theorem failedDeletions_subset (dsUid : String) (nowMs : Nat) (deleting : List ResourceKey)
    (live : Items) :
    ∀ entries, ∀ key ∈ failedDeletions dsUid nowMs deleting entries live,
    key ∈ live.map Prod.fst := by
  induction live with
  | nil => exact fun _ => forall_mem_nil _
  | cons e rest ih =>
    intro entries key hkey
    have hrest : ∀ entries, key ∈ failedDeletions dsUid nowMs deleting entries rest →
        key ∈ (e :: rest).map Prod.fst := fun entries h => mem_cons_of_mem _ (ih entries key h)
    unfold failedDeletions at hkey
    simp only at hkey
    split at hkey
    · exact hrest _ hkey
    split at hkey
    · rcases mem_cons.mp hkey with rfl | h
      · exact .head _
      · exact hrest _ h
    · exact hrest _ hkey

variable {owned : Items}
section
variable (owned) (deleting : List ResourceKey) (rev : String)

/-- The nodes without an available pod. -/
def unavailableNodes (schedulable : List String) : Nat :=
  schedulable.countP fun node => (liveOn owned deleting node).all fun e => !podIsReady e.2

/-- The pod of a node that runs exactly one. -/
def sole (node : String) : Option (ResourceKey × Json) :=
  match liveOn owned deleting node with
  | [e] => some e
  | _ => none

/-- The key of the one pod of a node, if it is out of date and is ready or not. -/
def stale (ready : Bool) (node : String) : Option ResourceKey :=
  ((sole owned deleting node).filter fun e =>
    !TemplateRevision.isCurrent rev e.2 && podIsReady e.2 == ready).map Prod.fst

/-- The node has a current pod that is not ready, or does not run exactly one. -/
def isDown (node : String) : Bool :=
  (sole owned deleting node).all fun e => TemplateRevision.isCurrent rev e.2 && !podIsReady e.2

end

section
variable {deleting : List ResourceKey} {rev : String} {schedulable : List String} {node : String}

theorem foldl_visit (nodes : List String) (r : Rolling) :
    nodes.foldl (Rolling.visit rev owned deleting) r =
      ⟨r.unavailable + nodes.countP (isDown owned deleting rev),
        r.replaceNow ++ nodes.filterMap (stale owned deleting rev false),
        r.candidates ++ nodes.filterMap (stale owned deleting rev true)⟩ := by
  induction nodes generalizing r with
  | nil => simp
  | cons node nodes ih =>
    rw [foldl_cons, ih, countP_cons, filterMap_cons, filterMap_cons]
    unfold Rolling.visit isDown stale sole
    rcases liveOn owned deleting node with _ | ⟨⟨key, pod⟩, _ | ⟨e, live⟩⟩
    · simp [Nat.add_assoc, Nat.add_comm]
    · cases hcur : TemplateRevision.isCurrent rev pod <;> cases hready : podIsReady pod <;>
        simp [Option.filter, hcur, hready, Nat.add_assoc, Nat.add_comm]
    · simp [Nat.add_assoc, Nat.add_comm]

theorem mem_liveOn_of_sole {e : ResourceKey × Json} (h : sole owned deleting node = some e) :
    e ∈ liveOn owned deleting node := by
  unfold sole at h
  split at h
  · rename_i hlive
    cases h
    rw [hlive]
    exact .head _
  · cases h

theorem mem_stale {ready : Bool} {key : ResourceKey}
    (h : stale owned deleting rev ready node = some key) :
    ∃ pod, (key, pod) ∈ owned ∧ TemplateRevision.isCurrent rev pod = false ∧
    podIsReady pod = ready := by
  obtain ⟨e, hsole, rfl⟩ := Option.map_eq_some_iff.mp h
  obtain ⟨hsole, hp⟩ := Option.filter_eq_some_iff.mp hsole
  simp only [Bool.and_eq_true, Bool.not_eq_true', beq_iff_eq] at hp
  exact ⟨e.2, mem_of_mem_filter (mem_liveOn_of_sole hsole), hp⟩

theorem rollingDeletions_eq (budget : Nat) :
    rollingDeletions rev budget schedulable owned deleting =
    schedulable.filterMap (stale owned deleting rev false) ++
      (schedulable.filterMap (stale owned deleting rev true)).take (budget -
        (schedulable.countP (isDown owned deleting rev) +
          (schedulable.filterMap (stale owned deleting rev false)).length)) := by
  simp [rollingDeletions, foldl_visit]

theorem mem_rollingDeletions {budget : Nat} {k : ResourceKey}
    (h : k ∈ rollingDeletions rev budget schedulable owned deleting) :
    ∃ pod, (k, pod) ∈ owned ∧ TemplateRevision.isCurrent rev pod = false := by
  obtain ⟨ready, hk⟩ : ∃ ready, k ∈ schedulable.filterMap (stale owned deleting rev ready) := by
    rw [rollingDeletions_eq, mem_append] at h
    exact h.elim (fun h => ⟨false, h⟩) fun h => ⟨true, mem_of_mem_take h⟩
  obtain ⟨node, -, hk⟩ := mem_filterMap.mp hk
  obtain ⟨pod, hpod, hcur, -⟩ := mem_stale hk
  exact ⟨pod, hpod, hcur⟩

end

theorem reconcileOne_onChildren {env : Env} {namingHash : Json → String} {scope : Option String}
    {now : String} {backoff : FailedPodBackoff} {nowMs : Nat} {c : ResourceCatalog} {ds : Json}
    {cmds : List ResourceCommand}
    (h : reconcileOne env namingHash scope now backoff nowMs c ds owned = .ok cmds) :
    ∀ cmd ∈ cmds, OnChildren owned cmd := by
  unfold reconcileOne at h
  split at h
  · obtain ⟨strategy, -, h⟩ := of_bind_ok h
    obtain ⟨creates, hcreates, h⟩ := of_bind_ok h
    cases h
    refine forall_mem_append.mpr ⟨?_, ?_⟩
    · exact createAll_onChildren (of_mapError_ok hcreates) owned
    intro cmd hcmd
    obtain ⟨key, hkey, rfl⟩ := mem_map.mp hcmd
    rcases mem_append.mp hkey with hkey | hkey
    · rcases mem_append.mp hkey with hkey | hkey
      · obtain ⟨e, he, rfl⟩ := mem_map.mp hkey
        exact mem_map.mpr ⟨e, mem_of_mem_filter he, rfl⟩
      · obtain ⟨e, he, rfl⟩ := mem_map.mp (failedDeletions_subset _ _ _ _ _ key hkey)
        exact mem_map.mpr ⟨e, mem_of_mem_filter he, rfl⟩
    · split at hkey
      · obtain ⟨pod, hpod, -⟩ := mem_rollingDeletions hkey
        exact mem_map.mpr ⟨_, hpod, rfl⟩
      · cases hkey
  · cases h
    exact forall_mem_nil _

theorem buildPodForNode_congr {v w : Json} (h : SameParent v w) (node : String)
    (owner : OwnerReference) :
    buildPodForNode v node owner = buildPodForNode w node owner := by
  simp only [buildPodForNode, h.name_eq, h.nsOf_eq, h.podFromTemplate_eq]

theorem reconcileOne_congr {v w : Json} (h : SameParent v w)
    (hg : readInt generation v = readInt generation w)
    (env : Env) (namingHash : Json → String) (scope : Option String) (now : String)
    (backoff : FailedPodBackoff) (nowMs : Nat) (c : ResourceCatalog) (owned : Items) :
    reconcileOne env namingHash scope now backoff nowMs c v owned =
      reconcileOne env namingHash scope now backoff nowMs c w owned := by
  simp only [reconcileOne, h.name_eq, h.ownerRefFor_eq, h.strategy_eq, h.revision_eq,
    h.childNamespace_eq, h.uid_eq, hg, buildPodForNode_congr h]

theorem computeStatus_congr {v w : Json} (h : SameParent v w) (namingHash : Json → String)
    (owned : Items)
    (g : Int) : computeStatus namingHash v owned g = computeStatus namingHash w owned g := by
  simp only [computeStatus, h.revision_eq]

/-! ## The budget -/

section
variable {deleting : List ResourceKey} {rev : String} {schedulable : List String} {node : String}

/-- The nodes counted by `p'` are counted by `p`, or have one of the keys. -/
theorem countP_le_keys (hnodes : schedulable.Nodup) {p p' : String → Bool}
    (f : ResourceKey → Option String) {keys : List ResourceKey}
    (h : ∀ n ∈ schedulable, p' n = true → p n = false → ∃ k ∈ keys, f k = some n) :
    schedulable.countP p' ≤ schedulable.countP p + keys.length := by
  have hle := Tally.countP_le id (g := id) p p' (keys.filterMap f)
    (by simpa using hnodes) fun n hn hp' => by
      cases hp : p n with
      | true => exact .inr ⟨n, hn, rfl, hp⟩
      | false => exact .inl (mem_filterMap.mpr (h n hn hp' hp))
  have hlen : (keys.filterMap f).length ≤ keys.length := length_filterMap_le ..
  omega

variable {e : ResourceKey × Json}

theorem node_of_live (h : e ∈ liveOn owned deleting node) : podNode e.2 = some node := by
  have := (mem_filter.mp h).2
  simp only [Bool.and_eq_true, decide_eq_true_eq] at this
  exact this.1.1.1

theorem mem_stale_of_sole (hnode : node ∈ schedulable)
    (hsole : sole owned deleting node = some e)
    (hcur : TemplateRevision.isCurrent rev e.2 = false) :
    e.1 ∈ schedulable.filterMap (stale owned deleting rev (podIsReady e.2)) :=
  mem_filterMap.mpr ⟨node, hnode, by simp [stale, hsole, Option.filter, hcur]⟩

section
variable (hkeys : (owned.map Prod.fst).Nodup) (hnodes : schedulable.Nodup)
include hkeys hnodes
variable (deleting rev) in
/-- A node loses its available pod to the deletion of a ready one. -/
theorem unavailableNodes_after (taken : List ResourceKey) :
    unavailableNodes owned
      (deleting ++ (schedulable.filterMap (stale owned deleting rev false) ++ taken))
        schedulable ≤ unavailableNodes owned deleting schedulable + taken.length := by
  refine countP_le_keys hnodes (fun k => (owned.lookup k).bind podNode) fun n _ hn hsome => ?_
  obtain ⟨e, he, hready⟩ := all_eq_false.mp hsome
  have hlook : ∀ {e}, e ∈ owned → owned.lookup e.1 = some e.2 := fun h =>
    (Assoc.lookup_eq_some_iff_mem hkeys).mpr h
  have howned : e ∈ owned := mem_of_mem_filter he
  have hgone : e.1 ∈ schedulable.filterMap (stale owned deleting rev false) ++ taken := by
    by_contra hkept
    refine hready (all_eq_true.mp hn e ?_)
    simp_all [liveOn]
  refine ⟨e.1, (mem_append.mp hgone).resolve_left fun hk =>
    ?_, by rw [hlook howned]; exact node_of_live he⟩
  obtain ⟨node, -, hk⟩ := mem_filterMap.mp hk
  obtain ⟨pod, hpod, -, hno⟩ := mem_stale hk
  have hsame : pod = e.2 := Option.some.inj ((hlook hpod).symm.trans (hlook howned))
  exact hready (by rw [← hsame, hno]; rfl)

variable (deleting rev) in
theorem unavailableNodes_before : unavailableNodes owned deleting schedulable ≤
    schedulable.countP (isDown owned deleting rev) +
      (schedulable.filterMap (stale owned deleting rev false)).length := by
  refine countP_le_keys hnodes (fun k => (owned.lookup k).bind podNode) fun n hmem hn hdown => ?_
  obtain ⟨e, hsole, hcur⟩ : ∃ e, sole owned deleting n = some e ∧
      (TemplateRevision.isCurrent rev e.2 && !podIsReady e.2) = false := by
    cases hsole : sole owned deleting n with
    | none => simp [isDown, hsole] at hdown
    | some e => exact ⟨e, rfl, by simpa only [isDown, hsole, Option.all_some] using hdown⟩
  have he := mem_liveOn_of_sole hsole
  have hready : podIsReady e.2 = false := by simpa using all_eq_true.mp hn e he
  have hstale : TemplateRevision.isCurrent rev e.2 = false := by simpa [hready] using hcur
  have hk := mem_stale_of_sole hmem hsole hstale
  rw [hready] at hk
  refine ⟨e.1, hk, ?_⟩
  rw [(Assoc.lookup_eq_some_iff_mem hkeys).mpr (mem_of_mem_filter he)]
  exact node_of_live he

/-- The deletions of an update take no more nodes out of service than the budget has room for. They
are of pods that are out of date, and there is one when a node has one such pod and no other, and
fewer nodes than the budget are without a ready pod that is the only one. -/
theorem rollingDeletions_within (budget : Nat) :
    let rolled := rollingDeletions rev budget schedulable owned deleting
    unavailableNodes owned (deleting ++ rolled) schedulable ≤
        max budget (unavailableNodes owned deleting schedulable) ∧
      (∀ k ∈ rolled, ∃ pod, (k, pod) ∈ owned ∧ TemplateRevision.isCurrent rev pod = false) ∧
      ((∃ node ∈ schedulable, ∃ e, sole owned deleting node = some e ∧
          TemplateRevision.isCurrent rev e.2 = false) →
        schedulable.countP (fun node => (sole owned deleting node).all fun e => !podIsReady e.2) <
          budget →
        rolled ≠ []) := by
  intro rolled
  have hrolled : rolled = _ := rollingDeletions_eq budget
  refine ⟨?_, fun k => mem_rollingDeletions, ?_⟩
  · have hafter := unavailableNodes_after deleting rev hkeys hnodes
      ((schedulable.filterMap (stale owned deleting rev true)).take (budget -
        (schedulable.countP (isDown owned deleting rev) +
          (schedulable.filterMap (stale owned deleting rev false)).length)))
    have hbefore := unavailableNodes_before deleting rev hkeys hnodes
    rw [length_take] at hafter
    rw [hrolled]
    omega
  · rintro ⟨node, hmem, e, hsole, hcur⟩ hbudget hnil
    rw [hrolled, append_eq_nil_iff, take_eq_nil_iff] at hnil
    have hdown : schedulable.countP (isDown owned deleting rev) ≤
        schedulable.countP fun node => (sole owned deleting node).all fun e => !podIsReady e.2 := by
      refine countP_mono_left fun n _ hn => ?_
      simp only [isDown, Option.all_eq_true, Bool.and_eq_true] at hn ⊢
      exact fun e he => (hn e he).2
    have hk := mem_stale_of_sole hmem hsole hcur
    cases hready : podIsReady e.2 with
    | false =>
      rw [hready, hnil.1] at hk
      cases hk
    | true =>
      rw [hready] at hk
      rcases hnil.2 with h | h
      · rw [hnil.1, length_nil] at h
        omega
      · rw [h] at hk
        cases hk

end

/-- A ready pod of the node `n1` that has no revision. -/
def unstampedPod : Json :=
  .obj [("spec", .obj [("nodeName", .str "n1")]),
    ("status", .obj [("conditions",
      .arr [.obj [("status", .str "True"), ("type", .str "Ready")]])])]

/-- The one pod of a node is rolled. -/
theorem rollingDeletions_within_one :
    rollingDeletions "b" 1 ["n1"] [(podKey, unstampedPod)] [] ≠ [] := by
  have hkeys : ([(podKey, unstampedPod)].map Prod.fst).Nodup := nodup_singleton _
  refine (rollingDeletions_within hkeys (nodup_singleton "n1") 1).2.2 ?_ ?_
  · exact ⟨"n1", .head _, (podKey, unstampedPod), by decide +kernel⟩
  · decide +kernel

/-- A node with two pods keeps both, though none is current and the budget is whole. -/
theorem rollingDeletions_two :
    unavailableNodes [(podKey, unstampedPod), (⟨"", "v1", "Pod", some "default", "old"⟩,
      unstampedPod)] []
        ["n1"] = 0 ∧
      TemplateRevision.isCurrent "b" unstampedPod = false ∧
      rollingDeletions "b" 2 ["n1"]
        [(podKey, unstampedPod), (⟨"", "v1", "Pod", some "default", "old"⟩, unstampedPod)]
        [] = [] := by
  decide +kernel

end
end DaemonSet
end Controllers
end Engenho
