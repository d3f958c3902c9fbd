import Engenho.Controllers.Indices

/-!
# The Job controller

A Job runs pods until as many as it asks for have succeeded, some at a time, and fails when more
than its limit have failed. Everything is counted from the pods there are: `reconcileOne` says which
pods to create, `computeStatus` what to report.
-/

namespace Engenho
open Except FreeIndices List
variable {job v w : Json}
namespace Controllers
namespace Job

/-! ## Pods -/

/-- How many pods have to succeed. -/
def completions : DefaultedInt := ⟨["spec", "completions"], 1⟩

/-- How many pods may run at once. -/
def parallelism : DefaultedInt := ⟨["spec", "parallelism"], 1⟩

/-- How many pods may fail. -/
def backoffLimit : DefaultedInt := ⟨["spec", "backoffLimit"], 6⟩

def podPhaseIs (pod : Json) (phase : String) : Bool :=
  ((pod.get "status").bind (Json.get "phase")).bind Json.asStr = some phase

def countPhase (owned : Items) (phase : String) : Nat :=
  owned.countP fun e => podPhaseIs e.2 phase

/-- The pods that have neither succeeded nor failed. -/
def countActive (owned : Items) : Nat :=
  owned.countP fun e => !podPhaseIs e.2 "Succeeded" && !podPhaseIs e.2 "Failed"

/-- The pod of an index; none where the Job has no name or no template. -/
def buildPod (job : Json) (idx : Nat) (owner : OwnerReference) :
    Except ShapeFault (Option (String × Json)) :=
  match name job with
  | none => .ok none
  | some jobName => do
    let podName := indexed jobName idx
    match ← podFromTemplate job podName ((nsOf job).getD "default") owner with
    | none => return none
    | some pod =>
      let pod ← editTemplate ["spec"] (fill "restartPolicy" (.str "Never")) pod
      return some (podName, pod)

/-- The creates of `toCreate` pods at the lowest free indices from `idx` on. -/
def createPods (job : Json) (ns : String) (owner : OwnerReference) (existing : List Nat) :
    Nat → Nat → Except ShapeFault (List ResourceCommand)
  | 0, _ => .ok []
  | toCreate + 1, idx => do
    let idx := FreeIndices.next existing idx
    match ← buildPod job idx owner with
    | none => return []
    | some (podName, pod) =>
      let rest ← createPods job ns owner existing toCreate (idx + 1)
      return .put (podKeyIn ns podName) pod none :: rest

/-- The writes of a pass. -/
def reconcileOne (scope : Option String) (job : Json) (owned : Items) :
    Except ControllerError (List ResourceCommand) := do
  let completions ← readCount completions job
  let parallelism ← readCount parallelism job
  let backoffLimit ← readCount backoffLimit job
  match ownerRefFor job "batch/v1" "Job" with
  | none => return []
  | some owner =>
    let ns := childNamespace job scope
    let succeeded := countPhase owned "Succeeded"
    let active := countActive owned
    if completions ≤ succeeded then return []
    else if backoffLimit < countPhase owned "Failed" then return []
    else
      let needed := min (completions - succeeded) parallelism - active
      (createPods job ns owner (usedIndices (name job) owned) needed 0).mapError .shape

/-! ## Status -/

def completeCondition : Json := .obj [("status", .str "True"), ("type", .str "Complete")]

def failedCondition : Json :=
  .obj [("message", .str "Job has reached the specified backoff limit"),
    ("reason", .str "BackoffLimitExceeded"), ("status", .str "True"), ("type", .str "Failed")]

/-- The conditions the counts call for, if any. -/
def conditionsFor (completions backoffLimit succeeded failed : Nat) : Option Json :=
  if completions ≤ succeeded then some (.arr [completeCondition])
  else if backoffLimit < failed then some (.arr [failedCondition])
  else none

/-- The counts of the status. -/
def statusFields (active succeeded failed : Nat) (observedGeneration : Int) : JsonMap :=
  [("active", countJson active), ("failed", countJson failed),
    ("observedGeneration", .num (.int observedGeneration)), ("succeeded", countJson succeeded)]

def computeStatus (job : Json) (owned : Items) (observedGeneration : Int) : Option Json :=
  match readCount completions job, readCount backoffLimit job with
  | .ok completions, .ok backoffLimit =>
    let succeeded := countPhase owned "Succeeded"
    let failed := countPhase owned "Failed"
    let fields := statusFields (countActive owned) succeeded failed observedGeneration
    some (.obj (match conditionsFor completions backoffLimit succeeded failed with
      | some conditions => Assoc.put "conditions" conditions fields
      | none => fields))
  | _, _ => none

def controller (scope : Option String) : Workload where
  parentScope := ⟨"batch", "v1", "Job", scope⟩
  childKinds := [podKind]
  reconcileOne _ := reconcileOne scope
  computeStatus := computeStatus

/-! ## The writes of a pass -/

variable {cmds : List ResourceCommand} {owner : OwnerReference} {scope : Option String}

theorem createPods_spec {ns : String} {existing : List Nat} {toCreate idx : Nat}
    (h : createPods job ns owner existing toCreate idx = .ok cmds) :
    ∃ pods : List (Nat × String × Json),
    cmds = pods.map (fun p => .put (podKeyIn ns p.2.1) p.2.2 none) ∧
      pods.length ≤ toCreate ∧ (pods.map Prod.fst).Pairwise (· < ·) ∧
      ∀ p ∈ pods, idx ≤ p.1 ∧ p.1 ∉ existing ∧ buildPod job p.1 owner = .ok (some p.2) := by
  induction toCreate generalizing idx cmds with
  | zero =>
    obtain rfl : [] = cmds := Except.ok.inj h
    exact ⟨[], rfl, Nat.le_refl 0, List.Pairwise.nil, forall_mem_nil _⟩
  | succ toCreate ih =>
    obtain ⟨built, hbuilt, h⟩ := of_bind_ok h
    cases built with
    | none =>
      obtain rfl : [] = cmds := Except.ok.inj h
      exact ⟨[], rfl, Nat.zero_le _, List.Pairwise.nil, forall_mem_nil _⟩
    | some p =>
      obtain ⟨rest, hrest, h⟩ := of_bind_ok h
      cases h
      obtain ⟨pods, rfl, hlen, hlt, hpods⟩ := ih hrest
      have hle : idx ≤ FreeIndices.next existing idx := le_search _ idx
      refine ⟨(FreeIndices.next existing idx, p) :: pods, rfl, Nat.succ_le_succ hlen, ?_, ?_⟩
      · refine pairwise_cons.mpr ⟨fun i hi => ?_, hlt⟩
        obtain ⟨q, hq, rfl⟩ := mem_map.mp hi
        exact (hpods q hq).1
      · rintro q (_ | ⟨_, hq⟩)
        · exact ⟨hle, next_notMem idx, hbuilt⟩
        · obtain ⟨hi, hfree, hb⟩ := hpods q hq
          exact ⟨by omega, hfree, hb⟩

theorem buildPod_name {idx : Nat} {podName : String} {pod : Json}
    (h : buildPod job idx owner = .ok (some (podName, pod))) :
    ∃ jobName, name job = some jobName ∧ podName = indexed jobName idx := by
  unfold buildPod at h
  cases hname : name job with
  | none =>
    rw [hname] at h
    cases h
  | some jobName =>
    rw [hname] at h
    obtain ⟨made, -, h⟩ := of_bind_ok h
    cases made with
    | none => cases h
    | some p =>
      obtain ⟨p', -, h⟩ := of_bind_ok h
      cases h
      exact ⟨jobName, rfl, rfl⟩

/-- What is known of the creates of one pass: they stay within what is asked for, and go to
different keys at which the Job has no pod. -/
structure Delta (scope : Option String) (job : Json) (owned : Items)
    (cmds : List ResourceCommand) : Prop where
  within : ∀ c p, readCount completions job = .ok c → readCount parallelism job = .ok p →
    cmds.length ≤ min (c - countPhase owned "Succeeded") p - countActive owned
  unfinished : cmds ≠ [] → ∀ c b, readCount completions job = .ok c →
    readCount backoffLimit job = .ok b →
    countPhase owned "Succeeded" < c ∧ countPhase owned "Failed" ≤ b
  reads : (∃ c, readCount completions job = .ok c) ∧ (∃ p, readCount parallelism job = .ok p) ∧
    ∃ b, readCount backoffLimit job = .ok b
  puts : ∃ pods : List (Nat × String × Json),
    cmds = pods.map (fun p => .put (podKeyIn (childNamespace job scope) p.2.1) p.2.2 none) ∧
      (pods.map fun p => p.2.1).Nodup ∧
      ∀ p ∈ pods, (∀ e ∈ owned, e.1.name ≠ p.2.1) ∧
        ∃ owner, ownerRefFor job "batch/v1" "Job" = some owner ∧
        buildPod job p.1 owner = .ok (some p.2)

variable {owned : Items}

theorem Delta.nil {c p b : Nat} (hc : readCount completions job = .ok c)
    (hp : readCount parallelism job = .ok p) (hb : readCount backoffLimit job = .ok b) :
    Delta scope job owned [] where
  within _ _ _ _ := Nat.zero_le _
  unfinished h := absurd rfl h
  reads := ⟨⟨c, hc⟩, ⟨p, hp⟩, ⟨b, hb⟩⟩
  puts := ⟨[], rfl, nodup_nil, forall_mem_nil _⟩

theorem reconcileOne_delta (h : reconcileOne scope job owned = .ok cmds) :
    Delta scope job owned cmds := by
  obtain ⟨c, hc, h⟩ := of_bind_ok h
  obtain ⟨p, hp, h⟩ := of_bind_ok h
  obtain ⟨b, hb, h⟩ := of_bind_ok h
  have hnone : Delta scope job owned [] := .nil hc hp hb
  cases howner : ownerRefFor job "batch/v1" "Job" with
  | none =>
    rw [howner] at h
    cases h
    exact hnone
  | some owner =>
    simp only [howner] at h
    split at h
    · cases h
      exact hnone
    split at h
    · cases h
      exact hnone
    obtain ⟨pods, rfl, hlen, hlt, hpods⟩ := createPods_spec (of_mapError_ok h)
    refine ⟨fun c' p' hc' hp' => ?_, fun _ c' b' hc' hb' => ?_, ⟨⟨c, hc⟩, ⟨p, hp⟩, ⟨b, hb⟩⟩,
      pods, rfl, ?_, ?_⟩
    · obtain rfl := Except.ok.inj (hc.symm.trans hc')
      obtain rfl := Except.ok.inj (hp.symm.trans hp')
      rw [length_map]
      exact hlen
    · obtain rfl := Except.ok.inj (hc.symm.trans hc')
      obtain rfl := Except.ok.inj (hb.symm.trans hb')
      omega
    · -- the names differ as the indices do
      rw [nodup_iff_pairwise_ne, pairwise_map]
      refine (pairwise_map.mp hlt).imp_of_mem fun {q r} hq hr hqr hsame => ?_
      obtain ⟨n, hn, hqn⟩ := buildPod_name (hpods q hq).2.2
      obtain ⟨n', hn', hrn⟩ := buildPod_name (hpods r hr).2.2
      obtain rfl := Option.some.inj (hn.symm.trans hn')
      rw [hqn, hrn] at hsame
      exact absurd (indexed_injective n hsame) (Nat.ne_of_lt hqr)
    · intro q hq
      obtain ⟨-, hfree, hb⟩ := hpods q hq
      refine ⟨fun e he hname => hfree ?_, owner, howner, hb⟩
      obtain ⟨n, hn, hqn⟩ := buildPod_name hb
      refine mem_filterMap.mpr ⟨e, he, ?_⟩
      rw [hn, Option.bind_some, hname, hqn, indexOf_indexed]

/-! ## What is read of the Job -/

section
variable (h : SameParent v w)
include h

theorem buildPod_congr (idx : Nat) (owner : OwnerReference) :
    buildPod v idx owner = buildPod w idx owner := by
  simp only [buildPod, h.name_eq, h.nsOf_eq, h.podFromTemplate_eq]

theorem createPods_congr (ns : String) (owner : OwnerReference) (existing : List Nat)
    (toCreate idx : Nat) :
    createPods v ns owner existing toCreate idx = createPods w ns owner existing toCreate idx := by
  induction toCreate generalizing idx with
  | zero => rfl
  | succ toCreate ih => simp only [createPods, buildPod_congr h, ih]

theorem reconcileOne_congr (hv : v.isObject = true) (scope : Option String)
    (owned : Items) : reconcileOne scope v owned = reconcileOne scope w owned := by
  simp only [reconcileOne, completions, parallelism, backoffLimit, h.readCount_eq hv,
    h.ownerRefFor_eq, h.childNamespace_eq, h.name_eq, createPods_congr h]

theorem computeStatus_congr (hv : v.isObject = true)
    (owned : Items) (g : Int) : computeStatus v owned g = computeStatus w owned g := by
  simp only [computeStatus, completions, backoffLimit, h.readCount_eq hv]

end
end Job
end Controllers
end Engenho
