import Engenho.Lib.Except
import Engenho.Scheduler.Capability

/-!
# The Filter stage

A node is seen with its `Ready` condition derived from its Lease (`ObservedNode`). Seven plugins run
in a fixed order; a node that passes them all is a candidate, any other is counted under the first
rejection. `filter` sorts the observed nodes into a non-empty set of candidates or a diagnosis.

The clock is a parameter: `age` says how many nanoseconds ago a timestamp was, when it can be read
and is not ahead.
-/

namespace Engenho
open List Except

/-! ## Observed nodes -/

/-- How old a lease may be, in nanoseconds. -/
def gracePeriod : Nat := 40 * 10 ^ 9

/-- What the lease of a node says. -/
inductive NodeReadiness where
  | ready
  | stale
  | unknown
deriving DecidableEq, Repr

namespace NodeReadiness

def conditionStatus : NodeReadiness → String
  | .ready => "True"
  | .stale => "Unknown"
  | .unknown => "Unknown"

def reason : NodeReadiness → String
  | .ready => "KubeletReady"
  | .stale => "NodeStatusUnknown"
  | .unknown => "NodeStatusNeverUpdated"

def message : NodeReadiness → String
  | .ready => "kubelet is posting ready status"
  | .stale => "Kubelet stopped posting node status"
  | .unknown => "Kubelet never posted node status"

end NodeReadiness

/-- By the age of the lease. -/
def readiness (sinceRenew : Option Nat) : NodeReadiness :=
  match sinceRenew with
  | none => .unknown
  | some age => if age ≤ gracePeriod then .ready else .stale

def isReadyCondition (c : Json) : Bool := (c.get "type").bind Json.asStr = some "Ready"

def conditionsOf (value : Json) : Option (List Json) :=
  ((value.get "status").bind (Json.get "conditions")).bind Json.asArray

def findReadyCondition (node : Json) : Option Json :=
  (conditionsOf node).bind fun cs => cs.find? isReadyCondition

/-- The time of the last transition is kept while the status stays. -/
def readyCondition (state : NodeReadiness) (now : String) (previous : Option Json) : Json :=
  let status := state.conditionStatus
  let lastTransition :=
    (((previous.filter fun p => (p.get "status").bind Json.asStr = some status).bind
      (Json.get "lastTransitionTime")).bind Json.asStr).getD now
  .obj [("lastHeartbeatTime", .str now), ("lastTransitionTime", .str lastTransition),
    ("message", .str state.message), ("reason", .str state.reason), ("status", .str status),
    ("type", .str "Ready")]

/-- The Ready condition, by the lease. -/
def projectReadyCondition (age : String → Option Nat) (node : Json) (lease : Option Json)
    (now : String) : Json :=
  let sinceRenew := ((lease.bind (specField "renewTime")).bind Json.asStr).bind age
  let condition := readyCondition (readiness sinceRenew) now (findReadyCondition node)
  let conditions := (((conditionsOf node).getD []).filter fun c => !isReadyCondition c) ++
    [condition]
  match node with
  | .obj fields =>
    match (fields.lookup "status").getD (.obj []) with
    | .obj status =>
      .obj (Assoc.put "status" (.obj (Assoc.put "conditions" (.arr conditions) status)) fields)
    | _ => .obj fields
  | node => node

/-- A node whose `Ready` condition was derived from its Lease. -/
structure ObservedNode where
  value : Json

namespace ObservedNode

/-- The node as a tick sees it. -/
def project (age : String → Option Nat) (node : Json) (lease : Option Json) (now : String) :
    ObservedNode :=
  ⟨projectReadyCondition age node lease now⟩

def name (n : ObservedNode) : Option String := nodeNameOf n.value

def isReady (n : ObservedNode) : Bool :=
  ((findReadyCondition n.value).bind (Json.get "status")).bind Json.asStr = some "True"

end ObservedNode

/-! ## Plugins -/

/-- Why a node is not taken. -/
inductive Rejection where
  | notReady
  | cordoned
  | nodeNameMismatch
  | nodeSelectorMismatch
  | missingCapability (requirement : Requirement)
  | untoleratedTaint (key : String)
  | insufficientResources
  | unreadableRequests
deriving DecidableEq, Repr

namespace Rejection

def text : Rejection → String
  | .notReady => "node(s) were not ready"
  | .cordoned => "node(s) were unschedulable"
  | .nodeNameMismatch => "node(s) didn't match the requested node name"
  | .nodeSelectorMismatch => "node(s) didn't match Pod's node selector"
  | .missingCapability (.unreadable key) =>
    "node(s) could not satisfy the unreadable requirement " ++ key
  | .missingCapability requirement => "node(s) lacked capability " ++ requirement.text
  | .untoleratedTaint key => "node(s) had untolerated taint \x7b" ++ key ++ "\x7d"
  | .insufficientResources => "node(s) had insufficient cpu/memory"
  | .unreadableRequests => "node(s) could not fit the Pod's unreadable resource requests"

/-- The tuple that the derived order compares: the variant, then what it holds. -/
def ord : Rejection → Nat ×ₗ Nat ×ₗ Nat ×ₗ String
  | .notReady => toLex (0, toLex (0, toLex (0, "")))
  | .cordoned => toLex (1, toLex (0, toLex (0, "")))
  | .nodeNameMismatch => toLex (2, toLex (0, toLex (0, "")))
  | .nodeSelectorMismatch => toLex (3, toLex (0, toLex (0, "")))
  | .missingCapability requirement => toLex (4, requirement.ord)
  | .untoleratedTaint key => toLex (5, toLex (0, toLex (0, key)))
  | .insufficientResources => toLex (6, toLex (0, toLex (0, "")))
  | .unreadableRequests => toLex (7, toLex (0, toLex (0, "")))

theorem ord_injective : Function.Injective ord := by
  intro a b h
  cases a <;> cases b <;> simp_all [ord, Requirement.ord_injective.eq_iff]

instance : LinearOrder Rejection := LinearOrder.lift' ord ord_injective
end Rejection

/-- The checks of the filter. -/
inductive FilterPlugin where
  | nodeReady
  | cordon
  | nodeName
  | nodeSelector
  | capability
  | taintToleration
  | resources
deriving DecidableEq, Repr

def refuseUnless (admitted : Bool) (rejection : Rejection) : Except Rejection Unit :=
  if admitted then .ok () else .error rejection

/-- The name the pod would be bound to. -/
def bindableName (pod : Json) (node : ObservedNode) : Except Rejection String :=
  match node.name.filter fun name => !name.isEmpty && nodeNameMatches pod node.value with
  | some name => .ok name
  | none => .error .nodeNameMismatch

namespace FilterPlugin

/-- Every plugin, in the order they run. -/
def all : List FilterPlugin :=
  [.nodeReady, .cordon, .nodeName, .nodeSelector, .capability, .taintToleration, .resources]

/-- One check. -/
def check (pod : Json) (req : PodRequests) (node : ObservedNode) (ledger : NodeLedger) :
    FilterPlugin → Except Rejection Unit
  | .nodeReady => refuseUnless node.isReady .notReady
  | .cordon => refuseUnless (!isCordoned node.value) .cordoned
  | .nodeName => (bindableName pod node).map fun _ => ()
  | .nodeSelector => refuseUnless (matchesNodeSelector pod node.value) .nodeSelectorMismatch
  | .capability =>
    match (WorkloadRequirements.infer pod).unmet (.observe node.value) with
    | some requirement => .error (.missingCapability requirement)
    | none => .ok ()
  | .taintToleration =>
    match untoleratedTaint pod node.value with
    | some taint => .error (.untoleratedTaint taint.key)
    | none => .ok ()
  | .resources =>
    if req.unparseable then .error .unreadableRequests
    else refuseUnless (node.name.any fun name => ledger.fits name req) .insufficientResources

end FilterPlugin

/-! ## Candidates -/

/-- A node every plugin admitted, with the name the pod would be bound to. -/
structure Candidate where
  name : String
  node : ObservedNode

/-- Every plugin, then the name. -/
def admitNode (pod : Json) (req : PodRequests) (node : ObservedNode) (ledger : NodeLedger) :
    Except Rejection Candidate := do
  FilterPlugin.all.forM (FilterPlugin.check pod req node ledger)
  let name ← bindableName pod node
  .ok ⟨name, node⟩

variable {node : ObservedNode} {c : Candidate}
variable {ledger : NodeLedger} {pod : Json} {req : PodRequests}

/-- An admitted node passed every plugin, and is offered under its own name. -/
theorem admitNode_ok (h : admitNode pod req node ledger = .ok c) :
    (∀ p ∈ FilterPlugin.all, p.check pod req node ledger = .ok ()) ∧
      bindableName pod node = .ok c.name ∧ c.node = node := by
  obtain ⟨u, hall, h⟩ := of_bind_ok h
  obtain ⟨name, hname, h⟩ := of_bind_ok h
  cases h
  exact ⟨forM_ok_iff.mp hall, hname, rfl⟩

theorem bindableName_ok {name : String} (h : bindableName pod node = .ok name) :
    node.name = some name ∧ name ≠ "" := by
  unfold bindableName at h
  split at h
  · rename_i name' hname
    cases h
    obtain ⟨hname, hp⟩ := Option.filter_eq_some_iff.mp hname
    refine ⟨hname, fun he => ?_⟩
    simp [he] at hp
  · cases h

theorem admitNode_fits (h : admitNode pod req node ledger = .ok c) :
    ledger.fits c.name req = true := by
  obtain ⟨hall, hname, -⟩ := admitNode_ok h
  have hres := hall .resources (by decide)
  simp only [FilterPlugin.check] at hres
  split at hres
  · cases hres
  · rw [(bindableName_ok hname).1] at hres
    by_contra hfit
    simp [refuseUnless, hfit] at hres

/-- The candidates of a pod: never empty. -/
structure Feasible where
  head : Candidate
  tail : List Candidate

namespace Feasible

variable (f : Feasible) (index : Nat)

def iter : List Candidate := f.head :: f.tail

/-- The candidate at an index, past the end from the start again. -/
def nthWrapping : Candidate :=
  match index % (f.tail.length + 1) with
  | 0 => f.head
  | i + 1 => (f.tail[i]?).getD f.head

theorem nthWrapping_mem : f.nthWrapping index ∈ f.iter := by
  unfold nthWrapping
  split
  · exact .head _
  · rename_i i hi
    cases hc : f.tail[i]? with
    | none => exact .head _
    | some c => exact .tail _ (mem_of_getElem? hc)

end Feasible

/-- How many nodes each rejection removed, each node under its first one. -/
structure Diagnosis where
  rejections : OrdMap Rejection Nat

namespace Diagnosis

def nodesObserved (d : Diagnosis) : Nat := (d.rejections.entries.map Prod.snd).sum

def text (d : Diagnosis) : String :=
  "0/" ++ toString d.nodesObserved ++ " nodes are available: " ++
    ", ".intercalate (d.rejections.entries.map fun (r, n) => toString n ++ " " ++ r.text) ++ "."

end Diagnosis

/-- What the filter found. -/
inductive Filtered where
  | feasible (f : Feasible)
  | infeasible (d : Diagnosis)
  | noNodesObserved

/-- The node is added to the candidates or counted under its rejection. -/
def filterStep (pod : Json) (req : PodRequests) (ledger : NodeLedger)
    (s : List Candidate × OrdMap Rejection Nat) (node : ObservedNode) :
    List Candidate × OrdMap Rejection Nat :=
  match admitNode pod req node ledger with
  | .ok candidate => (s.1 ++ [candidate], s.2)
  | .error rejection => (s.1, s.2.insert rejection ((s.2.get rejection).getD 0 + 1))

/-- The nodes that take the pod. -/
def filter (pod : Json) (req : PodRequests) (nodes : List ObservedNode) (ledger : NodeLedger) :
    Filtered :=
  let (admitted, rejections) := nodes.foldl (filterStep pod req ledger) ([], .empty)
  match admitted with
  | head :: tail => .feasible ⟨head, tail⟩
  | [] => if rejections.entries.isEmpty then .noNodesObserved else .infeasible ⟨rejections⟩

section
variable {pod : Json} {req : PodRequests} {nodes : List ObservedNode} {ledger : NodeLedger}

theorem filterStep_fst (s : List Candidate × OrdMap Rejection Nat) (node : ObservedNode) :
    (filterStep pod req ledger s node).1 = s.1 ++
    (admitNode pod req node ledger).toOption.toList := by
  unfold filterStep
  cases admitNode pod req node ledger with
  | error e => exact (append_nil _).symm
  | ok c => rfl

theorem foldl_filterStep_fst (nodes : List ObservedNode)
    (s : List Candidate × OrdMap Rejection Nat) : (nodes.foldl (filterStep pod req ledger) s).1 =
      s.1 ++ nodes.flatMap fun n => (admitNode pod req n ledger).toOption.toList := by
  induction nodes generalizing s with
  | nil => exact (append_nil _).symm
  | cons n ns ih => rw [foldl_cons, ih, filterStep_fst, flatMap_cons, append_assoc]

variable {f : Feasible}

/-- The candidates are the nodes that every plugin admitted, in the order they were observed. -/
theorem filter_feasible (h : filter pod req nodes ledger = .feasible f) :
    f.iter = nodes.flatMap fun n => (admitNode pod req n ledger).toOption.toList := by
  have hfst := @foldl_filterStep_fst pod req ledger nodes ([], .empty)
  unfold filter at h
  revert h hfst
  generalize nodes.foldl (filterStep pod req ledger) ([], OrdMap.empty) = s
  obtain ⟨admitted, rejections⟩ := s
  intro h hfst
  cases admitted with
  | cons head tail =>
    cases h
    exact hfst
  | nil =>
    simp only at h
    split at h <;> cases h

theorem mem_feasible (h : filter pod req nodes ledger = .feasible f) (hc : c ∈ f.iter) :
    ∃ n ∈ nodes, admitNode pod req n ledger = .ok c := by
  rw [filter_feasible h] at hc
  obtain ⟨n, hn, hc⟩ := mem_flatMap.mp hc
  refine ⟨n, hn, ?_⟩
  cases ha : admitNode pod req n ledger with
  | error e => rw [ha] at hc; cases hc
  | ok c' =>
    rw [ha] at hc
    rw [mem_singleton.mp hc]

end
end Engenho
