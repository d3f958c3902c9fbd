import Engenho.Scheduler.Filter
import Engenho.Store.MergePatch

/-!
# One tick of the scheduler

A tick lists the pods it places, the nodes, and all pods, and opens the ledger over them. Then it
goes through the listed pods: each pending one is filtered, and bound, marked unschedulable, or left
alone.

Everything is decided from the reads at the start, so a tick is a list of writes (`Pass.writes`). It
sends them in order, each after the one before was answered.
-/

namespace Engenho
namespace Scheduler

/-! ## Strategies -/

/-- A strategy with its own state. It answers with the name of a candidate it was handed. -/
structure SchedulingStrategy (σ : Type) where
  pick : σ → Json → Feasible → String × σ
  picks : ∀ s pod f, ∃ c ∈ f.iter, (pick s pod f).1 = c.name

/-- The cursor moves on with every pick, and wraps as a word does. -/
def roundRobin : SchedulingStrategy Nat where
  pick turn _ feasible := ((feasible.nthWrapping turn).name, (turn + 1) % 2 ^ 64)
  picks turn _ feasible := ⟨_, feasible.nthWrapping_mem turn, rfl⟩

/-! ## Writes -/

/-- What a tick writes to a pod. -/
inductive PodWrite where
  | bind (nodeName : String)
  | markUnschedulable (condition : Json)

namespace PodWrite

/-- The body of the write. -/
def patch : PodWrite → Json
  | .bind nodeName => .obj [("spec", .obj [("nodeName", .str nodeName)])]
  | .markUnschedulable condition =>
    .obj [("status", .obj [("conditions", .arr [condition]), ("phase", .str "Pending")])]

end PodWrite

/-- A write of the tick: on which pod, as it was listed. -/
structure PlannedWrite where
  key : ResourceKey
  pod : Json
  write : PodWrite

/-- The write as it is sent: a merge patch without a precondition. -/
def PlannedWrite.command (w : PlannedWrite) : ResourceCommand :=
  .patch w.key w.write.patch .merge none none

def unschedulableCondition (d : Diagnosis) : Json :=
  .obj [("message", .str d.text), ("reason", .str "Unschedulable"), ("status", .str "False"),
    ("type", .str "PodScheduled")]

/-- The pod says so already. -/
def alreadyMarked (pod condition : Json) : Bool :=
  ((pod.get "status").bind (Json.get "phase")).bind Json.asStr = some "Pending" &&
    (conditionsOf pod).any fun conditions => conditions.any fun c =>
      ["type", "status", "reason", "message"].all fun k => c.get k = condition.get k

/-- The pod has no node. -/
def isPending (pod : Json) : Bool :=
  (((specField "nodeName" pod).bind Json.asStr).map String.isEmpty).getD true

theorem isPending_iff (pod : Json) : isPending pod = true ↔ boundNodeOf pod = none := by
  unfold isPending boundNodeOf specField
  cases h : ((pod.get "spec").bind (Json.get "nodeName")).bind Json.asStr with
  | none => simp
  | some s => simp

/-! ## The pass over the pods -/

structure Binding where
  podKey : ResourceKey
  nodeName : String
deriving DecidableEq, Repr

/-- What a tick reports. -/
structure TickReport where
  podsExamined : Nat
  nodesAvailable : Nat
  pendingPods : Nat
  unschedulable : Nat
  unschedulableWritten : Nat
  noNodesObserved : Nat
  bound : List Binding
deriving DecidableEq, Repr

/-- A pass over the pods. -/
structure Pass (σ : Type) where
  ledger : NodeLedger
  strategyState : σ
  report : TickReport
  writes : List PlannedWrite

variable {σ : Type} (strategy : SchedulingStrategy σ) (observed : List ObservedNode)

/-- One listed pod. -/
def Pass.step (p : Pass σ) (entry : ResourceKey × Json) : Pass σ :=
  let (key, pod) := entry
  if !isPending pod then p
  else
    let report := { p.report with pendingPods := p.report.pendingPods + 1 }
    let req := podRequests pod
    match filter pod req observed p.ledger with
    | .feasible feasible =>
      let (nodeName, s) := strategy.pick p.strategyState pod feasible
      { ledger := p.ledger.debit nodeName req
        strategyState := s
        report := { report with bound := report.bound ++ [⟨key, nodeName⟩] }
        writes := p.writes ++ [⟨key, pod, .bind nodeName⟩] }
    | .infeasible diagnosis =>
      let report := { report with unschedulable := report.unschedulable + 1 }
      let condition := unschedulableCondition diagnosis
      if alreadyMarked pod condition then { p with report }
      else
        { p with
          report := { report with unschedulableWritten := report.unschedulableWritten + 1 }
          writes := p.writes ++ [⟨key, pod, .markUnschedulable condition⟩] }
    | .noNodesObserved =>
      { p with report := { report with noNodesObserved := report.noNodesObserved + 1 } }

/-- What a tick reads before it decides. -/
structure Reads where
  pods : Items
  nodes : List Json
  allPods : Items
  lease : ResourceKey → Option Json
  /-- The age of a timestamp, at the clock reading for each node in turn. -/
  age : Nat → String → Option Nat
  now : String

def leaseKey (node : String) : ResourceKey :=
  ⟨"coordination.k8s.io", "v1", "Lease", some "kube-node-lease", node⟩

namespace Reads

/-- The nodes as the tick sees them. -/
def observe (r : Reads) : List ObservedNode :=
  r.nodes.mapIdx fun i node =>
    .project (r.age i) node ((nodeNameOf node).bind fun name => r.lease (leaseKey name)) r.now

def start (r : Reads) (s : σ) : Pass σ where
  ledger := .seed r.nodes (r.allPods.map Prod.snd)
  strategyState := s
  report := ⟨r.pods.length, r.nodes.length, 0, 0, 0, 0, []⟩
  writes := []

end Reads

/-- The whole tick: its report and writes. -/
def tick (s : σ) (r : Reads) : Pass σ := r.pods.foldl (Pass.step strategy r.observe) (r.start s)

/-! ## What one pod adds -/

/-- The inversion lemma of the pass: a pod adds nothing, a mark, or a bind to a node that fits,
which the ledger is then charged for. -/
inductive Stepped (p : Pass σ) (key : ResourceKey) (pod : Json) (p' : Pass σ) : Prop where
  | skip (hl : p'.ledger = p.ledger) (hw : p'.writes = p.writes)
  | mark (condition : Json) (hpend : isPending pod = true) (hl : p'.ledger = p.ledger)
      (hw : p'.writes = p.writes ++ [⟨key, pod, .markUnschedulable condition⟩])
  | bind (nodeName : String) (hpend : isPending pod = true) (hname : nodeName ≠ "")
      (hfits : p.ledger.fits nodeName (podRequests pod) = true)
      (hl : p'.ledger = p.ledger.debit nodeName (podRequests pod))
      (hw : p'.writes = p.writes ++ [⟨key, pod, .bind nodeName⟩])

theorem Pass.step_cases (p : Pass σ) (key : ResourceKey) (pod : Json) :
    Stepped p key pod (p.step strategy observed (key, pod)) := by
  unfold Pass.step
  simp only
  split
  · exact .skip rfl rfl
  rename_i hpend
  simp only [Bool.not_eq_true', Bool.not_eq_false] at hpend
  split
  · rename_i feasible hf
    obtain ⟨c, hc, hpick⟩ := strategy.picks p.strategyState pod feasible
    obtain ⟨n, -, hadm⟩ := mem_feasible hf hc
    refine .bind (strategy.pick p.strategyState pod feasible).1 hpend ?_ ?_ rfl rfl
    · rw [hpick]
      exact (bindableName_ok (admitNode_ok hadm).2.1).2
    · rw [hpick]
      exact admitNode_fits hadm
  · split
    · exact .skip rfl rfl
    · exact .mark _ hpend rfl rfl
  · exact .skip rfl rfl

end Scheduler
end Engenho
