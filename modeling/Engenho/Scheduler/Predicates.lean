import Engenho.Scheduler.Ledger

/-!
# Placement predicates

Whether a node may take a pod at all, whatever its capacity: cordons, node selectors, pins, and
taints with the tolerations that answer them.
-/

namespace Engenho

/-- What a taint does. -/
inductive TaintEffect where
  | noSchedule
  | preferNoSchedule
  | noExecute
deriving DecidableEq, Repr

namespace TaintEffect

def parse : String → Option TaintEffect
  | "NoSchedule" => some .noSchedule
  | "PreferNoSchedule" => some .preferNoSchedule
  | "NoExecute" => some .noExecute
  | _ => none

def blocksScheduling : TaintEffect → Bool
  | .noSchedule | .noExecute => true
  | .preferNoSchedule => false

end TaintEffect

/-- The node takes no new pods. -/
def isCordoned (node : Json) : Bool :=
  ((specField "unschedulable" node).bind Json.asBool).getD false

/-- No selector, or one that is not an object: every node qualifies. -/
def matchesNodeSelector (pod node : Json) : Bool :=
  match (specField "nodeSelector" pod).bind Json.asObject with
  | none => true
  | some sel =>
    let labels := metaField "labels" node
    sel.all fun (k, want) => (labels.bind (Json.get k)).any fun have_ => have_ = want

/-- The pod names no other node. -/
def nodeNameMatches (pod node : Json) : Bool :=
  match boundNodeOf pod with
  | none => true
  | some want => nodeNameOf node = some want

/-- A taint of a node. -/
structure Taint where
  key : String
  value : Option String
  effect : TaintEffect
deriving DecidableEq, Repr

/-- The blocking taint an element of `spec.taints` stands for: one without a string key is none, one
with an effect that is not known counts as `NoSchedule`. -/
def blockingTaint (t : Json) : Option Taint := do
  let key ← (t.get "key").bind Json.asStr
  let effectStr := ((t.get "effect").bind Json.asStr).getD ""
  let effect := (TaintEffect.parse effectStr).getD .noSchedule
  if !effect.blocksScheduling then none
  else some ⟨key, (t.get "value").bind Json.asStr, effect⟩

/-- The taints that keep pods off. -/
def blockingTaints (node : Json) : List Taint :=
  (((specField "taints" node).bind Json.asArray).map fun ts => ts.filterMap blockingTaint).getD []

/-- One element of `spec.tolerations` against one taint. -/
def toleratedBy (taint : Taint) (t : Json) : Bool :=
  let op := ((t.get "operator").bind Json.asStr).getD "Equal"
  let key := ((t.get "key").bind Json.asStr).getD ""
  let effect := ((t.get "effect").bind Json.asStr).filter fun e => !e.isEmpty
  if effect.any fun e => TaintEffect.parse e ≠ some taint.effect then false
  else if op = "Exists" then key.isEmpty || key = taint.key
  else key = taint.key && (t.get "value").bind Json.asStr = taint.value

/-- The pod tolerates the taint. -/
def tolerates (pod : Json) (taint : Taint) : Bool :=
  match (specField "tolerations" pod).bind Json.asArray with
  | none => false
  | some tols => tols.any (toleratedBy taint)

/-- The first blocking taint, in the node's order, that the pod does not tolerate. -/
def untoleratedTaint (pod node : Json) : Option Taint :=
  (blockingTaints node).find? fun taint => !tolerates pod taint

end Engenho
