import Engenho.Lib.Json

/-!
# Network policies as flat rules

The controller turns a `NetworkPolicy` object into rules for an enforcer. A rule has peers and ports
that it allows; what the rule cannot say of the object is left out.

* `translate`: the rules of an object, with `peerOf` and `portOf` for the entries of its lists.
* `Allows`: what rules mean. Without peers a rule denies all, without ports it allows every port,
  the rules for a pod are united, and a pod without a rule in a direction is not restricted there.
-/

namespace Engenho.NetworkPolicy

/-- Into a pod, or out of it. -/
inductive Direction where
  | ingress
  | egress
deriving DecidableEq, Repr

/-- A map of labels as the list of its members. -/
abbrev LabelMap := List (String × String)

/-- The other end that a rule allows. -/
inductive PeerSelector where
  | podSelector (matchLabels : LabelMap)
  | namespaceSelector (matchLabels : LabelMap)
  | ipBlock (cidr : String) (except : List String)
deriving DecidableEq, Repr

/-- The ports that a rule allows. -/
structure PortSpec where
  port : Nat
  endPort : Option Nat
  protocol : String
deriving DecidableEq, Repr

/-- A rule as the backends get it. -/
structure NetworkPolicyRule where
  policyId : String
  podSelector : LabelMap
  direction : Direction
  allowedPeers : List PeerSelector
  allowedPorts : List PortSpec
deriving DecidableEq, Repr

/-! ## The translation -/

def allowAllCidr : String := "0.0.0.0/0"

/-- Whether the object restricts ingress, and whether egress. -/
def effectivePolicyTypes (spec : Json) : Bool × Bool :=
  match (spec.get "policyTypes").bind Json.asArray with
  | some types =>
    let has (t : String) : Bool := types.any fun v => v.asStr = some t
    (has "Ingress", has "Egress")
  | none => (true, ((spec.get "egress").bind Json.asArray).any fun a => !a.isEmpty)

/-- The labels of a selector. -/
def matchLabelsOf (v : Option Json) : LabelMap :=
  match (v.bind (Json.get "matchLabels")).bind Json.asObject with
  | none => []
  | some obj => obj.filterMap fun kv => kv.2.asStr.map fun s => (kv.1, s)

/-- A member that is there is taken, also if it is null. -/
def peerOf (entry : Json) : Option PeerSelector :=
  match entry.get "ipBlock" with
  | some ip =>
    ((ip.get "cidr").bind Json.asStr).map fun cidr =>
      .ipBlock cidr ((((ip.get "except").bind Json.asArray).map fun a => a.filterMap
        Json.asStr).getD [])
  | none =>
    match entry.get "podSelector" with
    | some sel => some (.podSelector (matchLabelsOf (some sel)))
    | none =>
      (entry.get "namespaceSelector").map fun sel => .namespaceSelector (matchLabelsOf (some sel))

/-- A number of 16 bits. -/
def asU16 : Json → Option Nat
  | .num (.int i) => if 0 ≤ i ∧ i < 2 ^ 16 then some i.toNat else none
  | _ => none

/-- A port without a number is left out. -/
def portOf (p : Json) : Option PortSpec :=
  ((p.get "port").bind asU16).map fun port =>
    ⟨port, (p.get "endPort").bind asU16, ((p.get "protocol").bind Json.asStr).getD "TCP"⟩

/-- The ports of a rule. -/
def portsOf (rule : Json) : List PortSpec :=
  match (rule.get "ports").bind Json.asArray with
  | none => []
  | some ports => ports.filterMap portOf

def Direction.text : Direction → String
  | .ingress => "ingress"
  | .egress => "egress"

/-- The id of a rule. -/
def ruleId (ns name : String) (direction : Direction) (index : Nat) : String :=
  ns ++ "/" ++ name ++ "#" ++ direction.text ++ ":" ++ toString index

/-- The peers of a rule; `none` if it has entries and none of them is a peer. -/
def peersOf (peerField : String) (r : Json) : Option (List PeerSelector) :=
  match (r.get peerField).bind Json.asArray with
  | none => some [.ipBlock allowAllCidr []]
  | some [] => some [.ipBlock allowAllCidr []]
  | some entries =>
    let peers := entries.filterMap peerOf
    if peers.isEmpty then none else some peers

/-- The rules of one direction. -/
def translateDirection (ns name : String) (podSelector : LabelMap) (direction : Direction)
    (peerField : String) (rules : Option (List Json)) : List NetworkPolicyRule :=
  match rules with
  | none => [⟨ruleId ns name direction 0, podSelector, direction, [], []⟩]
  | some [] => [⟨ruleId ns name direction 0, podSelector, direction, [], []⟩]
  | some list =>
    list.zipIdx.filterMap fun ri =>
      (peersOf peerField ri.1).map fun peers =>
        ⟨ruleId ns name direction ri.2, podSelector, direction, peers, portsOf ri.1⟩

/-- The rules of a policy. -/
def translate (policy : Json) : List NetworkPolicyRule :=
  let metadata := policy.get "metadata"
  let ns := ((metadata.bind (Json.get "namespace")).bind Json.asStr).getD "default"
  let name := ((metadata.bind (Json.get "name")).bind Json.asStr).getD ""
  if name.isEmpty then []
  else
    match (policy.get "spec").filter Json.isObject with
    | none => []
    | some spec =>
      let podSelector := matchLabelsOf (spec.get "podSelector")
      let types := effectivePolicyTypes spec
      (if types.1 then
        translateDirection ns name podSelector .ingress "from"
          ((spec.get "ingress").bind Json.asArray)
      else []) ++
      (if types.2 then
        translateDirection ns name podSelector .egress "to" ((spec.get "egress").bind Json.asArray)
      else [])

/-! ## What rules allow -/

/-- The protocol of a connection. -/
inductive Protocol where
  | tcp
  | udp
  | sctp
deriving DecidableEq, Repr

def Protocol.text : Protocol → String
  | .tcp => "TCP"
  | .udp => "UDP"
  | .sctp => "SCTP"

/-- A pod, by what policies read of it. -/
structure Pod where
  ns : String
  labels : String → Option String
  nsLabels : String → Option String

/-- An end of a connection: an address, and the pod that has it, if it is one's. -/
structure Endpoint (Ip : Type) where
  pod : Option Pod
  ip : Ip

/-- Traffic to or from a pod. `names` are the names that the receiving pod gives to the port. -/
structure Traffic (Ip : Type) where
  direction : Direction
  pod : Pod
  peer : Endpoint Ip
  protocol : Protocol
  port : Nat
  names : List String

/-- The pods that a selector of pods means. -/
inductive PodScope where
  | policyNamespace
  | everyNamespace
deriving DecidableEq, Repr

/-- How an enforcer reads the texts of a rule. -/
structure Reading (Ip : Type) where
  scope : PodScope
  inCidr : String → Ip → Bool

/-- The labels are among those there. -/
def HasLabels (want : LabelMap) (labels : String → Option String) : Prop :=
  ∀ kv ∈ want, labels kv.1 = some kv.2

variable {Ip : Type} (rd : Reading Ip) (ns : String)

/-- The address is in the block. -/
def InBlock (cidr : String) (except : List String) (ip : Ip) : Prop :=
  rd.inCidr cidr ip = true ∧ ∀ ex ∈ except, rd.inCidr ex ip = false

/-- The selector allows the other end. -/
def PeerSelector.Selects (peer : Endpoint Ip) : PeerSelector → Prop
  | .podSelector m => ∃ pod, peer.pod = some pod ∧ HasLabels m pod.labels ∧
      (rd.scope = .policyNamespace → pod.ns = ns)
  | .namespaceSelector m => ∃ pod, peer.pod = some pod ∧ HasLabels m pod.nsLabels
  | .ipBlock cidr except => InBlock rd cidr except peer.ip

/-- The port is allowed. -/
def PortSpec.Covers (p : PortSpec) (t : Traffic Ip) : Prop :=
  p.protocol = t.protocol.text ∧ p.port ≤ t.port ∧ t.port ≤ p.endPort.getD p.port

def PortsCover (ports : List PortSpec) (t : Traffic Ip) : Prop :=
  ports = [] ∨ ∃ p ∈ ports, p.Covers t

/-- The rule is about this traffic. -/
def NetworkPolicyRule.Applies (r : NetworkPolicyRule) (t : Traffic Ip) : Prop :=
  r.direction = t.direction ∧ HasLabels r.podSelector t.pod.labels

/-- The rule allows this traffic. -/
def NetworkPolicyRule.Permits (r : NetworkPolicyRule) (t : Traffic Ip) : Prop :=
  (∃ sel ∈ r.allowedPeers, sel.Selects rd ns t.peer) ∧ PortsCover r.allowedPorts t

/-- The rules of a policy in the namespace `ns` allow the traffic. -/
def Allows (rules : List NetworkPolicyRule) (t : Traffic Ip) : Prop :=
  (∀ r ∈ rules, ¬ r.Applies t) ∨ ∃ r ∈ rules, r.Applies t ∧ r.Permits rd ns t

/-! ## Deciding it -/

instance (want : LabelMap) (labels : String → Option String) : Decidable (HasLabels want labels) :=
  inferInstanceAs (Decidable (∀ kv ∈ want, labels kv.1 = some kv.2))

instance (rd : Reading Ip) (cidr : String) (except : List String) (ip : Ip) :
    Decidable (InBlock rd cidr except ip) :=
  inferInstanceAs (Decidable (_ ∧ _))

instance (rd : Reading Ip) (ns : String) (peer : Endpoint Ip) (sel : PeerSelector) :
    Decidable (sel.Selects rd ns peer) :=
  match sel with
  | .podSelector m => inferInstanceAs (Decidable (∃ pod, pod ∈ peer.pod ∧ HasLabels m pod.labels ∧
      (rd.scope = .policyNamespace → pod.ns = ns)))
  | .namespaceSelector m =>
    inferInstanceAs (Decidable (∃ pod, pod ∈ peer.pod ∧ HasLabels m pod.nsLabels))
  | .ipBlock cidr except => inferInstanceAs (Decidable (InBlock rd cidr except peer.ip))

instance (p : PortSpec) (t : Traffic Ip) : Decidable (p.Covers t) :=
  inferInstanceAs (Decidable (_ ∧ _ ∧ _))

instance (ports : List PortSpec) (t : Traffic Ip) : Decidable (PortsCover ports t) :=
  inferInstanceAs (Decidable (_ ∨ ∃ p ∈ ports, p.Covers t))

instance (r : NetworkPolicyRule) (t : Traffic Ip) : Decidable (r.Applies t) :=
  inferInstanceAs (Decidable (_ ∧ _))

instance (rd : Reading Ip) (ns : String) (r : NetworkPolicyRule) (t : Traffic Ip) :
    Decidable (r.Permits rd ns t) :=
  inferInstanceAs (Decidable ((∃ sel ∈ r.allowedPeers, sel.Selects rd ns t.peer) ∧ _))

instance (rd : Reading Ip) (ns : String) (rules : List NetworkPolicyRule) (t : Traffic Ip) :
    Decidable (Allows rd ns rules t) :=
  inferInstanceAs (Decidable ((∀ r ∈ rules, ¬ r.Applies t) ∨ ∃ r ∈ rules, r.Applies t ∧
    r.Permits rd ns t))

end Engenho.NetworkPolicy
