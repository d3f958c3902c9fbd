import Mathlib.Data.List.Forall2
import Engenho.Controllers.NetworkPolicy

/-!
# NetworkPolicy objects and what they mean

The objects of the API with the meaning that its fields are documented with, apart from the
controller that translates them. An entry and a rule keep the document they were decoded from.

* `Object`, `decode`: the objects, and the documents that are one. A member that is null is not
  there.
* `Object.Denies`: a pod is selected in a direction, and no rule allows the peer and the port.
-/

namespace Engenho.NetworkPolicy

/-! ## Label selectors -/

/-- The operator of an expression. -/
inductive Operator where
  | isIn
  | notIn
  | present
  | absent
deriving DecidableEq, Repr

/-- An expression over one label. -/
structure Expression where
  key : String
  operator : Operator
  values : List String
deriving DecidableEq, Repr

/-- The labels meet the expression. -/
def Expression.Holds (e : Expression) (labels : String → Option String) : Prop :=
  match e.operator with
  | .isIn => ∃ v ∈ e.values, labels e.key = some v
  | .notIn => ∀ v ∈ e.values, labels e.key ≠ some v
  | .present => ∃ v, labels e.key = some v
  | .absent => labels e.key = none

/-- A selector, by labels and expressions. -/
structure LabelSelector where
  matchLabels : LabelMap
  matchExpressions : List Expression
  distinct : (matchLabels.map Prod.fst).Nodup
deriving DecidableEq, Repr

def LabelSelector.everything : LabelSelector := ⟨[], [], List.nodup_nil⟩

/-- The labels meet the selector. -/
def LabelSelector.Matches (s : LabelSelector) (labels : String → Option String) : Prop :=
  HasLabels s.matchLabels labels ∧ ∀ e ∈ s.matchExpressions, e.Holds labels

/-! ## Peers and ports -/

/-- A peer of a rule. -/
inductive Peer where
  | ipBlock (cidr : String) (except : List String)
  | pods (pods : LabelSelector)
  | namespaces (namespaces : LabelSelector)
  | podsIn (pods namespaces : LabelSelector)
deriving DecidableEq, Repr

/-- The port that is named. -/
inductive PortChoice where
  | all
  | number (n : Nat)
  | range (first last : Nat)
  | named (name : String)
deriving DecidableEq, Repr

/-- A port of a rule. -/
structure Port where
  protocol : Protocol
  choice : PortChoice
deriving DecidableEq, Repr

variable {Ip : Type}

/-- A selector of pods alone means pods in the namespace of the policy, `ns`. -/
def Peer.Selects (rd : Reading Ip) (ns : String) (peer : Endpoint Ip) : Peer → Prop
  | .ipBlock cidr except => InBlock rd cidr except peer.ip
  | .pods p => ∃ pod, peer.pod = some pod ∧ pod.ns = ns ∧ p.Matches pod.labels
  | .namespaces n => ∃ pod, peer.pod = some pod ∧ n.Matches pod.nsLabels
  | .podsIn p n => ∃ pod, peer.pod = some pod ∧ n.Matches pod.nsLabels ∧ p.Matches pod.labels

/-- The port is meant. -/
def Port.Covers (p : Port) (t : Traffic Ip) : Prop :=
  p.protocol = t.protocol ∧
    match p.choice with
    | .all => True
    | .number n => t.port = n
    | .range first last => first ≤ t.port ∧ t.port ≤ last
    | .named name => name ∈ t.names

/-! ## Decoding -/

/-- A member that is there and not null. -/
def member (k : String) (v : Json) : Option Json := (v.get k).filter fun m => !m.isNull

/-- Every element, or none. -/
def decodeAll {α : Type} (f : Json → Option α) : List Json → Option (List α)
  | [] => some []
  | v :: vs => do
    let a ← f v
    let as ← decodeAll f vs
    pure (a :: as)

/-- A list that may be left out. -/
def decodeList {α : Type} (f : Json → Option α) : Option Json → Option (List α)
  | none => some []
  | some (.arr vs) => decodeAll f vs
  | some _ => none

def decodeLabel (kv : String × Json) : Option (String × String) := kv.2.asStr.map fun s => (kv.1, s)

def decodeFields : JsonMap → Option LabelMap
  | [] => some []
  | kv :: m => do
    let label ← decodeLabel kv
    let labels ← decodeFields m
    pure (label :: labels)

def decodeLabels : Option Json → Option LabelMap
  | none => some []
  | some (.obj m) => decodeFields m
  | some _ => none

def decodeOperator : Json → Option Operator
  | .str s =>
    if s = "In" then some .isIn
    else if s = "NotIn" then some .notIn
    else if s = "Exists" then some .present
    else if s = "DoesNotExist" then some .absent
    else none
  | _ => none

def decodeExpression (v : Json) : Option Expression := do
  let key ← (member "key" v).bind Json.asStr
  let operator ← (member "operator" v).bind decodeOperator
  let values ← decodeList Json.asStr (member "values" v)
  pure ⟨key, operator, values⟩

def decodeSelector (v : Json) : Option LabelSelector := do
  let labels ← decodeLabels (member "matchLabels" v)
  let expressions ← decodeList decodeExpression (member "matchExpressions" v)
  if h : v.isObject = true ∧
    (labels.map Prod.fst).Nodup then pure ⟨labels, expressions, h.2⟩ else none

def decodeIpBlock (v : Json) : Option Peer := do
  let cidr ← (member "cidr" v).bind Json.asStr
  let except ← decodeList Json.asStr (member "except" v)
  pure (.ipBlock cidr except)

/-- An entry is an address block, or selects pods, namespaces, or pods in namespaces. -/
def decodePeer (v : Json) : Option Peer :=
  match member "ipBlock" v, member "podSelector" v, member "namespaceSelector" v with
  | some ip, none, none => decodeIpBlock ip
  | none, some p, none => (decodeSelector p).map .pods
  | none, none, some n => (decodeSelector n).map .namespaces
  | none, some p, some n => do
    let pods ← decodeSelector p
    let namespaces ← decodeSelector n
    pure (.podsIn pods namespaces)
  | _, _, _ => none

/-- A peer with the text it was read from. -/
structure Entry where
  raw : Json
  peer : Peer
  decoded : decodePeer raw = some peer

def decodeEntry (v : Json) : Option Entry :=
  match h : decodePeer v with
  | some peer => some ⟨v, peer, h⟩
  | none => none

def decodeProtocol : Option Json → Option Protocol
  | none => some .tcp
  | some (.str s) =>
    if s = "TCP" then some .tcp
    else if s = "UDP" then some .udp
    else if s = "SCTP" then some .sctp
    else none
  | some _ => none

/-- Reads the ports. -/
def decodeChoice : Option Json → Option Json → Option PortChoice
  | none, none => some .all
  | some (.str s), none => some (.named s)
  | some (.num (.int n)), none => if 1 ≤ n ∧ n < 2 ^ 16 then some (.number n.toNat) else none
  | some (.num (.int n)), some (.num (.int e)) =>
    if 1 ≤ n ∧ n ≤ e ∧ e < 2 ^ 16 then some (.range n.toNat e.toNat) else none
  | _, _ => none

def decodePort (v : Json) : Option Port := do
  let protocol ← decodeProtocol (member "protocol" v)
  let choice ← decodeChoice (member "port" v) (member "endPort" v)
  pure ⟨protocol, choice⟩

/-- A rule, with the entries under `peerField`. -/
structure Rule where
  raw : Json
  peerField : String
  entries : List Entry
  ports : List Port
  decodedEntries : decodeList decodeEntry (member peerField raw) = some entries
  decodedPorts : decodeList decodePort (member "ports" raw) = some ports

def decodeRule (peerField : String) (v : Json) : Option Rule :=
  match he : decodeList decodeEntry (member peerField v),
    hp : decodeList decodePort (member "ports" v) with
  | some entries, some ports => some ⟨v, peerField, entries, ports, he, hp⟩
  | _, _ => none

def decodeDirection : Json → Option Direction
  | .str s => if s = "Ingress" then some .ingress else if s = "Egress" then some .egress else none
  | _ => none

/-- `policyTypes` is `none` where it is left out. -/
structure Object where
  name : String
  ns : String
  hasSpec : Bool
  podSelector : LabelSelector
  policyTypes : Option (List Direction)
  ingress : List Rule
  egress : List Rule

def decodePodSelector : Option Json → Option LabelSelector
  | none => some LabelSelector.everything
  | some v => decodeSelector v

/-- Reads the directions of a policy. -/
def decodeTypes : Option Json → Option (Option (List Direction))
  | none => some none
  | some (.arr vs) => (decodeAll decodeDirection vs).map some
  | some _ => none

def decodeSpec (name ns : String) (spec : Json) : Option Object := do
  let podSelector ← decodePodSelector (member "podSelector" spec)
  let policyTypes ← decodeTypes (member "policyTypes" spec)
  let ingress ← decodeList (decodeRule "from") (member "ingress" spec)
  let egress ← decodeList (decodeRule "to") (member "egress" spec)
  pure ⟨name, ns, true, podSelector, policyTypes, ingress, egress⟩

def decodeNamespace : Option Json → Option String
  | none => some "default"
  | some v => v.asStr

/-- Reads a policy. -/
def decode (policy : Json) : Option Object := do
  let metadata ← member "metadata" policy
  let name ← (member "name" metadata).bind Json.asStr
  let ns ← decodeNamespace (member "namespace" metadata)
  if name.isEmpty then none
  else
    match member "spec" policy with
    | none => pure ⟨name, ns, false, LabelSelector.everything, none, [], []⟩
    | some spec => if spec.isObject then decodeSpec name ns spec else none

/-! ## What an object means -/

def Object.rules (o : Object) : Direction → List Rule
  | .ingress => o.ingress
  | .egress => o.egress

/-- Without types an object restricts ingress, and egress if it has rules for it. -/
def Object.isolates (o : Object) (d : Direction) : Bool :=
  match o.policyTypes with
  | some (d' :: ds) => (d' :: ds).contains d
  | _ => d = .ingress || !o.egress.isEmpty

def Rule.PortsCover (r : Rule) (t : Traffic Ip) : Prop := r.ports = [] ∨ ∃ p ∈ r.ports, p.Covers t

/-- The rule allows this traffic. -/
def Rule.Permits (rd : Reading Ip) (ns : String) (r : Rule) (t : Traffic Ip) : Prop :=
  (r.entries = [] ∨ ∃ e ∈ r.entries, e.peer.Selects rd ns t.peer) ∧ r.PortsCover t

/-- The object alone denies the traffic. -/
@[mk_iff]
structure Object.Denies (rd : Reading Ip) (o : Object) (t : Traffic Ip) : Prop where
  ns : t.pod.ns = o.ns
  selected : o.podSelector.Matches t.pod.labels
  isolated : o.isolates t.direction = true
  denied : ∀ r ∈ o.rules t.direction, ¬ r.Permits rd o.ns t

/-! ## Deciding it -/

instance (e : Expression) (labels : String → Option String) : Decidable (e.Holds labels) :=
  match e with
  | ⟨key, .isIn, values⟩ => inferInstanceAs (Decidable (∃ v ∈ values, labels key = some v))
  | ⟨key, .notIn, values⟩ => inferInstanceAs (Decidable (∀ v ∈ values, labels key ≠ some v))
  | ⟨_, .present, _⟩ => decidable_of_iff _ Option.isSome_iff_exists
  | ⟨key, .absent, _⟩ => inferInstanceAs (Decidable (labels key = none))

instance (s : LabelSelector) (labels : String → Option String) : Decidable (s.Matches labels) :=
  inferInstanceAs (Decidable (_ ∧ ∀ e ∈ s.matchExpressions, e.Holds labels))

instance (rd : Reading Ip) (ns : String) (peer : Endpoint Ip) (p : Peer) :
    Decidable (p.Selects rd ns peer) :=
  match p with
  | .ipBlock cidr except => inferInstanceAs (Decidable (InBlock rd cidr except peer.ip))
  | .pods p =>
    inferInstanceAs (Decidable (∃ pod, pod ∈ peer.pod ∧ pod.ns = ns ∧ p.Matches pod.labels))
  | .namespaces n => inferInstanceAs (Decidable (∃ pod, pod ∈ peer.pod ∧ n.Matches pod.nsLabels))
  | .podsIn p n => inferInstanceAs (Decidable (∃ pod, pod ∈ peer.pod ∧ n.Matches pod.nsLabels ∧
      p.Matches pod.labels))

instance (p : Port) (t : Traffic Ip) : Decidable (p.Covers t) :=
  match p with
  | ⟨_, .all⟩ => inferInstanceAs (Decidable (_ ∧ True))
  | ⟨_, .number n⟩ => inferInstanceAs (Decidable (_ ∧ t.port = n))
  | ⟨_, .range first last⟩ => inferInstanceAs (Decidable (_ ∧ first ≤ t.port ∧ t.port ≤ last))
  | ⟨_, .named name⟩ => inferInstanceAs (Decidable (_ ∧ name ∈ t.names))

instance (r : Rule) (t : Traffic Ip) : Decidable (r.PortsCover t) :=
  decidable_of_iff (r.ports.isEmpty = true ∨ ∃ p ∈ r.ports, p.Covers t)
    (by rw [List.isEmpty_iff]; rfl)

instance (rd : Reading Ip) (ns : String) (r : Rule) (t : Traffic Ip) :
    Decidable (r.Permits rd ns t) :=
  decidable_of_iff ((r.entries.isEmpty = true ∨ ∃ e ∈ r.entries, e.peer.Selects rd ns t.peer) ∧
    r.PortsCover t)
    (by rw [List.isEmpty_iff]; rfl)

instance (rd : Reading Ip) (o : Object) (t : Traffic Ip) : Decidable (o.Denies rd t) :=
  decidable_of_iff _ (Object.denies_iff ..).symm

end Engenho.NetworkPolicy
