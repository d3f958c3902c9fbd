import Engenho.Controllers.NetworkPolicyObject

/-!
# The rules of an object

What the controller makes of each part of a document that is an object, in terms of the object.

* `peerOf_decode`, `portOf_decode`: the selector of an entry and the numbers of a port.
* `Rule.peersOf_raw`, `Rule.portsOf_raw`: the lists of a rule, with what is left out of them.
* `PolicyRead.mem_translate`: the rules of the whole document, direction by direction.
-/

namespace Engenho.NetworkPolicy
open Json List Option

/-! ## Members -/

/-- A member that is written as null. -/
def writesNull (k : String) (v : Json) : Bool := v.get k = some .null

variable {v policy : Json} {vs : List Json} {o : Object}
variable {k : String}

theorem member_eq_some {m : Json} : member k v = some m ↔ v.get k = some m ∧ m ≠ .null := by
  rw [member, filter_eq_some_iff]
  cases m <;> simp [isNull]

theorem member_eq_none :
    member k v = none ↔ v.get k = if writesNull k v then some .null else none := by
  unfold member writesNull
  cases v.get k with
  | none => simp
  | some m => cases m <;> simp [isNull]

/-- A reader that takes nothing from null reads the member. -/
theorem get_bind_eq {α : Type} {f : Json → Option α} (hf : f .null = none) (k : String) (v : Json) :
    (v.get k).bind f = (member k v).bind f := by
  unfold member
  cases v.get k with
  | none => rfl
  | some m =>
    cases m with
    | null => exact hf
    | _ => rfl

section Lists
variable {α : Type} {f : Json → Option α}
variable {as : List α}

theorem decodeAll_eq_some (h : decodeAll f vs = some as) :
    List.Forall₂ (fun v a => f v = some a) vs as := by
  induction vs generalizing as with
  | nil =>
    cases h
    exact .nil
  | cons v vs ih =>
    obtain ⟨a, ha, h⟩ := bind_eq_some_iff.mp h
    obtain ⟨as', has, h⟩ := bind_eq_some_iff.mp h
    cases h
    exact .cons ha (ih has)

theorem decodeList_eq_some (h : decodeList f (member k v) = some as) :
    List.Forall₂ (fun v a => f v = some a) (((v.get k).bind asArray).getD []) as := by
  rw [get_bind_eq rfl]
  cases hm : member k v with
  | none =>
    rw [hm] at h
    cases h
    exact .nil
  | some m =>
    rw [hm] at h
    cases m with
    | arr vs => exact decodeAll_eq_some h
    | _ => cases h

theorem filterMap_of_forall₂ {β : Type} {g : Json → Option β} {g' : α → Option β}
    (h : List.Forall₂ (fun v a => f v = some a) vs as) (hg : ∀ v a, f v = some a → g v = g' a) :
    vs.filterMap g = as.filterMap g' := by
  induction h with
  | nil => rfl
  | cons hva _ ih => rw [filterMap_cons, filterMap_cons, hg _ _ hva, ih]

end Lists

/-! ## Entries -/

theorem decodeFields_filterMap {m : JsonMap} {labels : LabelMap}
    (h : decodeFields m = some labels) :
    m.filterMap (fun kv => kv.2.asStr.map fun s => (kv.1, s)) = labels := by
  induction m generalizing labels with
  | nil =>
    cases h
    rfl
  | cons kv m ih =>
    obtain ⟨label, hlabel, h⟩ := bind_eq_some_iff.mp h
    obtain ⟨labels', hlabels, h⟩ := bind_eq_some_iff.mp h
    cases h
    rw [decodeLabel] at hlabel
    rw [filterMap_cons, hlabel, ih hlabels]

theorem matchLabelsOf_decode {s : LabelSelector} (h : decodeSelector v = some s) :
    matchLabelsOf (some v) = s.matchLabels := by
  obtain ⟨labels, hlabels, h⟩ := bind_eq_some_iff.mp h
  obtain ⟨exprs, -, h⟩ := bind_eq_some_iff.mp h
  split at h
  · cases h
    rw [matchLabelsOf, bind_some, get_bind_eq rfl]
    cases hm : member "matchLabels" v with
    | none =>
      rw [hm] at hlabels
      cases hlabels
      rfl
    | some m =>
      rw [hm] at hlabels
      cases m with
      | obj m => exact decodeFields_filterMap hlabels
      | _ => cases hlabels
  · cases h

/-- What the controller makes of an entry. A null in its place hides the selector of an entry. -/
def entrySelector (v : Json) : Peer → Option PeerSelector
  | .ipBlock cidr except => some (.ipBlock cidr except)
  | .pods p => if writesNull "ipBlock" v then none else some (.podSelector p.matchLabels)
  | .namespaces n =>
    if writesNull "ipBlock" v then none
    else if writesNull "podSelector" v then some (.podSelector [])
    else some (.namespaceSelector n.matchLabels)
  | .podsIn p _ => if writesNull "ipBlock" v then none else some (.podSelector p.matchLabels)

theorem filterMap_asStr {ss : List String} (h : List.Forall₂ (fun v s => asStr v = some s) vs ss) :
    vs.filterMap asStr = ss := by
  have hmap : vs.filterMap asStr = ss.filterMap some := filterMap_of_forall₂ h fun _ _ heq => heq
  rw [hmap, filterMap_some]

theorem peerOf_ipBlock {ip : Json} {p : Peer} (hget : v.get "ipBlock" = some ip)
    (h : decodeIpBlock ip = some p) :
    peerOf v = entrySelector v p := by
  obtain ⟨cidr, hcidr, h⟩ := bind_eq_some_iff.mp h
  obtain ⟨except, hexcept, h⟩ := bind_eq_some_iff.mp h
  cases h
  have hlist := filterMap_asStr (decodeList_eq_some hexcept)
  have hgetD : (((ip.get "except").bind asArray).map fun a => a.filterMap asStr).getD
      [] = except := by
    rw [← hlist]
    cases (ip.get "except").bind asArray <;> rfl
  rw [peerOf, hget]
  simp only [get_bind_eq (f := asStr) rfl, hcidr, hgetD]
  rfl

theorem peerOf_pods {sel : Json} (hip : v.get "ipBlock" = none)
    (hpods : v.get "podSelector" = some sel) :
    peerOf v = some (.podSelector (matchLabelsOf (some sel))) := by
  rw [peerOf, hip, hpods]

/-- A null for the block of an entry hides its selector. -/
theorem peerOf_unless {x : Option PeerSelector} (hip : member "ipBlock" v = none)
    (h : v.get "ipBlock" = none → peerOf v = x) :
    peerOf v = if writesNull "ipBlock" v then none else x := by
  rw [member_eq_none] at hip
  split at hip
  · rename_i hnull
    rw [if_pos hnull, peerOf, hip]
    rfl
  · rename_i hnull
    rw [if_neg hnull, h hip]

theorem peerOf_decode {p : Peer} (h : decodePeer v = some p) : peerOf v = entrySelector v p := by
  unfold decodePeer at h
  split at h
  · rename_i ip hip _ _
    exact peerOf_ipBlock (member_eq_some.mp hip).1 h
  · rename_i sel hip hpods hns
    obtain ⟨p, hp, rfl⟩ := map_eq_some_iff.mp h
    refine peerOf_unless hip fun hget => ?_
    rw [peerOf_pods hget (member_eq_some.mp hpods).1, matchLabelsOf_decode hp]
  · rename_i sel hip hpods hns
    obtain ⟨n, hn, rfl⟩ := map_eq_some_iff.mp h
    refine peerOf_unless hip fun hget => ?_
    rw [member_eq_none] at hpods
    split at hpods
    · rename_i hnull
      rw [if_pos hnull, peerOf, hget, hpods]
      rfl
    · rename_i hnull
      rw [if_neg hnull, peerOf, hget, hpods, (member_eq_some.mp hns).1, map_some,
        matchLabelsOf_decode hn]
  · rename_i pods nss hip hpods hns
    obtain ⟨p, hp, h⟩ := bind_eq_some_iff.mp h
    obtain ⟨n, hn, h⟩ := bind_eq_some_iff.mp h
    cases h
    refine peerOf_unless hip fun hget => ?_
    rw [peerOf_pods hget (member_eq_some.mp hpods).1, matchLabelsOf_decode hp]
  · cases h

/-! ## Ports -/

/-- What the controller makes of a port: only a number is kept. -/
def Port.spec (p : Port) : Option PortSpec :=
  match p.choice with
  | .number n => some ⟨n, none, p.protocol.text⟩
  | .range first last => some ⟨first, some last, p.protocol.text⟩
  | _ => none

theorem protocol_decode {v : Option Json} {p : Protocol} (h : decodeProtocol v = some p) :
    (v.bind asStr).getD "TCP" = p.text := by
  unfold decodeProtocol at h
  split at h
  · cases h
    rfl
  · split_ifs at h with htcp hudp hsctp
    · cases h
      exact htcp
    · cases h
      exact hudp
    · cases h
      exact hsctp
  · cases h

theorem asU16_int {n : Int} (hlow : 0 ≤ n) (hhigh : n < 2 ^ 16) :
    asU16 (.num (.int n)) = some n.toNat :=
  if_pos ⟨hlow, hhigh⟩

theorem choice_decode {port endPort : Option Json} {c : PortChoice}
    (h : decodeChoice port endPort = some c) (p : Protocol) :
    ((port.bind asU16).map fun n => (⟨n, endPort.bind asU16, p.text⟩ : PortSpec)) =
      Port.spec ⟨p, c⟩ := by
  unfold decodeChoice at h
  split at h
  · cases h
    rfl
  · cases h
    rfl
  · split_ifs at h with hn
    cases h
    rw [bind_some, asU16_int (by omega) hn.2]
    rfl
  · split_ifs at h with hn
    cases h
    rw [bind_some, bind_some, asU16_int (by omega) hn.2.2, asU16_int (by omega) (by omega)]
    rfl
  · cases h

theorem portOf_decode {p : Port} (h : decodePort v = some p) : portOf v = p.spec := by
  obtain ⟨protocol, hprotocol, h⟩ := bind_eq_some_iff.mp h
  obtain ⟨choice, hchoice, h⟩ := bind_eq_some_iff.mp h
  cases h
  rw [portOf, get_bind_eq rfl, get_bind_eq rfl, get_bind_eq rfl, protocol_decode hprotocol]
  exact choice_decode hchoice protocol

/-! ## Rules -/

namespace Rule

theorem portsOf_raw (r : Rule) : portsOf r.raw = r.ports.filterMap Port.spec := by
  have hports := decodeList_eq_some r.decodedPorts
  rw [← filterMap_of_forall₂ hports fun _ _ h => portOf_decode h, portsOf]
  cases (r.raw.get "ports").bind asArray <;> rfl

theorem raw_of_decodeEntry {e : Entry} (h : decodeEntry v = some e) : e.raw = v := by
  unfold decodeEntry at h
  split at h
  · cases h
    rfl
  · cases h

theorem map_raw {es : List Entry} (h : List.Forall₂ (fun v e => decodeEntry v = some e) vs es) :
    es.map Entry.raw = vs := by
  induction h with
  | nil => rfl
  | cons hve _ ih => rw [map_cons, raw_of_decodeEntry hve, ih]

/-- The peers of a rule: all of them, or those of its entries that are kept, if there are any. -/
theorem peersOf_raw (r : Rule) : peersOf r.peerField r.raw =
    if r.entries = [] then some [.ipBlock allowAllCidr []]
    else if r.entries.filterMap (fun e => peerOf e.raw) = [] then none
    else some (r.entries.filterMap fun e => peerOf e.raw) := by
  have hentries := map_raw (decodeList_eq_some r.decodedEntries)
  have hfilter : r.entries.filterMap (fun e => peerOf e.raw) =
      ((((r.raw.get r.peerField).bind asArray).getD []).filterMap peerOf) := by
    rw [← hentries, filterMap_map]
    rfl
  have hnil : r.entries = [] ↔ ((r.raw.get r.peerField).bind asArray).getD [] = [] := by
    rw [← hentries, map_eq_nil_iff]
  simp only [hnil, hfilter, peersOf]
  cases (r.raw.get r.peerField).bind asArray with
  | none => rfl
  | some vs =>
    cases vs with
    | nil => rfl
    | cons v vs => simp

end Rule

theorem of_decodeRule {peerField : String} {r : Rule} (h : decodeRule peerField v = some r) :
    r.raw = v ∧ r.peerField = peerField := by
  unfold decodeRule at h
  split at h
  · cases h
    exact ⟨rfl, rfl⟩
  · cases h

theorem exists_rule {peerField : String} {rs : List Rule}
    (h : List.Forall₂ (fun v r => decodeRule peerField v = some r) vs rs) :
    (∀ v ∈ vs, ∃ r ∈ rs, r.raw = v ∧ r.peerField = peerField) ∧
      ∀ r ∈ rs, r.raw ∈ vs ∧ r.peerField = peerField := by
  induction h with
  | nil => simp
  | @cons v r vs rs hvr _ ih =>
    obtain ⟨hraw, hfield⟩ := of_decodeRule hvr
    refine ⟨forall_mem_cons.mpr ⟨⟨r, (.head _), hraw, hfield⟩, fun w hw => ?_⟩,
      forall_mem_cons.mpr ⟨⟨by simp [hraw], hfield⟩, fun q hq => ?_⟩⟩
    · obtain ⟨q, hq, heq⟩ := ih.1 w hw
      exact ⟨q, mem_cons_of_mem _ hq, heq⟩
    · exact ⟨mem_cons_of_mem _ (ih.2 q hq).1, (ih.2 q hq).2⟩

section Directions
variable {ns name peerField : String} {sel : LabelMap} {d : Direction} {rules : Option (List Json)}
  {rs : List Rule}

section
variable (hrs : List.Forall₂ (fun v r => decodeRule peerField v = some r) (rules.getD []) rs)
include hrs

/-- A rule of a direction denies all, or is that of a rule of the object. -/
theorem mem_translateDirection
    {r : NetworkPolicyRule} (h : r ∈ translateDirection ns name sel d peerField rules) :
    r.direction = d ∧ r.podSelector = sel ∧
      (r.allowedPeers = [] ∨ ∃ rule ∈ rs, peersOf rule.peerField rule.raw = some r.allowedPeers ∧
        r.allowedPorts = portsOf rule.raw) := by
  unfold translateDirection at h
  split at h
  · rw [mem_singleton] at h
    subst h
    exact ⟨rfl, rfl, .inl rfl⟩
  · rw [mem_singleton] at h
    subst h
    exact ⟨rfl, rfl, .inl rfl⟩
  · rename_i list _
    obtain ⟨⟨v, i⟩, hvi, hr⟩ := mem_filterMap.mp h
    obtain ⟨peers, hpeers, rfl⟩ := map_eq_some_iff.mp hr
    obtain ⟨rule, hrule, rfl, rfl⟩ := (exists_rule hrs).1 v (fst_mem_of_mem_zipIdx hvi)
    exact ⟨rfl, rfl, .inr ⟨rule, hrule, hpeers, rfl⟩⟩

/-- A direction has a rule unless all the rules of the object for it are left out. -/
theorem translateDirection_ne_nil : (∃ r, r ∈ translateDirection ns name sel d peerField rules) ↔
      rs = [] ∨ ∃ rule ∈ rs, ∃ peers, peersOf rule.peerField rule.raw = some peers := by
  unfold translateDirection
  split
  · cases hrs
    simp
  · cases hrs
    simp
  · rename_i list hne
    have hrs' : rs ≠ [] := by
      rintro rfl
      cases hrs
      exact hne rfl
    constructor
    · rintro ⟨r, hr⟩
      obtain ⟨⟨v, i⟩, hvi, hr⟩ := mem_filterMap.mp hr
      obtain ⟨peers, hpeers, -⟩ := map_eq_some_iff.mp hr
      obtain ⟨rule, hrule, rfl, rfl⟩ := (exists_rule hrs).1 v (fst_mem_of_mem_zipIdx hvi)
      exact .inr ⟨rule, hrule, peers, hpeers⟩
    · rintro (hnil | ⟨rule, hrule, peers, hpeers⟩)
      · exact absurd hnil hrs'
      obtain ⟨hraw, hfield⟩ := (exists_rule hrs).2 rule hrule
      obtain ⟨i, hi⟩ := mem_iff_getElem?.mp hraw
      rw [hfield] at hpeers
      exact ⟨_, mem_filterMap.mpr
        ⟨(rule.raw, i), mk_mem_zipIdx_iff_getElem?.mpr hi, by rw [hpeers]; rfl⟩⟩

end
end Directions

/-! ## Objects -/

def Direction.field : Direction → String
  | .ingress => "ingress"
  | .egress => "egress"

def Direction.peerField : Direction → String
  | .ingress => "from"
  | .egress => "to"

/-- The directions the controller translates. An empty list of types is taken as it is. -/
def Object.engages (o : Object) (d : Direction) : Bool :=
  match o.policyTypes with
  | some ts => ts.contains d
  | none => d = .ingress || !o.egress.isEmpty

/-- A spec and the object decoded from it. -/
structure SpecRead (spec : Json) (o : Object) : Prop where
  podSelector : matchLabelsOf (spec.get "podSelector") = o.podSelector.matchLabels
  types : effectivePolicyTypes spec = (o.engages .ingress, o.engages .egress)
  rules : ∀ d : Direction, List.Forall₂ (fun v r => decodeRule d.peerField v = some r)
    (((spec.get d.field).bind Json.asArray).getD []) (o.rules d)

theorem any_direction {ts : List Direction}
    (h : List.Forall₂ (fun v d => decodeDirection v = some d) vs ts) :
    (vs.any (fun v => v.asStr = some "Ingress"), vs.any (fun v => v.asStr = some "Egress")) =
      (ts.contains .ingress, ts.contains .egress) := by
  induction h with
  | nil => rfl
  | @cons v d _ _ hvd _ ih =>
    rw [Prod.mk.injEq] at ih ⊢
    rw [any_cons, any_cons, ih.1, ih.2]
    unfold decodeDirection at hvd
    split at hvd
    · split_ifs at hvd with hin hout
      · cases hvd
        subst hin
        exact ⟨rfl, rfl⟩
      · cases hvd
        subst hout
        exact ⟨rfl, rfl⟩
    · cases hvd

variable {spec : Json} {ns : String}

theorem podSelector_decode {sel : LabelSelector}
    (h : decodePodSelector (member "podSelector" spec) = some sel) :
    matchLabelsOf (spec.get "podSelector") = sel.matchLabels := by
  cases hm : member "podSelector" spec with
  | none =>
    rw [hm] at h
    cases h
    rw [member_eq_none] at hm
    rw [hm]
    split_ifs <;> rfl
  | some v =>
    rw [hm] at h
    rw [(member_eq_some.mp hm).1]
    exact matchLabelsOf_decode h

theorem isEmpty_of_forall₂ {α β : Type} {R : α → β → Prop} {as : Option (List α)} {bs : List β}
    (h : List.Forall₂ R (as.getD []) bs) : (as.any fun a => !a.isEmpty) = !bs.isEmpty := by
  cases as with
  | none =>
    cases h
    rfl
  | some as => cases h <;> rfl

theorem types_decode (h : decodeTypes (member "policyTypes" spec) = some o.policyTypes)
    (hout : List.Forall₂ (fun v r => decodeRule "to" v = some r)
      (((spec.get "egress").bind asArray).getD []) o.egress) :
    effectivePolicyTypes spec = (o.engages .ingress, o.engages .egress) := by
  rw [effectivePolicyTypes, get_bind_eq rfl]
  cases hm : member "policyTypes" spec with
  | none =>
    rw [hm] at h
    have htypes : o.policyTypes = none := (some_inj.mp h).symm
    rw [isEmpty_of_forall₂ hout]
    simp only [Object.engages, htypes]
    rfl
  | some v =>
    rw [hm] at h
    cases v with
    | arr vs =>
      obtain ⟨ts, hts, htypes⟩ := map_eq_some_iff.mp h
      simp only [Object.engages, ← htypes]
      exact any_direction (decodeAll_eq_some hts)
    | _ => cases h

theorem specRead_of_decodeSpec {name : String} (h : decodeSpec name ns spec = some o) :
    SpecRead spec o ∧ o.name = name ∧ o.ns = ns ∧ o.hasSpec = true := by
  obtain ⟨sel, hsel, h⟩ := bind_eq_some_iff.mp h
  obtain ⟨types, htypes, h⟩ := bind_eq_some_iff.mp h
  obtain ⟨ingress, hingress, h⟩ := bind_eq_some_iff.mp h
  obtain ⟨egress, hegress, h⟩ := bind_eq_some_iff.mp h
  cases h
  have hout := decodeList_eq_some hegress
  refine ⟨⟨podSelector_decode hsel, types_decode htypes hout, fun d => ?_⟩, rfl, rfl, rfl⟩
  cases d with
  | ingress => exact decodeList_eq_some hingress
  | egress => exact hout

/-- A document and the object decoded from it. -/
structure PolicyRead (policy : Json) (o : Object) : Prop where
  name : (((policy.get "metadata").bind (Json.get "name")).bind Json.asStr).getD "" = o.name
  named : ¬ o.name.isEmpty = true
  ns : (((policy.get "metadata").bind (Json.get "namespace")).bind Json.asStr).getD "default" = o.ns
  spec : (o.hasSpec = false ∧ (policy.get "spec").filter Json.isObject = none) ∨
    (o.hasSpec = true ∧ ∃ spec, (policy.get "spec").filter Json.isObject = some spec ∧
      SpecRead spec o)

theorem namespace_decode {metadata : Json}
    (h : decodeNamespace (member "namespace" metadata) = some ns) :
    ((metadata.get "namespace").bind asStr).getD "default" = ns := by
  rw [get_bind_eq rfl]
  cases hm : member "namespace" metadata with
  | none =>
    rw [hm] at h
    cases h
    rfl
  | some v =>
    rw [hm] at h
    have hstr : v.asStr = some ns := h
    rw [bind_some, hstr]
    rfl

theorem policyRead_of_decode (h : decode policy = some o) : PolicyRead policy o := by
  obtain ⟨metadata, hmeta, h⟩ := bind_eq_some_iff.mp h
  obtain ⟨name, hname, h⟩ := bind_eq_some_iff.mp h
  obtain ⟨ns, hns, h⟩ := bind_eq_some_iff.mp h
  have hmeta' := (member_eq_some.mp hmeta).1
  have hname' : (((policy.get "metadata").bind (get "name")).bind asStr).getD "" = name := by
    rw [hmeta', bind_some, get_bind_eq rfl, hname]
    rfl
  have hns' : (((policy.get "metadata").bind (get "namespace")).bind asStr).getD "default" =
      ns := by
    rw [hmeta']
    exact namespace_decode hns
  split at h
  · cases h
  rename_i hne
  cases hspec : member "spec" policy with
  | none =>
    rw [hspec] at h
    cases h
    refine ⟨hname', hne, hns', .inl ⟨rfl, ?_⟩⟩
    rw [member_eq_none.mp hspec]
    split_ifs <;> rfl
  | some spec =>
    rw [hspec] at h
    simp only at h
    split at h
    · rename_i hobj
      obtain ⟨hread, rfl, rfl, hoSpec⟩ := specRead_of_decodeSpec h
      refine ⟨hname', hne, hns', .inr ⟨hoSpec, spec, ?_, hread⟩⟩
      rw [(member_eq_some.mp hspec).1, filter_some, if_pos hobj]
    · cases h

theorem PolicyRead.translate_eq_nil (h : PolicyRead policy o) (hspec : o.hasSpec = false) :
    translate policy = [] := by
  rcases h.spec with ⟨-, hnone⟩ | ⟨htrue, -⟩
  · simp [translate, hnone]
  · rw [htrue] at hspec
    cases hspec

/-- The rules of an object with a spec: those of the directions it is taken for. -/
theorem PolicyRead.mem_translate (h : PolicyRead policy o) (hspec : o.hasSpec = true) :
    ∃ spec, SpecRead spec o ∧ ∀ r, r ∈ translate policy ↔ ∃ d : Direction, o.engages d = true ∧
        r ∈ translateDirection o.ns o.name o.podSelector.matchLabels d d.peerField
          ((spec.get d.field).bind asArray) := by
  rcases h.spec with ⟨hfalse, -⟩ | ⟨-, spec, hsome, hread⟩
  · rw [hspec] at hfalse
    cases hfalse
  refine ⟨spec, hread, fun r => ?_⟩
  simp only [translate, h.name, h.ns, if_neg h.named, hsome, hread.podSelector,
    hread.types, mem_append]
  have hmem : ∀ (b : Bool) (l : List NetworkPolicyRule), r ∈ (if b then l else []) ↔
      b = true ∧ r ∈ l := by
    intro b l
    cases b <;> simp
  rw [hmem, hmem]
  constructor
  · rintro (h | h)
    · exact ⟨.ingress, h⟩
    · exact ⟨.egress, h⟩
  · rintro ⟨d, h⟩
    cases d with
    | ingress => exact .inl h
    | egress => exact .inr h

end Engenho.NetworkPolicy
