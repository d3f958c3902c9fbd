import Engenho.Controllers.NetworkPolicyTranslation

/-!
# Where the rules of an object are wider than the object

The controller leaves out what a flat rule cannot say, entry by entry. An entry without its match
expressions or without its namespace selector selects more, ports that are all left out become every
port, and a direction whose types or rules are left out is not restricted.

* `Object.plain`: objects that lose nothing of that kind.
* `translate_noWider_iff`: no part of the rules is wider exactly for these objects, and then the
  rules allow nothing that the object denies.
* `translate_widens`: objects whose rules allow what they deny.
-/

namespace Engenho.NetworkPolicy
open List
variable {Ip : Type}

/-! ## Selectors without their expressions -/

/-- Every label set with the labels `m` satisfies the expression. -/
def Expression.impliedBy (m : LabelMap) (e : Expression) : Bool :=
  match e.operator with
  | .isIn => (m.lookup e.key).any fun v => e.values.contains v
  | .notIn => e.values.isEmpty || (m.lookup e.key).any fun v => !e.values.contains v
  | .present => (m.lookup e.key).isSome
  | .absent => false

/-- The expressions follow from the labels. -/
def LabelSelector.labelsSuffice (s : LabelSelector) : Bool :=
  s.matchExpressions.all fun e => e.impliedBy s.matchLabels

/-- It selects everything. -/
def LabelSelector.isTrivial (s : LabelSelector) : Bool := s.matchLabels.isEmpty && s.labelsSuffice

variable {m : LabelMap} {labels : String → Option String}

theorem hasLabels_lookup (hm : (m.map Prod.fst).Nodup) : HasLabels m fun k => m.lookup k := by
  induction m with
  | nil => simp [HasLabels]
  | cons kv m ih =>
    obtain ⟨k, v⟩ := kv
    rw [map_cons, nodup_cons] at hm
    intro kv' hmem
    change ((k, v) :: m).lookup kv'.1 = some kv'.2
    rw [Assoc.lookup_cons_ite]
    rcases mem_cons.mp hmem with rfl | hmem
    · exact if_pos rfl
    · have hkey : kv'.1 ∈ m.map Prod.fst := mem_map_of_mem hmem
      have hne : kv'.1 ≠ k := fun heq => hm.1 (heq ▸ hkey)
      rw [if_neg hne]
      exact ih hm.2 kv' hmem

/-- A label that is not asked for may have any value. -/
theorem hasLabels_put (h : HasLabels m labels) {k : String} (hk : m.lookup k = none)
    (v : Option String) :
    HasLabels m fun k' => if k' = k then v else labels k' := by
  intro kv hmem
  have hne : kv.1 ≠ k := by
    rintro rfl
    have hnot := lookup_eq_none_iff.mp hk kv hmem
    simp at hnot
  simp only [if_neg hne]
  exact h kv hmem

theorem lookup_of_hasLabels (h : HasLabels m labels) {k v : String} (hk : m.lookup k = some v) :
    labels k = some v :=
  h (k, v) (Assoc.mem_of_lookup hk)

theorem Expression.impliedBy_iff (hm : (m.map Prod.fst).Nodup) (e : Expression) :
    e.impliedBy m = true ↔ ∀ labels, HasLabels m labels → e.Holds labels := by
  obtain ⟨key, op, values⟩ := e
  have hbase := hasLabels_lookup hm
  cases hkey : m.lookup key with
  | none =>
    -- the label may have any value
    have hput := hasLabels_put hbase hkey
    cases op with
    | isIn =>
      refine iff_of_false (by simp [impliedBy, hkey]) fun h => ?_
      obtain ⟨v, -, hv⟩ := h _ (hput none)
      simp at hv
    | notIn =>
      constructor
      · intro h labels _ v hv
        simp only [impliedBy, hkey, Option.any_none, Bool.or_false, List.isEmpty_iff] at h
        rw [h] at hv
        cases hv
      · intro h
        cases values with
        | nil => rfl
        | cons v vs => exact absurd (if_pos rfl) (h _ (hput (some v)) v (.head _))
    | present =>
      refine iff_of_false (by simp [impliedBy, hkey]) fun h => ?_
      obtain ⟨v, hv⟩ := h _ (hput none)
      simp at hv
    | absent =>
      refine iff_of_false (by simp [impliedBy]) fun h => ?_
      have hv := h _ (hput (some ""))
      simp [Holds] at hv
  | some v =>
    have hlabel : ∀ labels, HasLabels m labels → labels key = some v :=
      fun labels h => lookup_of_hasLabels h hkey
    cases op with
    | isIn =>
      simp only [impliedBy, hkey, Option.any_some, contains_eq_mem, decide_eq_true_eq, Holds]
      constructor
      · exact fun h labels hl => ⟨v, h, hlabel labels hl⟩
      intro h
      obtain ⟨w, hw, heq⟩ := h _ hbase
      rw [hkey, Option.some_inj] at heq
      rw [heq]
      exact hw
    | notIn =>
      simp only [impliedBy, hkey, Option.any_some]
      constructor
      · intro h labels hl w hw heq
        rw [hlabel labels hl, Option.some_inj] at heq
        subst heq
        cases values with
        | nil => cases hw
        | cons u us => simp [hw] at h
      · intro h
        have hnot : v ∉ values := fun hv => h _ hbase v hv hkey
        simp [hnot]
    | present =>
      simp only [impliedBy, hkey]
      exact iff_of_true rfl fun labels hl => ⟨v, hlabel labels hl⟩
    | absent =>
      refine iff_of_false (by simp [impliedBy]) fun h => ?_
      have hnone := h _ hbase
      simp [Holds, hkey] at hnone

namespace LabelSelector
variable (s : LabelSelector)

/-- Its labels say all that the selector says. -/
theorem labelsSuffice_iff :
    s.labelsSuffice = true ↔ ∀ labels, HasLabels s.matchLabels labels → s.Matches labels := by
  simp only [labelsSuffice, all_eq_true, Expression.impliedBy_iff s.distinct]
  constructor
  · exact fun h labels hl => ⟨hl, fun e he => h e he labels hl⟩
  · exact fun h e he labels hl => (h labels hl).2 e he

theorem isTrivial_iff : s.isTrivial = true ↔ ∀ labels, s.Matches labels := by
  rw [isTrivial, Bool.and_eq_true, List.isEmpty_iff, labelsSuffice_iff]
  constructor
  · rintro ⟨hnil, h⟩ labels
    exact h labels (by simp [hnil, HasLabels])
  · intro h
    refine ⟨?_, fun labels _ => h labels⟩
    cases hm : s.matchLabels with
    | nil => rfl
    | cons kv m =>
      have hnone := (h fun _ => none).1 kv (by simp [hm])
      cases hnone

end LabelSelector

/-! ## Entries -/

/-- What the controller makes of the entry selects no more than the entry. -/
def Entry.NoWider (rd : Reading Ip) (ns : String) (e : Entry) : Prop :=
  ∀ peer sel, peerOf e.raw = some sel → sel.Selects rd ns peer → e.peer.Selects rd ns peer

/-- The entry is left out, or says no more than the labels of its selector of pods, in its
namespace, or those of its selector of namespaces. -/
def Entry.plain (scope : PodScope) (e : Entry) : Bool :=
  match e.peer with
  | .ipBlock _ _ => true
  | .pods p => writesNull "ipBlock" e.raw || (scope = .policyNamespace && p.labelsSuffice)
  | .namespaces n =>
    writesNull "ipBlock" e.raw ||
      if writesNull "podSelector" e.raw then n.isTrivial else n.labelsSuffice
  | .podsIn p n => writesNull "ipBlock" e.raw || (p.labelsSuffice && n.isTrivial)

theorem member_of_ipBlock {v : Json} {cidr : String} {except : List String}
    (h : decodePeer v = some (.ipBlock cidr except)) : ∃ ip, member "ipBlock" v = some ip := by
  unfold decodePeer at h
  split at h
  · rename_i ip hip _ _
    exact ⟨ip, hip⟩
  · obtain ⟨p, -, hp⟩ := Option.map_eq_some_iff.mp h
    cases hp
  · obtain ⟨n, -, hn⟩ := Option.map_eq_some_iff.mp h
    cases hn
  · obtain ⟨p, -, h⟩ := Option.bind_eq_some_iff.mp h
    obtain ⟨n, -, h⟩ := Option.bind_eq_some_iff.mp h
    cases h
  · cases h

variable (e : Entry)

theorem peerOf_eq_none : peerOf e.raw = none ↔ writesNull "ipBlock" e.raw = true := by
  rw [peerOf_decode e.decoded]
  have hdec := e.decoded
  cases hp : e.peer with
  | ipBlock cidr except =>
    refine iff_of_false (by simp [entrySelector]) fun hnull => ?_
    rw [hp] at hdec
    obtain ⟨ip, hip⟩ := member_of_ipBlock hdec
    have hget : e.raw.get "ipBlock" = some .null := by simpa [writesNull] using hnull
    rw [member_eq_some, hget] at hip
    exact hip.2 (Option.some_inj.mp hip.1).symm
  | pods p => simp [entrySelector]
  | namespaces n =>
    rw [entrySelector]
    split_ifs <;> simp_all
  | podsIn p n => simp [entrySelector]

theorem Entry.plain_of_null {scope : PodScope} (h : writesNull "ipBlock" e.raw = true) :
    e.plain scope = true := by
  unfold Entry.plain
  split <;> simp [h]

section Entries
variable [Inhabited Ip] {rd : Reading Ip} {ns : String}

def podPeer (pod : Pod) : Endpoint Ip := ⟨some pod, default⟩

theorem pods_noWider (p : LabelSelector) :
    (∀ peer, (PeerSelector.podSelector p.matchLabels).Selects rd ns peer →
      (Peer.pods p).Selects rd ns peer) ↔
      rd.scope = .policyNamespace ∧ p.labelsSuffice = true := by
  have hlabels := hasLabels_lookup p.distinct
  constructor
  · intro h
    have hscope : rd.scope = .policyNamespace := by
      by_contra hne
      -- a pod of another namespace with the labels
      obtain ⟨pod, hpod, hns, -⟩ :=
        h (podPeer ⟨ns ++ "x", fun k => p.matchLabels.lookup k, fun _ => none⟩)
        ⟨_, rfl, hlabels, fun hscope => absurd hscope hne⟩
      cases hpod
      simp at hns
    refine ⟨hscope, p.labelsSuffice_iff.mpr fun labels hl => ?_⟩
    obtain ⟨pod, hpod, -, hmatches⟩ :=
      h (podPeer ⟨ns, labels, fun _ => none⟩) ⟨_, rfl, hl, fun _ => rfl⟩
    cases hpod
    exact hmatches
  · rintro ⟨hscope, hsuffice⟩ peer ⟨pod, hpod, hl, hns⟩
    exact ⟨pod, hpod, hns hscope, p.labelsSuffice_iff.mp hsuffice _ hl⟩

theorem namespaces_noWider (n : LabelSelector) :
    (∀ peer, (PeerSelector.namespaceSelector n.matchLabels).Selects rd ns peer →
      (Peer.namespaces n).Selects rd ns peer) ↔ n.labelsSuffice = true := by
  rw [n.labelsSuffice_iff]
  constructor
  · intro h labels hl
    obtain ⟨pod, hpod, hmatches⟩ := h (podPeer ⟨ns, fun _ => none, labels⟩) ⟨_, rfl, hl⟩
    cases hpod
    exact hmatches
  · rintro h peer ⟨pod, hpod, hl⟩
    exact ⟨pod, hpod, h _ hl⟩

variable (rd ns) in
/-- Without its selector of namespaces an entry selects pods whatever their namespace is. -/
theorem podsIn_noWider (m : LabelMap) (hm : (m.map Prod.fst).Nodup)
    (Q : (String → Option String) → Prop)
    (n : LabelSelector) : (∀ peer : Endpoint Ip, (PeerSelector.podSelector m).Selects rd ns peer →
      ∃ pod, peer.pod = some pod ∧ n.Matches pod.nsLabels ∧ Q pod.labels) ↔
      (∀ labels, HasLabels m labels → Q labels) ∧ n.isTrivial = true := by
  rw [n.isTrivial_iff]
  constructor
  · intro h
    have hpod : ∀ labels nsLabels, HasLabels m labels → n.Matches nsLabels ∧ Q labels := by
      intro labels nsLabels hl
      obtain ⟨pod, hpod, hmatches⟩ := h (podPeer ⟨ns, labels, nsLabels⟩) ⟨_, rfl, hl, fun _ => rfl⟩
      cases hpod
      exact hmatches
    exact ⟨fun labels hl => (hpod labels (fun _ => none) hl).2,
      fun nsLabels => (hpod _ nsLabels (hasLabels_lookup hm)).1⟩
  · rintro ⟨hlabels, hns⟩ peer ⟨pod, hpod, hl, -⟩
    exact ⟨pod, hpod, hns _, hlabels _ hl⟩

omit [Inhabited Ip] in
theorem Entry.noWider_of_some {e : Entry} {sel : PeerSelector} (h : peerOf e.raw = some sel) :
    e.NoWider rd ns ↔ ∀ peer, sel.Selects rd ns peer → e.peer.Selects rd ns peer := by
  unfold Entry.NoWider
  rw [h]
  refine forall_congr' fun peer => ⟨fun hall hs => hall sel rfl hs, fun hall sel' heq hs => ?_⟩
  cases heq
  exact hall hs

theorem Entry.noWider_iff : e.NoWider rd ns ↔ e.plain rd.scope = true := by
  by_cases hnull : writesNull "ipBlock" e.raw = true
  · refine iff_of_true (fun peer sel hsel => ?_) (e.plain_of_null hnull)
    rw [(peerOf_eq_none e).mpr hnull] at hsel
    cases hsel
  have hsel := peerOf_decode e.decoded
  rw [Entry.plain]
  cases hp : e.peer with
  | ipBlock cidr except =>
    rw [hp] at hsel
    rw [Entry.noWider_of_some hsel, hp]
    exact iff_of_true (fun _ h => h) rfl
  | pods p =>
    rw [hp, entrySelector, if_neg hnull] at hsel
    rw [Entry.noWider_of_some hsel, hp, pods_noWider]
    simp [hnull]
  | namespaces n =>
    rw [hp, entrySelector, if_neg hnull] at hsel
    by_cases hpods : writesNull "podSelector" e.raw = true
    · rw [if_pos hpods] at hsel
      have h := podsIn_noWider rd ns [] nodup_nil (fun _ => True) n
      rw [Entry.noWider_of_some hsel, hp]
      simpa [Peer.Selects, hnull, hpods] using h
    · rw [if_neg hpods] at hsel
      rw [Entry.noWider_of_some hsel, hp, namespaces_noWider]
      simp [hnull, hpods]
  | podsIn p n =>
    rw [hp, entrySelector, if_neg hnull] at hsel
    have h := podsIn_noWider rd ns p.matchLabels p.distinct p.Matches n
    rw [← p.labelsSuffice_iff] at h
    rw [Entry.noWider_of_some hsel, hp]
    simpa [Peer.Selects, hnull] using h

end Entries

/-! ## Ports -/

/-- Some port is kept, or the ports are all ports. -/
def Rule.portsPlain (r : Rule) : Bool :=
  r.ports.isEmpty || r.ports.any (fun p => p.spec.isSome) ||
    [Protocol.tcp, .udp, .sctp].all fun protocol => r.ports.contains ⟨protocol, .all⟩

theorem Protocol.text_injective : Function.Injective Protocol.text := by
  intro a b h
  cases a <;> cases b <;> first | rfl | simp [text] at h

variable {t : Traffic Ip}

theorem Port.covers_of_spec {p : Port} {s : PortSpec} (h : p.spec = some s) (hcovers : s.Covers t) :
    p.Covers t := by
  obtain ⟨protocol, choice⟩ := p
  cases choice with
  | number n =>
    cases h
    obtain ⟨hprotocol, hlow, hhigh⟩ := hcovers
    exact ⟨Protocol.text_injective hprotocol, Nat.le_antisymm hhigh hlow⟩
  | range first last =>
    cases h
    obtain ⟨hprotocol, hlow, hhigh⟩ := hcovers
    exact ⟨Protocol.text_injective hprotocol, hlow, hhigh⟩
  | all | named name => cases h

theorem Port.covers_nameless {p : Port} (h : p.spec = none) (hnames : t.names = [])
    (hcovers : p.Covers t) :
    p = ⟨t.protocol, .all⟩ := by
  obtain ⟨protocol, choice⟩ := p
  obtain ⟨hprotocol, hchoice⟩ := hcovers
  cases choice with
  | all => exact congrArg (Port.mk · .all) hprotocol
  | named name =>
    have hmem : name ∈ t.names := hchoice
    rw [hnames] at hmem
    cases hmem
  | number n | range first last => cases h

section Ports
variable [Inhabited Ip]

def portTraffic (protocol : Protocol) : Traffic Ip :=
  ⟨.ingress, ⟨"", fun _ => none, fun _ => none⟩, ⟨none, default⟩, protocol, 0, []⟩

theorem Rule.ports_noWider_iff (r : Rule) :
    (∀ t : Traffic Ip, NetworkPolicy.PortsCover (portsOf r.raw) t → r.PortsCover t) ↔
    r.portsPlain = true := by
  rw [r.portsOf_raw]
  simp only [portsPlain, Bool.or_eq_true, List.isEmpty_iff, any_eq_true, all_eq_true,
    contains_iff_mem]
  by_cases hkept : ∃ p ∈ r.ports, p.spec.isSome = true
  · refine iff_of_true (fun t hcover => ?_) (.inl (.inr hkept))
    obtain ⟨p, hp, hsome⟩ := hkept
    obtain ⟨s, hs⟩ := Option.isSome_iff_exists.mp hsome
    rcases hcover with hnil | ⟨s', hs', hcovers⟩
    · exact absurd (filterMap_eq_nil_iff.mp hnil p hp) (by simp [hs])
    · obtain ⟨p', hp', heq⟩ := mem_filterMap.mp hs'
      exact .inr ⟨p', hp', Port.covers_of_spec heq hcovers⟩
  · have hnone : ∀ p ∈ r.ports, p.spec = none := by
      intro p hp
      by_contra hsome
      exact hkept ⟨p, hp, Option.isSome_iff_ne_none.mpr hsome⟩
    constructor
    · intro h
      by_cases hnil : r.ports = []
      · exact .inl (.inl hnil)
      -- a port without a name is covered by the ports of its protocol only
      · refine .inr fun protocol _ => ?_
        rcases h (portTraffic protocol) (.inl (filterMap_eq_nil_iff.mpr hnone)) with hnil' | ⟨p,
          hp, hcovers⟩
        · exact absurd hnil' hnil
        · rw [Port.covers_nameless (hnone p hp) rfl hcovers] at hp
          exact hp
    · rintro ((hnil | hsome) | hall) t -
      · exact .inl hnil
      · exact absurd hsome hkept
      · have hmem : (⟨t.protocol, .all⟩ : Port) ∈ r.ports :=
          hall t.protocol (by cases t.protocol <;> simp)
        exact .inr ⟨_, hmem, rfl, trivial⟩

end Ports

/-! ## Directions -/

theorem Direction.forall_iff {P : Direction → Prop} : (∀ d, P d) ↔ P .ingress ∧ P .egress := by
  refine ⟨fun h => ⟨h _, h _⟩, fun h d => ?_⟩
  cases d with
  | ingress => exact h.1
  | egress => exact h.2

/-- The rule has entries, and all of them are left out. -/
def Rule.dropped (r : Rule) : Bool :=
  !r.entries.isEmpty && r.entries.all fun e => writesNull "ipBlock" e.raw

/-- The directions that the object restricts have a rule. -/
def Object.keepsIsolation (o : Object) : Bool :=
  o.hasSpec && o.policyTypes ≠ some [] &&
    [Direction.ingress, .egress].all fun d =>
      !o.isolates d || (o.rules d).isEmpty || (o.rules d).any fun r => !r.dropped

theorem Rule.dropped_iff (r : Rule) : r.dropped = true ↔ peersOf r.peerField r.raw = none := by
  rw [r.peersOf_raw, dropped]
  by_cases hnil : r.entries = []
  · simp [hnil]
  simp only [Bool.and_eq_true, Bool.not_eq_true', isEmpty_eq_false_iff, all_eq_true]
  split_ifs with hpeers
  · rw [filterMap_eq_nil_iff] at hpeers
    exact iff_of_true ⟨hnil, fun e he => (peerOf_eq_none e).mp (hpeers e he)⟩ rfl
  · refine iff_of_false (fun h => hpeers ?_) (by simp)
    exact filterMap_eq_nil_iff.mpr fun e he => (peerOf_eq_none e).mpr (h.2 e he)

section Directions
variable {policy : Json} {o : Object}

/-- A rule of the controller denies all, or is that of a rule of the object. -/
theorem rule_of_mem_translate (h : decode policy = some o) {r : NetworkPolicyRule}
    (hr : r ∈ translate policy) :
    r.podSelector = o.podSelector.matchLabels ∧ (r.allowedPeers = [] ∨ ∃ rule ∈ o.rules r.direction,
        peersOf rule.peerField rule.raw = some r.allowedPeers ∧
        r.allowedPorts = portsOf rule.raw) := by
  have hread := policyRead_of_decode h
  cases hspec : o.hasSpec with
  | false =>
    rw [hread.translate_eq_nil hspec] at hr
    cases hr
  | true =>
    obtain ⟨spec, hsr, hmem⟩ := hread.mem_translate hspec
    obtain ⟨d, -, hd⟩ := (hmem r).mp hr
    obtain ⟨rfl, hsel, hrule⟩ := mem_translateDirection (hsr.rules d) hd
    exact ⟨hsel, hrule⟩

theorem Object.engages_eq (h : o.policyTypes ≠ some []) (d : Direction) :
    o.engages d = o.isolates d := by
  unfold engages isolates
  split
  · rename_i ts hts
    cases ts with
    | nil => exact absurd hts h
    | cons t ts => rw [hts]
  · rename_i hts
    rw [hts]

theorem Object.isolates_of_empty (h : o.policyTypes = some []) : o.isolates .ingress = true := by
  simp [isolates, h]

theorem Object.isolates_some (o : Object) : ∃ d, o.isolates d = true := by
  cases hts : o.policyTypes with
  | none => exact ⟨.ingress, by simp [isolates, hts]⟩
  | some ts =>
    cases ts with
    | nil => exact ⟨.ingress, isolates_of_empty hts⟩
    | cons d ds => exact ⟨d, by simp [isolates, hts]⟩

theorem keepsIsolation_iff (h : decode policy = some o) :
    o.keepsIsolation = true ↔
      ∀ d, o.isolates d = true → ∃ r ∈ translate policy, r.direction = d := by
  have hread := policyRead_of_decode h
  rw [Object.keepsIsolation]
  cases hspec : o.hasSpec with
  | false =>
    rw [hread.translate_eq_nil hspec]
    refine iff_of_false (by simp) fun hall => ?_
    obtain ⟨d, hd⟩ := o.isolates_some
    obtain ⟨r, hr, -⟩ := hall d hd
    cases hr
  | true =>
    obtain ⟨spec, hsr, hmem⟩ := hread.mem_translate hspec
    -- the rules of a direction are those of its own list
    have hdir : ∀ d, (∃ r ∈ translate policy, r.direction = d) ↔
        o.engages d = true ∧ (o.rules d = [] ∨ ∃ rule ∈ o.rules d, rule.dropped = false) := by
      intro d
      have hkept : ∀ rule : Rule, (∃ peers, peersOf rule.peerField rule.raw = some peers) ↔
          rule.dropped = false := by
        intro rule
        rw [← Option.ne_none_iff_exists', ← Bool.not_eq_true, rule.dropped_iff]
      have hne := @translateDirection_ne_nil o.ns o.name _ o.podSelector.matchLabels d _ _
        (hsr.rules d)
      simp only [hkept] at hne
      rw [← hne]
      constructor
      · rintro ⟨r, hr, rfl⟩
        obtain ⟨d, hd, hr⟩ := (hmem r).mp hr
        obtain ⟨rfl, -⟩ := mem_translateDirection (hsr.rules d) hr
        exact ⟨hd, r, hr⟩
      · rintro ⟨hd, r, hr⟩
        exact ⟨r, (hmem r).mpr ⟨d, hd, hr⟩, (mem_translateDirection (hsr.rules d) hr).1⟩
    by_cases htypes : o.policyTypes = some []
    · refine iff_of_false (by simp [htypes]) fun hall => ?_
      have hengages := ((hdir .ingress).mp (hall .ingress (o.isolates_of_empty htypes))).1
      simp [Object.engages, htypes] at hengages
    · have hall : (∀ d, o.isolates d = true → ∃ r ∈ translate policy, r.direction = d) ↔
          ∀ d, o.isolates d = true → o.rules d = [] ∨ ∃ rule ∈ o.rules d, rule.dropped = false := by
        refine forall_congr' fun d => imp_congr_right fun hd => ?_
        rw [hdir, o.engages_eq htypes, hd]
        simp
      rw [hall]
      simp [htypes, Direction.forall_iff, imp_iff_not_or, or_assoc]

end Directions

/-! ## Objects -/

/-- Peers and ports are translated as they are meant. -/
def Rule.plain (scope : PodScope) (r : Rule) : Bool :=
  r.entries.all (Entry.plain scope) && r.portsPlain

/-- Nothing is left out of the object but what narrows it. -/
def Object.plain (scope : PodScope) (o : Object) : Bool :=
  o.keepsIsolation &&
    [Direction.ingress, .egress].all fun d => !o.isolates d || (o.rules d).all (Rule.plain scope)

/-- No part of the object is translated into something wider: a direction that it restricts stays
restricted, and an entry and the ports of a rule stay within themselves. -/
structure NoWider (rd : Reading Ip) (policy : Json) (o : Object) : Prop where
  isolated : ∀ d, o.isolates d = true → ∃ r ∈ translate policy, r.direction = d
  entries : ∀ d, o.isolates d = true → ∀ rule ∈ o.rules d, ∀ e ∈ rule.entries, e.NoWider rd o.ns
  ports : ∀ d, o.isolates d = true → ∀ rule ∈ o.rules d, ∀ t : Traffic Ip,
    PortsCover (portsOf rule.raw) t → rule.PortsCover t

section Objects
variable {rd : Reading Ip} {policy : Json} {o : Object}

theorem NoWider.not_allows (h : NoWider rd policy o) (hdec : decode policy = some o)
    (hden : o.Denies rd t) : ¬ Allows rd o.ns (translate policy) t := by
  rintro (hnone | ⟨r, hr, ⟨hdir, -⟩, ⟨sel, hsel, hselects⟩, hports⟩)
  -- a rule for the direction applies to every pod that the object selects
  · obtain ⟨r, hr, hdir⟩ := h.isolated _ hden.isolated
    obtain ⟨hpods, -⟩ := rule_of_mem_translate hdec hr
    refine hnone r hr ⟨hdir, ?_⟩
    rw [hpods]
    exact hden.selected.1
  · obtain ⟨-, hnil | ⟨rule, hrule, hpeers, hallowed⟩⟩ := rule_of_mem_translate hdec hr
    · rw [hnil] at hsel
      cases hsel
    rw [hdir] at hrule
    rw [hallowed] at hports
    refine hden.denied rule hrule ⟨?_, h.ports _ hden.isolated rule hrule t hports⟩
    rw [rule.peersOf_raw] at hpeers
    split_ifs at hpeers with hempty
    · exact .inl hempty
    · rw [← Option.some_inj.mp hpeers] at hsel
      obtain ⟨e, he, heq⟩ := mem_filterMap.mp hsel
      exact .inr ⟨e, he, h.entries _ hden.isolated rule hrule e he t.peer sel heq hselects⟩

theorem noWider_iff [Inhabited Ip] (hdec : decode policy = some o) :
    NoWider rd policy o ↔ o.plain rd.scope = true := by
  have hrules : (∀ d, o.isolates d = true → ∀ rule ∈ o.rules d, rule.plain rd.scope = true) ↔
      ([Direction.ingress, .egress].all fun d => !o.isolates d ||
        (o.rules d).all (Rule.plain rd.scope)) = true := by
    simp [Direction.forall_iff, imp_iff_not_or]
  have hrule : ∀ rule : Rule, rule.plain rd.scope = true ↔ (∀ e ∈ rule.entries, e.NoWider rd o.ns) ∧
      ∀ t : Traffic Ip, PortsCover (portsOf rule.raw) t → rule.PortsCover t := by
    intro rule
    rw [Rule.plain, Bool.and_eq_true, all_eq_true, rule.ports_noWider_iff]
    simp only [Entry.noWider_iff]
  rw [Object.plain, Bool.and_eq_true, ← hrules, keepsIsolation_iff hdec]
  constructor
  · rintro ⟨hisolated, hentries, hports⟩
    exact ⟨hisolated, fun d hd rule hr => (hrule rule).mpr ⟨hentries d hd rule hr,
      hports d hd rule hr⟩⟩
  · rintro ⟨hisolated, hplain⟩
    exact ⟨hisolated, fun d hd rule hr => ((hrule rule).mp (hplain d hd rule hr)).1,
      fun d hd rule hr => ((hrule rule).mp (hplain d hd rule hr)).2⟩

/-- The parts of an object stay within themselves exactly where the object is plain, and the rules
of a plain object allow nothing that it denies. -/
theorem translate_noWider_iff [Inhabited Ip] (rd : Reading Ip) {policy : Json} {o : Object}
    (h : decode policy = some o) : (NoWider rd policy o ↔ o.plain rd.scope = true) ∧
      (o.plain rd.scope = true → ∀ t, o.Denies rd t → ¬ Allows rd o.ns (translate policy) t) :=
  ⟨noWider_iff h, fun hplain _ hden => ((noWider_iff h).mpr hplain).not_allows h hden⟩

end Objects

section Samples

def shopPolicy (spec : JsonMap) : Json :=
  .obj [("metadata", .obj [("name", .str "web"), ("namespace", .str "shop")]), ("spec", .obj spec)]

def ingressFrom (rule : JsonMap) : Json := shopPolicy [("ingress", .arr [.obj rule])]

/-- Traffic to the port 81 from a pod `app: probe` of the same namespace. -/
def probe : Traffic Unit where
  direction := .ingress
  pod := ⟨"shop", fun _ => none, fun _ => none⟩
  peer := ⟨some ⟨"shop", fun k => if k = "app" then some "probe" else none, fun _ => none⟩, ()⟩
  protocol := .tcp
  port := 81
  names := []

def anyAddress (scope : PodScope) : Reading Unit := ⟨scope, fun _ _ => true⟩

def probeSelector : Json := .obj [("matchLabels", .obj [("app", .str "probe")])]

def probePolicy : Json :=
  ingressFrom [("from", .arr [.obj [("podSelector", probeSelector)]]),
    ("ports", .arr [.obj [("port", .num (.int 80))]])]

/-- The rules for the port 80 keep the port 81 closed. -/
theorem translate_noWider_probe :
    ∃ o, decode probePolicy = some o ∧ o.plain .policyNamespace = true ∧
    o.Denies (anyAddress .policyNamespace) probe ∧
      ¬ Allows (anyAddress .policyNamespace) o.ns (translate probePolicy) probe := by
  have ho : decode probePolicy = some _ := rfl
  have hclosed := (translate_noWider_iff (anyAddress .policyNamespace) ho).2
  exact ⟨_, ho, by decide +kernel, by decide +kernel,
    hclosed (by decide +kernel) probe (by decide +kernel)⟩

/-- A port by name, a protocol alone, a selector by expressions, a selector in other namespaces, and
types that are an empty list. -/
def widened : List Json :=
  [ingressFrom [("ports", .arr [.obj [("port", .str "http")]])],
    ingressFrom [("ports", .arr [.obj [("protocol", .str "UDP")]])],
    ingressFrom [("from", .arr [.obj [("podSelector", .obj [("matchExpressions", .arr [.obj
      [("key", .str "app"), ("operator", .str "NotIn"), ("values", .arr [.str "probe"])]])])]])],
    ingressFrom [("from", .arr [.obj [("podSelector", probeSelector),
      ("namespaceSelector", .obj [("matchLabels", .obj [("team", .str "shop")])])]])],
    shopPolicy [("policyTypes", .arr [])]]

/-- The object denies the traffic and its rules allow it, with either reading of a selector of
pods. -/
def LetsThrough (t : Traffic Unit) (policy : Json) : Prop :=
  ∀ scope, ∃ o, decode policy = some o ∧ o.Denies (anyAddress scope) t ∧
    Allows (anyAddress scope) o.ns (translate policy) t

theorem translate_widens : widened.Forall (LetsThrough probe) := by
  rw [List.forall_iff_forall_mem]
  intro policy hmem scope
  have hall : (widened.all fun policy => [PodScope.policyNamespace, .everyNamespace].all
    fun scope =>
      (decode policy).any fun o => decide (o.Denies (anyAddress scope) probe) &&
        decide (Allows (anyAddress scope) o.ns (translate policy) probe)) =
          true := by decide +kernel
  have hpolicy := List.all_eq_true.mp (List.all_eq_true.mp hall policy hmem) scope
    (by cases scope <;> simp)
  obtain ⟨o, ho, hfacts⟩ := (Option.any_eq_true _ _).mp hpolicy
  rw [Bool.and_eq_true, decide_eq_true_eq, decide_eq_true_eq] at hfacts
  exact ⟨o, ho, hfacts⟩

end Samples
end Engenho.NetworkPolicy
