import Engenho.Lib.Run
import Engenho.Controllers.NetworkPolicyWidth

/-!
# The rules as Cilium documents

The Cilium backend writes one document per rule into a directory. A document names the pods and one
direction, with a single empty entry there; the file and the document are named by the id of the
rule, with `-` for `/`.

* `CiliumState.tick`: the controller upserts the rules of every stored policy and removes those it
  still knows of a policy that is gone.
* `Mirrors`: the directory is that of a set of rules; `Mirrors.upsert` and `Mirrors.remove` say how
  the set changes.
* `cilium_installs`: while no two ids come to one name, each tick leaves the documents of the stored
  policies; a document is as narrow as its rule only where the rule restricts nothing.
-/

namespace Engenho.NetworkPolicy
open List

/-- The YAML of a document, by its fields. An entry of a direction is a map. -/
structure CiliumNetworkPolicy where
  name : String
  matchLabels : LabelMap
  ingress : Option (List LabelMap)
  egress : Option (List LabelMap)
deriving DecidableEq, Repr

/-- A document with one empty entry. -/
def CiliumNetworkPolicy.new (name : String) (podSelector : LabelMap) :
    Direction → CiliumNetworkPolicy
  | .ingress => ⟨name, podSelector, some [[]], none⟩
  | .egress => ⟨name, podSelector, none, some [[]]⟩

/-- The id as a name: `-` for `/`. -/
def flatName (policyId : String) : String := policyId.map fun c => if c = '/' then '-' else c

/-- The document of a rule. -/
def renderCrd (r : NetworkPolicyRule) : CiliumNetworkPolicy :=
  .new (flatName r.policyId) r.podSelector r.direction

/-- The file of an id. -/
def fileOf (policyId : String) : String := flatName policyId ++ ".yaml"

theorem flatName_of_fileOf {id id' : String} (h : fileOf id' = fileOf id) :
    flatName id' = flatName id := by
  simpa [fileOf] using h

def ruleFilename (r : NetworkPolicyRule) : String := fileOf r.policyId

/-- Cilium's meaning: an empty entry allows everything in its direction, a direction without one
nothing. -/
def CiliumNetworkPolicy.Permits {Ip : Type} (d : CiliumNetworkPolicy) (t : Traffic Ip) : Prop :=
  HasLabels d.matchLabels t.pod.labels ∧
    ((match t.direction with
      | .ingress => d.ingress
      | .egress => d.egress).any fun entries : List LabelMap => entries.any isEmpty) = true

instance {Ip : Type} (d : CiliumNetworkPolicy) (t : Traffic Ip) : Decidable (d.Permits t) :=
  inferInstanceAs (Decidable (_ ∧ _))

/-- The adapter's own rules, and the directory. -/
structure CiliumState where
  rules : OrdMap String NetworkPolicyRule
  files : OrdMap String CiliumNetworkPolicy

namespace CiliumState

def new : CiliumState := ⟨.empty, .empty⟩

/-- Keeps the rule and writes its file. -/
def upsert (s : CiliumState) (r : NetworkPolicyRule) : Except String CiliumState :=
  if r.policyId.isEmpty then .error "invalid policy: empty policy_id"
  else .ok ⟨s.rules.insert r.policyId r, s.files.insert (ruleFilename r) (renderCrd r)⟩

/-- Drops the rule and its file. -/
def remove (s : CiliumState) (policyId : String) : CiliumState :=
  ⟨s.rules.erase policyId, s.files.erase (fileOf policyId)⟩

def list (s : CiliumState) : List NetworkPolicyRule := s.rules.entries.map Prod.snd

/-- A tick of the controller that finds `policies` in the store. A refused rule is passed over. -/
def tick (s : CiliumState) (policies : List Json) : CiliumState :=
  let rules := policies.flatMap translate
  let desired := rules.map (·.policyId)
  let s := rules.foldl (fun s r => (s.upsert r).toOption.getD s) s
  s.list.foldl (fun s r => if desired.contains r.policyId then s else s.remove r.policyId) s

/-- The ids of the rules are different, and stay different, from each other and from those the
adapter knows, when `/` is written as `-`. -/
def Apart (s : CiliumState) (policies : List Json) : Prop :=
  let ids := (policies.flatMap translate).map (·.policyId)
  ids.Nodup ∧ ∀ id ∈ ids, ∀ id' ∈ ids ++ s.rules.entries.map Prod.fst, flatName id' = flatName id →
    id' = id

instance (s : CiliumState) (policies : List Json) : Decidable (Apart s policies) :=
  inferInstanceAs (Decidable (_ ∧ _))

/-- The adapter and its directory hold the rules of `P`. -/
structure Mirrors (s : CiliumState) (P : NetworkPolicyRule → Prop) : Prop where
  rules : ∀ id r, s.rules.get id = some r ↔ P r ∧ r.policyId = id
  files : ∀ f d, s.files.get f = some d ↔ ∃ r, P r ∧ ruleFilename r = f ∧ renderCrd r = d

variable {s : CiliumState} {P : NetworkPolicyRule → Prop} {r : NetworkPolicyRule}
  {rs : List NetworkPolicyRule}

theorem Mirrors.congr {Q : NetworkPolicyRule → Prop} (h : Mirrors s P) (hq : ∀ r, P r ↔ Q r) :
    Mirrors s Q :=
  funext (fun r => propext (hq r)) ▸ h

theorem Mirrors.mem_list (h : Mirrors s P) : r ∈ s.list ↔ P r := by
  simp [list, OrdMap.mem_entries, h.rules]

theorem Mirrors.upsert (h : Mirrors s P) (hr : r.policyId ≠ "")
    (hfree : ∀ r', P r' → ruleFilename r' = ruleFilename r → r'.policyId = r.policyId) :
    Mirrors ((s.upsert r).toOption.getD s) fun r' => r' = r ∨ P r' ∧ r'.policyId ≠ r.policyId := by
  have hs : s.upsert r = .ok _ := if_neg (by simpa using hr)
  rw [hs]
  constructor
  · intro id r'
    simp only [Except.toOption, Option.getD_some, OrdMap.get_insert]
    split
    · grind
    · rw [h.rules]
      grind
  · intro f d
    simp only [Except.toOption, Option.getD_some, OrdMap.get_insert]
    split
    · grind
    · rw [h.files]
      grind [ruleFilename]

theorem Mirrors.remove {id : String} (h : Mirrors s P)
    (hfree : ∀ r', P r' → ruleFilename r' = fileOf id → r'.policyId = id) :
    Mirrors (s.remove id) fun r' => P r' ∧ r'.policyId ≠ id := by
  constructor
  · intro id' r'
    simp only [CiliumState.remove, OrdMap.get_erase]
    split
    · grind
    · rw [h.rules]
      grind
  · intro f d
    simp only [CiliumState.remove, OrdMap.get_erase]
    split
    · grind [ruleFilename]
    · rw [h.files]
      grind [ruleFilename]

theorem Mirrors.upserts (h : Mirrors s P) (hne : ∀ r ∈ rs, r.policyId ≠ "")
    (hnd : (rs.map ruleFilename).Nodup)
    (hfree : ∀ r', P r' → ∀ r ∈ rs, ruleFilename r' = ruleFilename r → r'.policyId = r.policyId) :
    Mirrors (rs.foldl (fun s r => (s.upsert r).toOption.getD s) s) fun r' =>
      r' ∈ rs ∨ P r' ∧ ∀ r ∈ rs, r'.policyId ≠ r.policyId := by
  induction rs generalizing s P with
  | nil => simpa using h
  | cons r rs ih =>
    rw [map_cons, nodup_cons, mem_map] at hnd
    have hstep := h.upsert (hne r (.head _)) fun r' hr' => hfree r' hr' r (.head _)
    have hids : ∀ r' ∈ rs, r.policyId ≠ r'.policyId := fun r' hr' h =>
      hnd.1 ⟨r', hr', by rw [ruleFilename, ← h]; rfl⟩
    exact (ih hstep (fun r hr => hne r (.tail _ hr)) hnd.2 (by grind)).congr (by grind)

/-- The rules that `keep` lets go are removed one after another. -/
theorem Mirrors.removes {keep : String → Bool} (h : Mirrors s P)
    (hfree : ∀ r', P r' → ∀ r ∈ rs, keep r.policyId = false → ruleFilename r' = ruleFilename r →
      r'.policyId = r.policyId) :
    Mirrors (rs.foldl (fun s r => if keep r.policyId then s else s.remove r.policyId) s) fun r' =>
      P r' ∧ ∀ r ∈ rs, keep r.policyId = false → r'.policyId ≠ r.policyId := by
  induction rs generalizing s P with
  | nil => simpa using h
  | cons r rs ih =>
    rw [foldl_cons]
    split
    · exact (ih h (by grind)).congr (by grind)
    · have hstep := h.remove fun r' hr' => hfree r' hr' r (.head _) (by grind)
      exact (ih hstep (by grind)).congr (by grind)

/-- The directory after a tick is that of the stored policies, and no two rules share a file. -/
def Installs (rs : List NetworkPolicyRule) (s : CiliumState) : Prop :=
  (rs.map ruleFilename).Nodup ∧ Mirrors s (· ∈ rs)

theorem policyId_ne_empty {policy : Json} (hr : r ∈ translate policy) : r.policyId ≠ "" := by
  have hid : ∀ ns name d i, ruleId ns name d i ≠ "" := by simp [ruleId]
  have hdir : ∀ {ns name sel d field list}, r ∈ translateDirection ns name sel d field list →
      r.policyId ≠ "" := by
    intro ns name sel d field list hr
    unfold translateDirection at hr
    split at hr
    · simp_all
    · simp_all
    · obtain ⟨ri, -, hri⟩ := mem_filterMap.mp hr
      obtain ⟨peers, -, rfl⟩ := Option.map_eq_some_iff.mp hri
      exact hid _ _ _ _
  unfold translate at hr
  simp only at hr
  split at hr
  · cases hr
  · split at hr
    · cases hr
    · rcases mem_append.mp hr with hr | hr
      · split at hr
        · exact hdir hr
        · cases hr
      · split at hr
        · exact hdir hr
        · cases hr

theorem Installs.tick {policies : List Json} (h : Installs rs s) (hs : Apart s policies) :
    Installs (policies.flatMap translate) (s.tick policies) := by
  obtain ⟨hnd, hm⟩ := h
  obtain ⟨hids, hs⟩ := hs
  have hnew : ((policies.flatMap translate).map ruleFilename).Nodup := by
    have hcomp : (policies.flatMap translate).map ruleFilename =
        ((policies.flatMap translate).map (·.policyId)).map fileOf := by rw [map_map]; rfl
    rw [hcomp]
    exact hids.map_on fun id' hid' id hid hf =>
      hs id hid id' (mem_append_left _ hid') (flatName_of_fileOf hf)
  have hold : ∀ r' ∈ rs, ∀ r ∈ policies.flatMap translate, ruleFilename r' = ruleFilename r →
      r'.policyId = r.policyId := by
    intro r' hr' r hr hf
    have hknown := (OrdMap.mem_entries _).mpr ((hm.rules ..).mpr ⟨hr', rfl⟩)
    exact hs _ (mem_map_of_mem hr) _ (mem_append_right _ (mem_map_of_mem hknown))
      (flatName_of_fileOf hf)
  have hne : ∀ r ∈ policies.flatMap translate, r.policyId ≠ "" := by
    intro r hr
    obtain ⟨_, -, hr⟩ := mem_flatMap.mp hr
    exact policyId_ne_empty hr
  have hup := hm.upserts hne hnew hold
  unfold CiliumState.tick
  generalize policies.flatMap translate = new at *
  have hinj := inj_on_of_nodup_map hnd
  refine ⟨hnew, (hup.removes fun r' hr' r hr hgone hf => ?_).congr fun r => ?_⟩
  · have := hup.mem_list.mp hr
    simp at hgone
    grind
  · simp only [hup.mem_list]
    simp
    grind

end CiliumState

open CiliumState

theorem permits_renderCrd {Ip : Type} (r : NetworkPolicyRule) (t : Traffic Ip) :
    (renderCrd r).Permits t ↔ r.Applies t := by
  cases hr : r.direction <;> cases ht : t.direction <;>
    simp [renderCrd, CiliumNetworkPolicy.new, CiliumNetworkPolicy.Permits,
      NetworkPolicyRule.Applies, hr, ht]

/-- In a run in which no two ids come to one name, each tick leaves one document per rule of the
policies it found, under different files and names. The document of a rule allows what the rule does
not, unless the rule allows whatever it applies to. -/
theorem cilium_installs {Ip : Type} (rd : Reading Ip) (ns : String) (ticks : List (List Json))
    (policies : List Json) (hapart : Run.Along tick Apart new (ticks ++ [policies])) :
    let rules := policies.flatMap translate
    (rules.map ruleFilename).Nodup ∧ (rules.map fun r => (renderCrd r).name).Nodup ∧
      (∀ f d, (Run.exec tick new (ticks ++ [policies])).files.get f = some d ↔
        ∃ r ∈ rules, ruleFilename r = f ∧ renderCrd r = d) ∧
      ∀ r ∈ rules, (∀ t : Traffic Ip, (renderCrd r).Permits t → r.Permits rd ns t) ↔
        ∀ t : Traffic Ip, r.Applies t → r.Permits rd ns t := by
  obtain ⟨hticks, hlast, -⟩ := Run.along_append.mp hapart
  have hbefore : ∃ rs, Installs rs (Run.exec tick new ticks) :=
    hticks.exec_inv (I := fun s => ∃ rs, Installs rs s) (fun _ _ hs h => ⟨_, h.choose_spec.tick hs⟩)
      ⟨[], by simp, by simp [new], by simp [new]⟩
  obtain ⟨hnd, hm⟩ := hbefore.choose_spec.tick hlast
  rw [Run.exec_append]
  refine ⟨hnd, ?_, fun f d => hm.files f d, fun r _ => by simp only [permits_renderCrd]⟩
  refine Nodup.of_map (· ++ ".yaml") ?_
  rw [map_map]
  convert hnd using 2
  funext r
  cases hr : r.direction <;> simp [renderCrd, CiliumNetworkPolicy.new, ruleFilename, fileOf, hr]

def closedPolicy (ns name : String) : Json :=
  .obj [("metadata", .obj [("name", .str name), ("namespace", .str ns)]), ("spec", .obj [])]

theorem cilium_installs_closed :
    let rules := translate (closedPolicy "shop" "web")
    (∀ f d, (Run.exec tick new [[closedPolicy "shop" "db"], [closedPolicy "shop" "web"]]).files.get
      f = some d ↔
      ∃ r ∈ rules, ruleFilename r = f ∧ renderCrd r = d) := by
  have h := cilium_installs (anyAddress .policyNamespace) "shop" [[closedPolicy "shop" "db"]]
    [closedPolicy "shop" "web"] (by decide +kernel)
  simpa using h.2.2.1

/-- Two policies that deny all ingress share a file, and the document there allows the traffic. -/
theorem cilium_opens :
    let rules := [closedPolicy "a" "b-c", closedPolicy "a-b" "c"].flatMap translate
    (rules.map (·.policyId)).Nodup ∧ (∀ r ∈ rules, ruleFilename r = "a-b-c#ingress:0.yaml") ∧
      ∀ r ∈ rules, (renderCrd r).Permits probe ∧
      ¬ r.Permits (anyAddress .policyNamespace) "a" probe := by
  decide +kernel

end Engenho.NetworkPolicy
