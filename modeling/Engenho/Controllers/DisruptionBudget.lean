import Mathlib.Order.Bounds.Basic
import Engenho.Api.Evict
import Engenho.Api.LabelSelector
import Engenho.Api.SelectorGrammar
import Engenho.Controllers.NetworkPolicyObject

/-!
# What a disruption budget promises

The status that the controller of PodDisruptionBudgets publishes (`publish`), and what the budget
demands (`Required`). A percentage is rounded up, in `maxUnavailable` too. The disruptions that are
allowed are at most the healthy pods less what is demanded (`allowed_le_of_required`), for a
selector of labels or of expressions, and where the demand fits the word: a selector of both has its
expressions left out, and a demand beyond the word wraps around to none (`allowed_beyond_demand`).
-/

namespace Engenho
open NetworkPolicy List
namespace DisruptionBudget

/-! ## The controller -/

/-- How long an eviction counts, in seconds. -/
def disruptedPodTtl : Nat := 120

/-- The percentage of a text `N%`. -/
def percentage (s : List Char) : Option Int :=
  if s.getLast? = some '%' then Machine.readSigned 64 (trim s.dropLast) else none

/-- A number, or a percentage rounded up. -/
def resolveIntOrPercent (value : Json) (total : Int) : Option Int :=
  match value.asI64 with
  | some n => some n
  | none => (value.asStr.bind fun s => percentage s.toList).map fun pct =>
    let numer := Machine.saturate 64 (pct * total)
    numer / 100 + if numer % 100 = 0 then 0 else 1

/-- The status of a budget. -/
structure PdbStatus where
  currentHealthy : Int
  desiredHealthy : Int
  expectedPods : Int
  disruptionsAllowed : Int
  observedGeneration : Int
deriving DecidableEq, Repr

/-- The status from the counts. The subtraction from the total is not checked, and wraps around. -/
def computeStatus (minAvailable maxUnavailable : Option Json) (healthy total generation : Int) :
    PdbStatus :=
  let desired := match minAvailable, maxUnavailable with
    | some v, _ => (resolveIntOrPercent v total).getD 0
    | none, some v => Machine.wrap 64 (total - (resolveIntOrPercent v total).getD 0)
    | none, none => 0
  let desiredHealthy := max desired 0
  ⟨healthy, desiredHealthy, total, max (healthy - desiredHealthy) 0, generation⟩

section
-- the seconds since an instant
variable (age : String → Option Nat)

/-- The pod is ready and not about to go. -/
def countsHealthy (pdb pod : Json) : Bool :=
  let disrupted := ((metaField "name" pod).bind Json.asStr).any fun n =>
    ((((statusField "disruptedPods" pdb).bind (Json.get n)).bind Json.asStr).bind age).any
      (· < disruptedPodTtl)
  podIsReady pod && (metaField "deletionTimestamp" pod).isNone && !disrupted

/-- The status of a budget for the pods of its namespace; a budget without a selector is passed
over. -/
def publish (pdb : Json) (pods : List Json) (generation : Int) : Option PdbStatus :=
  (selectorMatchLabels pdb).map fun _ =>
    let matching := pods.filter (pdbSelects pdb)
    computeStatus (specField "minAvailable" pdb) (specField "maxUnavailable" pdb)
      (matching.countP (countsHealthy age pdb)) matching.length generation

end

/-! ## What is demanded -/

/-- A number, or a percentage of the pods rounded up. -/
inductive Asks (total : Int) (v : Json) : Int → Prop where
  | count {n : Int} (h : v.asI64 = some n) : Asks total v n
  | percent {s : String} {pct n : Int} (hs : v = .str s) (hp : percentage s.toList = some pct)
      (hn : IsLeast {m | pct * total ≤ 100 * m} n) : Asks total v n

/-- The healthy pods a budget demands; a budget with neither field demands none. -/
inductive Required (pdb : Json) (total : Int) : Int → Prop where
  | minAvailable {v : Json} {n : Int} (h : specField "minAvailable" pdb = some v)
      (hn : Asks total v n) :
      Required pdb total n
  | maxUnavailable {v : Json} {n : Int} (hmin : specField "minAvailable" pdb = none)
      (h : specField "maxUnavailable" pdb = some v)
      (hn : Asks total v n) : Required pdb total (total - n)
  | neither (hmin : specField "minAvailable" pdb = none)
      (hmax : specField "maxUnavailable" pdb = none) :
      Required pdb total 0

/-- What the budget asks for leaves a demand that fits the word. -/
def FitsWord (pdb : Json) (total : Int) : Prop :=
  ∀ v n, specField "minAvailable" pdb = none → specField "maxUnavailable" pdb = some v →
    v.asI64 = some n → total - n ≤ Machine.hi 64

/-- A pod that is Ready and not terminating. -/
def healthy (pod : Json) : Bool := podIsReady pod && (metaField "deletionTimestamp" pod).isNone

/-- A selector that uses its labels or its expressions, not both, and nothing else. -/
structure OneKind (sel : Json) (s : NetworkPolicy.LabelSelector) : Prop where
  decoded : NetworkPolicy.decodeSelector sel = some s
  members : ∀ k m, sel.get k = some m → k = "matchLabels" ∨ k = "matchExpressions"
  one : s.matchLabels = [] ∨ s.matchExpressions = []

/-- The labels of the pod are texts. -/
def TextLabels (pod : Json) : Prop :=
  ∀ kv ∈ ((metaField "labels" pod).bind Json.asObject).getD [], kv.2.asStr.isSome

instance (pod : Json) : Decidable (TextLabels pod) := inferInstanceAs (Decidable (∀ kv ∈ _, _))

variable {v pdb sel pod : Json} {total n : Int} {s : NetworkPolicy.LabelSelector}

/-! ## The pods that are selected -/

variable {labels : NetworkPolicy.LabelMap}

theorem decodeFields_eq {m : JsonMap} (h : decodeFields m = some labels) :
    m = labels.map fun kv => (kv.1, .str kv.2) := by
  induction m generalizing labels with
  | nil => obtain rfl := Option.some.inj h; rfl
  | cons kv m ih =>
    obtain ⟨k, v⟩ := kv
    obtain ⟨label, hlabel, h⟩ := Option.bind_eq_some_iff.mp h
    obtain ⟨rest, hrest, h⟩ := Option.bind_eq_some_iff.mp h
    obtain ⟨t, ht, rfl⟩ := Option.map_eq_some_iff.mp hlabel
    cases h
    cases v <;> cases ht
    rw [ih hrest, map_cons]

theorem decodeLabels_cases {o : Option Json}
    (h : decodeLabels (o.filter fun m => !m.isNull) = some labels) :
    labels = [] ∧ (o = none ∨ o = some .null) ∨
    o = some (.obj (labels.map fun kv => (kv.1, .str kv.2))) := by
  cases o with
  | none => exact .inl ⟨(Option.some.inj h).symm, .inl rfl⟩
  | some m =>
    cases m with
    | null => exact .inl ⟨(Option.some.inj h).symm, .inr rfl⟩
    | obj fields => exact .inr (congrArg (fun f => some (Json.obj f)) (decodeFields_eq h))
    | _ => cases h

theorem matchesLabels_iff (hne : labels ≠ []) (pod : Json) :
    matchesLabels pod (.obj (labels.map fun kv => (kv.1, .str kv.2))) = true ↔
      HasLabels labels (Kube.labelsOf pod) := by
  have hempty : (labels.map fun kv : String × String => (kv.1, Json.str kv.2)).isEmpty = false := by
    simpa using hne
  have hlabels : ∀ k, Kube.labelsOf pod k =
      ((metaField "labels" pod).bind (Json.get k)).bind Json.asStr :=
    fun _ => rfl
  simp only [matchesLabels, Json.asObject, hempty, Bool.false_eq_true, if_false, HasLabels, hlabels]
  cases hm : metaField "labels" pod with
  | none =>
    obtain ⟨kv, hkv⟩ := exists_mem_of_ne_nil _ hne
    simpa using ⟨kv.1, kv.2, hkv⟩
  | some m =>
    cases m with
    | obj have_ =>
      simp only [Option.bind_some, Json.get, Json.asObject, all_map, all_eq_true, Function.comp,
        decide_eq_true_iff]
      refine forall₂_congr fun kv _ => ?_
      cases have_.lookup kv.1 with
      | none => simp
      | some x => cases x <;> simp [Json.asStr]
    | _ =>
      obtain ⟨kv, hkv⟩ := exists_mem_of_ne_nil _ hne
      simpa [Json.get, Json.asObject] using ⟨kv.1, kv.2, hkv⟩

variable (hsel : specField "selector" pdb = some sel) (h : OneKind sel s)
include hsel h

/-- A selector of labels selects the pods that carry them. -/
theorem pdbSelects_eq_matches (hl : s.matchLabels ≠ []) (pod : Json) :
    pdbSelects pdb pod = decide (s.Matches (Kube.labelsOf pod)) := by
  obtain ⟨labels, hlabels, hs⟩ := Option.bind_eq_some_iff.mp h.decoded
  obtain ⟨expressions, -, hs⟩ := Option.bind_eq_some_iff.mp hs
  split at hs
  · cases hs
    obtain rfl : expressions = [] := h.one.resolve_left hl
    have hget := (decodeLabels_cases hlabels).resolve_left fun h => hl h.1
    have hsel' : selectorMatchLabels pdb =
        some (.obj (labels.map fun kv => (kv.1, .str kv.2))) := by
      rw [selectorMatchLabels, show (pdb.get "spec").bind (Json.get "selector") =
        some sel from hsel, Option.bind_some, hget]
      rfl
    rw [pdbSelects, hsel', Option.any_some, Bool.eq_iff_iff, decide_eq_true_iff,
      matchesLabels_iff hl]
    exact ⟨fun h => ⟨h, fun _ he => (not_mem_nil he).elim⟩, And.left⟩
  · cases hs

/-- A selector without labels selects nothing: its expressions are taken for a label of that
name. -/
theorem pdbSelects_eq_false (hl : s.matchLabels = []) (hpod : TextLabels pod) :
    pdbSelects pdb pod = false := by
  obtain ⟨labels, hlabels, hs⟩ := Option.bind_eq_some_iff.mp h.decoded
  obtain ⟨expressions, hexpr, hs⟩ := Option.bind_eq_some_iff.mp hs
  split at hs
  · cases hs
    obtain rfl : labels = [] := hl
    have hlabels := decodeLabels_cases hlabels
    rw [pdbSelects, selectorMatchLabels, show (pdb.get "spec").bind (Json.get "selector") =
      some sel from hsel, Option.bind_some]
    obtain hnone | hnull | hempty : sel.get "matchLabels" = none ∨
      sel.get "matchLabels" = some .null ∨
        sel.get "matchLabels" = some (.obj []) := by simpa [or_assoc] using hlabels
    · rw [hnone]
      cases sel with
      | obj fields =>
        cases fields with
        | nil => rfl
        | cons kv fields =>
          obtain ⟨k, m⟩ := kv
          have hget : (Json.obj ((k, m) :: fields)).get k = some m := by simp [Json.get]
          obtain rfl : k = "matchExpressions" := (h.members k m hget).resolve_left fun hk => by
            rw [← hk, hget] at hnone
            cases hnone
          have hm : m.asStr = none := by
            cases m with
            | str => cases hexpr
            | _ => rfl
          -- the value of a pod's label is a text, and the expressions are a list or null
          rw [Option.orElse_none, Option.any_some, matchesLabels, Json.asObject]
          simp only [isEmpty_cons, Bool.false_eq_true, if_false]
          cases hlab : (metaField "labels" pod).bind Json.asObject with
          | none => rfl
          | some have_ =>
            simp only [all_cons, Bool.and_eq_false_iff, decide_eq_false_iff_not]
            refine .inl fun hlook => ?_
            have htext := hpod ("matchExpressions", m)
              (by rw [hlab]; exact Assoc.mem_of_lookup hlook)
            rw [hm] at htext
            cases htext
      | _ => rfl
    · rw [hnull]; rfl
    · rw [hempty]; rfl
  · cases hs

omit hsel h

/-! ## The disruptions that are allowed -/

/-- What is asked for is resolved, but for a product beyond the word, which leaves a value far
outside the number of pods on the same side. A percentage stays far inside the word. -/
theorem resolve_of_asks (h : Asks total v n) : ∃ r, resolveIntOrPercent v total = some r ∧
      (r = n ∨ (2 ^ 56 ≤ r ∧ 2 ^ 56 ≤ n) ∨ (r ≤ -2 ^ 56 ∧ n ≤ -2 ^ 56)) ∧
      (v.asI64 = some n ∨ (-2 ^ 60 ≤ r ∧ r ≤ 2 ^ 60)) := by
  cases h with
  | count h => exact ⟨n, by rw [resolveIntOrPercent, h], .inl rfl, .inl h⟩
  | percent hs hp hn =>
    rename_i s pct
    subst hs
    have hupper : pct * total ≤ 100 * n := hn.1
    have hlower : ¬ pct * total ≤ 100 * (n - 1) := fun hle => absurd (hn.2 hle) (by omega)
    have hres : resolveIntOrPercent (.str s) total = some (Machine.saturate 64 (pct * total) / 100 +
          if Machine.saturate 64 (pct * total) % 100 = 0 then 0 else 1) := by
      simp only [resolveIntOrPercent, Json.asI64, Json.asStr, Option.bind_some, hp, Option.map_some]
    refine ⟨_, hres, ?_⟩
    have hsat : Machine.saturate 64 (pct * total) = max (-2 ^ 63)
      (min (2 ^ 63 - 1) (pct * total)) := rfl
    constructor
    · split <;> omega
    · exact .inr (by split <;> omega)

/-- What asks for nothing that can be read is not resolved, whatever the total. -/
theorem resolve_eq_none (h : ∀ n, ¬ Asks total v n) (other : Int) :
    resolveIntOrPercent v other = none := by
  rw [resolveIntOrPercent]
  cases hcount : v.asI64 with
  | some n => exact absurd (.count hcount) (h n)
  | none =>
    cases v with
    | str s =>
      cases hp : percentage s.toList with
      | none => simp only [Json.asStr, Option.bind_some, hp, Option.map_none]
      | some pct =>
        refine absurd (Asks.percent rfl hp ⟨?_, fun m hm => ?_⟩) (h ((pct * total + 99) / 100))
        · show pct * total ≤ 100 * ((pct * total + 99) / 100)
          omega
        · have hm : pct * total ≤ 100 * m := hm
          omega
    | _ => rfl

variable {generation : Int} {status : PdbStatus}

theorem countP_countsHealthy_le (age : String → Option Nat) (pdb : Json) (pods : List Json) :
    (pods.filter (pdbSelects pdb)).countP (countsHealthy age pdb) ≤
        pods.countP (fun p => pdbSelects pdb p && healthy p) ∧
      pods.countP (fun p => pdbSelects pdb p && healthy p) ≤ pods.countP (pdbSelects pdb) := by
  rw [countP_filter]
  refine ⟨countP_mono_left fun p _ hp => ?_, countP_mono_left fun p _ hp => ?_⟩
  · simp only [countsHealthy, healthy, Bool.and_eq_true] at hp ⊢
    exact ⟨hp.2, hp.1.1⟩
  · exact (Bool.and_eq_true_iff.mp hp).1

/-- For every number of pods that is counted, of those that are healthy, of those in all. -/
theorem computeStatus_le {counted fit total : Nat} (hcount : counted ≤ fit) (hfit : fit ≤ total)
    (hword : total < 2 ^ 56) {required : Int} (hr : Required pdb total required)
    (hfits : FitsWord pdb total) :
    (computeStatus (specField "minAvailable" pdb) (specField "maxUnavailable" pdb) counted total
      generation).disruptionsAllowed ≤ max 0 (fit - required) := by
  cases hr with
  | minAvailable hmin hn =>
    obtain ⟨r, hres, hr, -⟩ := resolve_of_asks hn
    simp only [computeStatus, hmin, hres, Option.getD_some]
    omega
  | maxUnavailable hmin hmax hn =>
    obtain ⟨r, hres, hr, hrange⟩ := resolve_of_asks hn
    obtain ⟨hlo, hhi⟩ : Machine.lo 64 ≤ (total : Int) - r ∧ total - r ≤ Machine.hi 64 := by
      rcases hrange with hcount | hrange
      · obtain rfl : r = _ := by simpa [resolveIntOrPercent, hcount] using hres.symm
        have hbound := (Json.asI64_eq_some hcount).2
        exact ⟨by unfold Machine.lo; omega, hfits _ _ hmin hmax hcount⟩
      · unfold Machine.lo Machine.hi
        omega
    simp only [computeStatus, hmin, hmax, hres, Option.getD_some, Machine.wrap_of_mem hlo hhi]
    omega
  | neither hmin hmax =>
    simp only [computeStatus, hmin, hmax]
    omega

/-- The disruptions that are published are at most the healthy pods that are selected less what the
budget demands of them, if the demand fits the word, and none where the number that may be
unavailable cannot be read. -/
theorem allowed_le_of_required (age : String → Option Nat) (pods : List Json) (generation : Int)
    -- no vector of pods is longer
    (hword : pods.length < 2 ^ 56) (htext : ∀ p ∈ pods, TextLabels p)
    (hsel : specField "selector" pdb = some sel) (hone : OneKind sel s) {status : PdbStatus}
    (h : publish age pdb pods generation = some status) :
    let selected := fun p => decide (s.Matches (Kube.labelsOf p))
    let total := pods.countP selected
    (∀ required, Required pdb total required → FitsWord pdb total →
        status.disruptionsAllowed ≤ max 0 (pods.countP (fun p => selected p && healthy p) -
          required)) ∧
      (specField "minAvailable" pdb = none → ∀ v, specField "maxUnavailable" pdb = some v →
        (∀ n, ¬ Asks total v n) → status.disruptionsAllowed = 0) := by
  intro selected total
  obtain ⟨ml, -, rfl⟩ := Option.map_eq_some_iff.mp h
  simp only [← List.countP_eq_length_filter]
  obtain ⟨hcount, hfit⟩ := countP_countsHealthy_le age pdb pods
  by_cases hl : s.matchLabels = []
  · have hnone : pods.countP (pdbSelects pdb) = 0 :=
      List.countP_eq_zero.mpr fun p hp => by simp [pdbSelects_eq_false hsel hone hl (htext p hp)]
    have hzero : ((pods.filter (pdbSelects pdb)).countP (countsHealthy age pdb) : Int) = 0 := by
      omega
    simp only [computeStatus, hzero]
    refine ⟨fun _ _ _ => ?_, fun _ _ _ _ => ?_⟩ <;> omega
  · have hsame : pdbSelects pdb = selected := funext (pdbSelects_eq_matches hsel hone hl)
    rw [hsame] at hcount hfit ⊢
    have hlen := (List.countP_le_length (p := selected)).trans_lt hword
    refine ⟨fun required hr hfits => computeStatus_le hcount hfit hlen hr hfits,
      fun hmin v hmax hunread => ?_⟩
    have hwrap : Machine.wrap 64 (pods.countP selected) = pods.countP selected :=
      Machine.wrap_of_mem (by unfold Machine.lo; omega) (by unfold Machine.hi; omega)
    simp only [computeStatus, hmin, hmax, resolve_eq_none hunread, Option.getD_none, sub_zero]
    omega

/-! ## Budgets of three pods -/

def readyPod (labels : JsonMap) : Json :=
  .obj [("metadata", .obj [("labels", .obj labels)]),
    ("status", .obj [("conditions",
      .arr [.obj [("status", .str "True"), ("type", .str "Ready")]])])]

def webLabels : JsonMap := [("app", .str "web")]

def webPods : List Json :=
  [readyPod webLabels, readyPod (webLabels ++ [("tier", .str "db")]), readyPod webLabels]

def webSelector : JsonMap := [("matchLabels", .obj webLabels)]

def budget (demand selector : JsonMap) : Json :=
  .obj [("spec", .obj (demand ++ [("selector", .obj selector)]))]

def halfBudget : Json := budget [("minAvailable", .str "50%")] webSelector

theorem allowed_le_of_required_half :
    publish (fun _ => none) halfBudget webPods 1 = some ⟨3, 2, 3, 1, 1⟩ ∧
    (1 : Int) ≤ max 0 (3 - 2) := by
  refine ⟨by decide +kernel, (allowed_le_of_required (fun _ => none) webPods 1 (by decide) ?_
    (show specField "selector" halfBudget = some (.obj webSelector) by decide +kernel)
    (s := ⟨[("app", "web")], [], by decide⟩) ⟨by decide +kernel, ?_, .inr rfl⟩
    (show publish (fun _ => none) halfBudget webPods 1 = some ⟨3, 2, 3, 1, 1⟩ by decide +kernel)).1
      2
    (.minAvailable (v := .str "50%") (by decide +kernel) (.percent (s := "50%") rfl
      (show percentage "50%".toList = some 50 by decide +kernel) ⟨?_, fun m hm => ?_⟩)) ?_⟩
  · decide +kernel
  · intro k m hm
    simp only [webSelector, Json.get, List.lookup_cons] at hm
    split at hm
    · rename_i hk
      exact .inl (by simpa using hk)
    · cases hm
  · decide +kernel
  · have hm : (50 : Int) * 3 ≤ 100 * m := hm
    omega
  · intro v n hmin
    cases hmin

def tierBudget : Json :=
  budget [("minAvailable", .num (.int 1))] (("matchExpressions", .arr [.obj [("key", .str "tier"),
    ("operator", .str "In"), ("values", .arr [.str "db"])]]) :: webSelector)

/-- One pod is selected and one is demanded, and two disruptions are allowed, as the expressions are
not read. Of three pods two may go where at most half may be unavailable. All may go where the
demand is no number, and where it is null, and where the demand is beyond the word. -/
theorem allowed_beyond_demand :
    let allowed := fun pdb =>
      (publish (fun _ => none) pdb webPods 1).map PdbStatus.disruptionsAllowed
    let selected := fun p =>
      (((specField "selector" tierBudget).bind NetworkPolicy.decodeSelector).any fun s =>
      s.Matches (Kube.labelsOf p))
    (webPods.countP (fun p => selected p && healthy p) = 1 ∧ allowed tierBudget = some 2) ∧
      allowed (budget [("maxUnavailable", .str "50%")] webSelector) = some 2 ∧
      allowed (budget [("minAvailable", .str "most")] webSelector) = some 3 ∧
      allowed (budget [("maxUnavailable", .num (.int 1)), ("minAvailable", .null)] webSelector) =
        some 3 ∧
      allowed (budget [("maxUnavailable", .num (.int (-2 ^ 63)))] webSelector) = some 3 := by
  decide +kernel

end DisruptionBudget
end Engenho
