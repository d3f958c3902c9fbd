import Engenho.Api.Rbac

/-!
# The rules review

A `SelfSubjectRulesReview` lists the rules a user reaches in a namespace. A rule goes to one of two
lists: with non-resource URLs to the one of URLs, where its resources are left out. The authorizer
reads both halves of a rule, and for a request for a URL it reads no RoleBinding.

* `rulesFor`, `rulesStatus`: the review.
* `review_agrees_iff`: which requests the review and the authorizer agree on.
* `review_hides_resources`: two they do not agree on.
-/

namespace Engenho.Rbac
open List

/-! ## The review -/

/-- The rules of a user. -/
structure EffectiveRules where
  resourceRules : List PolicyRule
  nonResourceRules : List PolicyRule
  incomplete : Bool
deriving DecidableEq, Repr

def mastersRules : EffectiveRules :=
  ⟨[⟨["*"], ["*"], ["*"], [], []⟩], [⟨["*"], [], [], [], ["*"]⟩], false⟩

/-- Adds a rule to its kind. -/
def EffectiveRules.push (out : EffectiveRules) (rule : PolicyRule) : EffectiveRules :=
  if rule.nonResourceURLs.isEmpty then { out with resourceRules := out.resourceRules ++ [rule] }
  else { out with nonResourceRules := out.nonResourceRules ++ [rule] }

/-- The rules of a role; a role without rules leaves the review incomplete. -/
def EffectiveRules.add (out : EffectiveRules) (rules : List PolicyRule) : EffectiveRules :=
  if rules.isEmpty then { out with incomplete := true } else rules.foldl push out

/-- The rules of a user in a namespace. -/
def Policy.rulesFor (p : Policy) (user : UserInfo) (ns : Option String) : EffectiveRules :=
  if user.groups.any fun g => g = groupMasters then mastersRules
  else (p.matchedRefs user ns).foldl (fun out ref => out.add (p.resolveRules ref.1 ref.2))
    ⟨[], [], false⟩

/-- A rule for objects, as reported. -/
structure ResourceRule where
  verbs : List String
  apiGroups : List String
  resources : List String
  resourceNames : List String
deriving DecidableEq, Repr

/-- A rule for URLs, as reported. -/
structure NonResourceRule where
  verbs : List String
  nonResourceURLs : List String
deriving DecidableEq, Repr

/-- What the review reports. -/
structure SubjectRulesReviewStatus where
  resourceRules : List ResourceRule
  nonResourceRules : List NonResourceRule
  incomplete : Bool
deriving DecidableEq, Repr

/-- The report of the rules. -/
def rulesStatus (rules : EffectiveRules) : SubjectRulesReviewStatus where
  resourceRules := rules.resourceRules.map fun r =>
    ⟨r.verbs, r.apiGroups, r.resources, r.resourceNames⟩
  nonResourceRules := rules.nonResourceRules.map fun r => ⟨r.verbs, r.nonResourceURLs⟩
  incomplete := rules.incomplete

/-! ## Reading a status -/

/-- A rule of the status, matched as the authorizer matches rules. -/
def ResourceRule.grants (r : ResourceRule) (attrs : Attributes) : Bool :=
  ruleGrants ⟨r.verbs, r.apiGroups, r.resources, r.resourceNames, []⟩ attrs

def NonResourceRule.grants (r : NonResourceRule) (attrs : Attributes) : Bool :=
  ruleGrants ⟨r.verbs, [], [], [], r.nonResourceURLs⟩ attrs

def SubjectRulesReviewStatus.grants (s : SubjectRulesReviewStatus) (attrs : Attributes) : Bool :=
  s.resourceRules.any (fun r => r.grants attrs) || s.nonResourceRules.any fun r => r.grants attrs

/-! ## What is in a status -/

variable {rule : PolicyRule} {attrs : Attributes} {out : EffectiveRules} {rules : List PolicyRule}

theorem ResourceRule.grants_of :
    ResourceRule.grants ⟨rule.verbs, rule.apiGroups, rule.resources, rule.resourceNames⟩ attrs =
      (!attrs.isNonResource && ruleGrants rule attrs) := by
  unfold ResourceRule.grants ruleGrants Attributes.isNonResource
  cases attrs.nonResourceUrl <;> simp

theorem NonResourceRule.grants_of :
    NonResourceRule.grants ⟨rule.verbs, rule.nonResourceURLs⟩ attrs =
      (attrs.isNonResource && ruleGrants rule attrs) := by
  unfold NonResourceRule.grants ruleGrants Attributes.isNonResource
  cases attrs.nonResourceUrl <;> simp [apiGroupMatches]

/-- The rules of a list, each in its half. -/
def EffectiveRules.Splits (out : EffectiveRules) (rules : List PolicyRule) : Prop :=
  (∀ rule, rule ∈ out.resourceRules ↔ rule ∈ rules ∧ rule.nonResourceURLs = []) ∧
    ∀ rule, rule ∈ out.nonResourceRules ↔ rule ∈ rules ∧ rule.nonResourceURLs ≠ []

theorem EffectiveRules.Splits.push (h : out.Splits rules) (rule : PolicyRule) :
    (out.push rule).Splits (rules ++ [rule]) := by
  unfold EffectiveRules.push
  obtain ⟨hres, hnon⟩ := h
  split
  · refine ⟨fun r => ?_, fun r => ?_⟩
    · grind
    · grind
  · refine ⟨fun r => ?_, fun r => ?_⟩
    · grind
    · grind

theorem EffectiveRules.Splits.foldl (h : out.Splits rules) (more : List PolicyRule) :
    (more.foldl EffectiveRules.push out).Splits (rules ++ more) := by
  induction more generalizing out rules with
  | nil => simpa using h
  | cons rule more ih =>
    rw [← singleton_append, ← append_assoc]
    exact ih (h.push rule)

theorem EffectiveRules.Splits.add (h : out.Splits rules) (more : List PolicyRule) :
    (out.add more).Splits (rules ++ more) := by
  unfold EffectiveRules.add
  split
  · rename_i hempty
    rw [isEmpty_iff.mp hempty, append_nil]
    exact h
  · exact h.foldl more

/-- The wildcard rules grant every request. -/
theorem mastersRules_grants (attrs : Attributes) :
    (∃ rule ∈ mastersRules.resourceRules, attrs.isNonResource = false ∧
      ruleGrants rule attrs = true) ∨
      ∃ rule ∈ mastersRules.nonResourceRules, attrs.isNonResource = true ∧
      ruleGrants rule attrs = true := by
  unfold Attributes.isNonResource ruleGrants
  cases attrs.nonResourceUrl with
  | none =>
    refine .inl ⟨_, mem_singleton_self _, rfl, ?_⟩
    cases attrs.name <;> simp [verbMatches, apiGroupMatches, resourceMatches, resourceNameMatches]
  | some url =>
    exact .inr ⟨_, mem_singleton_self _, rfl, by simp [verbMatches, nonResourceUrlMatches]⟩

theorem urls_of_ruleGrants (hn : attrs.isNonResource = true) (h : ruleGrants rule attrs = true) :
    rule.nonResourceURLs ≠ [] := by
  obtain ⟨url, hurl⟩ := Option.isSome_iff_exists.mp hn
  intro hnil
  simp [ruleGrants, hurl, hnil] at h

namespace Policy

theorem splits_foldl (p : Policy) (h : out.Splits rules) (refs : List (RoleRef × Option String)) :
    (refs.foldl (fun out ref => out.add (p.resolveRules ref.1 ref.2)) out).Splits
      (rules ++ refs.flatMap fun ref => p.resolveRules ref.1 ref.2) := by
  induction refs generalizing out rules with
  | nil => simpa using h
  | cons ref refs ih =>
    rw [flatMap_cons, ← append_assoc]
    exact ih (h.add _)

theorem userRules_none (p : Policy) (user : UserInfo) (ns : Option String) :
    p.userRules user none ⊆ p.userRules user ns := by
  intro rule h
  simp only [userRules, matchedRefs, flatMap_append, mem_append] at h ⊢
  rcases h with h | h
  · exact .inl h
  · cases h

variable {ns : Option String}

/-- What the review of a namespace grants: for a resource, only rules without URLs. -/
theorem rulesStatus_grants {p : Policy} :
    (rulesStatus (p.rulesFor attrs.user ns)).grants attrs = true ↔
    groupMasters ∈ attrs.user.groups ∨
      ∃ rule ∈ p.userRules attrs.user ns, ruleGrants rule attrs = true ∧
        (attrs.isNonResource = false → rule.nonResourceURLs = []) := by
  have hgrants : ∀ rules : EffectiveRules, (rulesStatus rules).grants attrs = true ↔
      (∃ rule ∈ rules.resourceRules, attrs.isNonResource = false ∧ ruleGrants rule attrs = true) ∨
      ∃ rule ∈ rules.nonResourceRules, attrs.isNonResource = true ∧
        ruleGrants rule attrs = true := by
    intro rules
    simp [SubjectRulesReviewStatus.grants, rulesStatus, ResourceRule.grants_of,
      NonResourceRule.grants_of]
  unfold rulesFor
  split
  · rename_i hmasters
    refine iff_of_true ?_ (.inl (by simpa using hmasters))
    rw [hgrants]
    exact mastersRules_grants attrs
  · rename_i hmasters
    have hnot : groupMasters ∉ attrs.user.groups := by simpa using hmasters
    have hempty : EffectiveRules.Splits ⟨[], [], false⟩ [] := ⟨by simp, by simp⟩
    obtain ⟨hres, hnon⟩ := p.splits_foldl hempty (p.matchedRefs attrs.user ns)
    simp only [hgrants, hres, hnon, hnot, false_or]
    constructor
    · rintro (⟨rule, ⟨hmem, hurls⟩, -, hg⟩ | ⟨rule, ⟨hmem, -⟩, hurl, hg⟩)
      · exact ⟨rule, hmem, hg, fun _ => hurls⟩
      · refine ⟨rule, hmem, hg, fun hfalse => ?_⟩
        rw [hurl] at hfalse
        cases hfalse
    · rintro ⟨rule, hmem, hg, hurls⟩
      cases hn : attrs.isNonResource with
      | false => exact .inl ⟨rule, ⟨hmem, hurls hn⟩, rfl, hg⟩
      | true => exact .inr ⟨rule, ⟨hmem, urls_of_ruleGrants hn hg⟩, rfl, hg⟩

/-- Where the review tells the truth about a request: if a rule of the user's bindings in the
namespace grants it, one does that the authorizer reads for it, and for a resource that rule has no
URLs. -/
def listed (p : Policy) (attrs : Attributes) (ns : Option String) : Bool :=
  attrs.user.groups.any (fun g => g = groupMasters) ||
    !(p.userRules attrs.user ns).any (fun rule => ruleGrants rule attrs) ||
    (p.userRules attrs.user attrs.ns).any fun rule =>
      ruleGrants rule attrs && (attrs.isNonResource || rule.nonResourceURLs.isEmpty)

theorem listed_iff {p : Policy} : p.listed attrs ns = true ↔ groupMasters ∈ attrs.user.groups ∨
      ((∃ rule ∈ p.userRules attrs.user ns, ruleGrants rule attrs = true) →
        ∃ rule ∈ p.userRules attrs.user attrs.ns, ruleGrants rule attrs = true ∧
          (attrs.isNonResource = false → rule.nonResourceURLs = [])) := by
  have hmasters : (attrs.user.groups.any fun g => g = groupMasters) = true ↔
      groupMasters ∈ attrs.user.groups := by simp
  have hshown : ∀ rule : PolicyRule, (attrs.isNonResource || rule.nonResourceURLs.isEmpty) = true ↔
      (attrs.isNonResource = false → rule.nonResourceURLs = []) := by
    intro rule
    cases attrs.isNonResource <;> simp
  simp only [listed, Bool.or_eq_true, Bool.not_eq_true', hmasters, any_eq_true, Bool.and_eq_true,
    hshown, ← Bool.not_eq_true]
  rw [or_assoc, imp_iff_not_or]

/-- The review of a namespace and the authorizer agree on a request there exactly if it is `listed`.
A request for a URL has no namespace of its own. -/
theorem review_agrees_iff (p : Policy) (attrs : Attributes) (ns : Option String)
    (hns : attrs.ns = ns ∨ (attrs.isNonResource = true ∧ attrs.ns = none)) :
    (p.authorize attrs = .allow ↔ (rulesStatus (p.rulesFor attrs.user ns)).grants attrs = true) ↔
      p.listed attrs ns = true := by
  rw [authorize_userRules, rulesStatus_grants, listed_iff]
  by_cases hmasters : groupMasters ∈ attrs.user.groups
  · simp [hmasters]
  -- what the authorizer reads is among what the review reads
  have hsub : p.userRules attrs.user attrs.ns ⊆ p.userRules attrs.user ns := by
    rcases hns with rfl | ⟨-, hnone⟩
    · exact List.Subset.refl _
    · rw [hnone]
      exact p.userRules_none attrs.user ns
  simp only [hmasters, false_or]
  constructor
  · rintro hagree ⟨rule, hrule, hgrants⟩
    rcases hns with rfl | ⟨hurl, -⟩
    · exact hagree.mp ⟨rule, hrule, hgrants⟩
    · obtain ⟨rule', hrule', hgrants'⟩ := hagree.mpr ⟨rule, hrule, hgrants, by simp [hurl]⟩
      exact ⟨rule', hrule', hgrants', by simp [hurl]⟩
  · intro hlisted
    constructor
    · rintro ⟨rule, hrule, hgrants⟩
      obtain ⟨rule', hrule', hgrants', hshown⟩ := hlisted ⟨rule, hsub hrule, hgrants⟩
      exact ⟨rule', hsub hrule', hgrants', hshown⟩
    · rintro ⟨rule, hrule, hgrants, -⟩
      obtain ⟨rule', hrule', hgrants', -⟩ := hlisted ⟨rule, hrule, hgrants⟩
      exact ⟨rule', hrule', hgrants'⟩

/-! ## A rule for both -/

/-- Jane may get pods and the URL `/healthz`, by one rule of a ClusterRole. -/
def probeRule : PolicyRule := ⟨["get"], [""], ["pods"], [], ["/healthz"]⟩

def probeBinding : Binding := ⟨⟨"ClusterRole", "probe"⟩, [⟨"User", "jane", none⟩]⟩

def clusterProbe : Policy where
  clusterRoleBindings := [probeBinding]
  roleBindings _ := []
  clusterRole name := if name = "probe" then some [probeRule] else none
  role _ _ := none

/-- The same binding in one namespace. -/
def namespaceProbe : Policy :=
  { clusterProbe with
    clusterRoleBindings := []
    roleBindings := fun ns => if ns = "default" then [probeBinding] else [] }

def getPods : Attributes := ⟨⟨"jane", []⟩, "get", "", "pods", none, some "default", none, none⟩

def getHealthz : Attributes := ⟨⟨"jane", []⟩, "get", "", "", none, none, none, some "/healthz"⟩

theorem review_agrees_healthz : clusterProbe.authorize getHealthz = .allow ∧
      (rulesStatus (clusterProbe.rulesFor getHealthz.user (some "default"))).grants getHealthz =
        true ∧
      (clusterProbe.authorize getHealthz = .allow ↔
        (rulesStatus (clusterProbe.rulesFor getHealthz.user (some "default"))).grants getHealthz =
          true) := by
  refine ⟨by decide +kernel, by decide +kernel, ?_⟩
  exact (review_agrees_iff clusterProbe getHealthz (some "default") (.inr ⟨rfl, rfl⟩)).mpr
    (by decide +kernel)

/-- Jane may get pods, and the review shows no rule for resources. Bound in the namespace only, the
rule shows Jane a URL that they may not get. -/
theorem review_hides_resources : (clusterProbe.authorize getPods = .allow ∧
      rulesStatus (clusterProbe.rulesFor getPods.user (some "default")) =
        ⟨[], [⟨["get"], ["/healthz"]⟩], false⟩ ∧
      (rulesStatus (clusterProbe.rulesFor getPods.user (some "default"))).grants getPods = false) ∧
    (namespaceProbe.authorize getHealthz = .noOpinion ∧
      (rulesStatus (namespaceProbe.rulesFor getHealthz.user (some "default"))).grants getHealthz =
        true) := by
  decide +kernel

end Policy
end Engenho.Rbac
