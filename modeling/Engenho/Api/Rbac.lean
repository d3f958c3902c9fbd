import Mathlib.Data.List.DropRight
import Engenho.Store.Catalog

/-!
# The RBAC authorizer

A request is allowed if a rule grants it that the user reaches through a binding: a
ClusterRoleBinding, or a RoleBinding in the namespace of the request. Members of `system:masters`
are allowed everything.

* `Policy`: the bindings and roles the authorizer reads; `storePolicy` reads them from the store.
* `authorize`, `ruleGrants`: the authorizer and its rule matching.
* `Reaches`, `Grants`: what the bindings and the rules say.
* `authorize_allows_iff`: the decision is what they say; it grows with the policy, and a binding
  without a role adds nothing.
-/

namespace Engenho.Rbac
open List

/-! ## Policies -/

/-- What a role allows. -/
structure PolicyRule where
  verbs : List String
  apiGroups : List String
  resources : List String
  resourceNames : List String
  nonResourceURLs : List String
deriving DecidableEq, Repr

/-- The role a binding names. -/
structure RoleRef where
  kind : String
  name : String
deriving DecidableEq, Repr

/-- Whom a binding is for. -/
structure Subject where
  kind : String
  name : String
  ns : Option String
deriving DecidableEq, Repr

/-- A ClusterRoleBinding or a RoleBinding. -/
structure Binding where
  roleRef : RoleRef
  subjects : List Subject
deriving DecidableEq, Repr

/-- What the authorizer reads. A role is its rules. -/
structure Policy where
  clusterRoleBindings : List Binding
  roleBindings : String → List Binding
  clusterRole : String → Option (List PolicyRule)
  role : String → String → Option (List PolicyRule)

/-- The decoders of the stored kinds. -/
structure Codec where
  binding : Json → Option Binding
  role : Json → Option (List PolicyRule)

def rbacGroup : String := "rbac.authorization.k8s.io"

/-- The objects of a kind in the store, those that can be decoded. -/
def listDecoded {α : Type} (c : ResourceCatalog) (decode : Json → Option α) (kind : String)
    (ns : Option String) : List α :=
  ((⟨rbacGroup, "v1", kind, ns⟩ : ListScope).range c.resources none).filterMap fun e => decode e.2.1

variable {ns : Option String} {rule : PolicyRule}

/-- The policy in the store. An object that cannot be decoded is not there. -/
def storePolicy (codec : Codec) (c : ResourceCatalog) : Policy where
  clusterRoleBindings := listDecoded c codec.binding "ClusterRoleBinding" none
  roleBindings ns := listDecoded c codec.binding "RoleBinding" (some ns)
  clusterRole name := (c.get ⟨rbacGroup, "v1", "ClusterRole", none, name⟩).bind codec.role
  role ns name := (c.get ⟨rbacGroup, "v1", "Role", some ns, name⟩).bind codec.role

/-! ## Requests -/

/-- The user of a request. -/
structure UserInfo where
  username : String
  groups : List String
deriving DecidableEq, Repr

/-- What an authorizer is asked about. -/
structure Attributes where
  user : UserInfo
  verb : String
  group : String
  resource : String
  subresource : Option String
  ns : Option String
  name : Option String
  nonResourceUrl : Option String
deriving DecidableEq, Repr

/-- The object that a URL names. -/
structure ResourceCoords where
  group : String
  plural : String
  subresource : Option String
  ns : Option String
  name : Option String
deriving DecidableEq, Repr

/-- An object, or another URL. -/
inductive RequestTarget where
  | resource (coords : ResourceCoords)
  | nonResource (path : String)
deriving DecidableEq, Repr

/-- The attributes of an HTTP request. -/
def Attributes.forRequest (user : UserInfo) (verb : String) : RequestTarget → Attributes
  | .resource c => ⟨user, verb, c.group, c.plural, c.subresource, c.ns, c.name, none⟩
  | .nonResource path => ⟨user, verb, "", "", none, none, none, some path⟩

/-- The object of an access review. -/
structure ResourceAttributes where
  ns : Option String
  verb : Option String
  group : Option String
  resource : Option String
  subresource : Option String
  name : Option String
deriving DecidableEq, Repr

/-- The URL of an access review. -/
structure NonResourceAttributes where
  path : Option String
  verb : Option String
deriving DecidableEq, Repr

/-- The attributes an access review asks about. -/
def attributesFromSpec (user : UserInfo) (resource : Option ResourceAttributes) :
    Option NonResourceAttributes → Attributes
  | some nr => ⟨user, nr.verb.getD "", "", "", none, none, none, some (nr.path.getD "")⟩
  | none =>
    let r := resource.getD ⟨none, none, none, none, none, none⟩
    ⟨user, r.verb.getD "", r.group.getD "", r.resource.getD "", r.subresource, r.ns, r.name, none⟩

namespace Attributes

variable (user : UserInfo) (a : Attributes)

def isNonResource : Bool := a.nonResourceUrl.isSome

def requestedSubresource : Option String := a.subresource.filter fun s => !s.isEmpty

/-- A request for a URL is in no namespace, as both builders have it. -/
def IsRequest : Prop := a.isNonResource = true → a.ns = none

theorem isRequest_forRequest (verb : String) (target : RequestTarget) :
    (forRequest user verb target).IsRequest := by
  intro h
  cases target with
  | resource c => cases h
  | nonResource path => rfl

theorem isRequest_attributesFromSpec (resource : Option ResourceAttributes)
    (nonResource : Option NonResourceAttributes) :
    (attributesFromSpec user resource nonResource).IsRequest := by
  intro h
  cases nonResource with
  | some nr => rfl
  | none => cases h

end Attributes

/-! ## Rule matching -/

/-- The rest of a text after `pre`. -/
def strip (pre s : List Char) : Option (List Char) :=
  if pre.isPrefixOf s then some (s.drop pre.length) else none

def verbMatches (verbs : List String) (verb : String) : Bool :=
  verbs.any fun v => v = "*" || v = verb

def apiGroupMatches (groups : List String) (group : String) : Bool :=
  groups.any fun g => g = "*" || g = group

/-- The resource, with its subresource. -/
def isCombinedKey (granted resource : String) : Option String → Bool
  | none => granted = resource
  | some sub => (strip resource.toList granted.toList).bind (strip ['/']) = some sub.toList

/-- A resource of the rule. -/
def resourceMatches (granted : List String) (resource : String) (subresource : Option String) :
    Bool :=
  let subresource := subresource.filter fun s => !s.isEmpty
  granted.any fun g =>
    g = "*" || isCombinedKey g resource subresource ||
      subresource.any fun sub => strip ['*', '/'] g.toList = some sub.toList

/-- A name of the rule, or any. -/
def resourceNameMatches (names : List String) : Option String → Bool
  | some n => names.isEmpty || names.any fun rn => rn = n
  | none => names.isEmpty

/-- The URL, or what a star stands for. -/
def nonResourceUrlMatches (pat url : String) : Bool :=
  pat = "*" || pat = url ||
    (pat.toList.getLast? = some '*' && (pat.toList.rdropWhile (· = '*')).isPrefixOf url.toList)

/-- The rule allows the request. -/
def ruleGrants (rule : PolicyRule) (attrs : Attributes) : Bool :=
  match attrs.nonResourceUrl with
  | some url =>
    verbMatches rule.verbs attrs.verb && rule.nonResourceURLs.any fun pat =>
      nonResourceUrlMatches pat url
  | none =>
    verbMatches rule.verbs attrs.verb && apiGroupMatches rule.apiGroups attrs.group &&
      resourceMatches rule.resources attrs.resource attrs.requestedSubresource &&
      resourceNameMatches rule.resourceNames attrs.name

/-! ## The authorizer -/

/-- The answer of an authorizer. -/
inductive Decision where
  | allow
  | deny
  | noOpinion
deriving DecidableEq, Repr

def groupMasters : String := "system:masters"

/-- The subject is the user. -/
def subjectMatches (user : UserInfo) (defaultNs : Option String) (s : Subject) : Bool :=
  if s.kind = "User" then s.name = user.username
  else if s.kind = "Group" then user.groups.any fun g => g = s.name
  else if s.kind = "ServiceAccount" then
    "system:serviceaccount:" ++ (s.ns.or defaultNs).getD "" ++ ":" ++ s.name = user.username
  else false

def subjectsMatch (subjects : List Subject) (user : UserInfo) (defaultNs : Option String) : Bool :=
  subjects.any (subjectMatches user defaultNs)

namespace Policy

/-- The role references of the bindings that match, each with the namespace of its binding. -/
def matchedRefs (p : Policy) (user : UserInfo) (ns : Option String) :
    List (RoleRef × Option String) :=
  ((p.clusterRoleBindings.filter fun b => subjectsMatch b.subjects user none).map fun b =>
      (b.roleRef, none)) ++
    match ns with
    | some ns =>
      ((p.roleBindings ns).filter fun b => subjectsMatch b.subjects user (some ns)).map fun b =>
        (b.roleRef, some ns)
    | none => []

/-- The rules of a role. -/
def resolveRules (p : Policy) (ref : RoleRef) (bindingNs : Option String) : List PolicyRule :=
  if ref.kind = "ClusterRole" then (p.clusterRole ref.name).getD []
  else if ref.kind = "Role" then
    match bindingNs with
    | none => []
    | some ns => (p.role ns ref.name).getD []
  else []

/-- The decision on a request. -/
def authorize (p : Policy) (attrs : Attributes) : Decision :=
  if attrs.user.groups.any fun g => g = groupMasters then .allow
  else if (p.matchedRefs attrs.user attrs.ns).any fun ref =>
      (p.resolveRules ref.1 ref.2).any fun rule => ruleGrants rule attrs then .allow
  else .noOpinion

end Policy

/-! ## What bindings and rules say -/

def Attributes.resourceKey (a : Attributes) : String :=
  match a.requestedSubresource with
  | some sub => a.resource ++ "/" ++ sub
  | none => a.resource

/-- The subject is this user. A service account is the user that is named for it; its namespace is
the subject's, or else the one of the binding. -/
def Subject.Names (s : Subject) (user : UserInfo) (bindingNs : Option String) : Prop :=
  (s.kind = "User" ∧ s.name = user.username) ∨
  (s.kind = "Group" ∧ s.name ∈ user.groups) ∨
  (s.kind = "ServiceAccount" ∧
    user.username = "system:serviceaccount:" ++ (s.ns.or bindingNs).getD "" ++ ":" ++ s.name)

/-- A list of a rule has the value, or everything. -/
def Lists (xs : List String) (x : String) : Prop := "*" ∈ xs ∨ x ∈ xs

/-- A resource of a rule is the requested one: everything, the resource (or the one subresource), or
the subresource of every resource. -/
def CoversResource (granted : String) (attrs : Attributes) : Prop :=
  granted = "*" ∨ granted = attrs.resourceKey ∨
    ∃ sub, attrs.requestedSubresource = some sub ∧ granted = "*/" ++ sub

/-- A URL pattern covers a URL: every one, itself, or, with stars at its end, each that goes on from
what stands before them. -/
def CoversUrl (pat url : String) : Prop :=
  pat = "*" ∨ pat = url ∨
    ∃ stem n rest, pat.toList = stem ++ List.replicate (n + 1) '*' ∧ url.toList = stem ++ rest

/-- The rule grants the request. -/
def Grants (rule : PolicyRule) (attrs : Attributes) : Prop :=
  Lists rule.verbs attrs.verb ∧
    match attrs.nonResourceUrl with
    | some url => ∃ pat ∈ rule.nonResourceURLs, CoversUrl pat url
    | none =>
      Lists rule.apiGroups attrs.group ∧
        (∃ granted ∈ rule.resources, CoversResource granted attrs) ∧
        (rule.resourceNames = [] ∨ ∃ name ∈ rule.resourceNames, attrs.name = some name)

/-- The role of a reference, from a binding in that namespace, has the rule. -/
inductive Policy.Holds (p : Policy) : RoleRef → Option String → PolicyRule → Prop
  | clusterRole {ref : RoleRef} {ns : Option String} {rules : List PolicyRule} {rule : PolicyRule}
      (hkind : ref.kind = "ClusterRole") (hrole : p.clusterRole ref.name = some rules)
      (hrule : rule ∈ rules) : p.Holds ref ns rule
  | role {ref : RoleRef} {ns : String} {rules : List PolicyRule} {rule : PolicyRule}
      (hkind : ref.kind = "Role") (hrole : p.role ns ref.name = some rules)
      (hrule : rule ∈ rules) : p.Holds ref (some ns) rule

/-- The user of a request reaches a rule: through a ClusterRoleBinding, or, for a resource, through
a RoleBinding in the namespace of the request. -/
inductive Policy.Reaches (p : Policy) (attrs : Attributes) : PolicyRule → Prop
  | cluster {b : Binding} {s : Subject} {rule : PolicyRule} (hb : b ∈ p.clusterRoleBindings)
      (hs : s ∈ b.subjects) (hnames : s.Names attrs.user none)
      (hrule : p.Holds b.roleRef none rule) :
      p.Reaches attrs rule
  | namespaced {ns : String} {b : Binding} {s : Subject} {rule : PolicyRule}
      (hresource : attrs.isNonResource = false) (hns : attrs.ns = some ns)
      (hb : b ∈ p.roleBindings ns) (hs : s ∈ b.subjects) (hnames : s.Names attrs.user (some ns))
      (hrule : p.Holds b.roleRef (some ns) rule) : p.Reaches attrs rule

/-! ## Matching -/

theorem strip_eq_some {pre s rest : List Char} : strip pre s = some rest ↔ s = pre ++ rest := by
  unfold strip
  constructor
  · intro h
    split at h
    · rename_i hpre
      obtain ⟨t, rfl⟩ := isPrefixOf_iff_prefix.mp hpre
      cases h
      simp
    · cases h
  · rintro rfl
    simp

variable {xs : List String} {attrs : Attributes} {user : UserInfo}

theorem verbMatches_iff {x : String} : verbMatches xs x = true ↔ Lists xs x := by
  simp only [verbMatches, any_eq_true, Bool.or_eq_true, decide_eq_true_eq]
  constructor
  · rintro ⟨v, hv, rfl | rfl⟩
    · exact .inl hv
    · exact .inr hv
  · rintro (h | h)
    · exact ⟨_, h, .inl rfl⟩
    · exact ⟨_, h, .inr rfl⟩

theorem apiGroupMatches_iff {x : String} : apiGroupMatches xs x = true ↔ Lists xs x :=
  verbMatches_iff

theorem eq_append_iff {s a b : String} : s = a ++ b ↔ s.toList = a.toList ++ b.toList := by
  rw [← String.toList_append, String.toList_inj]

theorem resourceMatches_iff {granted : List String} :
    resourceMatches granted attrs.resource attrs.requestedSubresource = true ↔
      ∃ g ∈ granted, CoversResource g attrs := by
  have hfilter : attrs.requestedSubresource.filter (fun s => !s.isEmpty) =
      attrs.requestedSubresource := by
    simp [Attributes.requestedSubresource]
  simp only [resourceMatches, hfilter, any_eq_true]
  refine exists_congr fun g => and_congr_right fun _ => ?_
  simp only [CoversResource, Attributes.resourceKey, Bool.or_eq_true, or_assoc]
  cases attrs.requestedSubresource with
  | none => simp [isCombinedKey]
  | some sub =>
    have hkey : isCombinedKey g attrs.resource (some sub) = true ↔
        g = attrs.resource ++ "/" ++ sub := by
      simp only [isCombinedKey, decide_eq_true_eq, Option.bind_eq_some_iff, strip_eq_some]
      rw [eq_append_iff]
      simp
    have hstar : strip ['*', '/'] g.toList = some sub.toList ↔ g = "*/" ++ sub := by
      rw [strip_eq_some, eq_append_iff]
      rfl
    simp [hkey, hstar]

theorem resourceNameMatches_iff {names : List String} {name : Option String} :
    resourceNameMatches names name = true ↔ names = [] ∨ ∃ n ∈ names, name = some n := by
  cases name with
  | none => simp [resourceNameMatches]
  | some n => simp [resourceNameMatches]

/-- A text is what stands before the stars at its end, and the stars. -/
theorem exists_rdropWhile (cs : List Char) :
    ∃ n, cs = cs.rdropWhile (· = '*') ++ List.replicate n '*' := by
  induction cs using List.reverseRecOn with
  | nil => exact ⟨0, rfl⟩
  | append_singleton cs c ih =>
    by_cases hc : c = '*'
    · subst hc
      obtain ⟨n, hn⟩ := ih
      rw [rdropWhile_concat_pos _ _ _ (by simp)]
      refine ⟨n + 1, ?_⟩
      rw [replicate_succ', ← append_assoc, ← hn]
    · rw [rdropWhile_concat_neg _ _ _ (by simpa using hc)]
      exact ⟨0, by simp⟩

theorem rdropWhile_append_stars (stem : List Char) (n : Nat) :
    (stem ++ List.replicate n '*').rdropWhile (· = '*') = stem.rdropWhile (· = '*') := by
  induction n with
  | zero => simp
  | succ n ih => rw [replicate_succ', ← append_assoc, rdropWhile_concat_pos _ _ _ (by simp), ih]

theorem nonResourceUrlMatches_iff {pat url : String} :
    nonResourceUrlMatches pat url = true ↔ CoversUrl pat url := by
  simp only [nonResourceUrlMatches, CoversUrl, Bool.or_eq_true, decide_eq_true_eq, Bool.and_eq_true,
    or_assoc, isPrefixOf_iff_prefix]
  refine or_congr_right (or_congr_right ⟨?_, ?_⟩)
  · rintro ⟨hlast, rest, hrest⟩
    obtain ⟨init, hinit⟩ := List.getLast?_eq_some_iff.mp hlast
    obtain ⟨n, hn⟩ := exists_rdropWhile init
    rw [hinit, rdropWhile_concat_pos _ _ _ (by simp)] at hrest
    refine ⟨_, n, rest, ?_, hrest.symm⟩
    rw [hinit, replicate_succ', ← append_assoc, ← hn]
  · rintro ⟨stem, n, rest, hpat, hurl⟩
    rw [hpat, hurl, rdropWhile_append_stars]
    refine ⟨?_, ?_⟩
    · rw [replicate_succ', ← append_assoc, List.getLast?_concat]
    · exact (List.rdropWhile_prefix ..).trans (prefix_append ..)

theorem ruleGrants_iff : ruleGrants rule attrs = true ↔ Grants rule attrs := by
  unfold ruleGrants Grants
  cases attrs.nonResourceUrl with
  | some url => simp [verbMatches_iff, nonResourceUrlMatches_iff]
  | none =>
    simp [verbMatches_iff, apiGroupMatches_iff, resourceMatches_iff, resourceNameMatches_iff,
      and_assoc]

theorem subjectMatches_iff {s : Subject} : subjectMatches user ns s = true ↔ s.Names user ns := by
  unfold subjectMatches Subject.Names
  by_cases hu : s.kind = "User"
  · simp [hu]
  by_cases hg : s.kind = "Group"
  · simp [hg]
  · by_cases ha : s.kind = "ServiceAccount"
    · simp only [ha]
      simp [eq_comm]
    · simp [hg, ha]

/-! ## The decision -/

namespace Policy
variable {p q : Policy} {attrs : Attributes}
variable {ref : RoleRef}

theorem mem_resolveRules : rule ∈ p.resolveRules ref ns ↔ p.Holds ref ns rule := by
  constructor
  · intro h
    unfold resolveRules at h
    split at h
    · rename_i hkind
      cases hrole : p.clusterRole ref.name with
      | none => simp [hrole] at h
      | some rules => exact .clusterRole hkind hrole (by simpa [hrole] using h)
    · split at h
      · rename_i hkind
        cases ns with
        | none => cases h
        | some ns =>
          cases hrole : p.role ns ref.name with
          | none => simp [hrole] at h
          | some rules => exact .role hkind hrole (by simpa [hrole] using h)
      · cases h
  · intro h
    cases h with
    | clusterRole hkind hrole hrule | role hkind hrole hrule =>
      simpa [resolveRules, hkind, hrole] using hrule

theorem mem_matchedRefs {ref : RoleRef × Option String} : ref ∈ p.matchedRefs user ns ↔
      (∃ b ∈ p.clusterRoleBindings, (∃ s ∈ b.subjects, s.Names user none) ∧
        ref = (b.roleRef, none)) ∨
      ∃ n b, ns = some n ∧ b ∈ p.roleBindings n ∧ (∃ s ∈ b.subjects, s.Names user (some n)) ∧
        ref = (b.roleRef, some n) := by
  unfold matchedRefs
  rw [mem_append]
  refine or_congr ?_ ?_
  · simp only [mem_map, mem_filter, subjectsMatch, any_eq_true, subjectMatches_iff, and_assoc]
    exact exists_congr fun b => and_congr_right fun _ => and_congr_right fun _ => eq_comm
  · cases ns with
    | none => simp
    | some n =>
      simp only [mem_map, mem_filter, subjectsMatch, any_eq_true, subjectMatches_iff,
        and_assoc, Option.some.injEq, exists_and_left, exists_eq_left']
      exact exists_congr fun b => and_congr_right fun _ => and_congr_right fun _ => eq_comm

/-- The rules of the bindings that match a user in a namespace. -/
def userRules (p : Policy) (user : UserInfo) (ns : Option String) : List PolicyRule :=
  (p.matchedRefs user ns).flatMap fun ref => p.resolveRules ref.1 ref.2

theorem authorize_userRules : p.authorize attrs = .allow ↔ groupMasters ∈ attrs.user.groups ∨
      ∃ rule ∈ p.userRules attrs.user attrs.ns, ruleGrants rule attrs = true := by
  have hmasters : (attrs.user.groups.any fun g => g = groupMasters) = true ↔
      groupMasters ∈ attrs.user.groups := by simp
  have hrules : ((p.matchedRefs attrs.user attrs.ns).any fun ref =>
      (p.resolveRules ref.1 ref.2).any fun rule => ruleGrants rule attrs) = true ↔
      ∃ rule ∈ p.userRules attrs.user attrs.ns, ruleGrants rule attrs = true := by
    simp only [userRules, any_eq_true, mem_flatMap]
    constructor
    · rintro ⟨ref, href, rule, hrule, hgrants⟩
      exact ⟨rule, ⟨ref, href, hrule⟩, hgrants⟩
    · rintro ⟨rule, ⟨ref, href, hrule⟩, hgrants⟩
      exact ⟨ref, href, rule, hrule, hgrants⟩
  rw [authorize, ← hmasters, ← hrules]
  split
  · rename_i h
    exact iff_of_true rfl (.inl h)
  · rename_i h
    split
    · rename_i hany
      exact iff_of_true rfl (.inr hany)
    · rename_i hany
      exact iff_of_false (by decide) fun hor => hor.elim h hany

theorem reaches_iff (hattrs : attrs.IsRequest) :
    p.Reaches attrs rule ↔ rule ∈ p.userRules attrs.user attrs.ns := by
  simp only [userRules, mem_flatMap]
  constructor
  · intro h
    cases h with
    | cluster hb hs hnames hrule =>
      exact ⟨_, mem_matchedRefs.mpr (.inl ⟨_, hb, ⟨_, hs, hnames⟩, rfl⟩),
        mem_resolveRules.mpr hrule⟩
    | namespaced _ hns hb hs hnames hrule =>
      exact ⟨_, mem_matchedRefs.mpr (.inr ⟨_, _, hns, hb, ⟨_, hs, hnames⟩, rfl⟩),
        mem_resolveRules.mpr hrule⟩
  · rintro ⟨ref, href, hrule⟩
    rw [mem_resolveRules] at hrule
    rcases mem_matchedRefs.mp href with ⟨b, hb, ⟨s, hs, hnames⟩, rfl⟩ |
      ⟨n, b, hns, hb, ⟨s, hs, hnames⟩, rfl⟩
    · exact .cluster hb hs hnames hrule
    -- a request in a namespace is for a resource
    have hresource : attrs.isNonResource = false := by
      cases hnon : attrs.isNonResource with
      | false => rfl
      | true =>
        rw [hattrs hnon] at hns
        cases hns
    exact .namespaced hresource hns hb hs hnames hrule

theorem authorize_iff (hattrs : attrs.IsRequest) : p.authorize attrs = .allow ↔
      groupMasters ∈ attrs.user.groups ∨ ∃ rule, p.Reaches attrs rule ∧ Grants rule attrs := by
  simp [authorize_userRules, reaches_iff hattrs, ruleGrants_iff]

/-- There is no third answer. -/
theorem authorize_eq_of_iff (h : p.authorize attrs = .allow ↔ q.authorize attrs = .allow) :
    p.authorize attrs = q.authorize attrs := by
  have hcases : ∀ r : Policy, r.authorize attrs = .allow ∨ r.authorize attrs = .noOpinion := by
    intro r
    unfold authorize
    split
    · exact .inl rfl
    · split
      · exact .inl rfl
      · exact .inr rfl
  rcases hcases p with hp | hp
  · rw [hp, h.mp hp]
  · rcases hcases q with hq | hq
    · rw [h.mpr hq] at hp
      cases hp
    · rw [hp, hq]

/-- `q` has the bindings of `p`, and each role of `p` with its rules. -/
structure Le (p q : Policy) : Prop where
  clusterRoleBindings : p.clusterRoleBindings ⊆ q.clusterRoleBindings
  roleBindings : ∀ ns, p.roleBindings ns ⊆ q.roleBindings ns
  clusterRole : ∀ {name rules}, p.clusterRole name = some rules →
    ∃ rules', q.clusterRole name = some rules' ∧ rules ⊆ rules'
  role : ∀ {ns name rules}, p.role ns name = some rules →
    ∃ rules', q.role ns name = some rules' ∧ rules ⊆ rules'

theorem Le.holds (h : p.Le q) (hr : p.Holds ref ns rule) : q.Holds ref ns rule := by
  cases hr with
  | clusterRole hkind hrole hrule =>
    obtain ⟨rules', hrole', hsub⟩ := h.clusterRole hrole
    exact .clusterRole hkind hrole' (hsub hrule)
  | role hkind hrole hrule =>
    obtain ⟨rules', hrole', hsub⟩ := h.role hrole
    exact .role hkind hrole' (hsub hrule)

theorem Le.reaches (h : p.Le q) (hr : p.Reaches attrs rule) : q.Reaches attrs rule := by
  cases hr with
  | cluster hb hs hnames hrule =>
    exact .cluster (h.clusterRoleBindings hb) hs hnames (h.holds hrule)
  | namespaced hres hns hb hs hnames hrule =>
    exact .namespaced hres hns (h.roleBindings _ hb) hs hnames (h.holds hrule)

/-- The role of a reference does not exist. -/
def Missing (p : Policy) (ref : RoleRef) (ns : Option String) : Prop :=
  (ref.kind = "ClusterRole" → p.clusterRole ref.name = none) ∧
    (ref.kind = "Role" → ∀ n, ns = some n → p.role n ref.name = none)

theorem Missing.not_holds (h : p.Missing ref ns) : ¬ p.Holds ref ns rule := by
  intro hr
  cases hr with
  | clusterRole hkind hrole _ =>
    rw [h.1 hkind] at hrole
    cases hrole
  | role hkind hrole _ =>
    rw [h.2 hkind _ rfl] at hrole
    cases hrole

theorem Holds.of_bindings (h : p.Holds ref ns rule) (cluster : List Binding)
    (namespaced : String → List Binding) :
    Holds ⟨cluster, namespaced, p.clusterRole, p.role⟩ ref ns rule := by
  cases h with
  | clusterRole hkind hrole hrule => exact .clusterRole hkind hrole hrule
  | role hkind hrole hrule => exact .role hkind hrole hrule

variable {post pre : List Binding} {b b' : Binding}

/-- A binding that holds a rule is not the one whose role does not exist. -/
theorem Missing.mem_others (h : p.Missing b.roleRef ns) (hr : p.Holds b'.roleRef ns rule)
    (hb : b' ∈ pre ++ b :: post) : b' ∈ pre ++ post := by
  rcases mem_append.mp hb with hb | hb
  · exact mem_append_left _ hb
  · rcases mem_cons.mp hb with rfl | hb
    · exact absurd hr h.not_holds
    · exact mem_append_right _ hb

/-- Without one of its ClusterRoleBindings. -/
theorem Reaches.of_cluster (hp : p.clusterRoleBindings = pre ++ b :: post)
    (hmissing : p.Missing b.roleRef none) (h : p.Reaches attrs rule) :
    Reaches { p with clusterRoleBindings := pre ++ post } attrs rule := by
  cases h with
  | namespaced hres hns hb hs hnames hrule =>
    exact .namespaced hres hns hb hs hnames (hrule.of_bindings _ _)
  | cluster hb hs hnames hrule =>
    rw [hp] at hb
    exact .cluster (hmissing.mem_others hrule hb) hs hnames (hrule.of_bindings _ _)

/-- Without one of its RoleBindings. -/
theorem Reaches.of_namespaced {ns : String} (hp : p.roleBindings ns = pre ++ b :: post)
    (hmissing : p.Missing b.roleRef (some ns)) (h : p.Reaches attrs rule) :
    Reaches { p with roleBindings := Function.update p.roleBindings ns (pre ++ post) }
    attrs rule := by
  cases h with
  | cluster hb hs hnames hrule => exact .cluster hb hs hnames (hrule.of_bindings _ _)
  | @namespaced ns' b' s rule hres hns hb hs hnames hrule =>
    refine .namespaced hres hns ?_ hs hnames (hrule.of_bindings _ _)
    by_cases hn : ns' = ns
    · subst hn
      rw [hp] at hb
      simpa only [Function.update_self] using hmissing.mem_others hrule hb
    · simpa only [Function.update_of_ne hn] using hb

/-- The authorizer allows a request exactly if the user is of `system:masters` or reaches a rule
that grants it. It still allows it with more bindings and rules, and a binding whose role does not
exist could as well not be there. -/
theorem authorize_allows_iff (p : Policy) (attrs : Attributes) (hattrs : attrs.IsRequest) :
    (p.authorize attrs = .allow ↔
      groupMasters ∈ attrs.user.groups ∨ ∃ rule, p.Reaches attrs rule ∧ Grants rule attrs) ∧
    (∀ q, p.Le q → p.authorize attrs = .allow → q.authorize attrs = .allow) ∧
    (∀ b pre post, p.clusterRoleBindings = pre ++ b :: post → p.Missing b.roleRef none →
      p.authorize attrs = authorize { p with clusterRoleBindings := pre ++ post } attrs) ∧
    (∀ ns b pre post, p.roleBindings ns = pre ++ b :: post → p.Missing b.roleRef (some ns) →
      p.authorize attrs =
        authorize { p with roleBindings := Function.update p.roleBindings ns (pre ++ post) }
        attrs) := by
  have mono : ∀ {p q : Policy}, (∀ {rule}, p.Reaches attrs rule → q.Reaches attrs rule) →
      p.authorize attrs = .allow → q.authorize attrs = .allow := by
    intro p q hreach h
    rcases (authorize_iff hattrs).mp h with hm | ⟨rule, hr, hgrants⟩
    · exact (authorize_iff hattrs).mpr (.inl hm)
    · exact (authorize_iff hattrs).mpr (.inr ⟨rule, hreach hr, hgrants⟩)
  refine ⟨authorize_iff hattrs, fun q hle => mono hle.reaches, fun b pre post hp hmissing => ?_,
    fun ns b pre post hp hmissing => ?_⟩
  · have hle : Le { p with clusterRoleBindings := pre ++ post } p := by
      refine ⟨fun x hx => ?_, fun ns => List.Subset.refl _, fun h => ⟨_, h, List.Subset.refl _⟩,
        fun h => ⟨_, h, List.Subset.refl _⟩⟩
      rw [hp]
      rcases List.mem_append.mp hx with hx | hx
      · exact List.mem_append_left _ hx
      · exact List.mem_append_right _ (.tail _ hx)
    exact authorize_eq_of_iff ⟨mono (.of_cluster hp hmissing), mono hle.reaches⟩
  · have hle : Le { p with roleBindings := Function.update p.roleBindings ns (pre ++ post) } p := by
      refine ⟨List.Subset.refl _, fun n x hx => ?_, fun h => ⟨_, h, List.Subset.refl _⟩,
        fun h => ⟨_, h, List.Subset.refl _⟩⟩
      by_cases hn : n = ns
      · subst hn
        simp only [Function.update_self] at hx
        rw [hp]
        rcases List.mem_append.mp hx with hx | hx
        · exact List.mem_append_left _ hx
        · exact List.mem_append_right _ (.tail _ hx)
      · simpa only [Function.update_of_ne hn] using hx
    exact authorize_eq_of_iff ⟨mono (.of_namespaced hp hmissing), mono hle.reaches⟩

/-! ## A concrete policy -/

def readPods : PolicyRule := ⟨["get", "list"], [""], ["pods"], [], []⟩

/-- `jane` reads the pods of `default` and has a binding to a role that is not there. -/
def janesPolicy : Policy where
  clusterRoleBindings := [⟨⟨"ClusterRole", "gone"⟩, [⟨"User", "jane", none⟩]⟩]
  roleBindings ns := if ns = "default" then [⟨⟨"Role", "reader"⟩, [⟨"User", "jane", none⟩]⟩] else []
  clusterRole _ := none
  role ns name := if ns = "default" ∧ name = "reader" then some [readPods] else none

def getPod (user : UserInfo) : Attributes :=
  .forRequest user "get" (.resource ⟨"", "pods", none, some "default", some "web"⟩)

theorem jane_reads_pods :
    let attrs := getPod ⟨"jane", []⟩
    (∃ rule, janesPolicy.Reaches attrs rule ∧ Grants rule attrs) ∧
      authorize { janesPolicy with clusterRoleBindings := [] } attrs = .allow := by
  intro attrs
  have hattrs : attrs.IsRequest := Attributes.isRequest_forRequest _ _ _
  have hallow : janesPolicy.authorize attrs = .allow := by decide +kernel
  obtain ⟨hiff, -, hcluster, -⟩ := authorize_allows_iff janesPolicy attrs hattrs
  refine ⟨(hiff.mp hallow).resolve_left (by decide +kernel), ?_⟩
  rw [← hallow]
  exact (hcluster _ [] [] rfl ⟨fun _ => rfl, fun h => absurd h (by decide +kernel)⟩).symm

/-- A member of `system:masters` is allowed what no rule grants. -/
theorem masters_need_no_rule :
    let attrs := getPod ⟨"root", ["system:masters"]⟩
    let p : Policy := ⟨[], fun _ => [], fun _ => none, fun _ _ => none⟩
    p.authorize attrs = .allow ∧ ¬ ∃ rule, p.Reaches attrs rule := by
  refine ⟨by decide +kernel, ?_⟩
  rintro ⟨rule, hr⟩
  cases hr with
  | cluster hb | namespaced _ _ hb => cases hb

end Policy
end Engenho.Rbac
