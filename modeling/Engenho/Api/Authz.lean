import Engenho.Api.Proposal
import Engenho.Api.Rbac
import Engenho.Store.Listing

/-!
# Who may create

The authorizer judges a request by the verb of its method, before the store is read; whether a write
creates or updates is decided later, by what the store holds. A write on the main endpoint of a kind
that creates an object is a POST, judged as `create`, or the server-side apply of a missing object,
judged as `patch` (`create_permitted`). What anyone may do changes only by writes to the policy
(`decisions_follow_policy`).
-/

namespace Engenho
open Rbac ResourceCatalog

/-! ## Requests -/

/-- The verb of a method. -/
def resourceVerb (method : String) (hasName isWatch : Bool) : String :=
  match method.toUpper with
  | "GET" => if hasName then "get" else if isWatch then "watch" else "list"
  | "HEAD" => if hasName then "get" else if isWatch then "watch" else "list"
  | "POST" => "create"
  | "PUT" => "update"
  | "PATCH" => "patch"
  | "DELETE" => if hasName then "delete" else "deletecollection"
  | other => other.toLower

theorem resourceVerb_write (hasName isWatch : Bool) :
    resourceVerb "POST" hasName isWatch = "create" ∧
    resourceVerb "PATCH" hasName isWatch = "patch" := by
  decide +revert +kernel

/-- A subresource that is a connection. -/
def isStreamingSubresource (segment : String) : Bool := segment ∈ ["exec", "attach", "portforward"]

/-- What a request asks to do, and to what. -/
structure RequestInfo where
  verb : String
  target : RequestTarget

/-- Verb and target of a request. -/
def RequestInfo.classify (method : String) (target : RequestTarget) (isWatch : Bool) :
    RequestInfo where
  verb := match target with
    | .resource c =>
      if c.name.isSome && c.subresource.any isStreamingSubresource then "create"
      else resourceVerb method c.name.isSome isWatch
    | .nonResource _ => method.toLower
  target := target

/-- A request on the main endpoint of a kind. -/
structure MainRequest where
  method : String
  coords : ResourceCoords
  isWatch : Bool
  body : Json
  patchType : PatchType
  applyOptions : Option ApplyOptions

namespace MainRequest

def info (r : MainRequest) : RequestInfo := .classify r.method (.resource r.coords) r.isWatch

/-- What the router has the handler write: the name and the request. Other methods write nothing. -/
def write (r : MainRequest) : Except ApiError (Option (String × WriteRequest)) :=
  match r.method, r.coords.name with
  | "POST", some _ =>
    .error (.badRequest "POST is only valid on a collection path (no resource name)")
  | "POST", none =>
    match (metaField "name" r.body).bind Json.asStr with
    | none => .error (.badRequest "missing metadata.name in request body")
    | some name => .ok (some (name, .create r.body))
  | "PUT", none => .error (.badRequest "PUT requires a resource name (instance path)")
  | "PUT", some name => .ok (some (name, .replace r.body))
  | "PATCH", none => .error (.badRequest "PATCH requires a resource name (instance path)")
  | "PATCH", some name =>
    (WriteRequest.ofPatch r.body r.patchType r.applyOptions).map fun w => some (name, w)
  | _, _ => .ok none

/-- A command that the request sends to the store: of an attempt of its write, whatever the store
held at the read and at the proposal, or a delete. -/
inductive Proposes (h : WriteHandler) (env : Env) (r : MainRequest) : ResourceCommand → Prop
  | write (name : String) (request : WriteRequest) (key : ResourceKey) (rules : WriteRules)
      (prior : Option (Json × VersionMeta)) (expected : Option Nat) (now stampedAt : Timestamp)
      (p : WritePlan) (c : ResourceCatalog) (hwrite : r.write = .ok (some (name, request)))
      (hkey : h.key env r.coords.ns name = .ok key)
      (hplan : h.plan env rules key r.coords.ns name request prior expected now = .ok (.write p)) :
      Proposes h env r (c.stampBirths stampedAt (p.command key))
  | delete (key : ResourceKey) (expected : Option Nat) (ts : Option String)
      (hmethod : r.method = "DELETE") : Proposes h env r (.delete key expected ts)

variable {r : MainRequest} {name : String} {request : WriteRequest}

theorem write_ok (h : r.write = .ok (some (name, request))) (hnew : request.requires ≠ .present) :
    (r.method = "POST" ∧ r.coords.name = none) ∨
      (r.method = "PATCH" ∧ ∃ config opts, request = .apply config opts) := by
  unfold write at h
  split at h
  · cases h
  · rename_i hm hn
    exact .inl ⟨hm, hn⟩
  · cases h
  · cases h
    exact absurd rfl hnew
  · cases h
  · rename_i hm hn
    obtain ⟨w, hw, he⟩ := Except.of_map_ok h
    cases he
    refine .inr ⟨hm, ?_⟩
    cases request with
    | apply config opts => exact ⟨config, opts, rfl⟩
    | patch => exact absurd rfl hnew
    | _ =>
      unfold WriteRequest.ofPatch at hw
      split at hw <;> cases hw
  · cases h

end MainRequest

/-! ## Commands -/

namespace ResourceCatalog
variable {env : Env} {c : ResourceCatalog} {key : ResourceKey}

/-- A put at a revision makes nothing of a free key. -/
theorem dispatch_put_free (h : c.getWithMeta key = none) (value : Json) (n : Nat) (on : OnIdentical)
    (rev : Nat) :
    dispatch env c.resources (.put key value (some n)) on rev = (c.resources,
      .noChange .conflict) := by
  obtain ⟨-, he⟩ | ⟨hpre, -⟩ := applyPut_cases env key value c.resources (some n) on rev
  · exact he
  · obtain ⟨e, he, -⟩ := live_of_precondition hpre
    rw [h] at he
    cases he

theorem dispatch_delete_free (h : c.getWithMeta key = none) (expected : Option Nat)
    (ts : Option String) (on : OnIdentical) (rev : Nat) :
    ∃ op, dispatch env c.resources (.delete key expected ts) on rev = (c.resources,
      .noChange op) := by
  have hend := applyDelete_end c.resources key expected ts rev
  rw [dispatch]
  generalize applyDelete c.resources key expected ts rev = out at hend
  cases hend with
  | same op => exact ⟨op, rfl⟩
  | removed live m hlive | stamped live m stamp hlive =>
    rw [getWithMeta, hlive] at h
    cases h

/-- A command that makes nothing of its own free key makes nothing of any. -/
theorem getWithMeta_applyUnder_free {k : ResourceKey} {cmd : ResourceCommand} {sem : ApplySemantics}
    (hkeys : cmd.keys = [key]) (hcmd : c.getWithMeta key = none → ∃ op,
      dispatch env c.resources cmd (.under sem) c.history.nextRevision =
      (c.resources, .noChange op))
    (hfree : c.getWithMeta k = none) (term index : Nat) :
    (c.applyUnder env cmd sem term index).1.getWithMeta k = none := by
  by_cases hk : k = key
  · subst hk
    rw [applyUnder_noChange env c cmd sem term index fun _ => hcmd hfree]
    exact hfree
  · rw [getWithMeta, c.applyUnder_get_ne env cmd sem term index (by simpa [hkeys] using hk)]
    exact hfree

end ResourceCatalog

/-- A request that is let through and makes an object where there was none is a POST by a user who
may create there, or a server-side apply by one who may patch the object. -/
theorem create_permitted (policy : Policy) (user : UserInfo) (h : WriteHandler) (env : Env)
    (r : MainRequest) (hmain : r.coords.subresource = none)
    (hallow : policy.authorize (.forRequest user r.info.verb r.info.target) = .allow)
    (cmd : ResourceCommand) (hcmd : r.Proposes h env cmd) (c : ResourceCatalog)
    (sem : ApplySemantics) (term index : Nat) (key : ResourceKey) (hfree : c.getWithMeta key = none)
    (hmade : ((c.applyUnder env cmd sem term index).1.getWithMeta key).isSome = true) :
    policy.authorize ⟨user, "create", r.coords.group, r.coords.plural, none, r.coords.ns,
      none, none⟩ =
        .allow ∨
      (∃ name config opts, r.write = .ok (some (name, .apply config opts))) ∧
        policy.authorize ⟨user, "patch", r.coords.group, r.coords.plural, none, r.coords.ns,
          r.coords.name,
          none⟩ = .allow := by
  simp only [MainRequest.info, RequestInfo.classify, Attributes.forRequest, hmain, Option.any_none,
    Bool.and_false, Bool.false_eq_true, if_false] at hallow
  cases hcmd with
  | delete k expected ts =>
    rw [getWithMeta_applyUnder_free rfl (fun h => dispatch_delete_free h expected ts _ _)
      hfree] at hmade
    cases hmade
  | write name request k rules prior expected now stampedAt p c' hwrite hkey hplan =>
    obtain ⟨hlife, -⟩ := WriteHandler.plan_write hplan
    cases prior with
    | some e =>
      simp only [WritePlan.command, hlife, Lifecycle.of, stampBirths] at hmade
      rw [getWithMeta_applyUnder_free rfl (fun h => ⟨_, dispatch_put_free h ..⟩) hfree] at hmade
      cases hmade
    | none =>
      -- a replace or a merge patch of a missing object is not planned
      have hnew : request.requires ≠ .present := by
        intro hpresent
        obtain ⟨_, hof, -⟩ := Except.of_bind_ok hplan
        simp [WriteHandler.lifecycleOf, hpresent] at hof
      obtain ⟨hm, hn⟩ | ⟨hm, config, opts, rfl⟩ := MainRequest.write_ok hwrite hnew
      · rw [hm, hn, (resourceVerb_write _ _).1] at hallow
        exact .inl hallow
      · rw [hm, (resourceVerb_write _ _).2] at hallow
        exact .inr ⟨⟨name, config, opts, hwrite⟩, hallow⟩

/-! ## Decisions over a run -/

theorem storePolicy_congr {c c' : ResourceCatalog}
    (h : ∀ k, k.group = rbacGroup → c'.get k = c.get k)
    (codec : Rbac.Codec) : storePolicy codec c' = storePolicy codec c := by
  have hlist : ∀ {α : Type} (f : Json → Option α) kind ns,
      listDecoded c' f kind ns = listDecoded c f kind ns := by
    intro α f kind ns
    have hl : c'.listed ⟨rbacGroup, "v1", kind, ns⟩ = c.listed _ :=
      ResourceCatalog.listed_congr fun k hk => h k (by simp_all [ListScope.contains])
    simpa [listDecoded, ResourceCatalog.listed, ResourceCatalog.entriesAfter,
      List.filterMap_map] using congrArg (List.filterMap fun e => f e.2) hl
  simp [storePolicy, hlist, h]

/-- A run of the store leaves every decision as it is, unless a write names an object of the
policy. -/
theorem decisions_follow_policy (env : Env) (codec : Rbac.Codec) (s : Logged)
    (ops : List CatalogOp) : (∃ op ∈ ops, ∃ k ∈ op.keys, k.group = rbacGroup) ∨ ∀ attrs,
      (storePolicy codec (Run.exec (Logged.step env) s ops).cat).authorize attrs =
        (storePolicy codec s.cat).authorize attrs := by
  refine or_iff_not_imp_left.mpr fun hops attrs => ?_
  induction ops generalizing s with
  | nil => rfl
  | cons op ops ih =>
    have hop : ∀ k, k.group = rbacGroup → (s.cat.perform env op).1.get k = s.cat.get k := by
      intro k hk
      have hne : k ∉ op.keys := fun hmem => hops ⟨op, .head _, k, hmem, hk⟩
      simp only [ResourceCatalog.get, perform_get_ne env _ _ hne]
    have hrest : ¬ ∃ op ∈ ops, ∃ k ∈ op.keys, k.group = rbacGroup := by
      rintro ⟨o, ho, hk⟩
      exact hops ⟨o, .tail _ ho, hk⟩
    rw [Run.exec_cons, ih _ hrest]
    exact congrArg (Policy.authorize · attrs) (storePolicy_congr hop codec)

/-! ## A concrete apply -/

/-- `jane` may patch the pods of `default`, and nothing else. -/
def patcherPolicy : Policy where
  clusterRoleBindings := []
  roleBindings ns :=
    if ns = "default" then [⟨⟨"Role", "patcher"⟩, [⟨"User", "jane", none⟩]⟩] else []
  clusterRole _ := none
  role _ _ := some [⟨["patch"], [""], ["pods"], [], []⟩]

def janesApply : MainRequest :=
  ⟨"PATCH", ⟨"", "pods", none, some "default", some "web"⟩, false, podBody [("name", .str "web")],
    .apply, some ⟨"jane", false⟩⟩

theorem jane_proposes : ∃ cmd, janesApply.Proposes podWrites atomicEnv cmd ∧
    (((Logged.init 4).cat.applyUnder atomicEnv cmd .v1 1 1).1.getWithMeta podKey).isSome =
    true := by
  refine ⟨_, .write "web" _ podKey openRules none none someTime someTime _ (Logged.init 4).cat
    rfl rfl rfl, ?_⟩
  decide +kernel

/-- The apply is let through and creates the pod, which its user may not. -/
theorem applied_without_create :
    patcherPolicy.authorize (.forRequest ⟨"jane", []⟩ janesApply.info.verb janesApply.info.target) =
    .allow ∧
      (∃ cmd, janesApply.Proposes podWrites atomicEnv cmd ∧
        (Logged.init 4).cat.getWithMeta podKey = none ∧
        (((Logged.init 4).cat.applyUnder atomicEnv cmd .v1 1 1).1.getWithMeta podKey).isSome =
          true) ∧
      patcherPolicy.authorize ⟨⟨"jane", []⟩, "create", "", "pods", none, some "default",
        none, none⟩ ≠
        .allow := by
  obtain ⟨cmd, hcmd, hmade⟩ := jane_proposes
  exact ⟨by decide +kernel, ⟨cmd, hcmd, rfl, hmade⟩, by decide +kernel⟩

theorem create_permitted_jane :
    patcherPolicy.authorize ⟨⟨"jane", []⟩, "patch", "", "pods", none, some "default",
      some "web", none⟩ =
      .allow := by
  obtain ⟨cmd, hcmd, hmade⟩ := jane_proposes
  exact ((create_permitted patcherPolicy ⟨"jane", []⟩ podWrites atomicEnv janesApply rfl
    (by decide +kernel) cmd
    hcmd _ .v1 1 1 podKey rfl hmade).resolve_left (by decide +kernel)).2

end Engenho
