import Engenho.Api.ListPage

/-!
# Evictions and disruption budgets

An eviction is a delete of a pod that a PodDisruptionBudget may refuse. `Eviction.decide` judges one
pod against the one budget that selects it; a granted disruption is spent by a merge patch of the
budget under a compare-and-swap, and only then is the pod deleted.

Evictions run at the same time: each is a program with a place in its code (`Stage`), and
`Evictions.step` lets one of them take its next step, or another writer commit something.
-/

namespace Engenho

/-! ## Which budget covers a pod -/

/-- An empty selector matches nothing. -/
def matchesLabels (resource matchLabels : Json) : Bool :=
  match matchLabels.asObject with
  | none => false
  | some want =>
    if want.isEmpty then false
    else
      match (metaField "labels" resource).bind Json.asObject with
      | none => false
      | some have_ => want.all fun e => have_.lookup e.1 = some e.2

def selectorMatchLabels (parent : Json) : Option Json :=
  ((parent.get "spec").bind (Json.get "selector")).bind fun sel =>
    (sel.get "matchLabels").orElse fun _ => some sel

/-- The budget covers the pod. -/
def pdbSelects (pdb pod : Json) : Bool :=
  (selectorMatchLabels pdb).any fun sel => matchesLabels pod sel

/-! ## The decision -/

/-- The options of an eviction. -/
structure Eviction where
  uid : Option String
  resourceVersion : Option String
  dryRun : Bool
deriving DecidableEq, Repr

/-- Delete at once, or spend the budget first. -/
inductive Decision where
  | delete
  | spend (patch : Json)
deriving DecidableEq

namespace Eviction

/-- The pod is deleted without consulting any budget. -/
def ignoresBudgets (pod : Json) : Bool :=
  let phase := (statusField "phase" pod).bind Json.asStr
  phase = some "Succeeded" || phase = some "Failed" || phase = some "Pending" ||
    (metaField "deletionTimestamp" pod).isSome

def statusInt (field : String) (pdb : Json) : Option Int := (statusField field pdb).bind Json.asI64

/-- What the budget still allows; nothing if it does not say. -/
def disruptionsAllowed (pdb : Json) : Int := (statusInt "disruptionsAllowed" pdb).getD 0

/-- An unready pod that the budget can spare goes without spending. -/
def spares (pod pdb : Json) : Bool :=
  let current := (statusInt "currentHealthy" pdb).getD 0
  let desired := (statusInt "desiredHealthy" pdb).getD 0
  let policy := (((pdb.get "spec").bind (Json.get "unhealthyPodEvictionPolicy")).bind
    Json.asStr).getD
    "IfHealthyBudget"
  !podIsReady pod && (policy = "AlwaysAllow" || (current ≥ desired && desired > 0))

/-- The status of the budget lags its generation. -/
def lags (pdb : Json) : Bool :=
  match statusInt "observedGeneration" pdb with
  | none => true
  | some observed =>
    ((metaField "generation" pdb).bind Json.asI64).any fun generation => observed < generation

/-- The write that spends one disruption. -/
def spendPatch (allowed : Int) (podName now : String) : Json :=
  .obj [("status", .obj [
    ("disruptedPods", .obj [(podName, .str now)]),
    ("disruptionsAllowed", .num (.int (allowed - 1)))])]

/-- What the budget says to an eviction. -/
def decide (pod pdb : Json) (now : String) : Except ApiError Decision :=
  let pdbName := ((metaField "name" pdb).bind Json.asStr).getD ""
  let current := (statusInt "currentHealthy" pdb).getD 0
  let desired := (statusInt "desiredHealthy" pdb).getD 0
  if spares pod pdb then .ok .delete
  else if lags pdb then
    .error (.disruptionBudget
      ("The disruption budget " ++ pdbName ++ " is still being processed by the server."))
  else
    let allowed := disruptionsAllowed pdb
    if allowed < 0 then .error (.forbidden "pdb disruptions allowed is negative")
    else if allowed = 0 then
      .error (.disruptionBudget
        ("The disruption budget " ++ pdbName ++ " needs " ++ toString desired ++
          " healthy pods and has " ++ toString current ++ " currently"))
    else .ok (.spend (spendPatch allowed (((metaField "name" pod).bind Json.asStr).getD "") now))

end Eviction

/-! ## The program of one eviction -/

/-- Where an eviction is. `left` counts the attempts after the present one. -/
inductive Stage where
  /-- About to read the pod. -/
  | reading
  /-- About to list the budgets and judge the pod by the one that selects it. -/
  | judging (pod : Json) (expected : Option Nat) (left : Nat)
  /-- Judged to spend; about to read the revision of the budget. -/
  | judged (pod : Json) (expected : Option Nat) (left : Nat) (pdbKey : ResourceKey)
    (pdb patch : Json)
  /-- About to propose the patch at the revision read. -/
  | proposing (pod : Json) (expected : Option Nat) (left : Nat) (pdbKey : ResourceKey)
      (pdb patch : Json) (revision : Nat)
  /-- Past the budget, about to delete the pod. -/
  | deleting (expected : Option Nat)
  /-- The delete has answered. -/
  | answered (result : Except ApiError Unit)
  /-- Refused before the delete. -/
  | refused (error : ApiError)
deriving DecidableEq

/-- The eviction went on to the delete of the pod. -/
def Stage.proceeds : Stage → Bool
  | .deleting _ => true
  | .answered _ => true
  | _ => false

/-- What the world does at a step: the time, the log position of a proposal, a proposal whose answer
fails (it may have been applied all the same), and the admission chain's objection to a delete. -/
structure Turn where
  now : String
  term : Nat
  index : Nat
  failed : Option (String × Bool)
  denied : Option String
deriving DecidableEq, Repr

/-- A proposal: refused on a key that cannot be read, else applied as one command. -/
def ResourceCatalog.propose (env : Env) (c : ResourceCatalog) (cmd : ResourceCommand) (t : Turn) :
    ResourceCatalog × Except ApiError ApplyOutcome :=
  match c.unreadableTouchedBy cmd with
  | some (key, fault) => (c, .error (.storageError (key.label ++ ": " ++ fault.text)))
  | none =>
    let out := c.applyUnder env cmd .v1 t.term t.index
    match t.failed with
    | some (text, applied) => (if applied then out.1 else c, .error (.storageError text))
    | none => (out.1, .ok out.2)

def ResourceCommand.patchCas (key : ResourceKey) (patch : Json) (expected : Option Nat) :
    ResourceCommand :=
  .patch key patch .merge none expected

/-- A call of the eviction subresource. -/
structure EvictRequest where
  ns : Option String
  name : String
  eviction : Eviction
  dryRun : Bool
deriving DecidableEq, Repr

/-- One eviction: the request, its place, and every budget it was judged to spend from. -/
structure Evicting extends EvictRequest where
  stage : Stage
  spent : List ResourceKey
deriving DecidableEq

namespace Evicting

def start (r : EvictRequest) : Evicting := { r with stage := .reading, spent := [] }

variable (env : Env) (c : ResourceCatalog) (e : Evicting)

def dry : Bool := e.eviction.dryRun || e.dryRun

variable (ns : Option String) (pod : Json) (name : String) (expected : Option Nat) (t : Turn)

def key : Except ApiError ResourceKey :=
  match ns with
  | some ns => .ok ⟨"", "v1", "Pod", some ns, name⟩
  | none => .error (.badRequest ("Pod/" ++ name ++ " is namespaced; got namespace=None"))

/-- The pod is not at the revision named. -/
def rvConflict : ApiError :=
  .resourceVersionConflict ("Operation cannot be fulfilled on pods \"" ++ name ++
    "\": the object has been modified; expected resourceVersion " ++
    (expected.map toString).getD "<none>" ++ " did not match the live object")

/-- The precondition on the pod's resource version. -/
def expectedRevision (rv : Option String) : Except ApiError (Option Nat) :=
  match rv with
  | none => .ok none
  | some rv =>
    match parseUsize rv with
    | some n => .ok (some n)
    | none => .error (.badRequest ("invalid resourceVersion precondition " ++ env.debugStr rv))

/-- The first step: read the pod, check the preconditions. Three attempts at the budget follow. -/
def readPod : Except ApiError Stage := do
  let key ← key e.ns e.name
  match c.getWithMeta key with
  | none => throw (.notFound ("pods \"" ++ e.name ++ "\" not found"))
  | some (pod, podMeta) =>
    let uidDiffers := e.eviction.uid.filter fun uid =>
      (metaField "uid" pod).bind Json.asStr ≠ some uid
    match uidDiffers with
    | some uid =>
      throw (.resourceVersionConflict ("Operation cannot be fulfilled on pods \"" ++ e.name ++
        "\": the UID in the precondition (" ++ uid ++ ") does not match the UID in record"))
    | none =>
      let expected ← expectedRevision env e.eviction.resourceVersion
      if expected.any fun rv => rv ≠ podMeta.modRevision then throw (rvConflict e.name expected)
      else if Eviction.ignoresBudgets pod then return .deleting expected
      else return .judging pod expected 2

/-- Back to the read, while there are attempts. -/
def retry (pod : Json) (expected : Option Nat) : Nat → Stage
  | 0 => .refused (.disruptionBudget
      "the disruption budget kept changing while this eviction was judged; retry")
  | left + 1 => .judging pod expected left

/-- The budgets of the pod's namespace that select it. -/
def selecting : List (ResourceKey × ResourceValue) :=
  (c.listed ⟨"policy", "v1", "PodDisruptionBudget", ns⟩).filter fun e => pdbSelects e.2 pod

/-- Asks the budgets that cover the pod. -/
def judge (left : Nat) (now : String) : Evicting :=
  match selecting c e.ns pod with
  | [] => { e with stage := .deleting expected }
  | [(pdbKey, pdb)] =>
    match Eviction.decide pod pdb now with
    | .error err => { e with stage := .refused err }
    | .ok .delete => { e with stage := .deleting expected }
    | .ok (.spend patch) =>
      { e with
        stage := if e.dry then .deleting expected else .judged pod expected left pdbKey pdb patch
        spent := pdbKey :: e.spent }
  | _ => { e with stage := .refused (.internal
      ("This pod has more than one PodDisruptionBudget, which the eviction " ++
        "subresource does not support.")) }

/-- The delete of the pod; a dry run proposes nothing. -/
def deletePod : ResourceCatalog × Except ApiError Unit :=
  match key e.ns e.name, t.denied with
  | .error err, _ => (c, .error err)
  | .ok _, some reason => (c, .error (.forbidden reason))
  | .ok key, none =>
    if e.dry then (c, .ok ())
    else
      let out := c.propose env (.delete key expected (some t.now)) t
      (out.1, out.2.bind fun o =>
        if o.op = .conflict then .error (rvConflict e.name expected) else .ok ())

/-- The next step of an eviction. -/
def step : ResourceCatalog × Evicting :=
  match e.stage with
  | .reading =>
    match readPod env c e with
    | .ok stage => (c, { e with stage })
    | .error err => (c, { e with stage := .refused err })
  | .judging pod expected left => (c, judge c e pod expected left t.now)
  | .judged pod expected left pdbKey pdb patch =>
    match c.getWithMeta pdbKey with
    | none => (c, { e with stage := retry pod expected left })
    | some (_, m) =>
      (c, { e with stage := .proposing pod expected left pdbKey pdb patch m.modRevision })
  | .proposing pod expected left pdbKey _ patch revision =>
    let out := c.propose env (.patchCas pdbKey patch (some revision)) t
    match out.2 with
    | .error err => (out.1, { e with stage := .refused err })
    | .ok o =>
      (out.1, { e with
        stage := if o.op ≠ .conflict then .deleting expected else retry pod expected left })
  | .deleting expected =>
    let out := deletePod env c e expected t
    (out.1, { e with stage := .answered out.2 })
  | .answered _ => (c, e)
  | .refused _ => (c, e)

/-- The eviction was judged to spend from `budget` and goes on to delete its pod; a dry run deletes
nothing. -/
def takes (budget : ResourceKey) (e : Evicting) : Bool :=
  e.spent.contains budget && !e.dry && e.stage.proceeds

end Evicting

/-! ## Evictions at the same time -/

/-- The store and the evictions under way. -/
structure Evictions where
  cat : ResourceCatalog
  calls : List Evicting
deriving DecidableEq

/-- One eviction takes a step, or another writer does something. -/
inductive EvictionEvent where
  | turn (i : Nat) (t : Turn)
  | other (op : CatalogOp)
deriving DecidableEq, Repr

/-- The event is no write of another writer to `budget`. -/
def EvictionEvent.leaves (budget : ResourceKey) : EvictionEvent → Prop
  | .turn _ _ => True
  | .other op => budget ∉ op.keys

instance (budget : ResourceKey) : ∀ e : EvictionEvent, Decidable (e.leaves budget)
  | .turn _ _ => .isTrue trivial
  | .other op => inferInstanceAs (Decidable (budget ∉ op.keys))

namespace Evictions

def start (cat : ResourceCatalog) (requests : List EvictRequest) : Evictions :=
  ⟨cat, requests.map Evicting.start⟩

/-- One step of one call. -/
def step (env : Env) (s : Evictions) : EvictionEvent → Evictions
  | .turn i t =>
    match s.calls[i]? with
    | none => s
    | some e =>
      let out := e.step env s.cat t
      ⟨out.1, s.calls.set i out.2⟩
  | .other op => { s with cat := (s.cat.perform env op).1 }

/-- How many evictions spend from `budget` and go on to delete their pod. -/
def taken (budget : ResourceKey) (s : Evictions) : Nat := s.calls.countP (Evicting.takes budget)
end Evictions
end Engenho
