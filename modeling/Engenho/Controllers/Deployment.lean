import Engenho.Controllers.Rollout

/-!
# The Deployment controller

A Deployment runs its pods through ReplicaSets. The current one has its template, and gets the
number of replicas it asks for; the others are scaled to none and kept as its history. Where there
is no current one, it is created under the hash of the template.
-/

namespace Engenho
open List Except
namespace Controllers
namespace Deployment

def replicaSetKind : Gvk := ⟨"apps", "v1", "ReplicaSet"⟩

/-! ## The current ReplicaSet -/

/-- The ReplicaSet is of the template. -/
def runsTemplate (rs template : Json) : Bool := NormalizedTemplate.ofSpecTemplate rs = some template

/-- The order of the counts, with one that cannot be read below the others. -/
def rankLt : Option Int → Option Int → Bool
  | none, some _ => true
  | some a, some b => a < b
  | _, none => false

/-- The first does not rank above the second: it has fewer replicas, or as many and no smaller
name. -/
def notAbove (a b : ResourceKey × Json) : Bool :=
  let n := (readInt replicas a.2).toOption
  let m := (readInt replicas b.2).toOption
  rankLt n m || (n = m && b.1.name ≤ a.1.name)

/-- Of those that run the template, the highest; of equals, the last. -/
def currentReplicaset (template : Json) (owned : Items) : Option (ResourceKey × Json) :=
  (owned.filter fun e => runsTemplate e.2 template).foldl (fun best e =>
    match best with
    | none => some e
    | some b => if notAbove b e then some e else some b) none

/-! ## The pass -/

/-- The ReplicaSet of a template. -/
def buildReplicasetFrom (d : Json) (hash : String) (count : Int) : Option (String × Json) :=
  match name d, specField "template" d with
  | some dName, some template =>
    let rsName := dName ++ "-" ++ hash
    some (rsName, .obj [
      ("apiVersion", .str "apps/v1"), ("kind", .str "ReplicaSet"),
      ("metadata", .obj [
        ("labels", .obj [("app.kubernetes.io/managed-by", .str "engenho-deployment-controller"),
          (podTemplateHashLabel, .str hash)]),
        ("name", .str rsName), ("namespace", .str ((nsOf d).getD "default"))]),
      ("spec", .obj [("replicas", .num (.int count)),
        ("selector", (specField "selector" d).getD .null), ("template", template)])])
  | _, _ => none

/-- The merge that scales a ReplicaSet. -/
def scaleTo (key : ResourceKey) (count : Int) : ResourceCommand :=
  .patchCas key (.obj [("spec", .obj [("replicas", .num (.int count))])]) none

/-- One that is not current is scaled to none, unless its count cannot be read. -/
def scaleDown (current : Option ResourceKey) (e : ResourceKey × Json) : Option ResourceCommand :=
  if current = some e.1 then none
  else
    match readInt replicas e.2 with
    | .error _ => none
    | .ok n => if n = 0 then none else some (scaleTo e.1 0)

/-- Scales the current ReplicaSet. -/
def scaleCurrent (desired : Int) (e : ResourceKey × Json) : List ResourceCommand :=
  match readInt replicas e.2 with
  | .error _ => []
  | .ok n => if n = desired then [] else [scaleTo e.1 desired]

section
variable (namingHash : Json → String) (scope : Option String)

/-- The current ReplicaSet is scaled, or created where there is none. -/
def writeCurrent (d template : Json) (owner : OwnerReference) (desired : Int) :
    Option (ResourceKey × Json) → Except ControllerError (List ResourceCommand)
  | some e => .ok (scaleCurrent desired e)
  | none =>
    match buildReplicasetFrom d (namingHash template) desired with
    | none => .ok []
    | some (rsName, rs) => do
      let rs ← (setOwnerReference rs owner).mapError .shape
      return [.put ⟨"apps", "v1", "ReplicaSet", some (childNamespace d scope), rsName⟩ rs none]

/-- The writes of a pass. -/
def reconcileOne (d : Json) (owned : Items) : Except ControllerError (List ResourceCommand) := do
  let desired ← readInt replicas d
  match NormalizedTemplate.ofSpecTemplate d, ownerRefFor d "apps/v1" "Deployment" with
  | some template, some owner =>
    let current := currentReplicaset template owned
    let down := owned.filterMap (scaleDown (current.map Prod.fst))
    let last ← writeCurrent namingHash scope d template owner desired current
    return down ++ last
  | _, _ => return []

end

/-! ## Status -/

def saturatingAdd (a b : Int) : Int := Machine.saturate 64 (a + b)

/-- A count, or a percentage of the total. -/
def scaled (value : Option Json) (total : Int) (roundUp : Bool) (defaultPercent : Int) : Int :=
  match value with
  | some (.num n) => max 0 ((Json.asI64 (.num n)).getD 0)
  | value =>
    let percent := match value with
      | some (.str s) =>
        ((MaxUnavailable.beforePercent s).bind (Machine.readSigned 64)).getD defaultPercent
      | _ => defaultPercent
    let numer := Machine.saturate 64 (percent * total)
    if roundUp then numer / 100 + (if numer % 100 = 0 then 0 else 1) else numer / 100

/-- How many pods may be unavailable. -/
def maxUnavailable (d : Json) (desired : Int) : Int :=
  let strategy := specField "strategy" d
  let recreate := (strategy.bind (Json.get "type")).bind Json.asStr = some "Recreate"
  if recreate ∨ desired = 0 then 0
  else
    let rolling := strategy.bind (Json.get "rollingUpdate")
    let surge := scaled (rolling.bind (Json.get "maxSurge")) desired true 25
    let unavailable := scaled (rolling.bind (Json.get "maxUnavailable")) desired false 25
    min (if surge = 0 ∧ unavailable = 0 then 1 else unavailable) desired

/-- The numbers the conditions are computed from. -/
structure Counts where
  desired : Int
  replicas : Int
  updated : Int
  available : Int

def hasStr (field value : String) (v : Json) : Bool := (v.get field).bind Json.asStr = some value

/-- A condition, or the one there is when its status and reason stay. The time of its last
transition stays with the status. -/
def carried (prior : List Json) (now kind status reason message : String) : Json :=
  let old := prior.find? (hasStr "type" kind)
  let fresh (since : Json) : Json :=
    .obj [("lastTransitionTime", since), ("lastUpdateTime", .str now),
    ("message", .str message), ("reason", .str reason), ("status", .str status),
      ("type", .str kind)]
  match old with
  | none => fresh (.str now)
  | some old =>
    if hasStr "status" status old then
      if hasStr "reason" reason old then old else fresh
        ((old.get "lastTransitionTime").getD (.str now))
    else fresh (.str now)

/-- The conditions, those that did not change kept. -/
def conditions (env : Env) (d : Json) (counts : Counts) (currentRs : Option String) (now : String) :
    List Json :=
  let prior := ((statusField "conditions" d).bind Json.asArray).getD []
  let available :=
    if Machine.wrap 64 (counts.desired - maxUnavailable d counts.desired) ≤ counts.available then
      carried prior now "Available" "True" "MinimumReplicasAvailable"
        "Deployment has minimum availability."
    else carried prior now "Available" "False" "MinimumReplicasUnavailable"
      "Deployment does not have minimum availability."
  let progressing (rs : String) :=
    if counts.updated = counts.desired ∧ counts.replicas = counts.desired ∧
        counts.available = counts.desired then
      carried prior now "Progressing" "True" "NewReplicaSetAvailable"
        ("ReplicaSet " ++ env.debugStr rs ++ " has successfully progressed.")
    else carried prior now "Progressing" "True" "ReplicaSetUpdated"
      ("ReplicaSet " ++ env.debugStr rs ++ " is progressing.")
  available :: (currentRs.map progressing).toList

/-- The replicas, the ready and the available ones that the status of a ReplicaSet reports. -/
def rsStatusCounts (rs : Json) : Except ControllerError (Int × Int × Int) := do
  let n ← readInt ⟨["status", "replicas"], 0⟩ rs
  let ready ← readInt ⟨["status", "readyReplicas"], 0⟩ rs
  let available ← readInt ⟨["status", "availableReplicas"], 0⟩ rs
  return (n, ready, available)

/-- The counts of all ReplicaSets. -/
def sumCounts : List Json → Except ControllerError (Int × Int × Int) :=
  List.foldlM (fun sum rs => (rsStatusCounts rs).map fun c =>
    (saturatingAdd sum.1 c.1, saturatingAdd sum.2.1 c.2.1, saturatingAdd sum.2.2 c.2.2)) (0, 0, 0)

def computeStatus (env : Env) (now : String) (d : Json) (owned : Items)
    (observedGeneration : Int) : Option Json := do
  let template ← NormalizedTemplate.ofSpecTemplate d
  let (n, ready, available) ← (sumCounts
    ((owned.map Prod.snd).filter (runsTemplate · template))).toOption
  let desired ← (readInt replicas d).toOption
  let currentRs := (currentReplicaset template owned).bind fun e => name e.2
  let conditions := conditions env d ⟨desired, n, n, available⟩ currentRs now
  return .obj [("availableReplicas", .num (.int available)), ("conditions", .arr conditions),
    ("observedGeneration", .num (.int observedGeneration)), ("readyReplicas", .num (.int ready)),
    ("replicas", .num (.int n)), ("updatedReplicas", .num (.int n))]

def controller (env : Env) (namingHash : Json → String) (scope : Option String) (now : String) :
    Workload where
  parentScope := ⟨"apps", "v1", "Deployment", scope⟩
  childKinds := [replicaSetKind]
  reconcileOne _ := reconcileOne namingHash scope
  computeStatus := computeStatus env now

/-! ## What is written and read -/

variable {owned : Items} {e : ResourceKey × Json}
variable {template : Json} {desired : Int} {cmds : List ResourceCommand}

theorem mem_of_currentReplicaset (h : currentReplicaset template owned = some e) : e ∈ owned := by
  have hfold : ∀ (l : Items) (best : Option (ResourceKey × Json)),
      l.foldl (fun best e =>
        match best with
        | none => some e
        | some b =>
          if notAbove b e then some e else some b) best = some e → e ∈ l ∨ best = some e := by
    intro l
    induction l with
    | nil => exact fun best h => .inr h
    | cons x l ih =>
      intro best h
      rcases ih _ h with h | h
      · exact .inl (.tail _ h)
      cases best with
      | none => exact .inl (by rw [Option.some.inj h]; exact .head _)
      | some b =>
        simp only at h
        split at h
        · exact .inl (by rw [Option.some.inj h]; exact .head _)
        · exact .inr h
  rcases hfold _ none h with h | h
  · exact mem_of_mem_filter h
  · cases h

theorem scaleTo_onChildren (he : e ∈ owned) (count : Int) : OnChildren owned (scaleTo e.1 count) :=
  ⟨mem_map.mpr ⟨e, he, rfl⟩, rfl, rfl, _, rfl⟩

theorem scaleDown_onChildren {current : Option ResourceKey} :
    ∀ cmd ∈ owned.filterMap (scaleDown current), OnChildren owned cmd := by
  intro cmd hcmd
  obtain ⟨e, he, hs⟩ := mem_filterMap.mp hcmd
  unfold scaleDown at hs
  split at hs
  · cases hs
  split at hs
  · cases hs
  · split at hs
    · cases hs
    · cases hs
      exact scaleTo_onChildren he 0

theorem scaleCurrent_onChildren (he : e ∈ owned) :
    ∀ cmd ∈ scaleCurrent desired e, OnChildren owned cmd := by
  unfold scaleCurrent
  split
  · exact forall_mem_nil _
  · split
    · exact forall_mem_nil _
    · exact forall_mem_singleton.mpr (scaleTo_onChildren he desired)

variable {namingHash : Json → String} {scope : Option String} {d v w : Json}

theorem writeCurrent_onChildren {owner : OwnerReference}
    (h : writeCurrent namingHash scope d template owner desired (currentReplicaset template owned) =
      .ok cmds) :
    ∀ cmd ∈ cmds, OnChildren owned cmd := by
  unfold writeCurrent at h
  split at h
  · rename_i e hcurrent
    cases h
    exact scaleCurrent_onChildren (mem_of_currentReplicaset hcurrent)
  · split at h
    · cases h
      exact forall_mem_nil _
    · obtain ⟨rs, -, h⟩ := of_bind_ok h
      cases h
      exact forall_mem_singleton.mpr trivial

theorem reconcileOne_onChildren
    (h : reconcileOne namingHash scope d owned = .ok cmds) :
    ∀ cmd ∈ cmds, OnChildren owned cmd := by
  obtain ⟨desired, -, h⟩ := of_bind_ok h
  split at h
  · obtain ⟨last, hlast, h⟩ := of_bind_ok h
    cases h
    exact forall_mem_append.mpr ⟨scaleDown_onChildren, writeCurrent_onChildren hlast⟩
  · cases h
    exact forall_mem_nil _

theorem buildReplicasetFrom_congr (h : SameParent v w) (hash : String) (count : Int) :
    buildReplicasetFrom v hash count = buildReplicasetFrom w hash count := by
  simp only [buildReplicasetFrom, h.name_eq, h.specField_eq, h.nsOf_eq]

theorem reconcileOne_congr (h : SameParent v w) (hv : v.isObject = true)
    (namingHash : Json → String) (scope : Option String) (owned : Items) :
    reconcileOne namingHash scope v owned = reconcileOne namingHash scope w owned := by
  simp only [reconcileOne, replicas, writeCurrent, h.readInt_eq hv, h.ofSpecTemplate_eq,
    h.ownerRefFor_eq, h.childNamespace_eq, buildReplicasetFrom_congr h]

theorem computeStatus_congr (h : SameParent v w) (hv : v.isObject = true)
    (hstatus : v.get "status" = w.get "status") (env : Env) (now : String)
    (owned : Items) (g : Int) :
    computeStatus env now v owned g = computeStatus env now w owned g := by
  simp only [computeStatus, conditions, maxUnavailable, replicas, statusField, h.ofSpecTemplate_eq,
    h.readInt_eq hv, h.specField_eq, hstatus]

end Deployment
end Controllers
end Engenho
