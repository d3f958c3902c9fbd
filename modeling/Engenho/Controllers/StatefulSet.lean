import Engenho.Controllers.Indices
import Engenho.Controllers.Rollout

/-!
# The StatefulSet controller

The pods of a StatefulSet have ordinals that are their identity. A pass creates the claims of its
volume templates and the pods of the missing ordinals, deletes the pods past the count, replaces the
failed ones, and rolls an update from the highest ordinal down, one pod at a time.
-/

namespace Engenho
open List Except
namespace Controllers
namespace StatefulSet

/-! ## Claims -/

def volumeClaimTemplates (sts : Json) : List Json :=
  ((specField "volumeClaimTemplates" sts).bind Json.asArray).getD []

/-- The name of a claim. -/
def pvcClaimName (templateName stsName : String) (ordinal : Nat) : String :=
  templateName ++ "-" ++ stsName ++ "-" ++ toString ordinal

variable (sts : Json) (stsName : String) (ordinal : Nat) (ns : String)

/-- A claim with the spec of its template. It has no owner: it outlives its set. -/
def buildPvc (vct : Json) : Option (String × Json) :=
  (name vct).map fun tplName =>
    let claimName := pvcClaimName tplName stsName ordinal
    (claimName, .obj [
      ("apiVersion", .str "v1"), ("kind", .str "PersistentVolumeClaim"),
      ("metadata", .obj [("labels",
        .obj [("app.kubernetes.io/managed-by", .str "engenho-statefulset")]),
        ("name", .str claimName), ("namespace", .str ns)]),
      ("spec", (vct.get "spec").getD (.obj []))])

/-- The claims of an ordinal. -/
def buildPvcs : List (String × Json) :=
  (volumeClaimTemplates sts).filterMap (buildPvc stsName ordinal ns)

/-- The volumes of a pod with one for each claim, unless the template has one of its name. -/
def wireVolume (volumes : List Json) (vct : Json) : List Json :=
  match name vct with
  | none => volumes
  | some tmplName =>
    if volumes.any fun v => (v.get "name").bind Json.asStr = some tmplName then volumes
    else volumes ++ [.obj [("name", .str tmplName), ("persistentVolumeClaim",
      .obj [("claimName", .str (pvcClaimName tmplName stsName ordinal))])]]

/-- The pod, with its claims as volumes. -/
def wirePvcVolumes (pod : Json) : Except ShapeFault Json :=
  let vcts := volumeClaimTemplates sts
  if vcts.isEmpty then .ok pod
  else editArray ["spec"] "volumes" (fun volumes => vcts.foldl (wireVolume stsName ordinal) volumes)
    pod

/-! ## Pods -/

/-- The pod of an ordinal. -/
def buildPod (owner : OwnerReference) : Except ShapeFault (Option (String × Json)) :=
  match name sts with
  | none => .ok none
  | some stsName => do
    let podName := indexed stsName ordinal
    match ← podFromTemplate sts podName ((nsOf sts).getD "default") owner with
    | none => return none
    | some pod =>
      let pod ← (wirePvcVolumes sts stsName ordinal pod).mapError (ShapeFault.under templatePath)
      return some (podName, pod)

def claimKey (claimName : String) : ResourceKey :=
  ⟨"", "v1", "PersistentVolumeClaim", some ns, claimName⟩

/-- The creates of the claims that are not there. -/
def createClaims (c : ResourceCatalog) (sts : Json) (stsName ns : String) (desired : Nat) :
    List ResourceCommand :=
  let existing := (c.listed ⟨"", "v1", "PersistentVolumeClaim", some ns⟩).map fun e => e.1.name
  ((List.range desired).flatMap fun ordinal => buildPvcs sts stsName ordinal ns).filterMap fun p =>
    if existing.contains p.1 then none else some (.put (claimKey ns p.1) p.2 none)

/-! ## Updates -/

/-- The pods by ordinal. -/
def byOrdinal (owned : Items) : OrdMap Nat (ResourceKey × Json) :=
  .ofList (owned.filterMap fun e => (indexOf stsName e.1.name).map fun ord => (ord, e))

/-- The failed pods, which go first. -/
def failedOrdinals (desired : Nat) (pods : OrdMap Nat (ResourceKey × Json)) : List ResourceKey :=
  (pods.entries.filter fun e => e.1 < desired && !isTerminating e.2.2 && podIsFailed e.2.2).map
    fun e => e.2.1

/-- The pod to replace, from the ordinal below `n` down to `floor`. The search ends at a pod that is
not there yet, is going, or is not ready. -/
def rollFrom (pods : OrdMap Nat (ResourceKey × Json)) (rev : String) (floor : Nat) :
    Nat → Option ResourceKey
  | 0 => none
  | ord + 1 =>
    if ord < floor then none
    else
      match pods.get ord with
      | none => none
      | some (key, pod) =>
        if isTerminating pod then none
        else if !TemplateRevision.isCurrent rev pod then some key
        else if !podIsReady pod then none
        else rollFrom pods rev floor ord

/-- The pods that an update replaces. -/
def updateDeletions (desired : Nat) (owned : Items)
    (revision : Option String) (strategy : UpdateStrategy) : List ResourceKey :=
  let pods := byOrdinal stsName owned
  let failed := failedOrdinals desired pods
  match revision, strategy with
  | some rev, .rollingUpdate _ partition =>
    if failed.isEmpty then (rollFrom pods rev (min partition desired) desired).toList else failed
  | _, _ => failed

/-! ## The pass -/

section
variable (env : Env) (namingHash : Json → String) (scope : Option String) (now : String)

/-- The writes of a pass. -/
def reconcileOne (c : ResourceCatalog) (sts : Json) (owned : Items) :
    Except ControllerError (List ResourceCommand) := do
  let desired ← readCount replicas sts
  match name sts, ownerRefFor sts "apps/v1" "StatefulSet" with
  | some stsName, some owner =>
    let strategy ← UpdateStrategy.of env sts
    let revision := TemplateRevision.of namingHash sts
    let ns := childNamespace sts scope
    let existing := usedIndices (some stsName) owned
    let claims := createClaims c sts stsName ns desired
    let missing := (List.range desired).filter fun ordinal => !existing.contains ordinal
    let pods ← (createAll ns (fun ordinal => buildPod sts ordinal owner >>=
      stampBuilt revision none)
      missing).mapError .shape
    let past := owned.filter fun e => (indexOf stsName e.1.name).any fun ord => desired ≤ ord
    let updates := updateDeletions stsName desired owned revision strategy
    return claims ++ pods ++ past.map (fun e => deleteAt now e.1) ++ updates.map (deleteAt now)
  | _, _ => return []

def computeStatus (sts : Json) (owned : Items) (observedGeneration : Int) : Json :=
  let ready := owned.countP fun e => podIsReady e.2
  let revision := TemplateRevision.of namingHash sts
  let updated := match revision with
    | none => owned.length
    | some rev => owned.countP fun e => TemplateRevision.isCurrent rev e.2
  let fields : JsonMap :=
    [("availableReplicas", countJson ready), ("currentReplicas", countJson owned.length),
      ("observedGeneration", .num (.int observedGeneration)), ("readyReplicas", countJson ready),
      ("replicas", countJson owned.length), ("updatedReplicas", countJson updated)]
  .obj (match revision with
    | some rev => Assoc.put "updateRevision" (.str rev) fields
    | none => fields)

def controller : Workload where
  parentScope := ⟨"apps", "v1", "StatefulSet", scope⟩
  childKinds := [podKind]
  reconcileOne := reconcileOne env namingHash scope now
  computeStatus sts owned g := some (computeStatus namingHash sts owned g)

end

/-! ## What is written and read -/

theorem createClaims_puts (c : ResourceCatalog) (sts : Json) (stsName ns : String) (desired : Nat) :
    ∀ cmd ∈ createClaims c sts stsName ns desired, ∃ k v, cmd = .put k v none := by
  intro cmd hcmd
  obtain ⟨p, -, hp⟩ := mem_filterMap.mp hcmd
  split at hp
  · cases hp
  · exact ⟨_, _, (Option.some.inj hp).symm⟩

variable {owned : Items}
variable {stsName : String} {v w : Json}

theorem mem_of_byOrdinal {ord : Nat} {e : ResourceKey × Json}
    (h : (byOrdinal stsName owned).get ord = some e) : e ∈ owned := by
  obtain ⟨e', he', hmap⟩ := mem_filterMap.mp (OrdMap.mem_of_get_ofList h)
  obtain ⟨ord', -, heq⟩ := Option.map_eq_some_iff.mp hmap
  cases heq
  exact he'

/-- Ordinal `ord` is the next to replace: its pod is of another revision, and every pod above it,
below `n`, is current and ready. -/
def RollsAt (pods : OrdMap Nat (ResourceKey × Json)) (rev : String) (floor n ord : Nat)
    (key : ResourceKey) : Prop :=
  floor ≤ ord ∧ ord < n ∧
  (∃ pod, pods.get ord = some (key, pod) ∧ isTerminating pod = false ∧
    TemplateRevision.isCurrent rev pod = false) ∧
  ∀ o, ord < o → o < n → ∃ k pod, pods.get o = some (k, pod) ∧ isTerminating pod = false ∧
    TemplateRevision.isCurrent rev pod = true ∧ podIsReady pod = true

variable {pods : OrdMap Nat (ResourceKey × Json)} {rev : String} {floor n : Nat} {key : ResourceKey}

theorem rollFrom_eq_some :
    rollFrom pods rev floor n = some key ↔ ∃ ord, RollsAt pods rev floor n ord key := by
  induction n with
  | zero => simp [rollFrom, RollsAt]
  | succ n ih =>
    unfold rollFrom
    constructor
    · intro h
      split at h
      · cases h
      split at h
      · cases h
      rename_i hfloor _ k pod hget
      by_cases hold : TemplateRevision.isCurrent rev pod = false
      · exact ⟨n, by omega, n.lt_succ_self, ⟨pod, by grind⟩, by omega⟩
      · obtain ⟨ord, hle, hlt, hpod, habove⟩ := ih.mp (by grind)
        refine ⟨ord, hle, hlt.trans n.lt_succ_self, hpod, fun o ho hn => ?_⟩
        obtain hn | rfl := Nat.lt_succ_iff_lt_or_eq.mp hn
        · exact habove o ho hn
        · exact ⟨k, pod, by grind⟩
    · rintro ⟨ord, hle, hlt, ⟨pod, hget, hpod⟩, habove⟩
      rw [if_neg (by omega)]
      obtain hlt | rfl := Nat.lt_succ_iff_lt_or_eq.mp hlt
      · obtain ⟨k, e, he, hs⟩ := habove n hlt n.lt_succ_self
        simp only [he, hs]
        exact ih.mpr ⟨ord, hle, hlt, ⟨pod, hget, hpod⟩,
          fun o h h' => habove o h (h'.trans n.lt_succ_self)⟩
      · simp [hget, hpod]

theorem rollFrom_owned
    (h : rollFrom (byOrdinal stsName owned) rev floor n = some key) : key ∈ owned.map Prod.fst := by
  obtain ⟨_, -, -, ⟨_, hget, -⟩, -⟩ := rollFrom_eq_some.mp h
  exact mem_map.mpr ⟨_, mem_of_byOrdinal hget, rfl⟩

/-- The pod of an ordinal below the count has failed and is not going yet. -/
def FailedAt (desired : Nat) (pods : OrdMap Nat (ResourceKey × Json)) (key : ResourceKey) : Prop :=
  ∃ ord pod, ord < desired ∧ pods.get ord = some (key, pod) ∧ isTerminating pod = false ∧
    podIsFailed pod = true

theorem mem_failedOrdinals {desired : Nat} :
    key ∈ failedOrdinals desired pods ↔ FailedAt desired pods key := by
  simp only [failedOrdinals, mem_map, mem_filter, Prod.exists, OrdMap.mem_entries, Bool.and_eq_true,
    decide_eq_true_eq, Bool.not_eq_true']
  constructor
  · rintro ⟨ord, k, pod, ⟨hget, ⟨hlt, hterm⟩, hfailed⟩, rfl⟩
    exact ⟨ord, pod, hlt, hget, hterm, hfailed⟩
  · rintro ⟨ord, pod, hlt, hget, hterm, hfailed⟩
    exact ⟨ord, key, pod, ⟨hget, ⟨hlt, hterm⟩, hfailed⟩, rfl⟩

/-- A rolling update deletes the failed pods. When there are none it deletes at most one pod: the
highest of another revision at or past the partition, once every pod above that one is current and
ready. -/
theorem mem_updateDeletions_rolling (stsName : String) (desired : Nat) (owned : Items)
    (rev : String) (maxUnavailable : MaxUnavailable) (partition : Nat) :
    let pods := byOrdinal stsName owned
    let deleted := updateDeletions stsName desired owned (some rev)
      (.rollingUpdate maxUnavailable partition)
    (∀ key, key ∈ deleted ↔ FailedAt desired pods key ∨
      (∀ k, ¬ FailedAt desired pods k) ∧
      ∃ ord, RollsAt pods rev (min partition desired) desired ord key) ∧
    ((∀ k, ¬ FailedAt desired pods k) → deleted.length ≤ 1) := by
  intro pods deleted
  have hnone : failedOrdinals desired pods = [] ↔ ∀ k, ¬ FailedAt desired pods k := by
    simp only [eq_nil_iff_forall_not_mem, mem_failedOrdinals]
  rw [← hnone]
  simp only [← rollFrom_eq_some, ← mem_failedOrdinals]
  by_cases h : failedOrdinals desired pods = []
  · have hdeleted : deleted = (rollFrom pods rev (min partition desired) desired).toList := by
      simp [deleted, updateDeletions, pods, h]
    rw [hdeleted]
    exact ⟨fun key => by simp [h], fun _ => Option.length_toList_le⟩
  · have hdeleted : deleted = failedOrdinals desired pods := by
      simp [deleted, updateDeletions, pods, h]
    rw [hdeleted]
    exact ⟨fun key => by simp [h], fun hempty => absurd hempty h⟩

theorem updateDeletions_owned (stsName : String) (desired : Nat) (owned : Items)
    (revision : Option String) (strategy : UpdateStrategy) :
    ∀ key ∈ updateDeletions stsName desired owned revision strategy, key ∈ owned.map Prod.fst := by
  have hfailed : ∀ key ∈ failedOrdinals desired (byOrdinal stsName owned),
      key ∈ owned.map Prod.fst := by
    intro key hkey
    obtain ⟨_, _, -, hget, -⟩ := mem_failedOrdinals.mp hkey
    exact mem_map.mpr ⟨_, mem_of_byOrdinal hget, rfl⟩
  unfold updateDeletions
  simp only
  split
  · split
    · intro key hkey
      exact rollFrom_owned (Option.mem_toList.mp hkey)
    · exact hfailed
  · exact hfailed

theorem reconcileOne_onChildren {env : Env} {namingHash : Json → String} {scope : Option String}
    {now : String} {c : ResourceCatalog} {sts : Json} {cmds : List ResourceCommand}
    (h : reconcileOne env namingHash scope now c sts owned = .ok cmds) :
    ∀ cmd ∈ cmds, OnChildren owned cmd := by
  obtain ⟨desired, -, h⟩ := of_bind_ok h
  split at h
  · obtain ⟨strategy, -, h⟩ := of_bind_ok h
    obtain ⟨pods, hpods, h⟩ := of_bind_ok h
    cases h
    refine forall_mem_append.mpr ⟨forall_mem_append.mpr ⟨forall_mem_append.mpr ⟨?_, ?_⟩, ?_⟩, ?_⟩
    · intro cmd hcmd
      obtain ⟨k, v, rfl⟩ := createClaims_puts _ _ _ _ _ cmd hcmd
      trivial
    · exact createAll_onChildren (of_mapError_ok hpods) owned
    · intro cmd hcmd
      obtain ⟨e, he, rfl⟩ := mem_map.mp hcmd
      exact mem_map.mpr ⟨e, mem_of_mem_filter he, rfl⟩
    · intro cmd hcmd
      obtain ⟨key, hkey, rfl⟩ := mem_map.mp hcmd
      exact updateDeletions_owned _ _ _ _ _ key hkey
  · cases h
    exact forall_mem_nil _

theorem volumeClaimTemplates_congr (h : SameParent v w) :
    volumeClaimTemplates v = volumeClaimTemplates w := by
  rw [volumeClaimTemplates, h.specField_eq, volumeClaimTemplates]

theorem buildPod_congr (h : SameParent v w) (ordinal : Nat) (owner : OwnerReference) :
    buildPod v ordinal owner = buildPod w ordinal owner := by
  simp only [buildPod, wirePvcVolumes, h.name_eq, h.nsOf_eq, h.podFromTemplate_eq,
    volumeClaimTemplates_congr h]

theorem reconcileOne_congr (h : SameParent v w) (hv : v.isObject = true) (env : Env)
    (namingHash : Json → String) (scope : Option String) (now : String) (c : ResourceCatalog)
    (owned : Items) :
    reconcileOne env namingHash scope now c v owned =
      reconcileOne env namingHash scope now c w owned := by
  simp only [reconcileOne, createClaims, buildPvcs, replicas, h.readCount_eq hv, h.name_eq,
    h.ownerRefFor_eq, h.strategy_eq, h.revision_eq, h.childNamespace_eq,
    volumeClaimTemplates_congr h, buildPod_congr h]

theorem computeStatus_congr (h : SameParent v w) (namingHash : Json → String)
    (owned : Items) (g : Int) :
    computeStatus namingHash v owned g = computeStatus namingHash w owned g := by
  simp only [computeStatus, h.revision_eq]

end StatefulSet
end Controllers
end Engenho
