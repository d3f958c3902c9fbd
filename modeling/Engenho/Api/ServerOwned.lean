import Engenho.Api.Proposal

/-!
# What a write of the main object leaves to the server

`prepare_metadata`: whatever the body, the admission chain and the defaults were, the object that
the server's fields are stamped on can carry metadata. So every stamp takes effect
(`stampServerOwned_update`, `stampServerOwned_create`), and the store's own stamps keep them.

A create keeps the status it was sent with; an update may set a creation timestamp that the live
object lacks; the object of a cluster-scoped kind may name a namespace (`main_write_gaps`).
-/

namespace Engenho
open Assoc WriteHandler Option
variable {k : String} {prior : Json}
namespace WriteHandler
variable {h : WriteHandler} {env : Env} {key : ResourceKey} {ns : Option String} {name : String}
  {now : Timestamp}

/-! ## The stamped fields -/

variable (existing : Json)

/-- The metadata of an update, field by field. -/
theorem lookup_immutableMeta (md : JsonMap) (k : String) : (immutableMeta existing md).lookup k =
      if k = "deletionTimestamp" then metaField k existing
      else if k = "uid" ∨ k = "creationTimestamp" then (metaField k existing).or (md.lookup k)
      else md.lookup k := by
  simp only [immutableMeta]
  cases hd : metaField "deletionTimestamp" existing <;> cases hu : metaField "uid" existing <;>
    cases hc : metaField "creationTimestamp" existing <;>
    simp only [lookup_put, lookup_drop] <;> grind

theorem get_carryAllocatedValues (prior candidate : Json) (hk : k ≠ "spec") :
    (h.carryAllocatedValues prior candidate).get k = candidate.get k := by
  unfold carryAllocatedValues
  split
  · rfl
  split
  · rfl
  · split
    · rfl
    · exact get_mapFields (fun fields => lookup_modifyObject_ne hk ..) candidate

theorem get_preserveStatus (v : Json) (hk : k ≠ "status") :
    (preserveStatus existing v).get k = v.get k := by
  refine get_mapFields (fun fields => ?_) v
  split
  · exact lookup_put_ne hk ..
  · exact lookup_drop_ne hk ..

variable {v : Json}

theorem preserveStatus_status (hv : v.isObject = true) :
    (preserveStatus existing v).get "status" = existing.get "status" := by
  obtain ⟨fields, rfl⟩ := Json.isObject_iff.mp hv
  simp only [preserveStatus, mapFields]
  cases existing.get "status" with
  | some live | none => simp

/-- What the server owns of an object that is updated. -/
structure KeepsServerFields (hasStatus : Bool) (prior v : Json) : Prop where
  identity : Keeps prior v
  deletionTimestamp : metaField "deletionTimestamp" v = metaField "deletionTimestamp" prior
  status : hasStatus = true → v.get "status" = prior.get "status"

/-- The object is named as its key is. -/
structure NamedByKey (key : ResourceKey) (v : Json) : Prop where
  name : metaField "name" v = some (.str key.name)
  namespaced : ∀ n, key.ns = some n → metaField "namespace" v = some (.str n)

theorem NamedByKey.metaBase (hn : NamedByKey key v) : (metaBase v).isSome = true := by
  have hname := hn.name
  rw [metaField_of_metaBase] at hname
  obtain ⟨md, hmd, -⟩ := bind_eq_some_iff.mp hname
  rw [hmd]
  rfl

variable {md : JsonMap}

theorem metaField_stampServerOwned_update (h : WriteHandler) (ns : Option String) (name : String)
    (now : Timestamp) (prior : Json) (at_ : Nat) (hmd : metaBase v = some md) (k : String) :
    metaField k (h.stampServerOwned ns name (.update prior at_) now v) =
      (immutableMeta prior (keyMeta ns name md)).lookup k := by
  have hget : (h.stampServerOwned ns name (.update prior at_) now v).get "metadata" =
      (updateMetadata (immutableMeta prior ∘ keyMeta ns name) v).get "metadata" := by
    rw [stampServerOwned_update_eq, get_carryAllocatedValues _ _ (by decide)]
    split
    · exact get_preserveStatus _ _ (by decide : "metadata" ≠ "status")
    · rfl
  rw [metaField, hget, ← metaField, metaField_updateMetadata, hmd]
  rfl

theorem stampServerOwned_update {at_ : Nat} (hv : (metaBase v).isSome = true)
    (hk : h.key env ns name = .ok key) :
    NamedByKey key (h.stampServerOwned ns name (.update prior at_) now v) ∧
      KeepsServerFields h.hasStatus prior
      (h.stampServerOwned ns name (.update prior at_) now v) := by
  obtain ⟨md, hmd⟩ := isSome_iff_exists.mp hv
  obtain rfl := key_ok hk
  have hfield := metaField_stampServerOwned_update h ns name now prior at_ hmd
  refine ⟨⟨?_, fun n hn => ?_⟩, ⟨fun u hu _ => ?_, fun t ht => ?_⟩, ?_, fun hstatus => ?_⟩
  · rw [hfield, lookup_immutableMeta, keyMeta_name]
    rfl
  · rw [hfield, lookup_immutableMeta, keyMeta_namespace hn]
    rfl
  · rw [hfield, lookup_immutableMeta, hu]
    rfl
  · rw [hfield, lookup_immutableMeta, ht]
    rfl
  · rw [hfield, lookup_immutableMeta]
    rfl
  · obtain ⟨fields, -, hu⟩ := updateMetadata_of_some hmd (immutableMeta prior ∘ keyMeta ns name)
    rw [stampServerOwned_update_eq, get_carryAllocatedValues _ _ (by decide), if_pos hstatus, hu]
    exact preserveStatus_status prior rfl

theorem dropUid_metaBase (h : (v.get "metadata").bind Json.asObject = some md) :
    metaBase (dropUid v) = some (drop "uid" md) := by
  cases v with
  | obj fields =>
    obtain ⟨x, hx, hmd⟩ := bind_eq_some_iff.mp h
    rw [Json.get_obj] at hx
    cases x with
    | obj md' =>
      cases hmd
      simp [dropUid, mapFields, modifyObject, hx, metaBase]
    | _ => cases hmd
  | _ => cases h

theorem stampServerOwned_create (hv : (metaBase v).isSome = true)
    (hk : h.key env ns name = .ok key) :
    NamedByKey key (h.stampServerOwned ns name .create now v) := by
  obtain ⟨md, hmd⟩ := isSome_iff_exists.mp hv
  obtain rfl := key_ok hk
  have hdrop : metaBase (dropUid (updateMetadata (keyMeta ns name) v)) =
      some (drop "uid" (keyMeta ns name md)) :=
    dropUid_metaBase (by rw [meta_updateMetadata, hmd]; rfl)
  rw [stampServerOwned_create_eq]
  constructor
  · rw [metaField_stampBorn (by decide) _ _ _ _ _ hdrop]
    exact bornMeta_name ((lookup_drop_ne (by decide) _).trans (keyMeta_name md)) _ _
  · rintro n hn
    obtain rfl : ns = some n := hn
    rw [metaField_stampBorn (by decide) _ _ _ _ _ hdrop]
    exact bornMeta_namespace ((lookup_drop_ne (by decide) _).trans (keyMeta_namespace rfl md)) _ _

end WriteHandler

/-! ## What the store keeps -/

section
variable {env : Env} {res : Resources} {key : ResourceKey} {v : Json} {rev : Nat}

theorem metaField_putImage (hu : k ≠ "uid") (hc : k ≠ "creationTimestamp")
    (hr : k ≠ "resourceVersion")
    (hg : k ≠ "generation") : metaField k (putImage env res key v rev) = metaField k v := by
  unfold putImage
  rw [metaField_stampRevision _ _ _ hr hg, metaField_stampIdentity _ _ _ _ _ hu hc]

theorem WriteHandler.NamedByKey.putImage (h : NamedByKey key v) :
    NamedByKey key (putImage env res key v rev) where
  name := by
    rw [metaField_putImage (by decide) (by decide) (by decide) (by decide)]
    exact h.name
  namespaced n hn := by
    rw [metaField_putImage (by decide) (by decide) (by decide) (by decide)]
    exact h.namespaced n hn

theorem WriteHandler.KeepsServerFields.putImage {m : VersionMeta} {hasStatus : Bool}
    (h : KeepsServerFields hasStatus prior v) (hlive : res.get key = some (prior, m))
    (hv : (metaBase v).isSome = true) :
    KeepsServerFields hasStatus prior (putImage env res key v rev) where
  identity := by
    unfold Engenho.putImage
    simp only [hlive]
    exact keeps_of_stampIdentity env (by rw [objectMeta_identity, hv])
  deletionTimestamp := by
    rw [metaField_putImage (by decide) (by decide) (by decide) (by decide)]
    exact h.deletionTimestamp
  status hs := by
    unfold Engenho.putImage
    rw [get_stampRevision _ _ _ (by decide), stampIdentity, get_updateMetadata _ _ (by decide)]
    exact h.status hs

end

namespace WriteHandler

/-- A write of a main object, at any point of a run: planned from what it read, stamped by the
proposer later and applied later still. What it commits is named by its key, and an update leaves
the object it read, which is the one it replaces, its identity, its termination and its status. -/
theorem main_write_serverOwned (h : WriteHandler) (env : Env) (rules : WriteRules)
    (request : WriteRequest) (capacity : Nat) (ops between late : List CatalogOp)
    {key : ResourceKey}
    {ns : Option String} {name : String} (hk : h.key env ns name = .ok key) {expected : Option Nat}
    {now : Timestamp} {p : WritePlan} (hp : h.plan env rules key ns name request
      ((Logged.after env capacity ops).cat.getWithMeta key) expected now = .ok (.write p))
    (stampedAt : Timestamp) (sem : ApplySemantics) (term index : Nat) {ch : Change} :
    let read := (Logged.after env capacity ops).cat
    let stamping := (Logged.after env capacity (ops ++ between)).cat
    let c := (Logged.after env capacity (ops ++ between ++ late)).cat
    let out := c.applyUnder env (stamping.stampBirths stampedAt (p.command key)) sem term index
    out.2.change = some ch →
      out.1.resources = ch.applyTo c.resources ∧ ch.key = key ∧ NamedByKey key ch.value ∧
      c.getWithMeta key = read.getWithMeta key ∧
      ∀ prior m, read.getWithMeta key = some (prior, m) →
        KeepsServerFields h.hasStatus prior ch.value := by
  intro read stamping c out hch
  obtain ⟨hlife, -, v, hv, hcand⟩ := plan_write hp
  have hread : Seen key (read.getWithMeta key) stamping :=
    Logged.after_inv (fun _ op hs => hs.perform op) (Logged.seen env capacity ops key) between
  have hseen : Seen key (read.getWithMeta key) c :=
    Logged.after_inv (fun _ op hs => hs.perform op) hread late
  have hprop : Proposed key p (read.getWithMeta key) c
      (stamping.stampBirths stampedAt (p.command key)) :=
    Logged.after_inv
      (I := fun c => Proposed key p _ c (stamping.stampBirths stampedAt (p.command key)))
      (fun _ op hs => hs.perform op) (Proposed.stampBirths hk hp hread stampedAt) late
  obtain ⟨hfound, hland⟩ := hprop.landed hlife hseen hch
  rw [hland.value_eq, hcand, hlife]
  refine ⟨hland.stored, hland.key_eq, ?_, hfound, fun prior m hprior => ?_⟩
  · cases hprior : read.getWithMeta key with
    | none => exact (stampServerOwned_create hv hk).putImage
    | some e => exact (stampServerOwned_update hv hk).1.putImage
  · rw [show Lifecycle.of ((Logged.after env capacity ops).cat.getWithMeta key) =
      .update prior m.modRevision from congrArg Lifecycle.of hprior]
    obtain ⟨hnamed, hkeeps⟩ := stampServerOwned_update hv hk
    exact hkeeps.putImage (hfound.trans hprior) hnamed.metaBase

/-! ## Concrete writes -/

def nodeWrites : WriteHandler := ⟨⟨"", "v1", "Node"⟩, "nodes", false, true, none⟩

/-- Another pod is written meanwhile. -/
def storeOther : CatalogOp :=
  .command (.put ⟨"", "v1", "Pod", some "default", "db"⟩ (podBody []) none) .v1 1 2

def dyingPod : Json :=
  .obj [
    ("metadata", .obj [("creationTimestamp", .str "t0"), ("deletionTimestamp", .str "t9"),
      ("finalizers", .arr [.str "f"]), ("generation", .num (.int 1)), ("resourceVersion", .str "1"),
      ("uid", .str "v1/v1/Pod/default/web@1")]),
    ("status", .obj [("phase", .str "Running")])]

/-- A replacement that tries all of it. -/
def greedyBody : Json :=
  .obj [
    ("metadata", .obj [("creationTimestamp", .str "mine"), ("finalizers", .arr [.str "f"]),
      ("uid", .str "mine")]),
    ("status", .obj [("phase", .str "Failed")])]

def greedyPlan : WritePlan where
  lifecycle := .update dyingPod 1
  candidate := .obj [
    ("metadata", .obj [("creationTimestamp", .str "t0"), ("deletionTimestamp", .str "t9"),
      ("finalizers", .arr [.str "f"]), ("name", .str "web"), ("namespace", .str "default"),
      ("uid", .str "v1/v1/Pod/default/web@1")]),
    ("status", .obj [("phase", .str "Running")])]

theorem main_write_serverOwned_pod :
    let c := (Logged.after atomicEnv 4 [storeDying, storeOther]).cat
    let out := c.applyUnder atomicEnv (c.stampBirths someTime (greedyPlan.command podKey)) .v1 1 3
    podWrites.plan atomicEnv openRules podKey (some "default") "web" (.replace greedyBody)
        ((Logged.after atomicEnv 4 [storeDying]).cat.getWithMeta podKey) none someTime =
      .ok (.write greedyPlan) ∧
    ∃ ch, out.2.change = some ch ∧ NamedByKey podKey ch.value ∧
      KeepsServerFields true dyingPod ch.value := by
  intro c out
  have hp : podWrites.plan atomicEnv openRules podKey (some "default") "web" (.replace greedyBody)
      ((Logged.after atomicEnv 4 [storeDying]).cat.getWithMeta podKey) none someTime =
      .ok (.write greedyPlan) := by decide +kernel
  have hsome : out.2.change.isSome = true := by decide +kernel
  have hch := (Option.some_get hsome).symm
  obtain ⟨-, -, hnamed, -, hkeeps⟩ := main_write_serverOwned podWrites atomicEnv openRules
    (.replace greedyBody) 4 [storeDying] [storeOther] [] (by decide +kernel) hp someTime .v1 1 3 hch
  exact ⟨hp, _, hch, hnamed, hkeeps dyingPod (.createdAt 1) (by decide +kernel)⟩

/-- The object a write commits when nothing comes between its read and its commit. -/
def commits (h : WriteHandler) (env : Env) (rules : WriteRules) (c : ResourceCatalog)
    (ns : Option String) (name : String) (request : WriteRequest) (now : Timestamp) :
    Except ApiError (Option Json) := do
  let key ← h.key env ns name
  let expected ← request.clientPrecondition env
  match ← h.plan env rules key ns name request (c.getWithMeta key) expected now with
  | .unchanged _ => return none
  | .write p =>
    return (c.applyUnder env (c.stampBirths now (p.command key)) .v1 1 1).2.change.map Change.value

/-- A pod is created with the status it was sent with; a pod stored without a creation timestamp
takes the one an update sends; a node keeps the namespace it was sent with. -/
theorem main_write_gaps :
    let body := Json.obj [
      ("metadata", .obj [("creationTimestamp", .str "mine"), ("namespace", .str "x")]),
      ("status", .obj [("phase", .str "Running")])]
    let bare := CatalogOp.command (.put podKey (podBody []) none) .v1 1 1
    let read (field : Json → Option Json) (out : Except ApiError (Option Json)) :=
      out.toOption.join.bind field
    read (fun v => (v.get "status").bind (Json.get "phase"))
        (podWrites.commits atomicEnv openRules (.withHistoryCapacity 4) (some "default") "web"
          (.create body) someTime) = some (.str "Running") ∧
    ((Logged.after atomicEnv 4 [bare]).cat.get podKey).bind (metaField "creationTimestamp") = none ∧
    read (metaField "creationTimestamp")
        (podWrites.commits atomicEnv openRules (Logged.after atomicEnv 4 [bare]).cat
          (some "default")
          "web" (.replace body) someTime) = some (.str "mine") ∧
    read (metaField "namespace")
        (nodeWrites.commits atomicEnv openRules (.withHistoryCapacity 4) none "n1" (.create body)
          someTime) = some (.str "x") := by
  decide +kernel

end WriteHandler
end Engenho
