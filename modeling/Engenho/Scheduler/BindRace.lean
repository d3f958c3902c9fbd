import Engenho.Scheduler.Overcommit

/-!
# Binds between other writes

A tick decides on the pods it listed and sends its writes one by one, with any other committed
commands before and between them (`Race`). The binding patch carries no precondition, and a listed
pod counts as pending by its node alone. So a pod that another writer bound meanwhile is moved, one
that was replaced is bound in place of the one that was read, and a Terminating pod is bound
(`bind_moves_and_revives`).

In a run where the tick binds no Terminating pod and no other command changes the uid, the node or
the deletion of a pod that is still to be bound, other than by deleting it for good, every bind
finds the pod as it was read, or none (`binds_intact`).
-/

namespace Engenho
open List
namespace Scheduler

/-! ## The race -/

/-- A write of the tick, or of another. -/
inductive RaceEvent where
  /-- Another writer's operation is committed. -/
  | other (op : CatalogOp)
  /-- The tick's next write is committed. -/
  | own (slot : LogSlot)

/-- The catalog, and the writes the tick has yet to send. -/
structure Race where
  cat : ResourceCatalog
  todo : List PlannedWrite

variable (env : Env) (c : ResourceCatalog)

/-- One committed write. -/
def Race.step (s : Race) : RaceEvent → Race
  | .other op => { s with cat := (s.cat.perform env op).1 }
  | .own slot =>
    match s.todo with
    | [] => s
    | w :: ws => ⟨commit env s.cat (w, slot), ws⟩

/-- What a bind must find: the uid, the node, and the time of deletion. -/
structure Standing where
  uid : Option Json
  node : Option String
  deletion : Option String
deriving DecidableEq

def standingOf (pod : Json) : Standing :=
  ⟨metaField "uid" pod, boundNodeOf pod, deletionTimestampOf pod⟩

def standing (key : ResourceKey) : Option Standing := (c.get key).map standingOf

/-- The pod at the key of the write has the uid that was read, no node, and is not Terminating. -/
def Intact (w : PlannedWrite) : Prop :=
  standing c w.key = some ⟨metaField "uid" w.pod, none, none⟩

instance (c : ResourceCatalog) (w : PlannedWrite) : Decidable (Intact c w) :=
  inferInstanceAs (Decidable (_ = _))

/-- The write is a bind. -/
def PlannedWrite.binds (w : PlannedWrite) : Bool :=
  match w.write with
  | .bind _ => true
  | .markUnschedulable _ => false

/-- A bind that is committed here, and changes a pod, changes one that is intact. -/
def BindsIntact (s : Race) : RaceEvent → Prop
  | .other _ => True
  | .own slot => ∀ w ∈ s.todo.head?, w.binds = true →
      (commit env s.cat (w, slot)).get w.key ≠ s.cat.get w.key → Intact s.cat w

instance (env : Env) (s : Race) : ∀ e, Decidable (BindsIntact env s e)
  | .other _ => .isTrue trivial
  | .own slot => inferInstanceAs (Decidable (∀ w ∈ s.todo.head?, w.binds = true →
      (commit env s.cat (w, slot)).get w.key ≠ s.cat.get w.key → Intact s.cat w))

/-! ## Runs without a conflict -/

/-- The other writer leaves the standing of every pod that is still to be bound, or removes the
pod. -/
def Calm (s : Race) : RaceEvent → Prop
  | .other op => ∀ w ∈ s.todo, w.binds = true →
      standing (s.cat.perform env op).1 w.key = standing s.cat w.key ∨
        (s.cat.perform env op).1.get w.key = none
  | .own _ => True

instance (env : Env) (s : Race) : ∀ e, Decidable (Calm env s e)
  | .other op => inferInstanceAs (Decidable (∀ w ∈ s.todo, w.binds = true →
      standing (s.cat.perform env op).1 w.key = standing s.cat w.key ∨
        (s.cat.perform env op).1.get w.key = none))
  | .own _ => .isTrue trivial

/-- The writes that are left are for different pods, and one that is to be bound is intact or
gone. -/
structure AsRead (s : Race) : Prop where
  keys : (s.todo.map PlannedWrite.key).Nodup
  standing : ∀ w ∈ s.todo, w.binds = true → Intact s.cat w ∨ s.cat.get w.key = none

theorem AsRead.step {env : Env} {s : Race} {e : RaceEvent} (hcalm : Calm env s e) (h : AsRead s) :
    AsRead (s.step env e) := by
  cases e with
  | other op =>
    refine ⟨h.keys, fun w hw hbinds => ?_⟩
    rcases hcalm w hw hbinds with hsame | hgone
    · refine (h.standing w hw hbinds).imp hsame.trans fun hnone => ?_
      rw [Scheduler.standing, Scheduler.standing, hnone, Option.map_none,
        Option.map_eq_none_iff] at hsame
      exact hsame
    · exact .inr hgone
  | own slot =>
    obtain ⟨c, todo⟩ := s
    cases todo with
    | nil => exact h
    | cons w ws =>
      obtain ⟨hfirst, hrest⟩ := nodup_cons.mp h.keys
      refine ⟨hrest, fun w' hw' hbinds => ?_⟩
      have hne : w'.key ≠ w.key := fun hk => hfirst (mem_map.mpr ⟨w', hw', hk⟩)
      have hget := commit_get_ne env c (w, slot) hne
      have hold := h.standing w' (.tail _ hw') hbinds
      simp only [Intact, Scheduler.standing] at hold ⊢
      rwa [show (Race.step env ⟨c, w :: ws⟩ (.own slot)).cat.get w'.key = c.get w'.key from hget]

/-- A patch finds nothing where there is no pod. -/
theorem commit_get_none {w : PlannedWrite} (slot : LogSlot) (h : c.get w.key = none) :
    (commit env c (w, slot)).get w.key = none := by
  have hnone : c.resources.get w.key = none := Option.map_eq_none_iff.mp h
  have hcases := mergePatch_cases env c w.key w.write.patch none slot.semantics slot.term slot.index
  unfold ResourceCatalog.get commit PlannedWrite.command
  generalize (c.applyUnder env (.patch w.key w.write.patch .merge none none) slot.semantics
    slot.term slot.index).1.resources = res at hcases ⊢
  cases hcases with
  | same => exact h
  | _ => simp_all

theorem AsRead.bindsIntact {env : Env} {s : Race} (e : RaceEvent) (h : AsRead s) :
    BindsIntact env s e := by
  cases e with
  | other op => trivial
  | own slot =>
    intro w hw hbinds hchanged
    refine (h.standing w (mem_of_mem_head? hw) hbinds).resolve_right fun hgone => hchanged ?_
    rw [commit_get_none env s.cat slot hgone, hgone]

/-- In every run of one tick between other commands, from the catalog whose pods it listed: if no
pod to be bound is Terminating and every other command leaves the uid, node and deletion of those
still to be bound, or removes the pod, each bind changes a pod that is as it was read, without a
node, and not Terminating. -/
theorem binds_intact {σ : Type} (env : Env) (strategy : SchedulingStrategy σ) (s : σ)
    (c : ResourceCatalog) (ns : Option String) (r : Reads) (hpods : r.pods = c.listed (podScope ns))
    (halive : ∀ w ∈ (tick strategy s r).writes, w.binds = true → deletionTimestampOf w.pod = none)
    (events : List RaceEvent)
    (hcalm : Run.Along (Race.step env) (Calm env) ⟨c, (tick strategy s r).writes⟩ events) :
    Run.Along (Race.step env) (BindsIntact env) ⟨c, (tick strategy s r).writes⟩ events := by
  obtain ⟨hsub, hg⟩ := tick_writes strategy s r
  refine Run.Along.imp_of_inv (I := AsRead) (fun _ _ hok h => h.step hok)
    (fun _ e _ h => h.bindsIntact e) ⟨?_, fun w hw hbinds => .inl ?_⟩ hcalm
  · have hkeys := c.listed_keys_nodup (podScope ns)
    rw [← hpods] at hkeys
    simpa [Function.comp_def] using (hsub.map Prod.fst).nodup hkeys
  · have hlive : (w.key, w.pod) ∈ r.pods := hsub.subset (List.mem_map.mpr ⟨w, hw, rfl⟩)
    rw [hpods] at hlive
    rw [Intact, standing, ResourceCatalog.get_of_mem_listed hlive, Option.map_some, standingOf,
      (isPending_iff _).mp (hg w hw).1, halive w hw hbinds]

/-! ## Runs with one -/

/-- The tick over a catalog, about to send its writes. -/
def racing : Race :=
  ⟨c, (tick roundRobin 0 (.ofCatalog c none (fun _ _ => some 0) "t")).writes⟩

def crowdedPod : ResourceKey := ⟨"", "v1", "Pod", some "default", "a"⟩

/-- Another writer patches a pod. -/
def rival (patch : Json) : RaceEvent :=
  .other (.command (.patch crowdedPod patch .merge none none) .v1 1 1)

/-- A write of the status before the bind leaves the standing alone. -/
theorem binds_intact_crowded :
    ((Race.step atomicEnv (racing crowded)
      (rival (.obj [("status", .obj [("qosClass", .str "Burstable")])]))).cat.get
        crowdedPod ≠ crowded.get crowdedPod) ∧
      Run.Along (Race.step atomicEnv) (BindsIntact atomicEnv) (racing crowded)
        [rival (.obj [("status", .obj [("qosClass", .str "Burstable")])]), .own ⟨.v1, 1, 2⟩,
          .own ⟨.v1, 1, 3⟩] := by
  refine ⟨by decide +kernel, ?_⟩
  exact binds_intact atomicEnv roundRobin 0 crowded none
    (.ofCatalog crowded none (fun _ _ => some 0) "t") rfl
    (by decide +kernel) _ (by decide +kernel)

/-- The pod was deleted before the list, and a finalizer holds it. -/
def leavingPod : Json :=
  mergeRfc7396 (bigPod "a") (.obj [("metadata", .obj [("deletionTimestamp", .str "t"),
    ("finalizers", .arr [.str "f"])])])

def leaving : ResourceCatalog :=
  { crowded with
    resources := OrdMap.insert crowded.resources crowdedPod (leavingPod, .createdAt 1) }

/-- A pod that another writer has bound to `n2` is moved to `n1`, and a Terminating pod is bound. -/
theorem bind_moves_and_revives :
    ¬ Run.Along (Race.step atomicEnv) (BindsIntact atomicEnv) (racing crowded)
        [rival (PodWrite.bind "n2").patch, .own ⟨.v1, 1, 2⟩] ∧
      ((Run.exec (Race.step atomicEnv) (racing crowded)
        [rival (PodWrite.bind "n2").patch]).cat.get crowdedPod).bind boundNodeOf = some "n2" ∧
      ((Run.exec (Race.step atomicEnv) (racing crowded)
        [rival (PodWrite.bind "n2").patch, .own ⟨.v1, 1, 2⟩]).cat.get crowdedPod).bind boundNodeOf =
          some "n1" ∧
      ¬ Run.Along (Race.step atomicEnv) (BindsIntact atomicEnv) (racing leaving)
        [.own ⟨.v1, 1, 2⟩] := by
  decide +kernel

end Scheduler
end Engenho
