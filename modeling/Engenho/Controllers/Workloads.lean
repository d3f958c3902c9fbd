import Engenho.Controllers.DaemonSet
import Engenho.Controllers.Deployment
import Engenho.Controllers.Job
import Engenho.Controllers.Ownership
import Engenho.Controllers.ReplicaSet
import Engenho.Controllers.StatefulSet

/-!
# The objects a workload writes

The five workload controllers run the same pass. What each wants written is its own: creates of
children, and deletes and scalings of the children that were gathered (`reconcileOne_onChildren`).
The pass looks at the object at the key of a write for one thing, whether it is Terminating, so a
create that meets the object of another replaces it.

* `Held` is what a write should meet: nothing, or an object of the parent.
* `Pending` is kept over the writes of a pass (`Pending.commit`), from the plan on.
* `pass_keeps_to_its_own` puts the two together, `collision` is two DaemonSets that share a pod.
-/

namespace Engenho
open List Option Run
namespace Controllers

/-- The kinds that own children. -/
inductive WorkloadKind where
  | replicaSet
  | statefulSet
  | daemonSet
  | deployment
  | job
deriving DecidableEq, Repr

/-- What the controllers are started with, and what they read beside the store. -/
structure Setting where
  env : Env
  namingHash : Json → String
  scope : Option String
  now : String
  backoff : DaemonSet.FailedPodBackoff
  nowMs : Nat

/-- The controller of a kind. -/
def WorkloadKind.controller (s : Setting) : WorkloadKind → Workload
  | .replicaSet => ReplicaSet.controller s.scope s.now
  | .statefulSet => StatefulSet.controller s.env s.namingHash s.scope s.now
  | .daemonSet => DaemonSet.controller s.env s.namingHash s.scope s.now s.backoff s.nowMs
  | .deployment => Deployment.controller s.env s.namingHash s.scope s.now
  | .job => Job.controller s.scope

variable {cmds : List ResourceCommand} {k : ResourceKey} {kinds : List Gvk} {ns : Option String}
variable {c : ResourceCatalog} {owned : Items} {cmd : ResourceCommand} {u : String}
variable (kind : WorkloadKind)

theorem WorkloadKind.reconcileOne_onChildren (s : Setting) {parent : Json}
    (h : (kind.controller s).reconcileOne c parent owned = .ok cmds) :
    ∀ cmd ∈ cmds, OnChildren owned cmd := by
  cases kind with
  | replicaSet => exact ReplicaSet.reconcileOne_onChildren h
  | statefulSet => exact StatefulSet.reconcileOne_onChildren h
  | daemonSet => exact DaemonSet.reconcileOne_onChildren h
  | deployment => exact Deployment.reconcileOne_onChildren h
  | job =>
    obtain ⟨pods, rfl, -⟩ := (Job.reconcileOne_delta h).puts
    intro cmd hcmd
    obtain ⟨p, -, rfl⟩ := mem_map.mp hcmd
    trivial

/-! ## Whose objects a write meets -/

/-- What is at the keys of the command is controlled by `u`. -/
def Held (c : ResourceCatalog) (u : String) (cmd : ResourceCommand) : Prop :=
  ∀ k ∈ cmd.keys, ∀ x ∈ c.get k, isOwnedBy x u = true

/-- The object at the key of a create is controlled by `u` or Terminating. -/
def Guarded (c : ResourceCatalog) (u : String) : ResourceCommand → Prop
  | .put k _ _ => ∀ x ∈ c.get k, isOwnedBy x u = true ∨ isTerminating x = true
  | cmd => Held c u cmd

/-- An object that a later write meets again is controlled by `u`. -/
def Renews (u : String) : ResourceCommand → ResourceCommand → Prop
  | .put k v _, later => k ∈ later.keys → isOwnedBy v u = true
  | _, _ => True

instance (u : String) : DecidableRel (Renews u)
  | .put k v _, later => inferInstanceAs (Decidable (k ∈ later.keys → isOwnedBy v u = true))
  | .patch .., _ | .delete .., _ | .txn .., _ => .isTrue trivial

/-- What is to hold of the writes that are left of a pass. -/
structure Pending (c : ResourceCatalog) (u : String) (owned : Items)
    (cmds : List ResourceCommand) : Prop where
  shape : ∀ cmd ∈ cmds, OnChildren owned cmd
  guarded : ∀ cmd ∈ cmds, Guarded c u cmd
  renews : cmds.Pairwise (Renews u)

theorem Held.guarded (h : Held c u cmd) : Guarded c u cmd := by
  cases cmd with
  | put k v e => exact fun x hx => .inl (h k (mem_singleton.mpr rfl) x hx)
  | _ => exact h

variable {c' : ResourceCatalog} {v : Json} {cmd' : ResourceCommand}

/-- A change that keeps what is controlled by `u` at the keys of a command keeps it guarded. -/
theorem Guarded.mono (h : Guarded c u cmd)
    (hkeep : ∀ k ∈ cmd.keys, c'.get k = c.get k ∨ ∀ x ∈ c'.get k, isOwnedBy x u = true) :
    Guarded c' u cmd := by
  have hheld : Held c u cmd → Held c' u cmd := by
    intro h k hk x hx
    rcases hkeep k hk with heq | hown
    · exact h k hk x (heq ▸ hx)
    · exact hown x hx
  cases cmd with
  | put k v e =>
    intro x hx
    rcases hkeep k (mem_singleton.mpr rfl) with heq | hown
    · exact h x (heq ▸ hx)
    · exact .inl (hown x hx)
  | _ => exact hheld h

/-- The object at a key after the commit of a write of a pass is the one that was put, or has the
controller of the one that was there. -/
theorem isOwnedBy_commitSlot (env : Env) (c : ResourceCatalog) (hcmd : OnChildren owned cmd)
    (slot : LogSlot) (u : String) {x : Json} (hx : (commitSlot env c cmd slot).get k = some x) :
    (∃ y, c.get k = some y ∧ isOwnedBy x u = isOwnedBy y u) ∨
      ∃ v e, cmd = .put k v e ∧ isOwnedBy x u = isOwnedBy v u := by
  by_cases hk : k ∈ cmd.keys
  · cases cmd with
    | put key v e =>
      obtain rfl := mem_singleton.mp hk
      rcases put_get_cases env c k v e slot.semantics slot.term slot.index with h | h | ⟨cr,
        prior, g, h⟩
      · exact .inl ⟨x, h.symm.trans hx, rfl⟩
      · cases h.symm.trans hx
      · obtain rfl := Option.some.inj (h.symm.trans hx)
        exact .inr ⟨v, e, rfl, isOwnedBy_stored ..⟩
    | delete key e ts =>
      obtain rfl := mem_singleton.mp hk
      rcases delete_get_cases env c k e ts slot.semantics slot.term slot.index with h | h | ⟨v,
        stamp, hv, h⟩
      · exact .inl ⟨x, h.symm.trans hx, rfl⟩
      · cases h.symm.trans hx
      · obtain rfl := Option.some.inj (h.symm.trans hx)
        refine .inl ⟨v, hv, isOwnedBy_congr ?_ u⟩
        rw [stampResourceVersion, metaField_put_ne _ _ _ _ (by decide), stampDeletionTimestamp,
          metaField_put_ne _ _ _ _ (by decide)]
    | patch key body type apply e =>
      obtain rfl := mem_singleton.mp hk
      obtain ⟨-, rfl, rfl, w, rfl⟩ := hcmd
      have h := mergePatch_cases env c k (.obj [("spec", w)]) e slot.semantics slot.term slot.index
      unfold commitSlot ResourceCatalog.get at hx
      generalize (c.applyUnder env (.patch k (.obj [("spec", w)]) .merge none e)
        slot.semantics slot.term
        slot.index).1.resources = res at h hx
      cases h with
      | same => exact .inl ⟨x, hx, rfl⟩
      | stored g hlive hpre =>
        rw [OrdMap.get_insert, if_pos rfl] at hx
        cases hx
        refine .inl ⟨_, by rw [ResourceCatalog.get, hlive]; rfl, isOwnedBy_congr ?_ u⟩
        rw [metaField_stampRevision _ _ _ (by decide) (by decide), metaField, metaField,
          get_mergeRfc7396_single_ne _ _ (by decide)]
      | released hlive hpre hrel =>
        rw [OrdMap.get_erase, if_pos rfl] at hx
        cases hx
    | txn compares success failure => exact hcmd.elim
  · refine .inl ⟨x, ?_, rfl⟩
    rw [← hx, commitSlot_get_ne env c cmd slot hk]

namespace Pending
variable {c : ResourceCatalog} {u : String} {owned : Items} {cmd : ResourceCommand}
  {todo : List ResourceCommand}

theorem tail (h : Pending c u owned (cmd :: todo)) : Pending c u owned todo :=
  ⟨fun a ha => h.shape a (.tail _ ha), fun a ha => h.guarded a (.tail _ ha),
    (pairwise_cons.mp h.renews).2⟩

/-- The commit of a write that met no object of another leaves the rest as it was. -/
theorem commit (env : Env) (h : Pending c u owned (cmd :: todo)) (hheld : Held c u cmd)
    (slot : LogSlot) :
    Pending (commitSlot env c cmd slot) u owned todo := by
  obtain ⟨hrenews, hrest⟩ := pairwise_cons.mp h.renews
  refine ⟨h.tail.shape, fun a ha => ?_, hrest⟩
  refine (h.tail.guarded a ha).mono fun k hk => ?_
  by_cases hkey : k ∈ cmd.keys
  · refine .inr fun x hx => ?_
    rcases isOwnedBy_commitSlot env c (h.shape cmd (.head _)) slot u hx with
      ⟨y, hy, heq⟩ | ⟨v, e, hput, heq⟩
    · rw [heq]
      exact hheld k hkey y hy
    · subst hput
      rw [heq]
      exact hrenews a ha hk
  · exact .inl (commitSlot_get_ne env c cmd slot hkey)

/-- Another value for the head, with the same controllers. -/
theorem restamp {v' : Json} {e : Option Nat} (h : Pending c u owned (.put k v e :: todo))
    (hv : isOwnedBy v' u = isOwnedBy v u) : Pending c u owned (.put k v' e :: todo) := by
  obtain ⟨hrenews, hrest⟩ := pairwise_cons.mp h.renews
  refine ⟨forall_mem_cons.mpr ⟨trivial, h.tail.shape⟩,
    forall_mem_cons.mpr ⟨h.guarded (.put k v e) (.head _), h.tail.guarded⟩,
    pairwise_cons.mpr ⟨fun a ha hk => ?_, hrest⟩⟩
  rw [hv]
  exact hrenews a ha hk

theorem stampCreate (h : Pending c u owned (cmd :: todo)) (now : Timestamp) :
    Pending c u owned (stampCreate now cmd :: todo) := by
  cases cmd with
  | put k v e => exact h.restamp (isOwnedBy_stampCreateTimestamp now v u)
  | _ => exact h

theorem stampBirths (h : Pending c u owned (cmd :: todo)) (now : Timestamp) :
    Pending c u owned (c.stampBirths now cmd :: todo) := by
  cases cmd with
  | put k v e => exact h.restamp (isOwnedBy_stampBirth c now k v u)
  | txn compares success failure => exact (h.shape _ (.head _)).elim
  | _ => exact h

end Pending

/-- A write that is not left to a Terminating object meets only objects of the parent. -/
theorem Guarded.held (h : Guarded c u cmd)
    (hgo : ChildWrite.of cmd ((childWriteTarget cmd).bind c.get) ≠ .leaveTerminating) :
    Held c u cmd := by
  cases cmd with
  | put k v e =>
    intro k' hk' x hx
    obtain rfl := mem_singleton.mp hk'
    rcases h x hx with h | h
    · exact h
    · have hlive : (childWriteTarget (.put k' v e)).bind c.get = some x := hx
      rw [hlive] at hgo
      exact absurd (by simp [ChildWrite.of, h]) hgo
  | _ => exact h

theorem Held.of_keys (h : Held c u cmd) (hkeys : cmd'.keys = cmd.keys) :
    Held c u cmd' := fun k hk => h k (hkeys ▸ hk)

theorem keys_stampCreate (now : Timestamp) (cmd : ResourceCommand) :
    (stampCreate now cmd).keys = cmd.keys := by
  cases cmd <;> rfl

theorem keys_stampBirths (h : OnChildren owned cmd) (c : ResourceCatalog) (now : Timestamp) :
    (c.stampBirths now cmd).keys = cmd.keys := by
  cases cmd with
  | txn compares success failure => exact h.elim
  | _ => rfl

/-! ## The pass -/

/-- A step of the pass itself. -/
def PassEvent.ofPass : PassEvent → Bool
  | .other _ | .list => false
  | _ => true

/-- The uid of the parent; without one there is no pass over it. -/
def parentUid (parent : Json) : String := (uid parent).getD ""

/-- The writes that are left of a pass. -/
def Stage.planned : Stage → List ResourceCommand
  | .writing _ todo => todo
  | .probed _ cmd todo | .sent _ cmd todo => cmd :: todo
  | _ => []

/-- What a pass over the parent is to write, when it has read its children. -/
def Workload.plan (W : Workload) (c : ResourceCatalog) (key : ResourceKey) (parent : Json) :
    List ResourceCommand := (W.gatherStage c key.ns parent).planned

/-- A write of the step meets nothing, or an object that `u` controls. The status is written to the
parent. -/
def Fits (key : ResourceKey) (u : String) (s : Reconcile) (e : PassEvent) : Prop :=
  match s.stage, e with
  | .sent _ cmd _, .commit _ => Held s.cat u cmd
  | .reporting cmd, .report _ => cmd.keys = [key]
  | _, _ => True

instance (c : ResourceCatalog) (u : String) (cmd : ResourceCommand) : Decidable (Held c u cmd) :=
  inferInstanceAs (Decidable (∀ k ∈ cmd.keys, ∀ x ∈ c.get k, isOwnedBy x u = true))

instance (key : ResourceKey) (u : String) (s : Reconcile) (e : PassEvent) :
    Decidable (Fits key u s e) := by
  unfold Fits
  split <;> infer_instance

/-- At the key of a create there is nothing, an object that `u` controls, or a Terminating one. -/
def Free (c : ResourceCatalog) (u : String) (cmds : List ResourceCommand) : Prop :=
  ∀ k v e, .put k v e ∈ cmds → ∀ x ∈ c.get k, isOwnedBy x u = true ∨ isTerminating x = true

/-- The create meets an object that `u` does not control and that is not Terminating. -/
def meetsAnother (c : ResourceCatalog) (u : String) : ResourceCommand → Bool
  | .put k _ _ => (c.get k).any fun x => !isOwnedBy x u && !isTerminating x
  | _ => false

theorem free_iff : Free c u cmds ↔ ∀ cmd ∈ cmds, meetsAnother c u cmd = false := by
  have hput : ∀ k v e, meetsAnother c u (.put k v e) = false ↔
      ∀ x ∈ c.get k, isOwnedBy x u = true ∨ isTerminating x = true := by
    intro k v e
    simp only [meetsAnother]
    cases c.get k with
    | none => simp
    | some x => cases hown : isOwnedBy x u <;> cases hterm : isTerminating x <;> simp [hterm]
  constructor
  · intro h cmd hcmd
    cases cmd with
    | put k v e => exact (hput k v e).mpr (h k v e hcmd)
    | _ => rfl
  · exact fun h k v e hmem => (hput k v e).mp (h _ hmem)

instance (c : ResourceCatalog) (u : String) (cmds : List ResourceCommand) :
    Decidable (Free c u cmds) :=
  decidable_of_iff _ free_iff.symm

/-- The keys of the creates are free, and an object that is created and met again is controlled by
`u`. -/
@[mk_iff]
structure Clear (c : ResourceCatalog) (u : String) (cmds : List ResourceCommand) : Prop where
  free : Free c u cmds
  renews : cmds.Pairwise (Renews u)

instance (c : ResourceCatalog) (u : String) (cmds : List ResourceCommand) :
    Decidable (Clear c u cmds) :=
  decidable_of_iff _ (clear_iff ..).symm

theorem owned_of_gathered (h : k ∈ (gatherOwned c kinds u ns).map Prod.fst) :
    ∃ v, c.get k = some v ∧ isOwnedBy v u = true := by
  obtain ⟨⟨k', v⟩, hmem, rfl⟩ := mem_map.mp h
  obtain ⟨gvk, -, hgvk⟩ := mem_flatMap.mp hmem
  obtain ⟨hlisted, hown⟩ := mem_filter.mp hgvk
  exact ⟨v, ResourceCatalog.get_of_mem_listed hlisted, hown⟩

/-- A command on a gathered child meets an object of the parent. -/
theorem OnChildren.held_or_put (h : OnChildren (gatherOwned c kinds u ns) cmd) :
    Held c u cmd ∨ ∃ k v e, cmd = .put k v e := by
  have hheld : ∀ k, k ∈ (gatherOwned c kinds u ns).map Prod.fst →
      ∀ x ∈ c.get k, isOwnedBy x u = true := by
    intro k hk x hx
    obtain ⟨v, hv, hown⟩ := owned_of_gathered hk
    obtain rfl := Option.some.inj (hv.symm.trans hx)
    exact hown
  cases cmd with
  | put k v e => exact .inr ⟨k, v, e, rfl⟩
  | delete k e ts =>
    refine .inl fun k' hk' => ?_
    obtain rfl := mem_singleton.mp hk'
    exact hheld k' h
  | patch k body type apply e =>
    refine .inl fun k' hk' => ?_
    obtain rfl := mem_singleton.mp hk'
    exact hheld k' h.1
  | txn compares success failure => exact h.elim

theorem Clear.pending (h : Clear c u cmds)
    (hshape : ∀ cmd ∈ cmds, OnChildren (gatherOwned c kinds u ns) cmd) :
    Pending c u (gatherOwned c kinds u ns) cmds := by
  refine ⟨hshape, fun cmd hcmd => ?_, h.renews⟩
  rcases (hshape cmd hcmd).held_or_put with hheld | ⟨k, v, e, rfl⟩
  · exact hheld.guarded
  · exact h.free k v e hcmd

/-- What holds in every state of a pass. -/
inductive Kept (c₀ : ResourceCatalog) (key : ResourceKey) (parent : Json) : Reconcile → Prop where
  | idle (c : ResourceCatalog) : Kept c₀ key parent ⟨c, .idle⟩
  | listed : Kept c₀ key parent ⟨c₀, .listed parent⟩
  | writing {c : ResourceCatalog} {p : Pass} {owned : Items} {todo : List ResourceCommand}
      (h : Pending c (parentUid parent) owned todo) : Kept c₀ key parent ⟨c, .writing p todo⟩
  | probed {c : ResourceCatalog} {p : Pass} {owned : Items} {cmd : ResourceCommand}
      {todo : List ResourceCommand} (h : Pending c (parentUid parent) owned (cmd :: todo))
      (hheld : Held c (parentUid parent) cmd) :
      Kept c₀ key parent ⟨c, .probed p cmd todo⟩
  | sent {c : ResourceCatalog} {p : Pass} {owned : Items} {cmd : ResourceCommand}
      {todo : List ResourceCommand} (h : Pending c (parentUid parent) owned (cmd :: todo))
      (hheld : Held c (parentUid parent) cmd) :
      Kept c₀ key parent ⟨c, .sent p cmd todo⟩
  | reporting (c : ResourceCatalog) {cmd : ResourceCommand} (h : cmd.keys = [key]) :
      Kept c₀ key parent ⟨c, .reporting cmd⟩

theorem Workload.gatherStage_cases (W : Workload) (c : ResourceCatalog) (ns : Option String)
    (parent : Json) :
    W.gatherStage c ns parent = .idle ∨ ∃ p cmds, W.gatherStage c ns parent = .writing p cmds ∧
      W.reconcileOne c parent (gatherOwned c W.childKinds (parentUid parent) ns) = .ok cmds := by
  unfold Workload.gatherStage
  split
  · rename_i u g hu hg
    have hparent : parentUid parent = u := by rw [parentUid, hu, getD_some]
    split
    · rename_i todo htodo
      exact .inr ⟨_, todo, rfl, hparent ▸ htodo⟩
    · exact .inl rfl
  · exact .inl rfl

theorem Workload.keys_settleStage (W : Workload) (c : ResourceCatalog) (key : ResourceKey)
    (p : Pass) :
    W.settleStage c key p = .idle ∨ ∃ cmd, W.settleStage c key p = .reporting cmd ∧
    cmd.keys = [key] := by
  unfold Workload.settleStage
  simp only
  split
  · rename_i cmd hcmd
    obtain ⟨desired, -, hstatus⟩ := bind_eq_some_iff.mp hcmd
    unfold statusCommand at hstatus
    split at hstatus
    · cases hstatus
    · obtain ⟨rv, -, rfl⟩ := map_eq_some_iff.mp hstatus
      exact .inr ⟨_, rfl, rfl⟩
  · exact .inl rfl

section
variable {W : Workload} {c₀ : ResourceCatalog} {key : ResourceKey} {parent : Json}
variable {p : Pass} {todo : List ResourceCommand} {s : Reconcile}

theorem Kept.probe (h : Kept c₀ key parent ⟨c, .writing p (cmd :: todo)⟩) (now : Timestamp) :
    Kept c₀ key parent ⟨c, probeStage c now p cmd todo⟩ := by
  cases h with
  | writing h =>
    have hguard := h.guarded cmd (.head _)
    unfold probeStage
    split
    · exact .writing h.tail
    · rename_i hof
      exact .probed (h.stampCreate now)
        ((hguard.held (by rw [hof]; decide)).of_keys (keys_stampCreate now cmd))
    · rename_i hof
      exact .probed h (hguard.held (by rw [hof]; decide))

theorem Kept.send (h : Kept c₀ key parent ⟨c, .probed p cmd todo⟩) (now : Timestamp) :
    Kept c₀ key parent ⟨c, sendStage c now p cmd todo⟩ := by
  cases h with
  | probed h hheld =>
    unfold sendStage
    split
    · exact .idle c
    · exact .sent (h.stampBirths now)
        (hheld.of_keys (keys_stampBirths (h.shape cmd (.head _)) c now))

variable (env : Env)

theorem Kept.step (hW : ∀ {c parent owned cmds}, W.reconcileOne c parent owned = .ok cmds →
      ∀ cmd ∈ cmds, OnChildren owned cmd) (hclear :
      Clear c₀ (parentUid parent) (W.plan c₀ key parent))
    {e : PassEvent} (he : e.ofPass = true) (h : Kept c₀ key parent s) :
    Kept c₀ key parent (s.step W env key e) := by
  obtain ⟨c, st⟩ := s
  have hstep := Reconcile.step_cases W env key ⟨c, st⟩ e
  generalize Reconcile.step W env key ⟨c, st⟩ e = s' at hstep ⊢
  cases hstep with
  | stay => exact h
  | other | list => cases he
  | gather q =>
    cases h with
    | listed =>
      rcases W.gatherStage_cases c₀ key.ns parent with hg | ⟨p, cmds, hg, hone⟩
      · rw [hg]
        exact .idle c₀
      · rw [Workload.plan, hg] at hclear
        rw [hg]
        exact .writing (hclear.pending (hW hone))
  | probe now p cmd todo => exact h.probe now
  | send now p cmd todo => exact h.send now
  | commit slot p cmd todo =>
    cases h with
    | sent h hheld => exact .writing (h.commit env hheld slot)
  | settle p =>
    rcases W.keys_settleStage c key p with hs | ⟨cmd, hs, hkeys⟩
    · rw [hs]
      exact .idle c
    · rw [hs]
      exact .reporting c hkeys
  | report slot cmd => exact .idle _
  | abandon => exact .idle c

theorem Kept.fits (h : Kept c₀ key parent s) (e : PassEvent) : Fits key (parentUid parent) s e := by
  cases h with
  | sent h hheld =>
    cases e with
    | commit slot => exact hheld
    | _ => trivial
  | reporting c h =>
    cases e with
    | report slot => exact h
    | _ => trivial
  | _ => cases e <;> trivial

/-! ### A create that meets the object of another -/

theorem unreadableTouchedBy_congr (hc : c'.unreadable = c.unreadable)
    (hkeys : cmd'.keys = cmd.keys) :
    c'.unreadableTouchedBy cmd' = c.unreadableTouchedBy cmd := by
  simp [ResourceCatalog.unreadableTouchedBy, ResourceCatalog.secretFault, hc, hkeys]

/-- From the probe of a command on, the pass sends and commits it. -/
theorem exec_probed (W : Workload) (env : Env) (key : ResourceKey) (todo : List ResourceCommand)
    (hread : c.unreadableTouchedBy cmd = none) (now : Timestamp) (slot : LogSlot) :
    Run.exec (Reconcile.step W env key) ⟨c, .probed p cmd todo⟩ [.send now, .commit slot] =
      ⟨commitSlot env c (c.stampBirths now cmd) slot, .writing p todo⟩ := by
  have hsend : sendStage c now p cmd todo = .sent p (c.stampBirths now cmd) todo := by
    rw [sendStage, hread]
  simp [Reconcile.step, hsend]

/-- A pass gets past the writes that name no unreadable entry, and leaves the keys they do not
name. -/
theorem exists_past (W : Workload) (env : Env) (key : ResourceKey) (p : Pass)
    (todo pre : List ResourceCommand) (hshape : ∀ cmd ∈ pre, OnChildren owned cmd) :
    ∀ {c : ResourceCatalog}, (∀ cmd ∈ pre, c.unreadableTouchedBy cmd = none) →
      ∃ events c', (∀ e ∈ events, PassEvent.ofPass e = true) ∧
        Run.exec (Reconcile.step W env key) ⟨c, .writing p (pre ++ todo)⟩ events =
        ⟨c', .writing p todo⟩ ∧
        c'.unreadable = c.unreadable ∧ ∀ k, (∀ cmd ∈ pre, k ∉ cmd.keys) → c'.get k = c.get k := by
  induction pre with
  | nil => exact fun {c} _ => ⟨[], c, forall_mem_nil _, rfl, rfl, fun _ _ => rfl⟩
  | cons cmd pre ih =>
    intro c hread
    obtain ⟨hcmd, hpre⟩ := forall_mem_cons.mp hshape
    obtain ⟨hreadCmd, hreadPre⟩ := forall_mem_cons.mp hread
    let now := anInstant
    let slot : LogSlot := ⟨.v1, 1, 1⟩
    -- the command is left out, or committed as some command of the same keys
    have hone : ∃ first c₁, (∀ e ∈ first, PassEvent.ofPass e = true) ∧
        Run.exec (Reconcile.step W env key) ⟨c, .writing p (cmd :: pre ++ todo)⟩ first =
          ⟨c₁, .writing p (pre ++ todo)⟩ ∧
        c₁.unreadable = c.unreadable ∧ ∀ k, k ∉ cmd.keys → c₁.get k = c.get k := by
      have hprobe : probeStage c now p cmd (pre ++ todo) = .writing p (pre ++ todo) ∨
          ∃ cmd', cmd'.keys = cmd.keys ∧ OnChildren owned cmd' ∧
            probeStage c now p cmd (pre ++ todo) = .probed p cmd' (pre ++ todo) := by
        cases hof : ChildWrite.of cmd ((childWriteTarget cmd).bind c.get) with
        | leaveTerminating => exact .inl (by rw [probeStage, hof])
        | create =>
          refine .inr ⟨stampCreate now cmd, keys_stampCreate now cmd, ?_, by rw [probeStage, hof]⟩
          cases cmd <;> exact hcmd
        | propose => exact .inr ⟨cmd, rfl, hcmd, by rw [probeStage, hof]⟩
      obtain hprobe | ⟨cmd', hkeys, hcmd', hprobe⟩ := hprobe
      · refine ⟨[.probe now], c, by decide, ?_, rfl, fun _ _ => rfl⟩
        simp [Reconcile.step, hprobe]
      have hread' : c.unreadableTouchedBy cmd' = none :=
        (unreadableTouchedBy_congr rfl hkeys).trans hreadCmd
      refine ⟨[.probe now, .send now, .commit slot],
        commitSlot env c (c.stampBirths now cmd') slot, by decide, ?_,
        by unfold commitSlot ResourceCatalog.applyUnder; split <;> rfl,
        fun k hk => commitSlot_get_ne env c _ slot ?_⟩
      · rw [exec_cons]
        simp only [Reconcile.step, cons_append, hprobe]
        exact exec_probed W env key (pre ++ todo) hread' now slot
      · rwa [keys_stampBirths hcmd', hkeys]
    obtain ⟨first, c₁, hfirst, hexec, hunread, hget⟩ := hone
    obtain ⟨rest, c', hrest, hexec', hunread', hget'⟩ := ih hpre (c := c₁) fun a ha =>
      (unreadableTouchedBy_congr hunread rfl).trans (hreadPre a ha)
    refine ⟨first ++ rest, c', forall_mem_append.mpr ⟨hfirst, hrest⟩, ?_,
      hunread'.trans hunread, ?_⟩
    · rw [exec_append, hexec, hexec']
    · intro k hk
      obtain ⟨hkCmd, hkPre⟩ := forall_mem_cons.mp hk
      rw [hget' k hkPre, hget k hkCmd]

theorem free_of_fits (hW : ∀ {c parent owned cmds}, W.reconcileOne c parent owned = .ok cmds →
      ∀ cmd ∈ cmds, OnChildren owned cmd)
    (hread : ∀ cmd ∈ W.plan c₀ key parent, c₀.unreadableTouchedBy cmd = none)
    (hfits : ∀ events, (∀ e ∈ events, PassEvent.ofPass e = true) →
      Run.Along (Reconcile.step W env key) (Fits key (parentUid parent))
      ⟨c₀, .listed parent⟩ events) :
    Free c₀ (parentUid parent) (W.plan c₀ key parent) := by
  unfold Workload.plan at hread ⊢
  rcases W.gatherStage_cases c₀ key.ns parent with hplan | ⟨p, cmds, hplan, hone⟩
  · rw [hplan]
    exact fun k v e h => nomatch h
  rw [hplan] at hread ⊢
  show Free c₀ (parentUid parent) cmds
  rw [free_iff]
  by_contra hbad
  -- the first create that meets another's object: the writes before it do not name its key
  obtain ⟨bad, hfind⟩ : ∃ bad, cmds.find? (meetsAnother c₀ (parentUid parent)) = some bad := by
    rw [← isSome_iff_exists]
    simpa using hbad
  obtain ⟨hmeets, pre, post, rfl, hpre⟩ := List.find?_eq_some_iff_append.mp hfind
  obtain ⟨k, v, e, rfl⟩ : ∃ k v e, bad = .put k v e := by
    cases bad with
    | put k v e => exact ⟨k, v, e, rfl⟩
    | _ => cases hmeets
  obtain ⟨x, hx, hforeign⟩ := (Option.any_eq_true ..).mp hmeets
  obtain ⟨hown, hterm⟩ : isOwnedBy x (parentUid parent) = false ∧ isTerminating x = false := by
    simpa using hforeign
  have hshape : ∀ cmd ∈ pre, OnChildren (gatherOwned c₀ W.childKinds (parentUid parent) key.ns)
    cmd := fun cmd hcmd =>
    hW hone cmd (mem_append_left _ hcmd)
  have hbefore : ∀ cmd ∈ pre, k ∉ cmd.keys := by
    intro cmd hcmd hk
    rcases (hshape cmd hcmd).held_or_put with hheld | ⟨k', v', e', rfl⟩
    · rw [hheld k hk x hx] at hown
      cases hown
    · obtain rfl := mem_singleton.mp hk
      have : meetsAnother c₀ (parentUid parent) (.put k v' e') = false := by simpa using hpre _ hcmd
      rw [meetsAnother, hx, any_some, hforeign] at this
      cases this
  obtain ⟨events, c', hevents, hexec, hunread, hget⟩ :=
    exists_past W env key p (.put k v e :: post) pre hshape
    (c := c₀) fun cmd hcmd => hread cmd (mem_append_left _ hcmd)
  have hx' : c'.get k = some x := (hget k hbefore).trans hx
  let now := anInstant
  have hprobe : probeStage c' now p (.put k v e) post = .probed p (.put k v e) post := by
    simp [probeStage, childWriteTarget, ChildWrite.of, hx', hterm]
  have hsend : sendStage c' now p (.put k v e) post =
      .sent p (c'.stampBirths now (.put k v e)) post := by
    have : c'.unreadableTouchedBy (.put k v e) = none :=
      (unreadableTouchedBy_congr hunread rfl).trans
      (hread _ (mem_append_right _ (.head _)))
    rw [sendStage, this]
  have hrun := hfits (.gather :: events ++ [.probe now, .send now, .commit ⟨.v1, 1, 1⟩])
    (forall_mem_append.mpr ⟨forall_mem_cons.mpr ⟨rfl, hevents⟩, by decide⟩)
  have hgather : Reconcile.step W env key ⟨c₀, .listed parent⟩ .gather =
      ⟨c₀, .writing p (pre ++ .put k v e :: post)⟩ := by
    simp [Reconcile.step, hplan]
  obtain ⟨-, hrun⟩ := along_append.mp hrun
  rw [exec_cons, hgather, hexec] at hrun
  simp only [Run.Along, Reconcile.step, hprobe, hsend] at hrun
  have hheld := hrun.2.2.1
  rw [hheld k (.head _) x hx'] at hown
  cases hown

end

/-! ## The five kinds -/

/-- A pass alone over a parent. Where the keys of what it means to create are free, and it meets
nothing again that it created for no parent, every write creates, or changes an object that the
parent controls. And the keys have to be free. -/
theorem pass_keeps_to_its_own (kind : WorkloadKind) (s : Setting) (c : ResourceCatalog)
    (key : ResourceKey)
    (parent : Json) : (Clear c (parentUid parent) ((kind.controller s).plan c key parent) →
      ∀ events, (∀ e ∈ events, PassEvent.ofPass e = true) →
        Run.Along (Reconcile.step (kind.controller s) s.env key) (Fits key (parentUid parent))
          ⟨c, .listed parent⟩ events) ∧
    ((∀ cmd ∈ (kind.controller s).plan c key parent, c.unreadableTouchedBy cmd = none) →
      (∀ events, (∀ e ∈ events, PassEvent.ofPass e = true) →
        Run.Along (Reconcile.step (kind.controller s) s.env key) (Fits key (parentUid parent))
          ⟨c, .listed parent⟩ events) →
      Free c (parentUid parent) ((kind.controller s).plan c key parent)) := by
  have hW : ∀ {c parent owned cmds}, (kind.controller s).reconcileOne c parent owned = .ok cmds →
      ∀ cmd ∈ cmds, OnChildren owned cmd := kind.reconcileOne_onChildren s
  refine ⟨fun hclear events hevents => ?_, fun hread hfits => free_of_fits s.env hW hread hfits⟩
  have hall : ∀ (events : List PassEvent) (t : Reconcile),
    (∀ e ∈ events, PassEvent.ofPass e = true) →
      Kept c key parent t →
      Run.Along (Reconcile.step (kind.controller s) s.env key) (Fits key (parentUid parent))
        t events := by
    intro events
    induction events with
    | nil => exact fun _ _ _ => trivial
    | cons e events ih =>
      intro t hevents ht
      obtain ⟨he, hrest⟩ := List.forall_mem_cons.mp hevents
      exact ⟨ht.fits e, ih _ hrest (ht.step s.env hW hclear he)⟩
  exact hall events _ hevents .listed

/-! ### Two DaemonSets with one pod name -/

def plainSetting : Setting := ⟨atomicEnv, fun _ => "h", none, "t", [], 0⟩

def nodeNamed (n : String) : Json := .obj [("metadata", .obj [("name", .str n)])]

def daemonSetNamed (n u : String) : Json :=
  .obj [
    ("metadata", .obj [("name", .str n), ("namespace", .str "default"),
      ("resourceVersion", .str "1"), ("uid", .str u)]),
    ("spec", .obj [("template", .obj [("spec", .obj [])])])]

def daemonSetKey (n : String) : ResourceKey := ⟨"apps", "v1", "DaemonSet", some "default", n⟩

/-- The pod of the DaemonSet `a` on the node `b-c`. -/
def sharedPod : Json :=
  .obj [
    ("metadata", .obj [("name", .str "a-b-c"), ("namespace", .str "default"),
      ("ownerReferences", .arr [.obj [("apiVersion", .str "apps/v1"), ("controller", .bool true),
        ("kind", .str "DaemonSet"), ("name", .str "a"), ("uid", .str "ua")]])]),
    ("spec", .obj [("nodeName", .str "b-c")])]

/-- Two nodes and the DaemonSets `a` and `a-b`, with the given pods. -/
def twoDaemonSets (pods : Items) : ResourceCatalog :=
  { ResourceCatalog.withHistoryCapacity 1 with
    resources := .ofList (([(⟨"", "v1", "Node", none, "b-c"⟩, nodeNamed "b-c"),
      (⟨"", "v1", "Node", none, "c"⟩, nodeNamed "c"),
      (daemonSetKey "a", daemonSetNamed "a" "ua"),
      (daemonSetKey "a-b", daemonSetNamed "a-b" "ub")] ++ pods).map fun e => (e.1, e.2,
        .createdAt 1)) }

/-- A pass that writes two children. -/
def twoWrites : List PassEvent :=
  let now := anInstant
  [.gather, .probe now, .send now, .commit ⟨.v1, 1, 1⟩, .probe now, .send now, .commit ⟨.v1, 1, 2⟩]

theorem pass_keeps_to_its_own_apart :
    Run.Along (Reconcile.step (WorkloadKind.daemonSet.controller plainSetting) atomicEnv
      (daemonSetKey "a-b"))
        (Fits (daemonSetKey "a-b") "ub") ⟨twoDaemonSets [], .listed (daemonSetNamed "a-b" "ub")⟩
        twoWrites ∧
      ((Run.exec (Reconcile.step (WorkloadKind.daemonSet.controller plainSetting) atomicEnv
        (daemonSetKey "a-b"))
        ⟨twoDaemonSets [], .listed (daemonSetNamed "a-b" "ub")⟩ twoWrites).cat.get
          (podKeyIn "default" "a-b-c")).any (isOwnedBy · "ub") = true := by
  refine ⟨?_, by decide +kernel⟩
  exact (pass_keeps_to_its_own .daemonSet plainSetting (twoDaemonSets []) (daemonSetKey "a-b")
    (daemonSetNamed "a-b" "ub")).1 (by decide +kernel) twoWrites (by decide)

/-- The DaemonSet `a` has the pod `a-b-c` on the node `b-c`. A pass over `a-b` creates its pod for
the node `c` under the same name, and takes the pod of `a` away. -/
theorem shared_pod_taken :
    ((twoDaemonSets [(podKeyIn "default" "a-b-c", sharedPod)]).get (podKeyIn "default" "a-b-c")).any
        (isOwnedBy · "ua") = true ∧
      ((Run.exec (Reconcile.step (WorkloadKind.daemonSet.controller plainSetting) atomicEnv
        (daemonSetKey "a-b"))
        ⟨twoDaemonSets [(podKeyIn "default" "a-b-c", sharedPod)],
          .listed (daemonSetNamed "a-b" "ub")⟩
        twoWrites).cat.get (podKeyIn "default" "a-b-c")).any
          (fun x => isOwnedBy x "ub" && !isOwnedBy x "ua") = true ∧
      ¬ Run.Along (Reconcile.step (WorkloadKind.daemonSet.controller plainSetting) atomicEnv
        (daemonSetKey "a-b")) (Fits (daemonSetKey "a-b") "ub")
        ⟨twoDaemonSets [(podKeyIn "default" "a-b-c", sharedPod)],
          .listed (daemonSetNamed "a-b" "ub")⟩ twoWrites := by
  decide +kernel

/-! ## Terminating parents -/

/-- The object without the stamp of its deletion. -/
def unstamped (v : Json) : Json := updateMetadata (Assoc.drop "deletionTimestamp") v

theorem sameParent_unstamped (v : Json) : SameParent (unstamped v) v where
  object := isObject_updateMetadata ..
  spec := get_updateMetadata _ _ (by decide)
  md := fun field hfield => metaField_updateMetadata_same _ _ fun md =>
    Assoc.lookup_drop_ne (fun h => hfield (by rw [h]; decide)) md

theorem generation_unstamped (hu : uid v = some u) :
    readInt generation (unstamped v) = readInt generation v := by
  have hat : SpecInt.atPath (unstamped v) ["metadata", "generation"] =
      SpecInt.atPath v ["metadata", "generation"] := by
    cases hm : metaBase v with
    | none => rw [unstamped, updateMetadata_of_none hm]
    | some md =>
      obtain ⟨m, rfl, hup⟩ := updateMetadata_of_some hm (Assoc.drop "deletionTimestamp")
      have hmd : m.lookup "metadata" = some (.obj md) := by
        cases hlook : m.lookup "metadata" with
        | none =>
          simp only [uid, metaStr, metaField, Json.get_obj, hlook] at hu
          cases hu
        | some x =>
          simp only [metaBase, hlook] at hm
          cases x with
          | obj md' => rw [Option.some.inj hm]
          | _ => cases hm
      simp only [unstamped, hup, SpecInt.atPath, Assoc.lookup_put_self, hmd,
        Assoc.lookup_drop_ne (show "generation" ≠ "deletionTimestamp" by decide)]
  simp only [readInt, DefaultedInt.read, generation, intAt, hat]

theorem status_unstamped (v : Json) : (unstamped v).get "status" = v.get "status" :=
  get_updateMetadata _ _ (by decide)

theorem statusCommand_unstamped (key : ResourceKey) (v desired : Json) :
    statusCommand key (unstamped v) desired = statusCommand key v desired := by
  have hversion : metaField "resourceVersion" (unstamped v) = metaField "resourceVersion" v :=
    metaField_updateMetadata_same _ _ fun md => Assoc.lookup_drop_ne (by decide) md
  simp only [statusCommand, liveStatus, status_unstamped, resourceVersionOf, metaStr, hversion]
  rfl

/-- What a controller wants written does not depend on the status of the parent or on what the store
writes, but for the generation. -/
theorem WorkloadKind.reconcileOne_congr (s : Setting) {w : Json} (h : SameParent v w)
    (hv : v.isObject = true) (hg : readInt generation v = readInt generation w)
    (c : ResourceCatalog) (owned : Items) :
    (kind.controller s).reconcileOne c v owned = (kind.controller s).reconcileOne c w owned := by
  cases kind with
  | replicaSet => exact ReplicaSet.reconcileOne_congr h hv ..
  | statefulSet => exact StatefulSet.reconcileOne_congr h hv ..
  | daemonSet => exact DaemonSet.reconcileOne_congr h hg ..
  | deployment => exact Deployment.reconcileOne_congr h hv ..
  | job => exact Job.reconcileOne_congr h hv ..

/-- The status a controller computes does not depend on what the store writes to the parent. -/
theorem WorkloadKind.computeStatus_congr (s : Setting) {w : Json} (h : SameParent v w)
    (hv : v.isObject = true) (hstatus : v.get "status" = w.get "status") (owned : Items) (g : Int) :
    (kind.controller s).computeStatus v owned g = (kind.controller s).computeStatus w owned g := by
  cases kind with
  | replicaSet => rfl
  | statefulSet => exact congrArg some (StatefulSet.computeStatus_congr h ..)
  | daemonSet => exact congrArg some (DaemonSet.computeStatus_congr h ..)
  | deployment => exact Deployment.computeStatus_congr h hv hstatus ..
  | job => exact Job.computeStatus_congr h hv ..

/-- The pass as it would be if the parent it read had no stamp. -/
def Stage.unstamped : Stage → Stage
  | .listed parent => .listed (Controllers.unstamped parent)
  | .writing p todo => .writing { p with parent := Controllers.unstamped p.parent } todo
  | .probed p cmd todo => .probed { p with parent := Controllers.unstamped p.parent } cmd todo
  | .sent p cmd todo => .sent { p with parent := Controllers.unstamped p.parent } cmd todo
  | .idle => .idle
  | .reporting cmd => .reporting cmd

theorem Stage.planned_unstamped (st : Stage) : st.unstamped.planned = st.planned := by
  cases st <;> rfl

section
variable (c : ResourceCatalog) (now : Timestamp) (p : Pass) (cmd : ResourceCommand)
  (todo : List ResourceCommand)

theorem probeStage_unstamped : probeStage c now { p with parent := unstamped p.parent } cmd todo =
      (probeStage c now p cmd todo).unstamped := by
  unfold probeStage
  cases ChildWrite.of cmd ((childWriteTarget cmd).bind c.get) <;> rfl

theorem sendStage_unstamped : sendStage c now { p with parent := unstamped p.parent } cmd todo =
      (sendStage c now p cmd todo).unstamped := by
  unfold sendStage
  cases c.unreadableTouchedBy cmd <;> rfl

end

section
variable (s : Setting)

theorem gatherStage_unstamped (c : ResourceCatalog) (ns : Option String) (parent : Json) :
    (kind.controller s).gatherStage c ns (unstamped parent) =
      ((kind.controller s).gatherStage c ns parent).unstamped := by
  have hsame := sameParent_unstamped parent
  unfold Workload.gatherStage
  rw [hsame.uid_eq]
  cases hu : uid parent with
  | none => rfl
  | some u =>
    have hg := generation_unstamped hu
    have hobj := hsame.object.trans (isObject_of_uid hu)
    have hone := kind.reconcileOne_congr s hsame hobj hg
    rw [hg]
    cases readInt generation parent with
    | error e => rfl
    | ok g =>
      simp only [hone]
      cases (kind.controller s).reconcileOne c parent
        (gatherOwned c (kind.controller s).childKinds u ns) <;> rfl

theorem settleStage_unstamped (c : ResourceCatalog) (key : ResourceKey) (p : Pass) :
    (kind.controller s).settleStage c key { p with parent := unstamped p.parent } =
      (kind.controller s).settleStage c key p := by
  by_cases hobj : p.parent.isObject = true
  · have hsame := sameParent_unstamped p.parent
    have hstatus := kind.computeStatus_congr s hsame (hsame.object.trans hobj) (status_unstamped _)
    simp only [Workload.settleStage, hstatus, funext (statusCommand_unstamped key p.parent)]
  · obtain ⟨parent, u, g⟩ := p
    cases parent with
    | obj m => exact absurd rfl hobj
    | _ => rfl

/-- The two passes are the same, or the first of them is over the parent without the stamp. -/
def Twins (a b : Reconcile) : Prop := a = b ∨ a = { b with stage := b.stage.unstamped }

theorem Twins.step (env : Env) (key : ResourceKey) {a b : Reconcile} (h : Twins a b)
    (e : PassEvent) :
    Twins (a.step (kind.controller s) env key e) (b.step (kind.controller s) env key e) := by
  obtain rfl | rfl := h
  · exact .inl rfl
  obtain ⟨c, st⟩ := b
  cases e with
  | other op => exact .inr rfl
  | abandon => exact .inl rfl
  | list =>
    cases st with
    | idle => exact .inl rfl
    | _ => exact .inr rfl
  | gather =>
    cases st with
    | listed parent =>
      exact .inr (congrArg (Reconcile.mk c) (gatherStage_unstamped kind s c key.ns parent))
    | _ => exact .inr rfl
  | probe now =>
    cases st with
    | writing p todo =>
      cases todo with
      | nil => exact .inr rfl
      | cons cmd todo =>
        exact .inr (congrArg (Reconcile.mk c) (probeStage_unstamped c now p cmd todo))
    | _ => exact .inr rfl
  | send now =>
    cases st with
    | probed p cmd todo =>
      exact .inr (congrArg (Reconcile.mk c) (sendStage_unstamped c now p cmd todo))
    | _ => exact .inr rfl
  | settle =>
    cases st with
    | writing p todo =>
      cases todo with
      | nil => exact .inl (congrArg (Reconcile.mk c) (settleStage_unstamped kind s c key p))
      | cons cmd todo => exact .inr rfl
    | _ => exact .inr rfl
  | commit slot | report slot => cases st <;> exact .inr rfl

theorem Twins.cat_eq {a b : Reconcile} (h : Twins a b) : a.cat = b.cat := by
  obtain rfl | rfl := h <;> rfl

theorem Twins.planned_eq {a b : Reconcile} (h : Twins a b) : a.stage.planned = b.stage.planned := by
  obtain rfl | rfl := h
  · rfl
  · exact Stage.planned_unstamped _

end

/-- A pass over a Terminating parent writes what it would write without the stamp: it plans the same
and, between any other writes, leaves the same store and the same writes to do. -/
theorem plan_of_terminating (kind : WorkloadKind) (s : Setting) (c : ResourceCatalog)
    (key : ResourceKey) (parent : Json) :
    (kind.controller s).plan c key parent = (kind.controller s).plan c key (unstamped parent) ∧
      ∀ env events,
        let run (p : Json) := Run.exec (Reconcile.step (kind.controller s) env key)
          ⟨c, .listed p⟩ events
        (run parent).cat = (run (unstamped parent)).cat ∧
          (run parent).stage.planned = (run (unstamped parent)).stage.planned := by
  refine ⟨?_, fun env events => ?_⟩
  · rw [Workload.plan, Workload.plan, gatherStage_unstamped, Stage.planned_unstamped]
  · let step := Reconcile.step (kind.controller s) env key
    have htwins : Twins (Run.exec step ⟨c, .listed (unstamped parent)⟩ events)
        (Run.exec step ⟨c, .listed parent⟩ events) :=
      List.foldl_rel (.inr rfl) fun e _ _ _ h => h.step kind s env key e
    exact ⟨htwins.cat_eq.symm, htwins.planned_eq.symm⟩

/-- A ReplicaSet that is being deleted and has no pod. -/
def goingReplicaSet : Json :=
  .obj [
    ("metadata", .obj [("deletionTimestamp", .str "t"),
      ("finalizers", .arr [.str "foregroundDeletion"]),
      ("name", .str "r"), ("namespace", .str "default"), ("resourceVersion", .str "1"),
        ("uid", .str "u")]),
    ("spec", .obj [("template", .obj [("spec", .obj [])])])]

def replicaSetKey : ResourceKey := ⟨"apps", "v1", "ReplicaSet", some "default", "r"⟩

def goingCatalog : ResourceCatalog :=
  { ResourceCatalog.withHistoryCapacity 1 with
    resources := .ofList [(replicaSetKey, (goingReplicaSet, .createdAt 1))] }

/-- A pass over it creates a pod. -/
theorem terminating_parent_creates : isTerminating goingReplicaSet = true ∧
      goingCatalog.get (podKeyIn "default" "r-0") = none ∧
      ((Run.exec (Reconcile.step (WorkloadKind.replicaSet.controller plainSetting) atomicEnv
        replicaSetKey)
        ⟨goingCatalog, .listed goingReplicaSet⟩
        [.gather, .probe anInstant, .send anInstant, .commit ⟨.v1, 1, 1⟩]).cat.get
          (podKeyIn "default" "r-0")).any (isOwnedBy · "u") = true := by
  decide +kernel

end Controllers
end Engenho
