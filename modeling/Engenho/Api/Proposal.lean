import Engenho.Api.WritePlan
import Engenho.Store.Cas

/-!
# A plan on its way to the store

Between the read of a plan and its commit the proposer stamps births, from what it finds in the
store at that moment. `Proposed` says what may have become of the plan's command: it is unchanged,
or it is changed and can no longer commit. Every operation keeps this (`Proposed.perform`), and a
proposal that commits is the plan's own command over the very entry the plan was made from
(`Proposed.landed`).
-/

namespace Engenho
open ResourceCatalog WritePlan Lifecycle
variable {expected : Option Nat}
namespace WriteHandler
variable {h : WriteHandler} {env : Env} {rules : WriteRules} {key : ResourceKey}
  {ns : Option String} {name : String} {request : WriteRequest} {now : Timestamp}

/-- The proposer changes nothing of a plan, unless the object of an update is gone. -/
theorem stampBirths_command {prior : Option (Json × VersionMeta)} {p : WritePlan}
    (hk : h.key env ns name = .ok key)
    (hp : h.plan env rules key ns name request prior expected now = .ok (.write p))
    (c : ResourceCatalog)
    (stampedAt : Timestamp) (hlive : prior.isSome = true → (c.getWithMeta key).isSome = true) :
    c.stampBirths stampedAt (p.command key) = p.command key := by
  obtain ⟨hlife, -, v, -, hcand⟩ := plan_write hp
  obtain rfl := key_ok hk
  cases prior with
  | some e =>
    obtain ⟨e', he'⟩ := Option.isSome_iff_exists.mp (hlive rfl)
    have hget : c.get ⟨h.group, h.version, h.kind, ns, name⟩ = some e'.1 := by
      rw [ResourceCatalog.get, ← ResourceCatalog.getWithMeta, he']
      rfl
    simp [command, hlife, of, ResourceCatalog.stampBirths, ResourceCatalog.stampBirth, hget]
  | none =>
    have hborn : c.stampBirth stampedAt ⟨h.group, h.version, h.kind, ns, name⟩ p.candidate =
        p.candidate := by
      unfold ResourceCatalog.stampBirth
      split
      · rfl
      · rw [hcand, hlife]
        exact (congrArg _ (stampServerOwned_create_eq v)).trans
          ((stampBorn_stampBorn ..).trans (stampServerOwned_create_eq v).symm)
    simp [command, hlife, of, ResourceCatalog.stampBirths, ResourceCatalog.stampBirthOp, hborn]

end WriteHandler

/-- What may have become of a plan's command since it was made from `prior`: nothing, or it is a put
at the revision of an entry that is gone for good. -/
inductive Proposed (key : ResourceKey) (p : WritePlan) (prior : Option (Json × VersionMeta))
    (c : ResourceCatalog) : ResourceCommand → Prop
  | same : Proposed key p prior c (p.command key)
  | void (e : Json × VersionMeta) (value : Json) (hprior : prior = some e)
      (hgone : Pinned key e.2.modRevision (fun _ => False) c) :
      Proposed key p prior c (.put key value (some e.2.modRevision))

namespace Proposed
variable {env : Env} {key : ResourceKey} {p : WritePlan} {prior : Option (Json × VersionMeta)}
  {c : ResourceCatalog} {cmd : ResourceCommand}

theorem perform (h : Proposed key p prior c cmd) (op : CatalogOp) :
    Proposed key p prior (c.perform env op).1 cmd := by
  cases h with
  | same => exact .same
  | void e value hprior hgone => exact .void e value hprior (hgone.perform op)

/-- The proposer's births leave a plan's command, or void it. -/
theorem stampBirths {h : WriteHandler} {rules : WriteRules} {ns : Option String} {name : String}
    {request : WriteRequest} {now : Timestamp} (hk : h.key env ns name = .ok key)
    (hp : h.plan env rules key ns name request prior expected now = .ok (.write p))
    (hseen : Seen key prior c) (stampedAt : Timestamp) :
    Proposed key p prior c (c.stampBirths stampedAt (p.command key)) := by
  by_cases hlive : prior.isSome = true → (c.getWithMeta key).isSome = true
  · rw [WriteHandler.stampBirths_command hk hp c stampedAt hlive]
    exact .same
  · obtain ⟨hsome, hnone⟩ := Classical.not_imp.mp hlive
    obtain ⟨e, rfl⟩ := Option.isSome_iff_exists.mp hsome
    obtain ⟨hlife, -⟩ := WriteHandler.plan_write hp
    simp only [command, hlife]
    exact .void e _ rfl (.absent hseen.le (by simpa using hnone))

/-- A proposal races, or it is the plan's command and finds what the plan was made from. -/
theorem raced_or_found (env : Env) (h : Proposed key p prior c cmd)
    (hlife : p.lifecycle = .of prior)
    (hseen : Seen key prior c) (hread : c.unreadableTouchedBy cmd = none) (sem : ApplySemantics)
    (term index : Nat) :
    let out := c.applyUnder env cmd sem term index
    (out.2.op.committed = .ok .raced ∧ out.2.change = none) ∨
    ((out.2.op.committed = .ok .stored ∨ out.2.op.committed = .ok .released) ∧
      cmd = p.command key ∧ c.getWithMeta key = prior) := by
  intro out
  have hout : out.2 =
      (ResourceCatalog.dispatch env c.resources cmd (.under sem) (c.revision + 1)).2 := by
    simp only [out, ResourceCatalog.applyUnder, hread]
    rfl
  -- a put at the revision of `e`: only the entry `e` itself is of that revision
  have hput : ∀ (e : Json × VersionMeta) (value : Json) (P : Json × VersionMeta → Prop),
      cmd = .put key value (some e.2.modRevision) → Pinned key e.2.modRevision P c →
      (out.2.op.committed = .ok .raced ∧ out.2.change = none) ∨
      ((out.2.op.committed = .ok .stored ∨ out.2.op.committed = .ok .released) ∧
        ∃ e', c.getWithMeta key = some e' ∧ P e') := by
    rintro e value P rfl hpin
    obtain ⟨-, he⟩ | ⟨hpre, hop⟩ := applyPut_cases env key value c.resources
      (some e.2.modRevision) (.under sem) (c.revision + 1)
    · left
      rw [hout, ResourceCatalog.dispatch, he]
      exact ⟨rfl, rfl⟩
    · obtain ⟨e', he', hrev⟩ := live_of_precondition hpre
      refine .inr ⟨?_, e', he', hpin.holds e' he' hrev⟩
      rw [hout]
      simp only [List.mem_cons, List.not_mem_nil, or_false] at hop
      rcases hop with hop | hop | hop | hop <;> simp [ResourceCatalog.dispatch, hop,
        ResourceOp.committed]
  cases h with
  | same =>
    cases prior with
    | some e =>
      have hcmd : p.command key = .put key p.candidate (some e.2.modRevision) := by
        simp [command, hlife, of]
      rcases hput e p.candidate _ hcmd hseen with hraced | ⟨hop, e', he', rfl⟩
      · exact .inl hraced
      · exact .inr ⟨hop, rfl, he'⟩
    | none =>
      have hcmd : p.command key = .txn [.notExists key] [.put key p.candidate] [] := by
        simp [command, hlife, of]
      rw [hcmd] at hout
      obtain ⟨hfree, ch, -, he⟩ | ⟨-, he⟩ := applyTxn_create env key p.candidate c.resources
        (c.revision + 1)
      · refine .inr ⟨.inl ?_, rfl, hfree⟩
        rw [hout, ResourceCatalog.dispatch, he]
        rfl
      · left
        rw [hout, ResourceCatalog.dispatch, he]
        exact ⟨rfl, rfl⟩
  | void e value hprior hgone =>
    rcases hput e value _ rfl hgone with hraced | ⟨-, -, -, hfalse⟩
    · exact .inl hraced
    · exact hfalse.elim

/-- A proposal that changes the store is the plan's command over what the plan was made from. -/
theorem landed (h : Proposed key p prior c cmd) (hlife : p.lifecycle = .of prior)
    (hseen : Seen key prior c) {sem : ApplySemantics} {term index : Nat} {ch : Change}
    (hch : (c.applyUnder env cmd sem term index).2.change = some ch) :
    c.getWithMeta key = prior ∧
    Landed env c key p.candidate (c.applyUnder env cmd sem term index) ch := by
  have hread : c.unreadableTouchedBy cmd = none := by
    cases hr : c.unreadableTouchedBy cmd with
    | none => rfl
    | some f => simp [ResourceCatalog.applyUnder, hr, ApplyOutcome.patchRejected] at hch
  obtain ⟨-, hnone⟩ | ⟨-, rfl, hfound⟩ := h.raced_or_found env hlife hseen hread sem term index
  · rw [hch] at hnone
    cases hnone
  refine ⟨hfound, ?_⟩
  cases prior with
  | none =>
    simp only [command, hlife] at hch ⊢
    exact (applyUnder_create_change hch).2
  | some e =>
    simp only [command, hlife] at hch ⊢
    exact (applyUnder_put_change hch).2

end Proposed

/-! ## The parameters of the concrete writes -/

def podWrites : WriteHandler := ⟨⟨"", "v1", "Pod"⟩, "pods", true, true, none⟩

/-- Nothing is refused or changed on the way. -/
def openRules : WriteRules :=
  ⟨fun _ candidate _ => .ok candidate, none, fun _ => [], fun _ _ => [], none⟩

def someTime : Timestamp := ⟨"t1", by decide⟩

/-- A Terminating pod with a status. -/
def storeDying : CatalogOp :=
  .command (.put podKey (.obj [
    ("metadata", .obj [("creationTimestamp", .str "t0"), ("deletionTimestamp", .str "t9"),
      ("finalizers", .arr [.str "f"])]),
    ("status", .obj [("phase", .str "Running")])]) none) .v1 1 1

end Engenho
