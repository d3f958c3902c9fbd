import Engenho.Store.Finalizers
import Engenho.Store.Identity

/-!
# Compare and swap

A writer reads an entry and later proposes against the revision it read. Between the two anything
may happen to the key, the removal and a second creation of the object included.

* `Pinned key n P c`: if the entry of `key` is still the one of revision `n`, it satisfies `P`. No
  operation breaks this (`Pinned.perform`), because a write stores a revision above the head.
* `Seen`: what a reader saw, pinned at its revision.
* `applyUnder_put_change`, `applyUnder_create_change`: a put at a revision and a create of a free
  name that commit anything commit the image of the put, over the entry they were proposed for.
-/

namespace Engenho
open ApplyOutcome

theorem nextMeta_modRevision (prior : Option VersionMeta) (rev : Nat) :
    (nextMeta prior rev).modRevision = rev := by
  cases prior <;> rfl

variable {key : ResourceKey} {res : Resources}

/-- After a command an entry is the one that was there, or it is of the command's revision. -/
theorem Writes.entry {rev : Nat} {chs : List Change} (h : Writes rev res chs)
    {e : Json × VersionMeta} (he : (applyChanges res chs).get key = some e) :
    res.get key = some e ∨ e.2.modRevision = rev := by
  induction h with
  | nil => exact .inl he
  | cons hch _ ih =>
    rcases ih he with hkept | hnew
    · rename_i res ch _ _
      by_cases hk : key = ch.key
      · subst hk
        cases hch with
        | put hv =>
          simp only [Change.applyTo, OrdMap.get_insert_self] at hkept
          cases hkept
          exact .inr (nextMeta_modRevision _ _)
        | delete hlive | release hlive => simp [Change.applyTo] at hkept
      · rw [Change.get_applyTo_ne _ _ hk] at hkept
        exact .inl hkept
    · exact .inr hnew

/-! ## Pins -/

/-- The revision `n` is not of the future, and the entry of `key`, if it is of that revision,
satisfies `P`. -/
structure Pinned (key : ResourceKey) (n : Nat) (P : Json × VersionMeta → Prop)
    (c : ResourceCatalog) : Prop where
  le : n ≤ c.revision
  holds : ∀ e, c.getWithMeta key = some e → e.2.modRevision = n → P e

namespace Pinned
variable {key : ResourceKey} {n : Nat} {P Q : Json × VersionMeta → Prop} {c : ResourceCatalog}
  {env : Env}

/-- A key without an entry pins every revision there was. -/
theorem absent (hle : n ≤ c.revision) (hnone : c.getWithMeta key = none) :
    Pinned key n (fun _ => False) c where
  le := hle
  holds e he := by rw [hnone] at he; cases he

theorem perform (h : Pinned key n P c) (op : CatalogOp) : Pinned key n P (c.perform env op).1 := by
  have hrev := perform_revision env c op
  refine ⟨by have := h.le; omega, fun e he hn => ?_⟩
  obtain ⟨hw, hres⟩ := perform_writes env c op
  have he' : (applyChanges c.resources (c.perform env op).2).get key = some e := by
    rw [← hres]
    exact he
  rcases hw.entry he' with hkept | hnew
  · exact h.holds e hkept hn
  · have := h.le
    omega

end Pinned

/-- What was read of a key: nothing, or an entry that is still there if its revision is. -/
def Seen (key : ResourceKey) : Option (Json × VersionMeta) → ResourceCatalog → Prop
  | none, _ => True
  | some e, c => Pinned key e.2.modRevision (· = e) c

theorem Seen.perform {e : Option (Json × VersionMeta)} {c : ResourceCatalog} {env : Env}
    (h : Seen key e c) (op : CatalogOp) : Seen key e (c.perform env op).1 := by
  cases e with
  | none => trivial
  | some e => exact Pinned.perform h op

/-- What a read of a reachable catalog returns is seen. -/
theorem Logged.seen (env : Env) (capacity : Nat) (ops : List CatalogOp) (key : ResourceKey) :
    Seen key ((after env capacity ops).cat.getWithMeta key) (after env capacity ops).cat := by
  cases he : (after env capacity ops).cat.getWithMeta key with
  | none => trivial
  | some e =>
    refine ⟨modRevision_le env capacity ops he, fun e' he' _ => ?_⟩
    rw [he] at he'
    exact (Option.some.inj he').symm

theorem Logged.after_append (env : Env) (capacity : Nat) (ops later : List CatalogOp) :
    after env capacity (ops ++ later) = Run.exec (step env) (after env capacity ops) later :=
  Run.exec_append ..

theorem Logged.after_inv {I : ResourceCatalog → Prop} {env : Env}
    (hstep : ∀ c op, I c → I (c.perform env op).1) {capacity : Nat} {ops : List CatalogOp}
    (h : I (after env capacity ops).cat) (later : List CatalogOp) :
    I (after env capacity (ops ++ later)).cat := by
  rw [after_append]
  exact Run.exec_inv (I := fun s : Logged => I s.cat) (fun s op hs => hstep s.cat op hs) h later

/-! ## The two proposals of a writer -/

/-- What a proposal that landed stored: the image of the put, or nothing where the image released
the object. -/
structure Landed (env : Env) (c : ResourceCatalog) (key : ResourceKey) (value : Json)
    (out : ResourceCatalog × ApplyOutcome) (ch : Change) : Prop where
  changes : out.2.changes = [ch]
  key_eq : ch.key = key
  value_eq : ch.value = putImage env c.resources key value (c.revision + 1)
  stored : out.1.resources = ch.applyTo c.resources

namespace ResourceCatalog
variable {env : Env} {c : ResourceCatalog} {key : ResourceKey} {value : Json} {sem : ApplySemantics}
  {term index : Nat}

variable {ch : Change}
variable {expected : Option Nat}

theorem applyPut_change {on : OnIdentical} {rev : Nat}
    (h : (applyPut env res key value expected on rev).2.change = some ch) :
    checkPrecondition expected ((res.get key).map Prod.snd) = true ∧ ch.key = key ∧
      ch.value = putImage env res key value rev := by
  obtain ⟨post, himage, hpre, ⟨rfl, -⟩ | ⟨v, m, rfl, -⟩⟩ :=
    (applyPut_end env res key value expected on rev).of_change h
  · exact ⟨hpre, rfl, (Option.some.inj himage).symm⟩
  · exact ⟨hpre, rfl, (Option.some.inj himage).symm⟩

/-- A put misses its precondition, or answers one of four operations. -/
theorem applyPut_cases (env : Env) (key : ResourceKey) (value : Json) (res : Resources)
    (expected : Option Nat) (on : OnIdentical) (rev : Nat) :
    (checkPrecondition expected ((res.get key).map Prod.snd) = false ∧
      applyPut env res key value expected on rev = (res, .noChange .conflict)) ∨
    (checkPrecondition expected ((res.get key).map Prod.snd) = true ∧
      (applyPut env res key value expected on rev).2.op ∈
        [ResourceOp.unchanged, .created, .replaced, .deleted]) := by
  cases hpre : checkPrecondition expected ((res.get key).map Prod.snd) with
  | false => exact .inl ⟨rfl, by simp [applyPut, hpre]⟩
  | true =>
    refine .inr ⟨rfl, ?_⟩
    unfold applyPut
    simp only [hpre, Bool.not_true, Bool.false_eq_true, if_false]
    split
    · simp [noChange]
    unfold finalizerReleaseRemoval
    split
    · rename_i out hout
      split at hout
      · cases hout
      · cases hout
        simp [withChange, committed]
    · split <;> simp [withChange, committed]

theorem live_of_precondition {n : Nat}
    (h : checkPrecondition (some n) ((c.getWithMeta key).map Prod.snd) = true) :
    ∃ e, c.getWithMeta key = some e ∧ e.2.modRevision = n := by
  cases he : c.getWithMeta key with
  | none => simp [he, checkPrecondition] at h
  | some e => exact ⟨e, rfl, by simpa [he, checkPrecondition] using h⟩

theorem applyUnder_change {cmd : ResourceCommand}
    (h : (c.applyUnder env cmd sem term index).2.change = some ch) :
    (dispatch env c.resources cmd (.under sem) (c.revision + 1)).2 =
        (c.applyUnder env cmd sem term index).2 ∧
      (c.applyUnder env cmd sem term index).1.resources =
        applyChanges c.resources (c.applyUnder env cmd sem term index).2.changes := by
  obtain ⟨-, hnone, -⟩ | ⟨first, rest, hchs, -, -, hcat⟩ :=
    c.applyUnder_cases env cmd sem term index
  · rw [h] at hnone
    cases hnone
  refine ⟨?_, by rw [hcat, hchs]⟩
  revert h
  simp only [applyUnder]
  split
  · intro h
    cases h
  · intro _
    rfl

theorem applyUnder_put_change
    (h : (c.applyUnder env (.put key value expected) sem term index).2.change = some ch) :
    checkPrecondition expected ((c.getWithMeta key).map Prod.snd) = true ∧
      Landed env c key value (c.applyUnder env (.put key value expected) sem term index) ch := by
  obtain ⟨hdisp, hres⟩ := applyUnder_change h
  have hextra := (applyPut_write env c.resources key value expected (.under sem) (c.revision + 1)).1
  rw [show applyPut env c.resources key value expected (.under sem) (c.revision + 1) =
    dispatch env c.resources (.put key value expected) (.under sem) (c.revision + 1) from rfl,
    hdisp] at hextra
  obtain ⟨hpre, hkey, hvalue⟩ := applyPut_change (hdisp ▸ h :
    (applyPut env c.resources key value expected (.under sem) (c.revision + 1)).2.change = some ch)
  have hchs : (c.applyUnder env (.put key value expected) sem term index).2.changes = [ch] := by
    rw [changes, h, hextra]
    rfl
  exact ⟨hpre, hchs, hkey, hvalue, by rw [hres, hchs]; rfl⟩

/-- A create of a free name stores it, of a taken one does nothing. -/
theorem applyTxn_create (env : Env) (key : ResourceKey) (value : Json) (res : Resources)
    (rev : Nat) :
    (res.get key = none ∧ ∃ ch, (applyPut env res key value none .commit rev).2.change = some ch ∧
      applyTxn env res [.notExists key] [.put key value] [] rev =
        ((applyPut env res key value none .commit rev).1, .committed .replaced ch [])) ∨
    ((res.get key).isSome = true ∧
      applyTxn env res [.notExists key] [.put key value] [] rev = (res, .noChange .noOp)) := by
  cases hget : res.get key with
  | none =>
    obtain ⟨ch, hch⟩ : ∃ ch, (applyPut env res key value none .commit rev).2.change = some ch := by
      simp only [applyPut, hget]
      exact ⟨_, rfl⟩
    refine .inl ⟨rfl, ch, hch, ?_⟩
    simp [applyTxn, evalCompare, hget, applyTxnOps, applyTxnOp, hch]
  | some e => exact .inr ⟨rfl, by simp [applyTxn, evalCompare, hget, applyTxnOps]⟩

theorem applyUnder_create_change
    (h : (c.applyUnder env (.txn [.notExists key] [.put key value] []) sem term index).2.change =
      some ch) :
    c.getWithMeta key = none ∧
      Landed env c key value
      (c.applyUnder env (.txn [.notExists key] [.put key value] []) sem term index)
        ch := by
  obtain ⟨hdisp, hres⟩ := applyUnder_change h
  have htxn : (applyTxn env c.resources [.notExists key] [.put key value] [] (c.revision + 1)).2 =
      (c.applyUnder env (.txn [.notExists key] [.put key value] []) sem term index).2 := hdisp
  rw [← htxn] at h
  obtain ⟨hfree, ch', hch', he⟩ | ⟨-, he⟩ :=
    applyTxn_create env key value c.resources (c.revision + 1)
  · rw [he] at h htxn
    cases h
    have hchs : (c.applyUnder env (.txn [.notExists key] [.put key value] []) sem term
      index).2.changes =
        [ch] := by
      rw [← htxn]
      rfl
    obtain ⟨-, hkey, hvalue⟩ := applyPut_change hch'
    exact ⟨hfree, hchs, hkey, hvalue, by rw [hres, hchs]; rfl⟩
  · rw [he] at h
    cases h

end ResourceCatalog
end Engenho
