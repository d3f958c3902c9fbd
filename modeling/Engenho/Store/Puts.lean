import Engenho.Store.Effects

/-!
# Puts and deletes on the catalog

What the command that puts an object does to its key: nothing, the stamped object in place of what
was there, or the removal of a Terminating object that the put leaves without finalizers. And what
the one that deletes does: nothing, the removal, or the stamp of the deletion.
-/

namespace Engenho

/-- The live map after a put of `value` at `key`. -/
inductive PutApplied (env : Env) (rev : Nat) (res : Resources) (key : ResourceKey) (value : Json) :
    Resources → Prop where
  | same : PutApplied env rev res key value res
  | stored (g : Int) (m : VersionMeta) (prior : Option Json) :
      PutApplied env rev res key value
        (res.insert key (stampRevision (stampIdentity env value key m.createRevision prior) rev g,
          m))
  | released {v : Json} {m : VersionMeta} (hlive : res.get key = some (v, m)) :
      PutApplied env rev res key value (res.erase key)

variable (env : Env)

theorem applyPut_applied (res : Resources) (key : ResourceKey) (value : Json)
    (expected : Option Nat) (on : OnIdentical) (rev : Nat) :
    PutApplied env rev res key value (applyPut env res key value expected on rev).1 := by
  have hend := applyPut_end env res key value expected on rev
  generalize applyPut env res key value expected on rev = out at hend ⊢
  cases hend with
  | same => exact .same
  | stored post op himage =>
    cases himage
    exact .stored _ _ ((res.get key).map Prod.fst)
  | released post v m _ _ hlive => exact .released hlive

section
variable (c : ResourceCatalog) (key : ResourceKey) (value : Json) (expected : Option Nat)
  (sem : ApplySemantics) (term index : Nat)
include c key value expected sem term index

theorem put_cases : PutApplied env (c.revision + 1) c.resources key value
      (c.applyUnder env (.put key value expected) sem term index).1.resources := by
  simp only [ResourceCatalog.applyUnder]
  split
  · exact .same
  · exact applyPut_applied env c.resources key value expected _ _

theorem put_get_cases :
    (c.applyUnder env (.put key value expected) sem term index).1.get key = c.get key ∨
      (c.applyUnder env (.put key value expected) sem term index).1.get key = none ∨
      ∃ cr prior g, (c.applyUnder env (.put key value expected) sem term index).1.get key =
        some (stampRevision (stampIdentity env value key cr prior) (c.revision + 1) g) := by
  have h := put_cases env c key value expected sem term index
  unfold ResourceCatalog.get
  generalize (c.applyUnder env (.put key value expected) sem term index).1.resources = res at h ⊢
  cases h with
  | same => exact .inl rfl
  | stored g m prior =>
    refine .inr (.inr ⟨m.createRevision, prior, g, ?_⟩)
    rw [OrdMap.get_insert, if_pos rfl, Option.map_some]
  | released hlive =>
    refine .inr (.inl ?_)
    rw [OrdMap.get_erase, if_pos rfl, Option.map_none]

end

theorem delete_get_cases (c : ResourceCatalog) (key : ResourceKey) (expected : Option Nat)
    (ts : Option String) (sem : ApplySemantics) (term index : Nat) :
    (c.applyUnder env (.delete key expected ts) sem term index).1.get key = c.get key ∨
      (c.applyUnder env (.delete key expected ts) sem term index).1.get key = none ∨
      ∃ v stamp, c.get key = some v ∧
      (c.applyUnder env (.delete key expected ts) sem term index).1.get key =
        some (stampResourceVersion (stampDeletionTimestamp v stamp) (c.revision + 1)) := by
  unfold ResourceCatalog.get
  simp only [ResourceCatalog.applyUnder]
  split
  · exact .inl rfl
  simp only [ResourceCatalog.dispatch]
  have hend := applyDelete_end c.resources key expected ts c.history.nextRevision
  generalize applyDelete c.resources key expected ts c.history.nextRevision = out at hend ⊢
  cases hend with
  | same => exact .inl rfl
  | removed => exact .inr (.inl (by simp))
  | stamped live m stamp hlive => exact .inr (.inr ⟨live, stamp, by simp [hlive], by simp; rfl⟩)

end Engenho
