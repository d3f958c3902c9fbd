import Engenho.Store.Effects

/-!
# Merge patches on the catalog

What a merge patch leaves of an object, field by field (`get_mergeRfc7396`), and what the command
that carries one does to the live map (`mergePatch_cases`): nothing, the stamped merge in place of
the live object, or the removal of an object that was Terminating and held by no finalizer.
-/

namespace Engenho
open Assoc

/-! ## The merge -/

theorem mergeRfc7396Fields_lookup {k : String} (fields : List (String × Json)) (target : JsonMap)
    (hk : ∀ e ∈ fields, e.1 ≠ k) :
    (mergeRfc7396Fields target fields).lookup k = target.lookup k := by
  induction fields generalizing target with
  | nil => rw [mergeRfc7396Fields]
  | cons e fields ih =>
    obtain ⟨k', v⟩ := e
    have hne : k ≠ k' := fun h => hk (k', v) (by simp) h.symm
    rw [mergeRfc7396Fields, ih _ fun e he => hk e (.tail _ he)]
    split
    · exact lookup_drop_ne hne _
    · exact lookup_put_ne hne ..

theorem sorted_mergeRfc7396Fields {target : JsonMap} (h : Sorted target) (fields : JsonMap) :
    Sorted (mergeRfc7396Fields target fields) := by
  induction fields generalizing target with
  | nil => exact h
  | cons e rest ih =>
    refine ih ?_
    split
    · exact h.drop
    · exact h.put

variable {fields : JsonMap}

theorem lookup_mergeRfc7396Fields (h : Sorted fields) (target : JsonMap) (k : String) :
    (mergeRfc7396Fields target fields).lookup k = match fields.lookup k with
      | none => target.lookup k
      | some v =>
        if v.isNull then none else some (mergeRfc7396 ((target.lookup k).getD .null) v) := by
  induction fields generalizing target with
  | nil => rfl
  | cons e rest ih =>
    obtain ⟨k', v⟩ := e
    obtain ⟨hfirst, hrest⟩ := List.pairwise_cons.mp h
    rw [mergeRfc7396Fields]
    by_cases hk : k = k'
    · -- the rest does not name the key again
      subst hk
      have hother : ∀ e ∈ rest, e.1 ≠ k := fun e he => (hfirst e he).ne'
      rw [mergeRfc7396Fields_lookup rest _ hother, lookup_cons_ite, if_pos rfl]
      simp only
      split <;> simp
    · have hsame : (if v.isNull then drop k' target
          else put k' (mergeRfc7396 ((target.lookup k').getD .null) v) target).lookup k =
          target.lookup k := by
        split
        · exact lookup_drop_ne hk _
        · exact lookup_put_ne hk ..
      rw [ih hrest, lookup_cons_ite, if_neg hk, hsame]

theorem get_mergeRfc7396 (h : Sorted fields) (v : Json) (k : String) :
    (mergeRfc7396 v (.obj fields)).get k = match fields.lookup k with
      | none => v.get k
      | some w => if w.isNull then none else some (mergeRfc7396 ((v.get k).getD .null) w) := by
  have hget : (v.asObject.getD []).lookup k = v.get k := by cases v <;> rfl
  rw [mergeRfc7396, Json.get_obj, lookup_mergeRfc7396Fields h, hget]

theorem get_mergeRfc7396_single_ne (v w : Json) {k k' : String} (h : k ≠ k') :
    (mergeRfc7396 v (.obj [(k', w)])).get k = v.get k := by
  rw [get_mergeRfc7396 (List.pairwise_singleton _ _), lookup_cons_ite, if_neg h]
  rfl

theorem get_mergeRfc7396_single_self (v : Json) {w : Json} (hw : w.isNull = false) (k : String) :
    (mergeRfc7396 v (.obj [(k, w)])).get k = some (mergeRfc7396 ((v.get k).getD .null) w) := by
  rw [get_mergeRfc7396 (List.pairwise_singleton _ _), lookup_cons_ite, if_pos rfl]
  simp only [hw, Bool.false_eq_true, if_false]

/-! ## The command -/

/-- The live map after a merge patch of `key`. -/
inductive MergePatched (rev : Nat) (res : Resources) (key : ResourceKey) (patch : Json)
    (expected : Option Nat) : Resources → Prop where
  | same : MergePatched rev res key patch expected res
  | stored {v : Json} {m : VersionMeta} (g : Int) (hlive : res.get key = some (v, m))
      (hpre : checkPrecondition expected (some m) = true) :
      MergePatched rev res key patch expected
        (res.insert key (stampRevision (mergeRfc7396 v patch) rev g, m.bumpedAt rev))
  | released {v : Json} {m : VersionMeta} (hlive : res.get key = some (v, m))
      (hpre : checkPrecondition expected (some m) = true)
      (hrel : finalizersReleased (mergeRfc7396 v patch) = true) :
      MergePatched rev res key patch expected (res.erase key)

theorem applyPatch_merge (env : Env) (res : Resources) (key : ResourceKey) (patch : Json)
    (expected : Option Nat) (on : OnIdentical) (rev : Nat) : MergePatched rev res key patch expected
      (applyPatch env res key patch .merge none expected on rev).1 := by
  have himage : ∀ {post}, (ResourceCommand.patch key patch .merge none expected).image env res rev =
    some post →
      ∃ v m, res.get key = some (v, m) ∧
        post = stampRevision (mergeRfc7396 v patch) rev
        (computeGenerationOnPut (some v) (mergeRfc7396 v patch)) := by
    intro post h
    obtain ⟨v, m, body, merged, hlive, hbody, hmerged, rfl⟩ := patchImage_eq_some h
    cases hbody
    cases hmerged
    exact ⟨v, m, hlive, rfl⟩
  have hend := applyPatch_end env res key patch .merge none expected on rev
  generalize applyPatch env res key patch .merge none expected on rev = out at hend ⊢
  cases hend with
  | same => exact .same
  | stored post op hpost hpre =>
    obtain ⟨v, m, hlive, rfl⟩ := himage hpost
    rw [hlive] at hpre ⊢
    exact .stored _ hlive hpre
  | released post v m hpost hpre hlive hrel =>
    obtain ⟨v', m', hlive', rfl⟩ := himage hpost
    cases hlive.symm.trans hlive'
    rw [hlive] at hpre
    rw [finalizersReleased_stampRevision] at hrel
    exact .released hlive hpre hrel

theorem mergePatch_cases (env : Env) (c : ResourceCatalog) (key : ResourceKey) (patch : Json)
    (expected : Option Nat) (sem : ApplySemantics) (term index : Nat) :
    MergePatched (c.revision + 1) c.resources key patch expected
      (c.applyUnder env (.patch key patch .merge none expected) sem term index).1.resources := by
  simp only [ResourceCatalog.applyUnder]
  split
  · exact .same
  · exact applyPatch_merge env c.resources key patch expected _ _

end Engenho
