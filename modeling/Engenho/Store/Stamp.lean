import Engenho.Store.Catalog

/-!
# What stamping does to an object

The store stamps metadata only. `metaBase` is the metadata a stamp works on: the object's, an empty
one when it has none, nothing when the value cannot carry metadata. Every stamp is a function on
it (`metaBase_updateMetadata`), and no other field changes (`get_updateMetadata`).
-/

namespace Engenho
open Assoc Json Option

/-- The metadata a stamp works on. -/
def metaBase : Json → Option JsonMap
  | .obj m => ((m.lookup "metadata").getD (.obj [])).asObject
  | _ => none

/-- The object carries metadata that is an object. -/
def objectMeta (v : Json) : Bool := ((v.get "metadata").bind Json.asObject).isSome

theorem metaField_eq (name : String) (v : Json) :
    metaField name v = ((v.get "metadata").bind asObject).bind fun md => md.lookup name := by
  unfold metaField
  cases v.get "metadata" with
  | none => rfl
  | some md => cases md <;> rfl

variable {v : Json} {name : String}
variable {md : JsonMap} {rev : Nat}

theorem metaBase_of_meta (h : (v.get "metadata").bind asObject = some md) :
    metaBase v = some md := by
  cases v with
  | obj m =>
    obtain ⟨x, hx, hmd⟩ := bind_eq_some_iff.mp h
    rw [get_obj] at hx
    simpa [metaBase, hx] using hmd
  | _ => cases h

theorem metaBase_none (h : metaBase v = none) : (v.get "metadata").bind asObject = none := by
  cases hm : (v.get "metadata").bind asObject with
  | none => rfl
  | some md => rw [metaBase_of_meta hm] at h; cases h

/-! ## `updateMetadata` -/

theorem updateMetadata_of_none (h : metaBase v = none) (f : JsonMap → JsonMap) :
    updateMetadata f v = v := by
  cases v with
  | obj m =>
    simp only [metaBase] at h
    simp only [updateMetadata]
    split
    · rename_i md hmd; rw [hmd] at h; cases h
    · rfl
  | _ => rfl

theorem updateMetadata_of_some (h : metaBase v = some md) (f : JsonMap → JsonMap) :
    ∃ m, v = .obj m ∧ updateMetadata f v = .obj (put "metadata" (.obj (f md)) m) := by
  cases v with
  | obj m =>
    simp only [metaBase, asObject_eq_some] at h
    exact ⟨m, rfl, by simp only [updateMetadata, h]⟩
  | _ => cases h

variable (f : JsonMap → JsonMap) (prior : Option Json) (env : Env)

theorem metaBase_updateMetadata (v : Json) :
    metaBase (updateMetadata f v) = (metaBase v).map f := by
  cases h : metaBase v with
  | none => rw [updateMetadata_of_none h, h]; rfl
  | some md =>
    obtain ⟨m, rfl, he⟩ := updateMetadata_of_some h f
    rw [he]
    simp [metaBase]

/-- After a stamp, the metadata that can be read is what the stamp worked on. -/
theorem meta_updateMetadata (v : Json) :
    ((updateMetadata f v).get "metadata").bind asObject = (metaBase v).map f := by
  cases h : metaBase v with
  | none => rw [updateMetadata_of_none h, metaBase_none h]; rfl
  | some md =>
    obtain ⟨m, rfl, he⟩ := updateMetadata_of_some h f
    rw [he]
    simp

theorem get_updateMetadata (v : Json) (hn : name ≠ "metadata") :
    (updateMetadata f v).get name = v.get name := by
  cases h : metaBase v with
  | none => rw [updateMetadata_of_none h]
  | some md =>
    obtain ⟨m, rfl, he⟩ := updateMetadata_of_some h f
    rw [he]
    exact lookup_put_ne hn ..

theorem metaField_updateMetadata (v : Json) (name : String) :
    metaField name (updateMetadata f v) = (metaBase v).bind fun md => (f md).lookup name := by
  rw [metaField_eq, meta_updateMetadata, bind_map]
  rfl

/-- The metadata field `name` as a stamp sees it. -/
theorem metaField_of_metaBase (v : Json) (name : String) :
    metaField name v = (metaBase v).bind fun md => md.lookup name := by
  rw [metaField_eq]
  cases h : (v.get "metadata").bind asObject with
  | some md => rw [metaBase_of_meta h]
  | none =>
    cases v with
    | obj m =>
      simp only [metaBase]
      rw [get_obj] at h
      cases hl : m.lookup "metadata" with
      | none => rfl
      | some x =>
        rw [hl] at h
        have : x.asObject = none := h
        simp [this]
    | _ => rfl

theorem metaField_updateMetadata_same (v : Json)
    (hf : ∀ md : JsonMap, (f md).lookup name = md.lookup name) :
    metaField name (updateMetadata f v) = metaField name v := by
  rw [metaField_updateMetadata, metaField_of_metaBase]
  simp only [hf]

theorem updateMetadata_comp (g : JsonMap → JsonMap) (v : Json) :
    updateMetadata f (updateMetadata g v) = updateMetadata (f ∘ g) v := by
  cases h : metaBase v with
  | none => rw [updateMetadata_of_none h, updateMetadata_of_none h, updateMetadata_of_none h]
  | some md =>
    obtain ⟨m, rfl, hg⟩ := updateMetadata_of_some h g
    obtain ⟨m', hm', hfg⟩ := updateMetadata_of_some h (f ∘ g)
    cases hm'
    rw [hg, hfg]
    simp [updateMetadata, put_put]

/-! ## The stamps -/

theorem metaField_put_ne (k name : String) (x v : Json) (hn : name ≠ k) :
    metaField name (updateMetadata (put k x) v) = metaField name v :=
  metaField_updateMetadata_same _ _ fun _ => lookup_put_ne hn ..

theorem stampUid_lookup_ne (minted : String) (prior : Option Json) (md : JsonMap)
    (hn : name ≠ "uid") : (stampUid minted prior md).lookup name = md.lookup name := by
  unfold stampUid
  split
  · exact lookup_put_ne hn ..
  · split
    · rfl
    · exact lookup_put_ne hn ..

theorem stampCreation_lookup_ne (md : JsonMap) (hn : name ≠ "creationTimestamp") :
    (stampCreation prior md).lookup name = md.lookup name := by
  unfold stampCreation
  split
  · exact lookup_put_ne hn ..
  · rfl

theorem metaField_stampIdentity (v : Json) (key : ResourceKey) (cr : Nat) (prior : Option Json)
    (hu : name ≠ "uid") (hc : name ≠ "creationTimestamp") :
    metaField name (stampIdentity env v key cr prior) = metaField name v :=
  metaField_updateMetadata_same _ _ fun md => by
    rw [stampCreation_lookup_ne _ _ hc, stampUid_lookup_ne _ _ _ hu]

theorem metaField_stampRevision (v : Json) (rev : Nat) (g : Int) (hr : name ≠ "resourceVersion")
    (hg : name ≠ "generation") : metaField name (stampRevision v rev g) = metaField name v := by
  rw [stampRevision, metaField_put_ne _ _ _ _ hg, stampResourceVersion, metaField_put_ne _ _ _ _ hr]

theorem objectMeta_updateMetadata (v : Json) :
    objectMeta (updateMetadata f v) = (metaBase v).isSome := by
  rw [objectMeta, meta_updateMetadata, isSome_map]

/-- What a stamp wrote is there, when the object can carry metadata. -/
theorem metaField_put_self (k : String) (x v : Json)
    (h : objectMeta (updateMetadata (put k x) v) = true) :
    metaField k (updateMetadata (put k x) v) = some x := by
  rw [objectMeta_updateMetadata] at h
  obtain ⟨md, hmd⟩ := isSome_iff_exists.mp h
  rw [metaField_updateMetadata, hmd]
  simp

theorem metaField_resourceVersion_stamp (h : objectMeta (stampResourceVersion v rev) = true) :
    metaField "resourceVersion" (stampResourceVersion v rev) = some (.str (toString rev)) :=
  metaField_put_self _ _ _ h

theorem metaField_generation_stamp {g : Int} (h : objectMeta (stampRevision v rev g) = true) :
    metaField "generation" (stampRevision v rev g) = some (.num (.int g)) :=
  metaField_put_self _ _ _ h

theorem objectMeta_stampRevision (v : Json) (rev : Nat) (g : Int) :
    objectMeta (stampRevision v rev g) = objectMeta (stampResourceVersion v rev) := by
  rw [stampRevision, objectMeta_updateMetadata, stampResourceVersion, objectMeta_updateMetadata,
    metaBase_updateMetadata, isSome_map]

theorem metaField_resourceVersion_stampRevision {g : Int}
    (h : objectMeta (stampRevision v rev g) = true) :
    metaField "resourceVersion" (stampRevision v rev g) = some (.str (toString rev)) := by
  rw [objectMeta_stampRevision] at h
  rw [stampRevision, metaField_put_ne _ _ _ _ (by decide)]
  exact metaField_resourceVersion_stamp h

/-- Stamping leaves the fields that decide a release alone. -/
theorem finalizersReleased_congr {w : Json}
    (hf : metaField "finalizers" v = metaField "finalizers" w)
    (hd : metaField "deletionTimestamp" v = metaField "deletionTimestamp" w) :
    finalizersReleased v = finalizersReleased w := by
  simp only [finalizersReleased, hasFinalizers, deletionTimestampOf, hf, hd]

theorem finalizersReleased_stampIdentity (v : Json) (key : ResourceKey) (cr : Nat)
    (prior : Option Json) :
    finalizersReleased (stampIdentity env v key cr prior) = finalizersReleased v :=
  finalizersReleased_congr (metaField_stampIdentity env v key cr prior (by decide) (by decide))
    (metaField_stampIdentity env v key cr prior (by decide) (by decide))

theorem finalizersReleased_stampRevision (v : Json) (rev : Nat) (g : Int) :
    finalizersReleased (stampRevision v rev g) = finalizersReleased v :=
  finalizersReleased_congr (metaField_stampRevision v rev g (by decide) (by decide))
    (metaField_stampRevision v rev g (by decide) (by decide))

theorem specOf_stampIdentity (v : Json) (key : ResourceKey) (cr : Nat) (prior : Option Json) :
    specOf (stampIdentity env v key cr prior) = specOf v :=
  get_updateMetadata _ _ (by decide)

theorem get_stampRevision (v : Json) (rev : Nat) (g : Int) (hn : name ≠ "metadata") :
    (stampRevision v rev g).get name = v.get name := by
  rw [stampRevision, get_updateMetadata _ _ hn, stampResourceVersion, get_updateMetadata _ _ hn]

theorem specOf_stampRevision (v : Json) (rev : Nat) (g : Int) :
    specOf (stampRevision v rev g) = specOf v := get_stampRevision v rev g (by decide)

theorem computeGenerationOnPut_congr {w : Json} (h : specOf v = specOf w) :
    computeGenerationOnPut prior v = computeGenerationOnPut prior w := by
  simp only [computeGenerationOnPut, h]

end Engenho
