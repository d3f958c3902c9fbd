import Engenho.Controllers.OwnedChildren
import Engenho.Store.Puts

/-!
# Whose child an object is

An object is controlled by what its owner references say, and nothing the store or a pass stamps
touches them (`isOwnedBy_stored`, `isOwnedBy_stampBorn`). A pod made from a template that brings no
controller of its own is controlled by its parent (`isOwnedBy_podFromTemplate`).
-/

namespace Engenho
open Assoc Except Option
namespace Controllers

/-! ## Stamps -/

variable {v v' : Json} {f : JsonMap → Except ShapeFault JsonMap} {apiVersion kind u : String}
  {block : Bool}

theorem isOwnedBy_congr {w : Json}
    (h : metaField "ownerReferences" v = metaField "ownerReferences" w)
    (u : String) : isOwnedBy v u = isOwnedBy w u := by
  simp only [isOwnedBy, controllingOwner, ownerReferences, h]

theorem isOwnedBy_stored (env : Env) (v : Json) (key : ResourceKey) (cr : Nat) (prior : Option Json)
    (rev : Nat) (g : Int) (u : String) :
    isOwnedBy (stampRevision (stampIdentity env v key cr prior) rev g) u = isOwnedBy v u := by
  refine isOwnedBy_congr ?_ u
  rw [metaField_stampRevision _ _ _ (by decide) (by decide),
    metaField_stampIdentity _ _ _ _ _ (by decide) (by decide)]

theorem isOwnedBy_stampBorn (group kind objName : String) (ns : Option String)
    (now : Timestamp) (v : Json)
    (u : String) : isOwnedBy (stampBorn group kind objName ns now v) u = isOwnedBy v u :=
  isOwnedBy_congr (metaField_stampBorn_same (by decide) (by decide) (by decide) (by decide) ..) u

theorem isOwnedBy_stampBirth (c : ResourceCatalog) (now : Timestamp) (key : ResourceKey) (v : Json)
    (u : String) : isOwnedBy (c.stampBirth now key v) u = isOwnedBy v u := by
  unfold ResourceCatalog.stampBirth
  split
  · rfl
  · exact isOwnedBy_stampBorn ..

theorem isOwnedBy_stampCreateTimestamp (now : Timestamp) (v : Json) (u : String) :
    isOwnedBy (stampCreateTimestamp now v) u = isOwnedBy v u := by
  refine isOwnedBy_congr ?_ u
  cases v with
  | obj fields =>
    simp only [stampCreateTimestamp, mapFields]
    split
    · simp only [metaField, Json.get_obj, ensureObject, lookup_put_self, bind_some]
      rw [lookup_stampCreationTimestamp_ne (by decide)]
      cases hm : fields.lookup "metadata" with
      | none => rfl
      | some x => cases x <;> rfl
    · rfl
  | _ => rfl

/-! ## Edits -/

variable {path : List String} {k n podName : String} {child child' pod parent : Json}
  {owner : OwnerReference}

theorem objectSlot_lookup {m : JsonMap} (h : objectSlot path v = .ok m) (k : String) :
    m.lookup k = v.get k := by
  cases v with
  | obj fields | null =>
    cases h
    rfl
  | _ => cases h

theorem editObject_root (h : editObject [] f [] v = .ok v') :
    ∃ m m', (∀ k, m.lookup k = v.get k) ∧ f m = .ok m' ∧ v' = .obj m' := by
  obtain ⟨m, hm, h⟩ := of_bind_ok h
  obtain ⟨m', hm', h⟩ := of_bind_ok h
  exact ⟨m, m', objectSlot_lookup hm, hm', (Except.ok.inj h).symm⟩

theorem editObject_field (h : editObject [] f [k] v = .ok v') :
    ∃ m inner m', (∀ k', m.lookup k' = v.get k') ∧
    (∀ k', inner.lookup k' = (v.get k).bind (Json.get k')) ∧
      f inner = .ok m' ∧ v' = .obj (Assoc.put k (.obj m') m) := by
  obtain ⟨m, hm, h⟩ := of_bind_ok h
  obtain ⟨v'', h'', h⟩ := of_bind_ok h
  obtain ⟨inner, hinner, h''⟩ := of_bind_ok h''
  obtain ⟨m', hm', h''⟩ := of_bind_ok h''
  cases h''
  refine ⟨m, inner, m', objectSlot_lookup hm, fun k' => ?_, hm', (Except.ok.inj h).symm⟩
  rw [objectSlot_lookup hinner k', objectSlot_lookup hm k]
  cases v.get k <;> rfl

theorem metaField_editObject_ne (h : editObject [] f [k] v = .ok v') (hk : k ≠ "metadata")
    (field : String) : metaField field v' = metaField field v := by
  obtain ⟨m, inner, m', hm, -, -, rfl⟩ := editObject_field h
  rw [metaField, Json.get_obj, lookup_put_ne hk.symm, hm]
  rfl

theorem metaField_editObject (h : editObject [] f ["metadata"] v = .ok v') :
    ∃ inner m', (∀ k, inner.lookup k = metaField k v) ∧ f inner = .ok m' ∧
      ∀ k, metaField k v' = m'.lookup k := by
  obtain ⟨m, inner, m', -, hinner, hf, rfl⟩ := editObject_field h
  refine ⟨inner, m', hinner, hf, fun k => ?_⟩
  rw [metaField, Json.get_obj, lookup_put_self, bind_some, Json.get_obj]

theorem arraySlot_eq {slot : Option Json} {items : List Json}
    (h : arraySlot path (slot.getD .null) = .ok items) :
    items = (slot.bind Json.asArray).getD [] := by
  cases slot with
  | none => exact (Except.ok.inj h).symm
  | some v =>
    cases v with
    | arr xs | null => exact (Except.ok.inj h).symm
    | _ => cases h

theorem ownerReferences_setOwnerReference (h : setOwnerReference child owner = .ok child') :
    ownerReferences child' = addOwner owner (ownerReferences child) := by
  obtain ⟨inner, m', hinner, hf, hmeta⟩ := metaField_editObject h
  obtain ⟨items, hitems, hf⟩ := of_bind_ok hf
  cases hf
  have : items = ownerReferences child := by rw [arraySlot_eq hitems, hinner, ownerReferences]
  rw [ownerReferences, hmeta, lookup_put_self, this]
  rfl

/-! ## The pods of a template -/

theorem asController_toValue (apiVersion kind n u : String) (block : Bool)
    (hu : u.isEmpty = false) :
    asController (OwnerReference.toValue ⟨apiVersion, kind, n, u, true, block⟩) =
      some ⟨apiVersion, kind, n, u, true, block⟩ := by
  have hof : OwnerReference.ofValue (OwnerReference.toValue ⟨apiVersion, kind, n, u, true, block⟩) =
      some ⟨apiVersion, kind, n, u, true, block⟩ := by cases block <;> rfl
  have hflag : (((OwnerReference.toValue ⟨apiVersion, kind, n, u, true, block⟩).get
    "controller").bind
      Json.asBool).getD false = true := by cases block <;> rfl
  rw [asController, if_pos hflag, hof]
  simp [Option.filter, hu]

/-- The object has no controller, and no reference to `u`. -/
def BringsNoOwner (u : String) (v : Json) : Prop :=
  ∀ r ∈ ownerReferences v, asController r = none ∧ refUid r ≠ some u

instance (u : String) (v : Json) : Decidable (BringsNoOwner u v) :=
  inferInstanceAs (Decidable (∀ r ∈ ownerReferences v, asController r = none ∧ refUid r ≠ some u))

theorem isOwnedBy_setOwnerReference
    (h : setOwnerReference child ⟨apiVersion, kind, n, u, true, block⟩ = .ok child')
    (hu : u.isEmpty = false) (hclean : BringsNoOwner u child) : isOwnedBy child' u = true := by
  have hnone : (ownerReferences child).findSome? asController = none :=
    List.findSome?_eq_none_iff.mpr fun r hr => (hclean r hr).1
  have hany : (ownerReferences child).any (fun r => refUid r = some u) = false := by
    rw [List.any_eq_false]
    intro r hr
    simpa using (hclean r hr).2
  rw [isOwnedBy, controllingOwner, ownerReferences_setOwnerReference h, addOwner,
    if_neg (by simp [hany]),
    List.findSome?_append, hnone, none_or, List.findSome?_cons, asController_toValue _ _ _ _ _ hu]
  simp

variable {pod' : Json} {ns : String}

theorem stampPod_owned
    (h : stampPod pod podName ns ⟨apiVersion, kind, n, u, true, block⟩ = .ok pod')
    (hu : u.isEmpty = false) (hclean : BringsNoOwner u pod) : isOwnedBy pod' u = true := by
  obtain ⟨pod₁, h₁, h⟩ := of_bind_ok h
  obtain ⟨pod₂, h₂, h⟩ := of_bind_ok h
  obtain ⟨pod₃, h₃, h⟩ := of_bind_ok h
  cases h
  have hrefs₁ : metaField "ownerReferences" pod₁ = metaField "ownerReferences" pod := by
    obtain ⟨m, m', hm, hf, rfl⟩ := editObject_root h₁
    cases hf
    rw [metaField, Json.get_obj, lookup_put_ne (by decide), lookup_put_ne (by decide), hm]
    rfl
  have hrefs₂ : metaField "ownerReferences" pod₂ = metaField "ownerReferences" pod₁ := by
    obtain ⟨inner, m', hinner, hf, hmeta⟩ := metaField_editObject h₂
    cases hf
    rw [hmeta, lookup_put_ne (by decide), lookup_put_ne (by decide), hinner]
  have hclean₂ : BringsNoOwner u pod₂ := by
    unfold BringsNoOwner ownerReferences
    rw [hrefs₂, hrefs₁]
    exact hclean
  have hstatus : metaField "ownerReferences" (mapFields stampBirthStatus pod₃) =
      metaField "ownerReferences" pod₃ := by
    have hget : (mapFields stampBirthStatus pod₃).get "metadata" = pod₃.get "metadata" :=
      get_mapFields (fun fields => lookup_put_ne (by decide) ..) pod₃
    rw [metaField, hget]
    rfl
  rw [isOwnedBy_congr hstatus]
  exact isOwnedBy_setOwnerReference h₃ hu hclean₂

theorem isOwnedBy_podFromTemplate
    (h : podFromTemplate parent podName ns ⟨apiVersion, kind, n, u, true, block⟩ = .ok (some pod))
    (hu : u.isEmpty = false) (hclean : ∀ t ∈ templateOf parent, BringsNoOwner u t) :
    isOwnedBy pod u = true := by
  unfold podFromTemplate at h
  cases ht : templateOf parent with
  | none =>
    rw [ht] at h
    cases h
  | some t =>
    rw [ht] at h
    obtain ⟨pod', hmade, heq⟩ := of_map_ok h
    cases heq
    exact stampPod_owned (of_mapError_ok hmade) hu (hclean t (by rw [ht]; exact rfl))

theorem isOwnedBy_editTemplate {f : JsonMap → JsonMap} (h : editTemplate [k] f pod = .ok pod')
    (hk : k ≠ "metadata") (u : String) : isOwnedBy pod' u = isOwnedBy pod u :=
  isOwnedBy_congr (metaField_editObject_ne (of_mapError_ok h) hk _) u

theorem ownerRefFor_eq (h : ownerRefFor parent apiVersion kind = some owner) :
    ∃ n u, name parent = some n ∧ uid parent = some u ∧
    owner = ⟨apiVersion, kind, n, u, true, true⟩ := by
  unfold ownerRefFor at h
  split at h
  · rename_i n u hn hu
    exact ⟨n, u, hn, hu, (Option.some.inj h).symm⟩
  · cases h

theorem uid_nonempty (h : uid v = some u) : u.isEmpty = false := by
  have := (filter_eq_some_iff.mp h).2
  simpa using this

end Controllers
end Engenho
