import Engenho.Store.FieldSets
import Engenho.Store.SsaMerge

/-!
# Other managers' fields

An apply that is not forced and finds no conflict leaves the fields of the other managers, where
neither the merge nor a removal reaches them from above or below: `applySsa_leaves_others`.
Ownership is by exact path, and the conflict check looks at the paths the config applies. A config
that puts a scalar where another manager owns a field below is no conflict, and takes the field away
(`applySsa_scalar_takes_field`).
-/

namespace Engenho
open Assoc Json List Option
variable {env : Env} {gvk : Gvk}
variable {current config : Json} {e : DecodedEntry} {manager : String} {p : Path} {el : PathElement}

theorem readManagedFields_wellFormed (h : e ∈ readManagedFields env current) :
    e.fields.WellFormed env := by
  unfold readManagedFields at h
  split at h
  · cases h
  obtain ⟨raw, -, hraw⟩ := mem_filterMap.mp h
  simp only [decodeEntry, bind, bind_eq_some_iff, pure, Option.some.injEq] at hraw
  obtain ⟨manager, -, rfl⟩ := hraw
  cases raw.get "fieldsV1" with
  | none => exact .new
  | some v => exact FieldSet.fromValue_wellFormed v

/-- Only an object with an object as metadata has managed fields. -/
theorem metadata_of_readManagedFields (h : e ∈ readManagedFields env current) :
    ∃ m md, current = .obj m ∧ m.lookup "metadata" = some (.obj md) := by
  unfold readManagedFields at h
  split at h
  · cases h
  rename_i entries hm
  simp only [bind_eq_some_iff] at hm
  obtain ⟨v, ⟨metadata, hmeta, hv⟩, -⟩ := hm
  cases current with
  | obj m =>
    cases metadata with
    | obj md => exact ⟨m, md, rfl, hmeta⟩
    | _ => cases hv
  | _ => cases hmeta

/-! ## The conflict check -/

/-- Without a conflict the config has the value of the object at every path it applies and another
manager owns. -/
theorem valueAt_of_no_conflict {entries : List DecodedEntry}
    (h : ssaConflicts env gvk current config manager entries = []) (he : e ∈ entries)
    (hother : isOtherApply manager e = true) (howns : e.fields.owns env p = true)
    (hp : p ∈ (fieldsetOf env gvk config).ownedPaths) : valueAt config p = valueAt current p := by
  have hnone := flatMap_eq_nil_iff.mp h p hp
  have hentry := filterMap_eq_nil_iff.mp hnone e he
  by_contra hne
  simp [hother, howns, hne] at hentry

theorem applySsa_ok {time : String} {force : Bool} {out : SsaOutcome}
    (h : applySsa env gvk (some current) config manager force time = .ok out) :
    (force = false → ssaConflicts env gvk current config manager (readManagedFields env current) =
      []) ∧
    out.managedFields = .arr (updateOwnership env gvk (readManagedFields env current) manager
      (fieldsetOf env gvk config) force time) ∧
    out.merged = setManagedFields
      ((droppedPaths env (fieldsetOf env gvk config) manager (readManagedFields env current)).foldl
        removeAt
        ((strategicMerge env gvk [] current config).toOption.getD current)) out.managedFields := by
  simp only [applySsa] at h
  split at h
  · cases h
  rename_i hc
  cases h
  refine ⟨?_, rfl, rfl⟩
  rintro rfl
  simpa using hc

/-! ## The managed fields aside -/

/-- The object without the record of ownership. -/
def withoutManagedFields : Json → Json
  | .obj m =>
    match m.lookup "metadata" with
    | some (.obj md) => .obj (Assoc.put "metadata" (.obj (Assoc.drop "managedFields" md)) m)
    | _ => .obj m
  | v => v

theorem withoutManagedFields_set {m md : JsonMap} (h : m.lookup "metadata" = some (.obj md))
    (managed : Json) :
    withoutManagedFields (setManagedFields (.obj m) managed) = withoutManagedFields (.obj m) := by
  simp [setManagedFields, withoutManagedFields, h, drop_put_self, put_put]

theorem valueAt_put_other {k : String} (h : el ≠ .field k) (v : Json) (m : JsonMap) (rest : Path) :
    valueAt (.obj (Assoc.put k v m)) (el :: rest) = valueAt (.obj m) (el :: rest) := by
  cases el with
  | field name =>
    have hname : name ≠ k := by
      rintro rfl
      exact h rfl
    rw [valueAt_field, valueAt_field, get_obj, get_obj, lookup_put_ne hname]
  | _ => rfl

/-- The managed fields are under `metadata`. -/
theorem valueAt_withoutManagedFields_other (h : el ≠ .field "metadata") (x : Json) (rest : Path) :
    valueAt (withoutManagedFields x) (el :: rest) = valueAt x (el :: rest) := by
  unfold withoutManagedFields
  split
  · split
    · exact valueAt_put_other h ..
    · rfl
  · rfl

theorem valueAt_setManagedFields_other (h : el ≠ .field "metadata") (x managed : Json)
    (rest : Path) :
    valueAt (setManagedFields x managed) (el :: rest) = valueAt x (el :: rest) := by
  unfold setManagedFields
  split
  · split
    · exact valueAt_put_other h ..
    · rfl
  · rfl

/-- Objects with one value at a path have one value there without a field `k`. -/
theorem valueAt_drop_congr {k : String} {m m' : JsonMap}
    (h : valueAt (.obj m') p = valueAt (.obj m) p) :
    valueAt (.obj (Assoc.drop k m')) p = valueAt (.obj (Assoc.drop k m)) p := by
  cases p with
  | nil =>
    cases h
    rfl
  | cons el rest =>
    cases el with
    | field name =>
      simp only [valueAt_field, get_obj, lookup_drop] at h ⊢
      split
      · rfl
      · exact h
    | _ => rfl

/-- What the metadata becomes when the managed fields are set and left out of account. -/
theorem get_metadata_withoutManagedFields (x managed : Json) :
    (withoutManagedFields (setManagedFields x managed)).get "metadata" = if x.isObject then
        match (x.get "metadata").getD (.obj []) with
        | .obj md => some (.obj (Assoc.drop "managedFields" md))
        | v => some v
      else none := by
  cases x with
  | obj m =>
    simp only [Json.isObject, get_obj, setManagedFields]
    cases hm : m.lookup "metadata" with
    | none => simp [withoutManagedFields, drop_put_self]
    | some v =>
      cases v with
      | obj md => simp [withoutManagedFields, drop_put_self]
      | _ => simp [withoutManagedFields, hm]
  | _ => rfl

/-- Where the value at a path is that of an object with metadata, it still is when the managed
fields are set anew and left out of account. -/
theorem valueAt_withoutManagedFields {m md : JsonMap} (hmd : m.lookup "metadata" = some (.obj md))
    (x managed : Json) (p : Path) (h : valueAt x p = valueAt (.obj m) p) :
    valueAt (withoutManagedFields (setManagedFields x managed)) p =
      valueAt (withoutManagedFields (.obj m)) p := by
  have hright : (withoutManagedFields (.obj m)).get "metadata" =
      some (.obj (Assoc.drop "managedFields" md)) := by
    simp [withoutManagedFields, hmd]
  cases p with
  | nil =>
    obtain rfl : x = .obj m := Option.some.inj h
    rw [withoutManagedFields_set hmd]
  | cons el rest =>
    by_cases hel : el = .field "metadata"
    · subst hel
      rw [valueAt_field, valueAt_field, hright, get_metadata_withoutManagedFields, bind_some]
      rw [valueAt_field, valueAt_field, get_obj, hmd] at h
      split
      · cases hx : x.get "metadata" with
        | none =>
          -- there was no metadata, so the path ends in none of the object's metadata either
          rw [hx] at h
          have hnone := valueAt_drop "managedFields" h.symm
          cases rest with
          | nil => cases h
          | cons el rest =>
            rw [hnone]
            cases el <;> rfl
        | some v =>
          rw [hx] at h
          cases v with
          | obj mdx => exact valueAt_drop_congr h
          | _ =>
            have hnone : valueAt (.obj md) rest = none := by
              cases rest with
              | nil => cases h
              | cons el rest =>
                cases el with
                | field name => exact h.symm
                | _ => rfl
            exact h.trans (hnone.trans (valueAt_drop _ hnone).symm)
      · rename_i hobj
        rw [get_eq_none_of_not_object (by simpa using hobj)] at h
        exact (valueAt_drop _ h.symm).symm
    · rw [valueAt_withoutManagedFields_other hel, valueAt_withoutManagedFields_other hel,
        valueAt_setManagedFields_other hel, h]

/-! ## The apply -/

variable (env gvk) in
/-- An apply of `config` by `manager` reaches the field at `p` neither from above nor from below. -/
@[mk_iff]
structure Spared (current config : Json) (manager : String) (p : Path) : Prop where
  /-- The config applies the field itself, so that the conflict check looks at it, or has no other
  value for it. -/
  checked : p ∈ (fieldsetOf env gvk config).ownedPaths ∨ valueAt config p = none ∨
    valueAt config p = valueAt current p
  merge : sparesNode env gvk (decide (valueAt current p = none)) [] p config = true
  /-- A path that the manager owns and no longer applies, and that no other manager owns, is taken
  out without the field. -/
  removal : ∀ own ∈ readManagedFields env current, own.manager = manager → own.operation = .apply →
    ∀ r ∈ own.fields.ownedPaths, (fieldsetOf env gvk config).owns env r = true ∨
      (∃ e ∈ readManagedFields env current, isOtherApply manager e = true ∧
        e.fields.owns env r = true) ∨
      parted r p = true

instance (current config : Json) (manager : String) (p : Path) :
    Decidable (Spared env gvk current config manager p) :=
  decidable_of_iff _ (spared_iff ..).symm

theorem Spared.parted_dropped (h : Spared env gvk current config manager p) :
    ∀ r ∈ droppedPaths env (fieldsetOf env gvk config) manager (readManagedFields env current),
      parted r p = true := by
  intro r hr
  simp only [droppedPaths, mem_filter, Bool.and_eq_true, Bool.not_eq_true'] at hr
  obtain ⟨hmem, happlied, hothers⟩ := hr
  cases hfind : (readManagedFields env current).find? fun e =>
      decide (e.manager = manager) && decide (e.operation = .apply) with
  | none =>
    rw [hfind] at hmem
    simp [FieldSet.new, FieldSet.ownedPaths, FieldSet.childPaths] at hmem
  | some own =>
    rw [hfind] at hmem
    have hown : own.manager = manager ∧ own.operation = .apply := by
      simpa using List.find?_some hfind
    rcases h.removal own (mem_of_find?_eq_some hfind) hown.1 hown.2 r hmem with hr | ⟨e,
      he, hoth, hr⟩ | hr
    · rw [happlied] at hr
      cases hr
    · have hany := any_eq_false.mp hothers e he
      simp [hoth, hr] at hany
    · exact hr

/-- An unforced apply leaves the fields of the other managers that it does not reach from above or
below. -/
theorem applySsa_leaves_others (env : Env) (gvk : Gvk) (current config : Json)
    (manager time : String) (out : SsaOutcome) (hconfig : uniqueKeys config = true)
    (h : applySsa env gvk (some current) config manager false time = .ok out)
    (hspared : ∀ e ∈ readManagedFields env current, isOtherApply manager e = true →
      ∀ p ∈ e.fields.ownedPaths, Spared env gvk current config manager p) :
    ∀ e ∈ readManagedFields env current, isOtherApply manager e = true → ∀ p ∈ e.fields.ownedPaths,
      valueAt (withoutManagedFields out.merged) p = valueAt (withoutManagedFields current) p := by
  intro e he hother p hp
  have hs := hspared e he hother p hp
  obtain ⟨hconflicts, -, hmerged⟩ := applySsa_ok h
  obtain ⟨m, md, rfl, hmd⟩ := metadata_of_readManagedFields he
  have howns := FieldSet.owns_of_mem (readManagedFields_wellFormed he) hp
  have hagrees : Agrees (decide (valueAt (.obj m) p = none)) (valueAt config p)
      (valueAt (.obj m) p) := by
    refine ⟨?_, fun h => of_decide_eq_true h⟩
    rcases hs.checked with happlied | hnone | hsame
    · exact .inr (valueAt_of_no_conflict (hconflicts rfl) he hother howns happlied)
    · exact .inl hnone
    · exact .inr hsame
  have hmerge : valueAt ((strategicMerge env gvk [] (.obj m) config).toOption.getD (.obj m)) p =
      valueAt (.obj m) p := by
    cases hm : strategicMerge env gvk [] (.obj m) config with
    | error _ => rfl
    | ok merged => exact strategicMerge_spares config hconfig hm hs.merge hagrees
  rw [hmerged]
  refine valueAt_withoutManagedFields hmd _ _ p ?_
  rw [valueAt_removeAll hs.parted_dropped, hmerge]

/-- The containers of a pod are merged by name; a name of plain characters is written as JSON
text. -/
def namedEnv : Env :=
  { atomicEnv with
    mergeStrategy := fun _ path => if path = ["spec", "containers"] then .mergeByKey
      ["name"] else .replace
    render := fun
      | .obj [("name", .str name)] => "\x7b\"name\":\"" ++ name ++ "\"\x7d"
      | _ => "null"
    parse := fun text =>
      if text.toList.take 9 = "\x7b\"name\":\"".toList then
        some (.obj [("name", .str (String.ofList ((text.toList.drop 9).dropLast.dropLast)))])
      else none }

def applyEntry (manager : String) (fieldsV1 : Json) : Json :=
  .obj [("fieldsV1", fieldsV1), ("manager", .str manager), ("operation", .str "Apply")]

/-- The fields of a stored entry that are owned themselves. -/
def ownedLeaf : Json := .obj [(".", .obj [])]

/-- A pod whose web container is the builder's; both managers apply `paused`. -/
def sharedPod : Json :=
  .obj [
    ("metadata", .obj [("managedFields", .arr [
      applyEntry "builder" (.obj [("f:spec", .obj [
        ("f:containers", .obj [("k:\x7b\"name\":\"web\"\x7d",
          .obj [("f:image", ownedLeaf), ("f:name", ownedLeaf)])]),
        ("f:paused", ownedLeaf)])]),
      applyEntry "deployer"
        (.obj [("f:spec", .obj [("f:old", ownedLeaf), ("f:paused", ownedLeaf)])])])]),
    ("spec", .obj [
      ("containers", .arr [.obj [("image", .str "web:1"), ("name", .str "web")]]),
      ("old", .num (.int 1)),
      ("paused", .bool true)])]

/-- The deployer adds a port to the builder's container and gives up `old`. -/
def addPort : Json :=
  .obj [("spec", .obj [
    ("containers", .arr [.obj [("name", .str "web"), ("port", .num (.int 80))]]),
    ("paused", .bool true)])]

theorem sharedPod_leaves_builder :
    (∃ e ∈ readManagedFields namedEnv sharedPod, isOtherApply "deployer" e = true ∧
      e.fields.ownedPaths.length = 3) ∧
    ∃ out, applySsa namedEnv podGvk (some sharedPod) addPort "deployer" false "now" = .ok out ∧
      ∀ e ∈ readManagedFields namedEnv sharedPod, isOtherApply "deployer" e = true →
        ∀ p ∈ e.fields.ownedPaths,
          valueAt (withoutManagedFields out.merged) p =
            valueAt (withoutManagedFields sharedPod) p := by
  refine ⟨by decide +kernel, _, rfl, ?_⟩
  exact applySsa_leaves_others namedEnv podGvk sharedPod addPort "deployer" "now" _
    (by decide +kernel) rfl
    (by decide +kernel)

/-- A pod with `spec.a.b` of the builder. -/
def nestedField : Json :=
  .obj [
    ("metadata", .obj [("managedFields", .arr [
      applyEntry "builder" (.obj [("f:spec", .obj [("f:a", .obj [("f:b", ownedLeaf)])])])])]),
    ("spec", .obj [("a", .obj [("b", .num (.int 1))])])]

/-- A scalar put over the parent of another manager's field is applied without a conflict, and the
field is gone. -/
theorem applySsa_scalar_takes_field :
    ∃ out, applySsa namedEnv podGvk (some nestedField)
        (.obj [("spec", .obj [("a", .num (.int 5))])]) "deployer" false "now" = .ok out ∧
      ∃ e ∈ readManagedFields namedEnv nestedField, isOtherApply "deployer" e = true ∧
        ∃ p ∈ e.fields.ownedPaths,
          valueAt (withoutManagedFields nestedField) p = some (.num (.int 1)) ∧
          valueAt (withoutManagedFields out.merged) p = none := by
  refine ⟨_, rfl, ?_⟩
  decide +kernel

end Engenho
