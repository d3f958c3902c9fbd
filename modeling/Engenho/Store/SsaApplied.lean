import Engenho.Store.SsaConfig
import Engenho.Store.SsaFrame

/-!
# What an apply gives the applier

An apply of a plain config leaves the config's value at every path it applies
(`applySsa_gives_applied`), but for two exceptions. An empty object in the config asks for an object
and no more: the fields that are there stay. And a path that the manager owned and no longer applies
is removed with everything under it, also what the same config puts there
(`applySsa_takes_applied`).
-/

namespace Engenho
open Json FieldSet PathElement List Option Assoc
variable {env : Env} {gvk : Gvk}

/-! ## The paths a config applies -/

variable {q : Path} {s : FieldSet} {fields : JsonMap} {path : List String} {v : Json}
namespace FieldSet
variable {el : PathElement}

theorem mem_ownedPaths_setChild {c : FieldSet} (h : s.child? env el = none)
    (hq : q ∈ (s.setChild env el c).ownedPaths) :
    q ∈ s.ownedPaths ∨ ∃ q' ∈ c.ownedPaths, q = el :: q' := by
  cases s with
  | node own cs =>
    have hl : cs.lookup (el.toFieldsV1Key env) = none := by simpa [child?, children] using h
    simp only [setChild, children, hl, ownedPaths, mem_append] at hq ⊢
    rcases hq with hq | hq
    · exact .inl (.inl hq)
    · obtain ⟨e, he, q', hq', rfl⟩ := mem_childPaths hq
      rcases mem_put he with rfl | he
      · exact .inr ⟨q', hq', rfl⟩
      · exact .inl (.inr (mem_childPaths_of he hq'))

theorem mem_ownedPaths_removeChild (hq : q ∈ (s.removeChild env el).ownedPaths) :
    q ∈ s.ownedPaths := by
  cases s with
  | node own cs =>
    simp only [removeChild, ownedPaths, mem_append] at hq ⊢
    refine hq.imp_right fun hq => ?_
    obtain ⟨e, he, q', hq', rfl⟩ := mem_childPaths hq
    exact mem_childPaths_of (mem_of_mem_filter he) hq'

theorem child?_new (el : PathElement) : new.child? env el = none := rfl

theorem childOr_of_none (h : s.child? env el = none) : s.childOr env el = new := by
  rw [childOr, h, getD_none]

end FieldSet

theorem toFieldsV1Key_field_ne {a b : String} (h : a ≠ b) :
    (field a).toFieldsV1Key env ≠ (field b).toFieldsV1Key env := by
  intro he
  have hlist : ("f:" ++ a).toList = ("f:" ++ b).toList := congrArg String.toList he
  refine h (String.toList_injective ?_)
  simpa using hlist

open FieldSet in
/-- A builder that goes through the fields of an object and sets, takes away or leaves alone the
child at each owns no more than it did before and what the children own. -/
theorem mem_ownedPaths_of_fields {build : FieldSet → JsonMap → FieldSet}
    {c : String → Json → FieldSet} (hnil : ∀ s, build s [] = s)
    (hcons : ∀ s k v rest, s.child? env (.field k) = none → ∃ s' ∈ [s, s.removeChild env (.field k),
      s.setChild env (.field k) (c k v)], build s ((k, v) :: rest) = build s' rest)
    (hnd : (fields.map Prod.fst).Nodup)
    (hnew : ∀ k ∈ fields.map Prod.fst, s.child? env (.field k) = none)
    (hq : q ∈ (build s fields).ownedPaths) :
    q ∈ s.ownedPaths ∨ ∃ k v, (k, v) ∈ fields ∧ ∃ q' ∈ (c k v).ownedPaths, q = .field k :: q' := by
  induction fields generalizing s with
  | nil =>
    rw [hnil] at hq
    exact .inl hq
  | cons f fields ih =>
    obtain ⟨k, v⟩ := f
    obtain ⟨hk, hnd'⟩ := nodup_cons.mp hnd
    have hnone : s.child? env (.field k) = none := hnew k (.head _)
    obtain ⟨s', hs', heq⟩ := hcons s k v fields hnone
    have hstep : (∀ k' ∈ fields.map Prod.fst, s'.child? env (.field k') =
      s.child? env (.field k')) ∧
        (q ∈ s'.ownedPaths → q ∈ s.ownedPaths ∨ ∃ q' ∈ (c k v).ownedPaths, q = .field k :: q') := by
      have hother : ∀ k' ∈ fields.map Prod.fst,
          (field k').toFieldsV1Key env ≠ (field k).toFieldsV1Key env :=
        fun k' hk' => toFieldsV1Key_field_ne (ne_of_mem_of_not_mem hk' hk)
      simp only [mem_cons, not_mem_nil, or_false] at hs'
      rcases hs' with rfl | rfl | rfl
      · exact ⟨fun _ _ => rfl, .inl⟩
      · exact ⟨fun k' hk' => by rw [child?_removeChild, if_neg (hother k' hk')],
          fun hq => .inl (mem_ownedPaths_removeChild hq)⟩
      · exact ⟨fun k' hk' => by rw [child?_setChild, if_neg (hother k' hk')],
          mem_ownedPaths_setChild hnone⟩
    rw [heq] at hq
    rcases ih hnd' (fun k' hk' => (hstep.1 k' hk').trans (hnew k' (.tail _ hk'))) hq with hs | ⟨k',
      v', hmem, hfound⟩
    · exact (hstep.2 hs).imp_right fun hfound => ⟨k, v, .head _, hfound⟩
    · exact .inr ⟨k', v', mem_cons_of_mem _ hmem, hfound⟩

open FieldSet in
theorem mem_buildMetadataFieldset (hnd : (fields.map Prod.fst).Nodup)
    (hnew : ∀ k ∈ fields.map Prod.fst, s.child? env (.field k) = none)
    (hq : q ∈ (buildMetadataFieldset env gvk path s fields).ownedPaths) :
    q ∈ s.ownedPaths ∨ ∃ k v, (k, v) ∈ fields ∧ k ∉ apiserverOwnedMetadata ∧
      ∃ q' ∈ (buildFieldset env gvk (path ++ [k]) new v).ownedPaths, q = .field k :: q' := by
  -- the server's own metadata adds nothing
  let added (k : String) (v : Json) : FieldSet :=
    if k ∈ apiserverOwnedMetadata then new else buildFieldset env gvk (path ++ [k]) new v
  have hcons : ∀ s k v rest, s.child? env (.field k) = none →
    ∃ s' ∈ [s, s.removeChild env (.field k),
      s.setChild env (.field k) (added k v)],
        buildMetadataFieldset env gvk path s ((k, v) :: rest) =
        buildMetadataFieldset env gvk path s' rest := by
    intro s k v rest hnone
    rw [buildMetadataFieldset, childOr_of_none hnone]
    split
    · exact ⟨s, by simp, rfl⟩
    · exact ⟨_, by simp [added, *], rfl⟩
  refine (mem_ownedPaths_of_fields (fun _ => rfl) hcons hnd hnew hq).imp_right ?_
  rintro ⟨k, v, hmem, q', hq', rfl⟩
  by_cases howned : k ∈ apiserverOwnedMetadata
  · simp [added, howned, new, ownedPaths, childPaths] at hq'
  · exact ⟨k, v, hmem, howned, q', by simpa [added, howned] using hq', rfl⟩

variable (env gvk) in
/-- The fields that `v` adds at the field `k` of a config: the server's own metadata is left out. -/
def appliedAt (path : List String) (k : String) (v : Json) : FieldSet :=
  if path = [] ∧ k = "metadata" then FieldSet.metadataChild env gvk path FieldSet.new k v
  else buildFieldset env gvk (path ++ [k]) FieldSet.new v

open FieldSet in
theorem mem_buildFields (hnd : (fields.map Prod.fst).Nodup)
    (hnew : ∀ k ∈ fields.map Prod.fst, s.child? env (.field k) = none)
    (hq : q ∈ (buildFields env gvk path s fields).ownedPaths) :
    q ∈ s.ownedPaths ∨ ∃ k v, (k, v) ∈ fields ∧ ∃ q' ∈ (appliedAt env gvk path k v).ownedPaths,
      q = .field k :: q' := by
  refine mem_ownedPaths_of_fields (fun _ => rfl) (fun s k v rest hnone => ?_) hnd hnew hq
  rw [buildFields_cons]
  by_cases hmeta : path = [] ∧ k = "metadata"
  · have happlied : metadataChild env gvk path s k v = appliedAt env gvk path k v := by
      rw [appliedAt, if_pos hmeta]
      cases v <;> simp [metadataChild, childOr_of_none hnone, childOr_of_none (child?_new _)]
    rw [if_pos hmeta, happlied]
    -- metadata of the server alone is taken away again
    split <;> exact ⟨_, by simp, rfl⟩
  · rw [if_neg hmeta, childOr_of_none hnone]
    exact ⟨_, by simp [appliedAt, hmeta], rfl⟩

variable {ps xs : List Json} {k : String} {r : Path} {Q : Path → Prop}
open FieldSet in
theorem mem_buildListFieldset {keys : List String} (hplain : plainList env gvk keys path ps = true)
    (hnew : ∀ m, .obj m ∈ ps → s.child? env (.key (keyTuple keys m)) = none)
    (hq : q ∈ (buildListFieldset env gvk keys path s ps).ownedPaths) :
    q ∈ s.ownedPaths ∨ ∃ m, .obj m ∈ ps ∧
    ∃ q' ∈ (buildFieldset env gvk path new (.obj m)).ownedPaths,
      q = .key (keyTuple keys m) :: q' := by
  induction ps generalizing s with
  | nil => exact .inl hq
  | cons pel rest ih =>
    obtain ⟨m, pkey, rfl, hkey, -, hothers, hrest⟩ := plainList_cons hplain
    have hnone : s.child? env (.key (keyTuple keys m)) = none := hnew m (.head _)
    unfold buildListFieldset at hq
    dsimp only at hq
    rw [childOr_of_none hnone] at hq
    have hnew' : ∀ m', .obj m' ∈ rest → (s.setChild env (.key (keyTuple keys m))
        (buildFieldset env gvk path new (.obj m))).child? env (.key (keyTuple keys m')) = none := by
      intro m' hm'
      have hne : (key (keyTuple keys m')).toFieldsV1Key env ≠
          (key (keyTuple keys m)).toFieldsV1Key env := hothers _ hm'
      rw [child?_setChild, if_neg hne]
      exact hnew m' (.tail _ hm')
    rcases ih hrest hnew' hq with hs | ⟨m', hm', hfound⟩
    · rcases mem_ownedPaths_setChild hnone hs with hs | hfound
      · exact .inl hs
      · exact .inr ⟨m, (.head _), hfound⟩
    · exact .inr ⟨m', mem_cons_of_mem _ hm', hfound⟩

/-- The elements of a set are owned one by one. -/
theorem mem_setFieldset
    (hq : q ∈ (xs.foldl (fun out el => out.setChild env (.value el)
      (out.childOr env (.value el)).own)
      new).ownedPaths) : ∃ v ∈ xs, q = [.value v] := by
  obtain ⟨hown, hchildren⟩ := by
    refine List.foldlRecOn (motive := fun s : FieldSet => s.selfOwned = false ∧
      ∀ e ∈ s.children, (∃ v ∈ xs, e.2.1 = .value v) ∧ e.2.2.children = []) xs
      (fun out el => out.setChild env (.value el) (out.childOr env (.value el)).own) (b := new)
      ⟨rfl, by simp [new, children]⟩ ?_
    intro s hs v hv
    refine ⟨hs.1, fun e he => ?_⟩
    rcases mem_put he with rfl | he
    · -- the element keeps the path element it was first owned under
      cases hl : s.children.lookup ((value v).toFieldsV1Key env) with
      | none =>
        simp only [childOr, child?, hl]
        exact ⟨⟨v, hv, rfl⟩, rfl⟩
      | some entry =>
        simp only [childOr, child?, hl]
        exact hs.2 _ (mem_of_lookup hl)
    · exact hs.2 e he
  generalize xs.foldl _ new = s at hq hown hchildren
  cases s with
  | node own cs =>
    obtain rfl : own = false := hown
    obtain ⟨e, he, q', hq', rfl⟩ := mem_childPaths hq
    obtain ⟨⟨v, hv, hel⟩, hleaf⟩ := hchildren e he
    refine ⟨v, hv, ?_⟩
    obtain ⟨key, el, c⟩ := e
    cases c with
    | node own cs' =>
      obtain rfl : cs' = [] := hleaf
      cases own <;> simp_all [ownedPaths, childPaths]

/-! ## The values at the applied paths -/

/-- The config has a value at `q`, and `x` the same, or the config only asks for an object. -/
def HasValue (x config : Json) (q : Path) : Prop :=
  ∃ v, valueAt config q = some v ∧ (v = .obj [] ∨ valueAt x q = some v)

theorem HasValue.field {x y : Json} (hv : fields.lookup k = some v) (hy : x.get k = some y)
    (h : HasValue y v q) : HasValue x (.obj fields) (.field k :: q) := by
  obtain ⟨w, hw, hcase⟩ := h
  refine ⟨w, ?_, hcase.imp_right fun hx => ?_⟩
  · rw [valueAt_field, get_obj, hv, bind_some, hw]
  · rw [valueAt_field, hy, bind_some, hx]

theorem HasValue.element {t : JsonMap} {y : Json} (hv : ps.find? (matchesKeys t) = some v)
    (hy : xs.find? (matchesKeys t) = some y) (h : HasValue y v q) :
    HasValue (.arr xs) (.arr ps) (.key t :: q) := by
  have step : ∀ zs : List Json, valueAt (.arr zs) (.key t :: q) =
      (zs.find? (matchesKeys t)).bind fun z => valueAt z q := fun _ => rfl
  obtain ⟨w, hw, hcase⟩ := h
  refine ⟨w, ?_, hcase.imp_right fun hx => ?_⟩
  · rw [step, hv, bind_some, hw]
  · rw [step, hy, bind_some, hx]

theorem carries_of_mem {x : Json} (h : carriesFields env gvk path x fields = true)
    (hmem : (k, v) ∈ fields) (hnull : v.isNull = false) :
    ∃ y, x.get k = some y ∧ carries env gvk (path ++ [k]) y v = true := by
  have hany := (carriesFields_iff.mp h _ hmem).2
  rw [hnull] at hany
  exact (any_eq_true _ _).mp hany

theorem mem_ownedPaths_own (h : q ∈ new.own.ownedPaths) : q = [] := by
  simpa [own, new, children, ownedPaths, childPaths] using h

theorem find?_self (h : v ∈ xs) : (xs.find? fun e => decide (e = v)) = some v := by
  have hsome : (xs.find? fun e => decide (e = v)).isSome = true :=
    List.find?_isSome.mpr ⟨v, h, by simp⟩
  obtain ⟨y, hy⟩ := isSome_iff_exists.mp hsome
  obtain rfl : y = v := by simpa using List.find?_some hy
  exact hy

/-- What carries a plain config has its value at every path the config applies. -/
theorem hasValue_of_carries (config : Json) {path : List String} {x : Json} {q : Path}
    (hplain : plain env gvk path config = true) (hc : config.canonical = true)
    (hx : carries env gvk path x config = true)
    (hq : q ∈ (buildFieldset env gvk path new config).ownedPaths) : HasValue x config q := by
  match config with
  | .null => cases hplain
  | .bool b | .num n | .str s =>
    obtain rfl := mem_ownedPaths_own hq
    exact ⟨_, rfl, .inr (congrArg some (of_decide_eq_true hx))⟩
  | .obj [] =>
    obtain rfl := mem_ownedPaths_own hq
    exact ⟨_, rfl, .inl rfl⟩
  | .obj (f :: fs) =>
    simp only [carries, Bool.and_eq_true] at hx
    have hsorted := sorted_of_canonicalFields hc
    rcases mem_buildFields hsorted.nodup_keys (fun _ _ => child?_new _) hq with hnil | ⟨k, v,
      hmem, q', hq', rfl⟩
    · cases hnil
    have hv := (plainFields_iff.mp hplain _ hmem).2
    obtain ⟨y, hy, hcarries⟩ := carries_of_mem hx.2 hmem (isNull_of_plain hv)
    refine .field (hsorted.lookup_of_mem hmem) hy ?_
    have hcv : v.canonical = true := canonical_of_mem hc hmem
    have hsize := sizeOf_lt_of_mem hmem
    unfold appliedAt at hq'
    split at hq'
    · -- the metadata, without the fields of the server
      cases v with
      | obj fs' =>
        have hsorted' := sorted_of_canonicalFields hcv
        rcases mem_buildMetadataFieldset hsorted'.nodup_keys (fun _ _ => child?_new _) hq' with
          hnil | ⟨k', v', hmem', -, q'', hq'', rfl⟩
        · cases hnil
        have hv' := (plainFields_iff.mp hv _ hmem').2
        simp only [carries, Bool.and_eq_true] at hcarries
        obtain ⟨y', hy', hcarries'⟩ := carries_of_mem hcarries.2 hmem' (isNull_of_plain hv')
        have hsize' := sizeOf_lt_of_mem hmem'
        exact .field (hsorted'.lookup_of_mem hmem') hy'
          (hasValue_of_carries v' hv' (canonical_of_mem hcv hmem') hcarries' hq'')
      | _ => cases hq'
    · exact hasValue_of_carries v hv hcv hcarries hq'
  | .arr ps =>
    unfold carries at hx
    unfold plain at hplain
    unfold buildFieldset at hq
    have byKey : ∀ keys, (!keys.isEmpty && plainList env gvk keys path ps) = true →
        (!keys.isEmpty && x.asArray.any fun xs => carriesList env gvk keys path xs ps) = true →
        q ∈ (buildListFieldset env gvk keys path new ps).ownedPaths → HasValue x (.arr ps) q := by
      intro keys hplain hx hq
      simp only [Bool.and_eq_true, Bool.not_eq_true', isEmpty_eq_false_iff] at hplain hx
      obtain ⟨xs, rfl, hlist⟩ := eq_arr_of_asArray hx.2
      rcases mem_buildListFieldset hplain.2 (fun _ _ => child?_new _) hq with hnil | ⟨m,
        hm, q', hq', rfl⟩
      · cases hnil
      obtain ⟨y, hy, hcarries⟩ := (any_eq_true _ _).mp (carriesList_iff.mp hlist _ hm).2
      obtain ⟨_, -, ⟨⟩, -, hplainm⟩ := plainList_of_mem hplain.2 hm
      refine .element (find?_of_plainList hplain.1 hplain.2 hm) hy ?_
      have hsize := sizeOf_lt_of_mem hm
      exact hasValue_of_carries (.obj m) hplainm (canonicalList_iff.mp hc _ hm)
        hcarries hq'
    cases hs : env.mergeStrategy gvk path with
    | replace =>
      rw [hs] at hx hq
      obtain rfl := mem_ownedPaths_own hq
      exact ⟨_, rfl, .inr (congrArg some (of_decide_eq_true hx))⟩
    | set =>
      rw [hs] at hx hq
      obtain ⟨v, hv, rfl⟩ := mem_setFieldset hq
      obtain ⟨xs, rfl, hall⟩ := eq_arr_of_asArray hx
      have hin : v ∈ xs := by simpa using all_eq_true.mp hall v hv
      refine ⟨v, ?_, .inr ?_⟩
      · simp [valueAt, stepElement, asArray, find?_self hv]
      · simp [valueAt, stepElement, asArray, find?_self hin]
    | mergeByKey keys | mergeByKeyRetainKeys keys =>
      rw [hs] at hx hq hplain
      exact byKey keys hplain hx hq
termination_by sizeOf config
decreasing_by
  all_goals simp_all only [Json.obj.sizeOf_spec, Json.arr.sizeOf_spec, Prod.mk.sizeOf_spec]
  all_goals omega

/-! ## The removals -/

/-- There is nothing below a scalar to remove. -/
theorem removeRec_below_scalar {node : Json} (hc : node.canonical = true)
    (hv : valueAt node q = some v)
    (hs : isScalar v = true) (hr : r ≠ []) : removeRec (q ++ r) node = (node, false) := by
  induction q generalizing node with
  | nil =>
    obtain rfl : node = v := Option.some.inj hv
    obtain ⟨hd, tl, rfl⟩ := exists_cons_of_ne_nil hr
    cases node with
    | null | arr xs | obj m => cases hs
    | _ => cases tl <;> cases hd <;> rfl
  | cons el q ih =>
    have hne : q ++ r ≠ [] := by simp [hr]
    obtain ⟨x, hstep, hx⟩ : ∃ x, stepElement node el = some x ∧ valueAt x q = some v :=
      bind_eq_some_iff.mp hv
    rw [cons_append]
    by_cases hel : ∀ name, el ≠ .field name
    · obtain ⟨xs, i, rfl, hi, hxi⟩ := listElementIndex_of_step hel hstep
      have hcx := canonicalList_iff.mp hc x (mem_of_getElem? hxi)
      have hempty : xs.isEmpty = false := by
        cases xs with
        | nil => cases hxi
        | cons => rfl
      rw [removeRec_cons_list hel hne]
      simp [hi, hxi, ih hcx hx, set_of_getElem? hxi, hempty]
    · obtain ⟨name, rfl⟩ : ∃ name, el = .field name := by simpa using hel
      cases node with
      | obj m =>
        have hl : m.lookup name = some x := hstep
        have hsorted := sorted_of_canonicalFields hc
        have hempty : m.isEmpty = false := by
          cases m with
          | nil => cases hl
          | cons => rfl
        have hbelow := ih (canonical_of_lookup hc hl) hx
        simp [removeRec, hl, hbelow, hsorted.put_of_lookup hl, hempty]
      | _ => cases hstep

/-- The removal at `r` leaves the values of the document at the paths in `Q`: one of them ends in a
scalar above `r`, so that there is nothing to remove, or `r` parts from all of them. -/
def LeavesAll (Q : Path → Prop) (doc : Json) (r : Path) : Prop :=
  (∃ q, Q q ∧ (valueAt doc q).any isScalar = true ∧ q <+: r ∧ q ≠ r) ∨ ∀ q, Q q → parted r q = true

theorem valueAt_removeAt_of_leavesAll {doc : Json} (hc : doc.canonical = true)
    (h : LeavesAll Q doc r) (hq : Q q) : valueAt (removeAt doc r) q = valueAt doc q := by
  rcases h with ⟨p, -, hscalar, ⟨tail, rfl⟩, hne⟩ | hparted
  · obtain ⟨v, hv, hs⟩ := (any_eq_true _ _).mp hscalar
    have htail : tail ≠ [] := by
      rintro rfl
      exact hne (append_nil p).symm
    rw [removeAt, removeRec_below_scalar hc hv hs htail]
  · exact valueAt_removeRec r q doc (hparted q hq)

/-- Removals that leave the values at the paths in `Q` one by one leave them together. -/
theorem valueAt_foldl_removeAt {rs : List Path} {doc : Json} (hc : doc.canonical = true)
    (h : ∀ r ∈ rs, LeavesAll Q doc r) (hq : Q q) :
    valueAt (rs.foldl removeAt doc) q = valueAt doc q := by
  induction rs generalizing doc with
  | nil => rfl
  | cons r rs ih =>
    have hstep : ∀ p, Q p → valueAt (removeAt doc r) p = valueAt doc p := fun p hp =>
      valueAt_removeAt_of_leavesAll hc (h r (.head _)) hp
    have hc' : (removeAt doc r).canonical = true := (removeRec_shrinks r doc).canonical hc
    rw [foldl_cons, ih hc' ?_, hstep q hq]
    intro r' hr'
    rcases h r' (.tail _ hr') with ⟨p, hp, hscalar, hprefix⟩ | hparted
    · exact .inl ⟨p, hp, by rw [hstep p hp]; exact hscalar, hprefix⟩
    · exact .inr hparted

/-! ## The apply -/

theorem valueAt_setManagedFields_metadata (h : k ≠ "managedFields") (x managed : Json)
    (rest : Path) :
    valueAt (setManagedFields x managed) (.field "metadata" :: .field k :: rest) =
      valueAt x (.field "metadata" :: .field k :: rest) := by
  unfold setManagedFields
  split
  · rename_i m
    split
    · rename_i md hmd
      simp only [valueAt_field, get_obj, lookup_put_self, bind_some, lookup_put_ne h]
      cases hm : m.lookup "metadata" with
      | none =>
        rw [hm] at hmd
        cases hmd
        rfl
      | some v =>
        rw [hm] at hmd
        subst hmd
        rfl
    · rfl
  · rfl

/-- The record of ownership is at no path that a config applies. -/
theorem valueAt_setManagedFields_applied {f : String × Json} {fs : JsonMap}
    (hc : (Json.obj (f :: fs)).canonical = true)
    (hq : q ∈ (fieldsetOf env gvk (.obj (f :: fs))).ownedPaths)
    (x managed : Json) : valueAt (setManagedFields x managed) q = valueAt x q := by
  have hsorted := sorted_of_canonicalFields hc
  rcases mem_buildFields hsorted.nodup_keys (fun _ _ => child?_new _) hq with hnil | ⟨k, v,
    hmem, q', hq', rfl⟩
  · cases hnil
  by_cases hk : k = "metadata"
  · subst hk
    cases v with
    | obj fs' =>
      have hcv := canonical_of_mem hc hmem
      have hnodup := (sorted_of_canonicalFields hcv).nodup_keys
      rcases mem_buildMetadataFieldset hnodup (fun _ _ => child?_new _) hq' with
        hnil | ⟨k', v', -, howned, q'', -, rfl⟩
      · cases hnil
      · refine valueAt_setManagedFields_metadata ?_ x managed q''
        rintro rfl
        exact howned (by decide)
    | _ => cases hq'
  · exact valueAt_setManagedFields_other (by simpa using hk) x managed q'

variable (env gvk) in
/-- The removal of `r` takes nothing that the config applies: it is below a scalar of the config, or
parts from every path the config applies with more than an empty object. -/
def Harmless (config : Json) (r : Path) : Prop :=
  (∃ q ∈ (fieldsetOf env gvk config).ownedPaths, (valueAt config q).any isScalar = true ∧
    q <+: r ∧ q ≠ r) ∨
  ∀ q ∈ (fieldsetOf env gvk config).ownedPaths, valueAt config q ≠ some (.obj []) →
    parted r q = true

instance (config : Json) (r : Path) : Decidable (Harmless env gvk config r) :=
  inferInstanceAs (Decidable (_ ∨ _))

/-- An apply of a plain config gives the applier what it applied, where the paths that it gives up
are not in the way. -/
theorem applySsa_gives_applied (env : Env) (gvk : Gvk) (current : Option Json) (fields : JsonMap)
    (manager : String) (force : Bool) (time : String) (out : SsaOutcome)
    (hcurrent : ∀ c ∈ current, c.canonical = true) (hconfig : (Json.obj fields).canonical = true)
    (hplain : plain env gvk [] (.obj fields) = true)
    (hdropped : ∀ c ∈ current, ∀ r ∈ droppedPaths env (fieldsetOf env gvk (.obj fields)) manager
      (readManagedFields env c), Harmless env gvk (.obj fields) r)
    (hok : applySsa env gvk current (.obj fields) manager force time = .ok out) :
    ∀ q ∈ (fieldsetOf env gvk (.obj fields)).ownedPaths,
      ∃ v, valueAt (.obj fields) q = some v ∧ (v = .obj [] ∨ valueAt out.merged q = some v) := by
  intro q hq
  cases fields with
  | nil =>
    obtain rfl := mem_ownedPaths_own hq
    exact ⟨_, rfl, .inl rfl⟩
  | cons f fs =>
    have hmanaged := fun x managed => valueAt_setManagedFields_applied hconfig hq x managed
    cases current with
    | none =>
      cases hok
      obtain ⟨v, hv, -⟩ := hasValue_of_carries _ hplain hconfig (carries_self _ hplain hconfig) hq
      exact ⟨v, hv, .inr ((hmanaged _ _).trans hv)⟩
    | some c =>
      obtain ⟨-, -, hmerged⟩ := applySsa_ok hok
      obtain ⟨m, hm, hcm, hcarries⟩ := strategicMerge_of_plain hplain hconfig (hcurrent c rfl)
      have hvalues : ∀ p ∈ (fieldsetOf env gvk (.obj (f :: fs))).ownedPaths,
          HasValue m (.obj (f :: fs)) p :=
        fun p hp => hasValue_of_carries _ hplain hconfig hcarries hp
      obtain ⟨v, hv, hvalue⟩ := hvalues q hq
      refine ⟨v, hv, ?_⟩
      by_cases hempty : v = .obj []
      · exact .inl hempty
      right
      have hdoc : (strategicMerge env gvk [] c (.obj (f :: fs))).toOption.getD c = m := by
        rw [hm]
        rfl
      rw [hmerged, hmanaged, hdoc]
      -- the removals leave all values that are more than an empty object
      rw [valueAt_foldl_removeAt (Q := fun p => p ∈
        (fieldsetOf env gvk (.obj (f :: fs))).ownedPaths ∧
        valueAt (.obj (f :: fs)) p ≠ some (.obj [])) hcm ?_ ⟨hq, by simp [hv, hempty]⟩]
      · exact hvalue.resolve_left hempty
      intro r hr
      rcases hdropped c rfl r hr with ⟨p, hp, hscalar, hprefix⟩ | hparted
      · left
        obtain ⟨w, hw, hcase⟩ := hvalues p hp
        have hws : isScalar w = true := by simpa [hw] using hscalar
        have hwne : w ≠ .obj [] := by
          rintro rfl
          cases hws
        refine ⟨p, ⟨hp, by simp [hw, hwne]⟩, ?_, hprefix⟩
        rw [show valueAt _ p = some w from hcase.resolve_left hwne]
        exact hws
      · exact .inr fun p hp => hparted p hp.1 hp.2

/-- A pod whose sidecar and `old` field are the deployer's. -/
def sidecarPod : Json :=
  .obj [
    ("metadata", .obj [("managedFields", .arr [
      applyEntry "deployer" (.obj [("f:spec", .obj [
        ("f:containers", .obj [("k:\x7b\"name\":\"side\"\x7d", .obj [
          ("f:image", ownedLeaf), ("f:name", ownedLeaf)])]),
        ("f:old", ownedLeaf)])])])]),
    ("spec", .obj [
      ("containers", .arr [.obj [("image", .str "side:1"), ("name", .str "side")],
        .obj [("image", .str "web:1"), ("name", .str "web")]]),
      ("old", .num (.int 1))])]

/-- The deployer takes over the web container and gives up the sidecar. -/
def takeWeb : JsonMap :=
  [("spec", .obj [
    ("containers", .arr [.obj [("image", .str "web:2"), ("name", .str "web")]]),
    ("paused", .bool true)])]

theorem takeWeb_gives_applied :
    (droppedPaths namedEnv (fieldsetOf namedEnv podGvk (.obj takeWeb)) "deployer"
      (readManagedFields namedEnv sidecarPod)).length = 3 ∧
    ∃ out, applySsa namedEnv podGvk (some sidecarPod) (.obj takeWeb) "deployer" false "now" =
    .ok out ∧
      ∀ q ∈ (fieldsetOf namedEnv podGvk (.obj takeWeb)).ownedPaths,
        ∃ v, valueAt (.obj takeWeb) q = some v ∧ (v = .obj [] ∨ valueAt out.merged q = some v) := by
  refine ⟨by decide +kernel, _, rfl, applySsa_gives_applied namedEnv podGvk (some sidecarPod)
    takeWeb "deployer"
    false "now" _ ?_ (by decide +kernel) (by decide +kernel) ?_ rfl⟩
  · rintro c ⟨⟩
    decide +kernel
  · rintro c ⟨⟩
    decide +kernel

/-- A volume, and what is put in it. -/
def volume (v : Json) : Json := .obj [("spec", .obj [("volume", v)])]

def volumePath : Path := [.field "spec", .field "volume"]

/-- An empty object applied over an object keeps its fields. A manager that applied an empty object
and then applies a field in it loses the field: the empty object is a path it gave up. -/
theorem applySsa_takes_applied : (plain namedEnv podGvk [] (volume (.obj [])) = true ∧
      plain namedEnv podGvk [] (volume (.obj [("medium", .str "disk")])) = true) ∧
    (∃ out, applySsa namedEnv podGvk (some (volume (.obj [("medium", .str "disk")])))
      (volume (.obj []))
        "deployer" false "now" = .ok out ∧
      volumePath ∈ (fieldsetOf namedEnv podGvk (volume (.obj []))).ownedPaths ∧
      valueAt (volume (.obj [])) volumePath = some (.obj []) ∧
      valueAt out.merged volumePath = some (.obj [("medium", .str "disk")])) ∧
    ∃ created out, applySsa namedEnv podGvk none (volume (.obj [])) "deployer" false "then" =
    .ok created ∧
      applySsa namedEnv podGvk (some created.merged) (volume (.obj [("medium", .str "disk")]))
      "deployer" false
        "now" = .ok out ∧
      volumePath ++ [.field "medium"] ∈
        (fieldsetOf namedEnv podGvk (volume (.obj [("medium", .str "disk")]))).ownedPaths ∧
      valueAt (volume (.obj [("medium", .str "disk")])) (volumePath ++ [.field "medium"]) =
        some (.str "disk") ∧
      valueAt out.merged volumePath = none := by
  refine ⟨by decide +kernel, ⟨_, rfl, by decide +kernel, rfl, by decide +kernel⟩, ?_⟩
  exact ⟨_, _, rfl, rfl, by decide +kernel, rfl, by decide +kernel⟩

end Engenho
