import Engenho.Api.ObjectBody

/-!
# What schema defaults leave behind

Defaulting is complete when every object that the schema describes has all the fields with a
default. One pass inserts a default as the schema states it and does not look inside, so the pass is
complete exactly where the defaults it inserts are complete themselves (`Supplied`). A complete
value is a fixed point (`Complete.fixed`), and no pass takes away what was there
(`kept_applySchemaDefaults`).
-/

namespace Engenho
open Assoc Json List

/-- The schema of the elements of a list, if the schema does not leave the subtree to its author. -/
def elementSchema : Json → Option Json
  | .obj schema => if schemaIsOpaque schema then none else schema.lookup "items"
  | _ => none

/-- A null counts as absent. -/
def absentField (k : String) (fields : JsonMap) : Bool := (fields.lookup k).all Json.isNull

/-- The schema `t` describes `w`, where `s` describes `v`: by declared properties and items. -/
inductive Describes : Json → Json → Json → Json → Prop
  | root (s v : Json) : Describes s v s v
  | property {s sub v t w : Json} {fields : JsonMap} {k : String}
      (hs : (declaredProperties s).lookup k = some sub) (hv : fields.lookup k = some v)
      (h : Describes sub v t w) : Describes s (.obj fields) t w
  | item {s sub x t w : Json} {xs : List Json} (hs : elementSchema s = some sub) (hx : x ∈ xs)
      (h : Describes sub x t w) : Describes s (.arr xs) t w

/-- Every declared property with a default is there, in every object that the schema describes. -/
def Complete (s v : Json) : Prop :=
  ∀ t fields, Describes s v t (.obj fields) → ∀ k sub, (declaredProperties t).lookup k = some sub →
    (sub.get "default").isSome = true → absentField k fields = false

/-- The defaults of the fields that are absent are complete. -/
def Supplied (s v : Json) : Prop :=
  ∀ t fields, Describes s v t (.obj fields) →
    ∀ k sub d, (declaredProperties t).lookup k = some sub →
    sub.get "default" = some d → absentField k fields = true → d ≠ .null ∧ Complete sub d

/-- No field that is present and not null is removed, nor changed but for what is added inside
it. -/
inductive Kept : Json → Json → Prop
  | same (v : Json) : Kept v v
  | arr {xs ys : List Json} (h : List.Forall₂ Kept xs ys) : Kept (.arr xs) (.arr ys)
  | obj {fields fields' : JsonMap}
      (present : ∀ k v, fields.lookup k = some v → v ≠ .null → (fields'.lookup k).isSome = true)
      (h : ∀ k v v', fields.lookup k = some v → v ≠ .null → fields'.lookup k = some v' →
        Kept v v') :
      Kept (.obj fields) (.obj fields')

variable {s sub v t w : Json} {fields : JsonMap} {k : String}

/-! ## One pass -/

/-- What the pass makes of a field with the schema `sub`. -/
def defaulted (sub : Json) (field : Option Json) : Option Json :=
  if field.all Json.isNull then (sub.get "default").or field else field.map
    (applySchemaDefaults sub)

/-- The step of `fieldDefaults` at one property. -/
def defaultField (fields : JsonMap) (e : String × Json) : JsonMap :=
  match fields.lookup e.1 with
  | none => ((e.2.get "default").map fun d => Assoc.put e.1 d fields).getD fields
  | some .null => ((e.2.get "default").map fun d => Assoc.put e.1 d fields).getD fields
  | some v => Assoc.put e.1 (applySchemaDefaults e.2 v) fields

theorem fieldDefaults_eq (props fields : JsonMap) :
    fieldDefaults props fields = props.foldl defaultField fields := by
  induction props generalizing fields with
  | nil => rw [fieldDefaults, foldl_nil]
  | cons e props ih =>
    unfold fieldDefaults
    exact ih _

theorem absent_or (o : Option Json) : o.all Json.isNull = true ∨ ∃ v, o = some v ∧ v ≠ .null := by
  cases o with
  | none => exact .inl rfl
  | some v =>
    by_cases hv : v = .null
    · exact .inl (isNull_iff.mpr hv)
    · exact .inr ⟨v, rfl, hv⟩

theorem defaulted_absent {o : Option Json} (h : o.all Json.isNull = true) :
    defaulted sub o = (sub.get "default").or o := if_pos h

theorem defaulted_some (hv : v ≠ .null) :
    defaulted sub (some v) = some (applySchemaDefaults sub v) :=
  if_neg fun h => hv (isNull_iff.mp h)

/-- A step inserts a value at its key, or changes nothing. -/
theorem defaultField_cases (fields : JsonMap) (e : String × Json) :
    (∃ v, defaulted e.2 (fields.lookup e.1) = some v ∧
      defaultField fields e = Assoc.put e.1 v fields) ∨
      (defaulted e.2 (fields.lookup e.1) = fields.lookup e.1 ∧ defaultField fields e = fields) := by
  unfold defaultField defaulted
  cases hl : fields.lookup e.1 with
  | none => cases e.2.get "default" <;> simp
  | some v =>
    cases v with
    | null => cases e.2.get "default" <;> simp [Json.isNull]
    | _ => simp [Json.isNull]

theorem lookup_fieldDefaults_of_sorted {props : JsonMap} (h : Sorted props) (fields : JsonMap)
    (k : String) : (fieldDefaults props fields).lookup k =
      (props.lookup k).elim (fields.lookup k) fun sub => defaulted sub (fields.lookup k) := by
  rw [fieldDefaults_eq]
  refine Sorted.foldl_observe (fun fields k => fields.lookup k) (fun _ sub o => defaulted sub o)
    ?_ ?_ h fields k
  · intro fields e k hk
    rcases defaultField_cases fields e with ⟨v, -, heq⟩ | ⟨-, heq⟩
    · rw [heq, lookup_put_ne hk]
    · rw [heq]
  · intro fields e
    rcases defaultField_cases fields e with ⟨v, hv, heq⟩ | ⟨hv, heq⟩
    · rw [heq, lookup_put_self, hv]
    · rw [heq, hv]

theorem itemDefaults_arr (schema xs : _) : itemDefaults schema (.arr xs) =
      .arr ((schema.lookup "items").elim xs fun sub => xs.map (applySchemaDefaults sub)) := by
  induction schema with
  | nil => rw [itemDefaults]; rfl
  | cons e schema ih =>
    obtain ⟨k, sub⟩ := e
    unfold itemDefaults
    by_cases hk : k = "items"
    · rw [if_pos hk, lookup_cons_ite, if_pos hk.symm]
      rfl
    · rw [if_neg hk, lookup_cons_ite, if_neg (Ne.symm hk), ih]

theorem propertyDefaults_of_not_object (schema : JsonMap) (h : v.isObject = false) :
    propertyDefaults schema v = v := by
  induction schema with
  | nil => rw [propertyDefaults]
  | cons e schema ih =>
    unfold propertyDefaults
    split
    · cases v with
      | obj => cases h
      | _ => simp
    · exact ih

theorem applySchemaDefaults_arr (s : Json) (xs : List Json) : applySchemaDefaults s (.arr xs) =
      .arr ((elementSchema s).elim xs fun sub => xs.map (applySchemaDefaults sub)) := by
  cases s with
  | obj schema =>
    rw [applySchemaDefaults, elementSchema]
    split
    · rfl
    · rw [propertyDefaults_of_not_object _ rfl, itemDefaults_arr]
  | _ => simp [applySchemaDefaults, elementSchema]

theorem applySchemaDefaults_leaf (s : Json) (ho : v.isObject = false) (ha : v.isArray = false) :
    applySchemaDefaults s v = v := by
  cases s with
  | obj schema =>
    rw [applySchemaDefaults]
    split
    · rfl
    · rw [propertyDefaults_of_not_object _ ho, itemDefaults_of_not_array _ ha]
  | _ => simp [applySchemaDefaults]

theorem applySchemaDefaults_ne_null (s : Json) (hv : v ≠ .null) :
    applySchemaDefaults s v ≠ .null := by
  cases v with
  | obj => simp [applySchemaDefaults_obj]
  | arr => simp [applySchemaDefaults_arr]
  | _ => rwa [applySchemaDefaults_leaf s rfl rfl]

/-! ## Induction over a schema -/

theorem canonical_declaredProperties (h : s.canonical = true) :
    canonicalFields (declaredProperties s) = true := by
  cases s with
  | obj schema =>
    rw [declaredProperties]
    split
    · rfl
    · cases hp : schema.lookup "properties" with
      | none => rfl
      | some props => exact canonicalFields_asObject (canonical_of_lookup h hp)
  | _ => rfl

theorem lookup_elementSchema (h : elementSchema s = some sub) : s.get "items" = some sub := by
  cases s with
  | obj schema =>
    rw [elementSchema] at h
    split at h
    · cases h
    · exact h
  | _ => cases h

theorem canonical_get (h : v.canonical = true) (hk : v.get k = some w) : w.canonical = true := by
  cases v with
  | obj fields => exact canonical_of_lookup h hk
  | _ => cases hk

/-- A property of schemas passes from the schemas of the properties and of the elements to the
whole. -/
@[elab_as_elim]
theorem schema_induction {motive : Json → Prop}
    (step : ∀ s, s.canonical = true → (∀ k sub, (declaredProperties s).lookup k = some sub →
      motive sub) →
      (∀ sub, elementSchema s = some sub → motive sub) → motive s) (s : Json) (hs :
      s.canonical = true) :
    motive s := by
  -- the entries of `properties` are two levels below the schema, so the fields of a value go with
  -- it
  suffices h : motive s ∧ ∀ e ∈ s.asObject.getD [], motive e.2 from h.1
  induction s with
  | obj schema ih =>
    have hmem : ∀ e ∈ schema, motive e.2 ∧ ∀ e' ∈ e.2.asObject.getD [], motive e'.2 :=
      fun e he => ih e he (canonical_of_mem hs he)
    refine ⟨step _ hs (fun k sub hk => ?_) (fun sub hsub => ?_), fun e he => (hmem e he).1⟩
    · rw [declaredProperties] at hk
      split at hk
      · cases hk
      cases hp : schema.lookup "properties" with
      | none => simp [hp] at hk
      | some props =>
        rw [hp] at hk
        exact (hmem _ (mem_of_lookup hp)).2 _ (mem_of_lookup hk)
    · exact (hmem _ (mem_of_lookup (lookup_elementSchema hsub))).1
  | _ => exact ⟨step _ hs (fun _ _ hk => by cases hk) (fun _ h => by cases h), forall_mem_nil _⟩

theorem canonical_applySchemaDefaults (hs : s.canonical = true) :
    ∀ v : Json, v.canonical = true → (applySchemaDefaults s v).canonical = true := by
  refine schema_induction ?_ s hs
  intro s hs hprop hitem v hv
  cases v with
  | obj fields =>
    rw [applySchemaDefaults_obj, fieldDefaults_eq]
    refine List.foldlRecOn _ _ (motive := (canonicalFields · = true)) hv fun fields hf e he => ?_
    rcases defaultField_cases fields e with ⟨x, hx, heq⟩ | ⟨-, heq⟩
    · rw [heq]
      refine canonicalFields_put hf ?_ _
      have hcan := canonical_declaredProperties hs
      rcases absent_or (fields.lookup e.1) with habsent | ⟨y, hy, hne⟩
      · rw [defaulted_absent habsent] at hx
        rcases Option.or_eq_some_iff.mp hx with hd | ⟨-, hl⟩
        · exact canonical_get (canonical_of_mem hcan he) hd
        · exact canonical_of_lookup hf hl
      · rw [hy, defaulted_some hne] at hx
        have hsub := (sorted_of_canonicalFields hcan).lookup_of_mem he
        exact Option.some.inj hx ▸ hprop e.1 e.2 hsub y (canonical_of_lookup hf hy)
    · rwa [heq]
  | arr xs =>
    rw [applySchemaDefaults_arr]
    cases hsub : elementSchema s with
    | none => exact hv
    | some sub =>
      refine canonicalList_iff.mpr fun x hx => ?_
      obtain ⟨y, hy, rfl⟩ := mem_map.mp hx
      exact hitem sub hsub y (canonicalList_iff.mp hv y hy)
  | _ => rwa [applySchemaDefaults_leaf s rfl rfl]

/-! ## What is there stays -/

theorem lookup_applied (hs : s.canonical = true) (hk : (declaredProperties s).lookup k = some sub)
    (fields : JsonMap) :
    (fieldDefaults (declaredProperties s) fields).lookup k = defaulted sub (fields.lookup k) := by
  rw [lookup_fieldDefaults_of_sorted (sorted_of_canonicalFields (canonical_declaredProperties hs)),
    hk]
  rfl

theorem kept_applySchemaDefaults (hs : s.canonical = true) :
    ∀ v : Json, Kept v (applySchemaDefaults s v) := by
  refine schema_induction ?_ s hs
  intro s hs hprop hitem v
  cases v with
  | obj fields =>
    have hfield : ∀ k v, fields.lookup k = some v → v ≠ .null →
        ∃ v', (fieldDefaults (declaredProperties s) fields).lookup k = some v' ∧ Kept v v' := by
      intro k v hv hne
      rw [lookup_fieldDefaults_of_sorted
        (sorted_of_canonicalFields (canonical_declaredProperties hs)), hv]
      cases hk : (declaredProperties s).lookup k with
      | none => exact ⟨v, rfl, .same v⟩
      | some sub => exact ⟨_, defaulted_some hne, hprop k sub hk v⟩
    rw [applySchemaDefaults_obj]
    refine .obj (fun k v hv hne => ?_) fun k v v' hv hne hv' => ?_
    · obtain ⟨v', hv', -⟩ := hfield k v hv hne
      rw [hv', Option.isSome_some]
    · obtain ⟨w, hw, hkept⟩ := hfield k v hv hne
      rwa [← Option.some.inj (hw.symm.trans hv')]
  | arr xs =>
    rw [applySchemaDefaults_arr]
    cases hsub : elementSchema s with
    | none => exact .same _
    | some sub =>
      exact .arr (forall₂_map_right_iff.mpr (forall₂_same.mpr fun x _ => hitem sub hsub x))
  | _ =>
    rw [applySchemaDefaults_leaf s rfl rfl]
    exact .same _

/-! ## Complete values -/

theorem Describes.trans {t' w' : Json} (h : Describes s v t w) (h' : Describes t w t' w') :
    Describes s v t' w' := by
  induction h with
  | root => exact h'
  | property hs hv _ ih => exact .property hs hv (ih h')
  | item hs hx _ ih => exact .item hs hx (ih h')

theorem Complete.below (h : Complete s v) (hd : Describes s v t w) : Complete t w :=
  fun t' fields hd' => h t' fields (hd.trans hd')

/-- A complete value is a fixed point of defaulting. -/
theorem Complete.fixed (hs : s.canonical = true) :
    ∀ v : Json, v.canonical = true → Complete s v → applySchemaDefaults s v = v := by
  refine schema_induction ?_ s hs
  intro s hs hprop hitem v hv h
  cases v with
  | obj fields =>
    rw [applySchemaDefaults_obj]
    have hsorted := sorted_of_canonicalFields (canonical_declaredProperties hs)
    have hcan := canonical_applySchemaDefaults hs _ hv
    rw [applySchemaDefaults_obj] at hcan
    refine congrArg _ ((sorted_of_canonicalFields hcan).ext (sorted_of_canonicalFields hv)
      fun k => ?_)
    rw [lookup_fieldDefaults_of_sorted hsorted]
    cases hk : (declaredProperties s).lookup k with
    | none => rfl
    | some sub =>
      rw [Option.elim_some]
      rcases absent_or (fields.lookup k) with habsent | ⟨w, hl, hne⟩
      · rw [defaulted_absent habsent]
        cases hd : sub.get "default" with
        | none => rfl
        | some d =>
          exact absurd habsent
            (Bool.eq_false_iff.mp (h s fields (.root ..) k sub hk (by simp [hd])))
      · have hw := h.below (.property hk hl (.root sub w))
        rw [hl, defaulted_some hne, hprop k sub hk w (canonical_of_lookup hv hl) hw]
  | arr xs =>
    rw [applySchemaDefaults_arr]
    cases hsub : elementSchema s with
    | none => rfl
    | some sub =>
      have hmap : xs.map (applySchemaDefaults sub) = xs.map id := by
        refine map_congr_left fun x hx => ?_
        exact hitem sub hsub x (canonicalList_iff.mp hv x hx)
          (h.below (.item hsub hx (.root sub x)))
      rw [Option.elim_some, hmap, map_id]
  | _ => exact applySchemaDefaults_leaf s rfl rfl

/-- A value is complete when its own fields are there and the values that it holds are complete. -/
theorem complete_obj (hs : ∀ k sub, (declaredProperties s).lookup k = some sub →
    ((sub.get "default").isSome = true → absentField k fields = false) ∧
      ∀ v, fields.lookup k = some v → Complete sub v) : Complete s (.obj fields) := by
  intro t fields' hd
  cases hd with
  | root => exact fun k sub hk => (hs k sub hk).1
  | property hk hv hd => exact (hs _ _ hk).2 _ hv t fields' hd

theorem complete_arr {xs : List Json}
    (hs : ∀ sub, elementSchema s = some sub → ∀ x ∈ xs, Complete sub x) :
    Complete s (.arr xs) := by
  intro t fields hd
  cases hd with
  | item hsub hx hd => exact hs _ hsub _ hx t fields hd

theorem complete_leaf (ho : v.isObject = false) (ha : v.isArray = false) : Complete s v := by
  intro t fields hd
  cases hd with
  | root | property => cases ho
  | item => cases ha

theorem Supplied.below (h : Supplied s v) (hd : Describes s v t w) : Supplied t w :=
  fun t' fields hd' => h t' fields (hd.trans hd')

section
variable (hs : s.canonical = true)
include hs

theorem Supplied.complete : ∀ v : Json, Supplied s v → Complete s (applySchemaDefaults s v) := by
  refine schema_induction ?_ s hs
  intro s hs hprop hitem v h
  cases v with
  | obj fields =>
    rw [applySchemaDefaults_obj]
    refine complete_obj fun k sub hk => ?_
    unfold absentField
    rw [lookup_applied hs hk]
    rcases absent_or (fields.lookup k) with habsent | ⟨w, hl, hne⟩
    · rw [defaulted_absent habsent]
      cases hd : sub.get "default" with
      | none =>
        refine ⟨nofun, fun v hv => ?_⟩
        rw [Option.none_or] at hv
        rw [hv] at habsent
        rw [isNull_iff.mp habsent]
        exact complete_leaf rfl rfl
      | some d =>
        obtain ⟨hne, hcomplete⟩ := h s fields (.root ..) k sub d hk hd habsent
        exact ⟨fun _ => Bool.eq_false_iff.mpr fun h => hne (isNull_iff.mp h),
          fun v hv => Option.some.inj hv ▸ hcomplete⟩
    · rw [hl, defaulted_some hne]
      refine ⟨fun _ => Bool.eq_false_iff.mpr fun h => ?_, fun v hv => ?_⟩
      · exact applySchemaDefaults_ne_null sub hne (isNull_iff.mp h)
      · exact Option.some.inj hv ▸ hprop k sub hk w (h.below (.property hk hl (.root sub w)))
  | arr xs =>
    rw [applySchemaDefaults_arr]
    refine complete_arr fun sub hsub x hx => ?_
    rw [hsub] at hx
    obtain ⟨y, hy, rfl⟩ := mem_map.mp hx
    exact hitem sub hsub y (h.below (.item hsub hy (.root sub y)))
  | _ =>
    rw [applySchemaDefaults_leaf s rfl rfl]
    exact complete_leaf rfl rfl

/-- What a schema describes in a value, it describes in the value with defaults. -/
theorem Describes.applied (h : Describes s v t (.obj fields)) :
    Describes s (applySchemaDefaults s v) t (applySchemaDefaults t (.obj fields)) := by
  generalize hw : Json.obj fields = w at h ⊢
  induction h with
  | root => exact .root ..
  | @property s sub v t w fields' k hk hv h ih =>
    have hne : v ≠ .null := by
      rintro rfl
      cases h with
      | root => cases hw
    rw [applySchemaDefaults_obj]
    refine .property hk ?_ (ih (canonical_of_lookup (canonical_declaredProperties hs) hk) hw)
    rw [lookup_applied hs hk, hv, defaulted_some hne]
  | @item s sub x t w xs hsub hx h ih =>
    rw [applySchemaDefaults_arr, hsub]
    exact .item hsub (mem_map_of_mem hx) (ih (canonical_get hs (lookup_elementSchema hsub)) hw)

theorem Describes.canonical (h : Describes s v t w) : t.canonical = true := by
  induction h with
  | root => exact hs
  | property hk _ _ ih => exact ih (canonical_of_lookup (canonical_declaredProperties hs) hk)
  | item hsub _ _ ih => exact ih (canonical_get hs (lookup_elementSchema hsub))

theorem Supplied.of_complete (h : Complete s (applySchemaDefaults s v)) : Supplied s v := by
  intro t fields hd k sub d hk hdef habsent
  have hbelow := h.below (hd.applied hs)
  rw [applySchemaDefaults_obj] at hbelow
  have hl : (fieldDefaults (declaredProperties t) fields).lookup k = some d := by
    rw [lookup_applied (hd.canonical hs) hk, defaulted_absent habsent, hdef, Option.some_or]
  refine ⟨?_, hbelow.below (.property hk hl (.root sub d))⟩
  rintro rfl
  have hthere := hbelow t _ (.root ..) k sub hk (by simp [hdef])
  simp [absentField, hl, Json.isNull] at hthere

end

/-- One pass of defaulting is complete and a fixed point exactly if the defaults of the absent
fields are complete; it takes nothing away in any case. -/
theorem applySchemaDefaults_settles (hs : s.canonical = true) (hv : v.canonical = true) :
    (applySchemaDefaults s (applySchemaDefaults s v) = applySchemaDefaults s v ∧
      Kept v (applySchemaDefaults s v) ∧ Complete s (applySchemaDefaults s v)) ↔ Supplied s v := by
  refine ⟨fun h => .of_complete hs h.2.2, fun h => ?_⟩
  have hcomplete := h.complete hs
  exact ⟨hcomplete.fixed hs _ (canonical_applySchemaDefaults hs v hv),
    kept_applySchemaDefaults hs v, hcomplete⟩

/-- A schema with a default for `spec`, and one for the `timeout` in it. -/
def specSchema (default : Json) : Json :=
  .obj [("properties", .obj [("spec", .obj [("default", default),
    ("properties", .obj [("timeout", .obj [("default", .str "60s")])])])])]

/-- The default of `spec` is inserted as it is, without a `timeout`; the next pass adds it. -/
theorem applySchemaDefaults_twice :
    let s := specSchema (.obj [])
    s.canonical = true ∧ applySchemaDefaults s (.obj []) = .obj [("spec", .obj [])] ∧
      applySchemaDefaults s (applySchemaDefaults s (.obj [])) =
        .obj [("spec", .obj [("timeout", .str "60s")])] := by
  decide +kernel

theorem applySchemaDefaults_settles_spec :
    let s := specSchema (.obj [("timeout", .str "30s")])
    applySchemaDefaults s (applySchemaDefaults s (.obj [])) = applySchemaDefaults s (.obj []) ∧
      Kept (.obj []) (applySchemaDefaults s (.obj [])) ∧
      Complete s (applySchemaDefaults s (.obj [])) := by
  refine (applySchemaDefaults_settles (by decide +kernel) rfl).mpr
    fun t fields hd k sub d hk hdef _ => ?_
  cases hd with
  | property _ hv => cases hv
  | root =>
    simp [specSchema, declaredProperties, schemaIsOpaque, lookup_cons_ite] at hk
    obtain ⟨rfl, rfl⟩ := hk
    simp only [get_obj, lookup_cons_ite, if_true, Option.some.injEq] at hdef
    subst hdef
    refine ⟨by simp, complete_obj fun k sub hk => ?_⟩
    simp [declaredProperties, schemaIsOpaque, lookup_cons_ite] at hk
    obtain ⟨rfl, rfl⟩ := hk
    refine ⟨fun _ => rfl, fun v hv => ?_⟩
    cases hv
    exact complete_leaf rfl rfl

end Engenho
