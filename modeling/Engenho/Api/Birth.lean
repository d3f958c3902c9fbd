import Engenho.Api.ObjectBody

/-!
# What an object is born with

`stampBorn` gives a new object its name, its namespace and its creation timestamp where they are
unset, and the status or finalizer that three core kinds start with. Both the server and the store's
proposer stamp; an object stamped once is stamped (`stampBorn_stampBorn`).
-/

namespace Engenho
open Assoc Json Option

/-- The text of an instant: never empty. -/
structure Timestamp where
  text : String
  nonempty : text.isEmpty = false
deriving DecidableEq, Repr

/-! ## Fields -/

/-- Changes the object at a field, which becomes an object if it is none. -/
def ensureObject (k : String) (f : JsonMap → JsonMap) (fields : JsonMap) : JsonMap :=
  Assoc.put k (.obj (f (((fields.lookup k).bind Json.asObject).getD []))) fields

/-- Changes the object at a field, made if it is absent; another value stays. -/
def entryObject (k : String) (f : JsonMap → JsonMap) (fields : JsonMap) : JsonMap :=
  match (fields.lookup k).getD (.obj []) with
  | .obj inner => Assoc.put k (.obj (f inner)) fields
  | _ => fields

def entryArray (k : String) (f : List Json → List Json) (fields : JsonMap) : JsonMap :=
  match (fields.lookup k).getD (.arr []) with
  | .arr items => Assoc.put k (.arr (f items)) fields
  | _ => fields

/-- The field counts as unset. -/
def textUnset : Option Json → Bool
  | none => true
  | some .null => true
  | some (.str s) => s.isEmpty
  | some _ => false

def creationTimestampIsUnset : Option Json → Bool
  | some (.obj fields) => fields.isEmpty
  | slot => textUnset slot

/-- Writes a text where there is none. -/
def fillIfUnset (field value : String) (md : JsonMap) : JsonMap :=
  if textUnset (md.lookup field) && !value.isEmpty then Assoc.put field (.str value) md else md

/-- Writes the creation time, if unset. -/
def stampCreationTimestamp (now : Timestamp) (md : JsonMap) : JsonMap :=
  if creationTimestampIsUnset (md.lookup "creationTimestamp") then
    Assoc.put "creationTimestamp" (.str now.text) md
  else md

/-! ## The kinds that start with more -/

def containersOf (spec : Option Json) : List Json :=
  ["containers", "initContainers"].flatMap fun field =>
    ((spec.bind (Json.get field)).bind Json.asArray).getD []

def quantity (c : Json) (kind res : String) : Option Json :=
  ((c.get "resources").bind (Json.get kind)).bind (Json.get res)

/-- Each container's cpu and memory. -/
def resourcePairs (containers : List Json) : List (Option Json × Option Json) :=
  containers.flatMap fun c =>
    ["cpu", "memory"].map fun res => (quantity c "requests" res, quantity c "limits" res)

/-- The quality of service that the containers get. -/
def qosClass (spec : Option Json) : String :=
  let containers := containersOf spec
  let pairs := resourcePairs containers
  let any := pairs.any fun p => p.1.isSome || p.2.isSome
  let guaranteed := !containers.isEmpty && pairs.all fun p =>
    p.2.isSome && decide (p.1.or p.2 = p.2)
  if !any then "BestEffort" else if guaranteed then "Guaranteed" else "Burstable"

/-- Phase and quality of a new pod. -/
def stampBirthStatus (fields : JsonMap) : JsonMap :=
  ensureObject "status" (fun status =>
    fill "qosClass" (.str (qosClass (fields.lookup "spec"))) (fill "phase" (.str "Pending") status))
    fields

/-- The phase of a new claim. -/
def stampClaimPhase (fields : JsonMap) : JsonMap :=
  ensureObject "status" (fillIfUnset "phase" "Pending") fields

def kubernetesFinalizer : String := "kubernetes"

def addFinalizer (items : List Json) : List Json :=
  if items.any fun v => v.asStr = some kubernetesFinalizer then items
  else items ++ [.str kubernetesFinalizer]

def activePhase : JsonMap → JsonMap := entryObject "status" (fill "phase" (.str "Active"))

def finalizedSpec : JsonMap → JsonMap := entryObject "spec" (entryArray "finalizers" addFinalizer)

def nameLabel (name : String) : JsonMap → JsonMap :=
  entryObject "metadata" (entryObject "labels" (fill "kubernetes.io/metadata.name" (.str name)))

/-- Phase, finalizer and label of a namespace. -/
def stampNamespaceDefaults (fields : JsonMap) : JsonMap :=
  let born := finalizedSpec (activePhase fields)
  match ((fields.lookup "metadata").bind (Json.get "name")).bind Json.asStr with
  | some name => nameLabel name born
  | none => born

/-- What a core kind starts with beyond its metadata. -/
def birthStatus (group kind : String) (fields : JsonMap) : JsonMap :=
  if group = "" then
    if kind = "Pod" then stampBirthStatus fields
    else if kind = "Namespace" then stampNamespaceDefaults fields
    else if kind = "PersistentVolumeClaim" then stampClaimPhase fields
    else fields
  else fields

/-- The metadata of a new object. -/
def bornMeta (name : String) (ns : Option String) (now : Timestamp) (md : JsonMap) : JsonMap :=
  let md := fillIfUnset "name" name md
  let md := match ns with
    | some ns => fillIfUnset "namespace" ns md
    | none => md
  stampCreationTimestamp now md

/-- What a new object gets. -/
def stampBorn (group kind name : String) (ns : Option String) (now : Timestamp) : Json → Json :=
  mapFields fun fields =>
    birthStatus group kind (ensureObject "metadata" (bornMeta name ns now) fields)

/-! ## Born once -/

theorem isSome_lookup_fill (k : String) (v : Json) (fields : JsonMap) :
    ((fill k v fields).lookup k).isSome = true := by
  unfold fill
  split
  · assumption
  · simp

theorem fill_of_isSome {k : String} {fields : JsonMap} (h : (fields.lookup k).isSome = true)
    (v : Json) : fill k v fields = fields := if_pos h

theorem fill_fill (k : String) (v w : Json) (fields : JsonMap) :
    fill k v (fill k w fields) = fill k w fields := fill_of_isSome (isSome_lookup_fill k w fields) v

variable {k field name : String} {f : JsonMap → JsonMap} {fields md : JsonMap} {ns : Option String}
variable {k' value : String}

theorem lookup_entryObject_ne (h : k' ≠ k) (f : JsonMap → JsonMap) (fields : JsonMap) :
    (entryObject k f fields).lookup k' = fields.lookup k' := by
  unfold entryObject
  split
  · exact lookup_put_ne h ..
  · rfl

theorem entryObject_entryObject (hf : ∀ m, f (f m) = f m) (fields : JsonMap) :
    entryObject k f (entryObject k f fields) = entryObject k f fields := by
  cases h : (fields.lookup k).getD (.obj []) with
  | obj inner => simp [entryObject, h, put_put, hf]
  | _ => simp [entryObject, h]

/-- A field that is settled stays so when another field changes. -/
theorem entryObject_comm (hne : k ≠ k') (h : entryObject k f fields = fields) (v : Json) :
    entryObject k f (Assoc.put k' v fields) = Assoc.put k' v fields := by
  unfold entryObject at h ⊢
  rw [lookup_put_ne hne]
  split
  · rename_i inner hinner
    rw [hinner] at h
    rw [put_comm hne]
    exact congrArg (Assoc.put k' v) h
  · rfl

theorem entryObject_other (hne : k ≠ k') (h : entryObject k f fields = fields)
    (g : JsonMap → JsonMap) :
    entryObject k f (entryObject k' g fields) = entryObject k' g fields := by
  rw [entryObject.eq_def k' g]
  split
  · exact entryObject_comm hne h _
  · exact h

theorem entryArray_entryArray {f : List Json → List Json} (hf : ∀ l, f (f l) = f l)
    (fields : JsonMap) :
    entryArray k f (entryArray k f fields) = entryArray k f fields := by
  cases h : (fields.lookup k).getD (.arr []) with
  | arr items => simp [entryArray, h, put_put, hf]
  | _ => simp [entryArray, h]

/-- What a born object's metadata has. -/
structure BornMeta (name : String) (ns : Option String) (md : JsonMap) : Prop where
  name : textUnset (md.lookup "name") = true → name.isEmpty = true
  namespaced : ∀ n, ns = some n → textUnset (md.lookup "namespace") = true → n.isEmpty = true
  created : creationTimestampIsUnset (md.lookup "creationTimestamp") = false

theorem fillIfUnset_unset (h : textUnset ((fillIfUnset field value md).lookup field) = true) :
    value.isEmpty = true := by
  unfold fillIfUnset at h
  split at h
  · simpa [textUnset] using h
  · rename_i hn
    simpa [h] using hn

theorem lookup_fillIfUnset_ne (h : k ≠ field) (value : String) (md : JsonMap) :
    (fillIfUnset field value md).lookup k = md.lookup k := by
  unfold fillIfUnset
  split
  · exact lookup_put_ne h ..
  · rfl

theorem lookup_stampCreationTimestamp_ne (h : k ≠ "creationTimestamp") (now : Timestamp)
    (md : JsonMap) : (stampCreationTimestamp now md).lookup k = md.lookup k := by
  unfold stampCreationTimestamp
  split
  · exact lookup_put_ne h ..
  · rfl

theorem created_stampCreationTimestamp (now : Timestamp) (md : JsonMap) :
    creationTimestampIsUnset ((stampCreationTimestamp now md).lookup "creationTimestamp") =
    false := by
  unfold stampCreationTimestamp
  split
  · rw [lookup_put_self]
    exact now.nonempty
  · rename_i hset
    simpa using hset

theorem bornMeta_born (name : String) (ns : Option String) (now : Timestamp) (md : JsonMap) :
    BornMeta name ns (bornMeta name ns now md) := by
  constructor
  · intro h
    simp only [bornMeta, lookup_stampCreationTimestamp_ne (by decide : "name" ≠ _)] at h
    cases ns with
    | none => exact fillIfUnset_unset h
    | some n =>
      rw [lookup_fillIfUnset_ne (by decide)] at h
      exact fillIfUnset_unset h
  · rintro n rfl h
    simp only [bornMeta, lookup_stampCreationTimestamp_ne (by decide : "namespace" ≠ _)] at h
    exact fillIfUnset_unset h
  · exact created_stampCreationTimestamp now _

theorem BornMeta.congr {md' : JsonMap} (h : BornMeta name ns md)
    (hk : ∀ k ∈ ["name", "namespace", "creationTimestamp"], md'.lookup k = md.lookup k) :
    BornMeta name ns md' where
  name hn := h.name (by rwa [hk "name" (by simp)] at hn)
  namespaced n hns hn := h.namespaced n hns (by rwa [hk "namespace" (by simp)] at hn)
  created := by rw [hk "creationTimestamp" (by simp)]; exact h.created

theorem BornMeta.bornMeta_eq (h : BornMeta name ns md) (now : Timestamp) :
    bornMeta name ns now md = md := by
  have hfill : ∀ {field value : String},
      (textUnset (md.lookup field) = true → value.isEmpty = true) →
      fillIfUnset field value md = md := by
    intro field value hv
    unfold fillIfUnset
    rw [if_neg]
    intro hc
    obtain ⟨hu, he⟩ := Bool.and_eq_true_iff.mp hc
    simp [hv hu] at he
  unfold bornMeta
  rw [hfill h.name]
  cases ns with
  | none => simp [stampCreationTimestamp, h.created]
  | some n => simp [hfill (h.namespaced n rfl), stampCreationTimestamp, h.created]

/-- An object with a steady, born metadata. -/
structure Born (name : String) (ns : Option String) (fields : JsonMap) : Prop where
  steady : Assoc.Steady "metadata" fields
  born : ∃ md, fields.lookup "metadata" = some (.obj md) ∧ BornMeta name ns md

section
variable (h : Born name ns fields)
include h

theorem Born.put (hk : "metadata" ≠ k) (v : Json) : Born name ns (Assoc.put k v fields) where
  steady := h.steady.put k v
  born := by rw [lookup_put_ne hk]; exact h.born

theorem Born.entryObject (hk : "metadata" ≠ k) (f : JsonMap → JsonMap) :
    Born name ns (entryObject k f fields) := by
  unfold Engenho.entryObject
  split
  · exact h.put hk _
  · exact h

/-- The name label does not touch what makes the metadata born. -/
theorem Born.nameLabel (label : String) : Born name ns (nameLabel label fields) := by
  obtain ⟨md, hmd, hborn⟩ := h.born
  have heq : Engenho.nameLabel label fields = Assoc.put "metadata"
      (.obj (Engenho.entryObject "labels" (fill "kubernetes.io/metadata.name" (.str label)) md))
      fields := by
    simp [Engenho.nameLabel, Engenho.entryObject.eq_def "metadata", hmd]
  rw [heq]
  refine ⟨Assoc.Steady.put_self _ _ _, _, lookup_put_self .., hborn.congr fun k hk => ?_⟩
  refine lookup_entryObject_ne (fun he => ?_) _ md
  subst he
  revert hk
  decide

theorem Born.namespaceDefaults : Born name ns (stampNamespaceDefaults fields) := by
  have hborn : Born name ns (finalizedSpec (activePhase fields)) :=
    (h.entryObject (by decide) _).entryObject (by decide) _
  unfold stampNamespaceDefaults
  split
  · exact hborn.nameLabel _
  · exact hborn

theorem Born.birthStatus (group kind : String) : Born name ns (birthStatus group kind fields) := by
  unfold Engenho.birthStatus
  split
  · split
    · exact h.put (by decide) _
    split
    · exact h.namespaceDefaults
    · split
      · exact h.put (by decide) _
      · exact h
  · exact h

end

theorem addFinalizer_addFinalizer (items : List Json) :
    addFinalizer (addFinalizer items) = addFinalizer items := by
  have hany : (addFinalizer items).any (fun v => v.asStr = some kubernetesFinalizer) = true := by
    unfold addFinalizer
    split
    · assumption
    · simp [asStr]
  rw [addFinalizer.eq_def (addFinalizer items), if_pos hany]

theorem nameLabel_nameLabel (label : String) (fields : JsonMap) :
    nameLabel label (nameLabel label fields) = nameLabel label fields :=
  entryObject_entryObject (entryObject_entryObject (fill_fill _ _ _)) fields

/-- The name label touches no other field of the metadata. -/
theorem metadata_nameLabel (hk : k ≠ "labels") (label : String) (fields : JsonMap) :
    ((nameLabel label fields).lookup "metadata").bind (get k) =
      (fields.lookup "metadata").bind (get k) := by
  rw [nameLabel, entryObject.eq_def "metadata"]
  cases h : fields.lookup "metadata" with
  | none => simp [lookup_entryObject_ne hk]
  | some v =>
    cases v with
    | obj md => simp [lookup_entryObject_ne hk]
    | _ => simp [h]

theorem metadata_finalizedSpec (fields : JsonMap) :
    (finalizedSpec (activePhase fields)).lookup "metadata" = fields.lookup "metadata" :=
  (lookup_entryObject_ne (by decide) ..).trans (lookup_entryObject_ne (by decide) ..)

theorem namespaceDefaults_idem (fields : JsonMap) :
    stampNamespaceDefaults (stampNamespaceDefaults fields) = stampNamespaceDefaults fields := by
  have hphase : activePhase (activePhase fields) = activePhase fields :=
    entryObject_entryObject (fill_fill _ _ _) fields
  have hphase' : activePhase (finalizedSpec (activePhase fields)) =
      finalizedSpec (activePhase fields) :=
    entryObject_other (by decide) hphase _
  have hspec : finalizedSpec (finalizedSpec (activePhase fields)) =
      finalizedSpec (activePhase fields) :=
    entryObject_entryObject (entryArray_entryArray addFinalizer_addFinalizer) _
  have hname := metadata_finalizedSpec fields
  cases hn : ((fields.lookup "metadata").bind (get "name")).bind asStr with
  | none => simp [stampNamespaceDefaults, hn, hname, hphase', hspec]
  | some name =>
    have hphase'' : activePhase (nameLabel name (finalizedSpec (activePhase fields))) =
        nameLabel name (finalizedSpec (activePhase fields)) :=
          entryObject_other (by decide) hphase' _
    have hspec' : finalizedSpec (nameLabel name (finalizedSpec (activePhase fields))) =
        nameLabel name (finalizedSpec (activePhase fields)) := entryObject_other (by decide) hspec _
    simp [stampNamespaceDefaults, hn, metadata_nameLabel (by decide : "name" ≠ _), hname,
      hphase'', hspec', nameLabel_nameLabel]

theorem ensureObject_ensureObject (hf : ∀ m, f (f m) = f m) (fields : JsonMap) :
    ensureObject k f (ensureObject k f fields) = ensureObject k f fields := by
  simp [ensureObject, put_put, hf]

theorem fillIfUnset_fillIfUnset (field value : String) (md : JsonMap) :
    fillIfUnset field value (fillIfUnset field value md) = fillIfUnset field value md := by
  rw [fillIfUnset.eq_def _ _ (fillIfUnset field value md), if_neg]
  intro hc
  obtain ⟨hu, he⟩ := Bool.and_eq_true_iff.mp hc
  simp [fillIfUnset_unset hu] at he

theorem stampBirthStatus_idem (fields : JsonMap) :
    stampBirthStatus (stampBirthStatus fields) = stampBirthStatus fields := by
  have hspec : (stampBirthStatus fields).lookup "spec" = fields.lookup "spec" :=
    lookup_put_ne (by decide) ..
  rw [stampBirthStatus.eq_def (stampBirthStatus fields), hspec]
  refine ensureObject_ensureObject (fun status => ?_) fields
  -- the phase is there before the class is filled in, and stays
  have hphase : ((fill "qosClass" (.str (qosClass (fields.lookup "spec")))
      (fill "phase" (.str "Pending") status)).lookup "phase").isSome = true := by
    rw [lookup_fill_ne (by decide)]
    exact isSome_lookup_fill ..
  rw [fill_of_isSome hphase, fill_fill]

theorem birthStatus_idem (group kind : String) (fields : JsonMap) :
    birthStatus group kind (birthStatus group kind fields) = birthStatus group kind fields := by
  unfold birthStatus
  split
  · split
    · exact stampBirthStatus_idem fields
    split
    · exact namespaceDefaults_idem fields
    · split
      · exact ensureObject_ensureObject (fillIfUnset_fillIfUnset _ _) fields
      · rfl
  · rfl

/-- Stamping a born object again, at whatever instant, changes nothing. -/
theorem stampBorn_stampBorn (group kind name : String) (ns : Option String) (now later : Timestamp)
    (v : Json) : stampBorn group kind name ns later (stampBorn group kind name ns now v) =
      stampBorn group kind name ns now v := by
  cases v with
  | obj fields =>
    have hborn : Born name ns (birthStatus group kind
        (ensureObject "metadata" (bornMeta name ns now) fields)) :=
      Born.birthStatus ⟨Assoc.Steady.put_self _ _ _, _, lookup_put_self ..,
        bornMeta_born name ns now _⟩ group kind
    obtain ⟨md, hmd, hmeta⟩ := hborn.born
    have hkeep : ensureObject "metadata" (bornMeta name ns later) (birthStatus group kind
        (ensureObject "metadata" (bornMeta name ns now) fields)) =
        birthStatus group kind (ensureObject "metadata" (bornMeta name ns now) fields) := by
      rw [ensureObject.eq_def _ _ (birthStatus group kind _), hmd, bind_some, asObject,
        getD_some, hmeta.bornMeta_eq]
      exact hborn.steady _ hmd
    simp [stampBorn, mapFields, hkeep, birthStatus_idem]
  | _ => rfl

/-! ## What a born object is named -/

theorem metadata_birthStatus (hk : k ≠ "labels") (group kind : String) (fields : JsonMap) :
    ((birthStatus group kind fields).lookup "metadata").bind (get k) =
      (fields.lookup "metadata").bind (get k) := by
  have hput : ∀ f, (ensureObject "status" f fields).lookup "metadata" = fields.lookup "metadata" :=
    fun f => lookup_put_ne (by decide) ..
  unfold birthStatus
  split
  · split
    · exact congrArg (·.bind (get k)) (hput _)
    split
    · unfold stampNamespaceDefaults
      split
      · rw [metadata_nameLabel hk, metadata_finalizedSpec]
      · rw [metadata_finalizedSpec]
    · split
      · exact congrArg (·.bind (get k)) (hput _)
      · rfl
  · rfl

theorem metaField_stampBorn (hk : k ≠ "labels") (group kind name : String) (ns : Option String)
    (now : Timestamp) {v : Json} (hmd : metaBase v = some md) :
    metaField k (stampBorn group kind name ns now v) = (bornMeta name ns now md).lookup k := by
  cases v with
  | obj fields =>
    have hbase : ((fields.lookup "metadata").bind asObject).getD [] = md := by
      simp only [metaBase] at hmd
      cases hl : fields.lookup "metadata" with
      | none => simpa [hl, asObject] using hmd
      | some x => simpa [hl] using congrArg (·.getD []) hmd
    simp only [stampBorn, mapFields, metaField, get_obj]
    rw [metadata_birthStatus hk, ensureObject, hbase, lookup_put_self]
    rfl
  | _ => cases hmd

/-- A birth leaves the metadata but for the fields it stamps. -/
theorem metaField_stampBorn_same (hl : k ≠ "labels") (hn : k ≠ "name") (hs : k ≠ "namespace")
    (hc : k ≠ "creationTimestamp") (group kind name : String) (ns : Option String) (now : Timestamp)
    (v : Json) :
    metaField k (stampBorn group kind name ns now v) = metaField k v := by
  cases v with
  | obj fields =>
    have hmeta : ∀ md, (bornMeta name ns now md).lookup k = md.lookup k := by
      intro md
      simp only [bornMeta]
      rw [lookup_stampCreationTimestamp_ne hc]
      cases ns with
      | none => exact lookup_fillIfUnset_ne hn _ _
      | some n => exact (lookup_fillIfUnset_ne hs _ _).trans (lookup_fillIfUnset_ne hn _ _)
    simp only [stampBorn, mapFields, metaField, get_obj]
    rw [metadata_birthStatus hl, ensureObject, lookup_put_self, bind_some, get_obj, hmeta]
    cases hm : fields.lookup "metadata" with
    | none => rfl
    | some x => cases x <;> rfl
  | _ => rfl

theorem lookup_fillIfUnset_of_eq (h : md.lookup field = some (.str value)) :
    (fillIfUnset field value md).lookup field = some (.str value) := by
  unfold fillIfUnset
  split
  · exact lookup_put_self ..
  · exact h

theorem bornMeta_name (h : md.lookup "name" = some (.str name)) (ns : Option String)
    (now : Timestamp) : (bornMeta name ns now md).lookup "name" = some (.str name) := by
  have hfill := lookup_fillIfUnset_of_eq h
  unfold bornMeta
  rw [lookup_stampCreationTimestamp_ne (by decide)]
  cases ns with
  | none => exact hfill
  | some n =>
    simp only [lookup_fillIfUnset_ne (by decide : "name" ≠ "namespace")]
    exact hfill

theorem bornMeta_namespace {n : String} (h : md.lookup "namespace" = some (.str n)) (name : String)
    (now : Timestamp) : (bornMeta name (some n) now md).lookup "namespace" = some (.str n) := by
  unfold bornMeta
  rw [lookup_stampCreationTimestamp_ne (by decide)]
  refine lookup_fillIfUnset_of_eq ?_
  rw [lookup_fillIfUnset_ne (by decide), h]

end Engenho
