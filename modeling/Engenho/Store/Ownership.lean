import Engenho.Store.SsaFrame

/-!
# The record of ownership

What an apply on an object leaves in `metadata.managedFields`, entry by entry as a later apply reads
it (`decodeEntries`). The applier's entry owns what it applied. Without force the other entries are
as they were; with force the other Apply entries lose the applied paths and nothing else
(`applySsa_ownership`).

An entry is dropped when its trie has no node left, and a trie can have nodes that lead to no owned
path: an empty list merged by key leaves such a node. An entry with one outlives the loss of its
last path (`applySsa_leaves_idle`).
-/

namespace Engenho
open FieldSet Json Assoc List Option
variable {env : Env} {gvk : Gvk}

/-- The entries a later apply reads from `managed`. -/
def decodeEntries (env : Env) (managed : Json) : List DecodedEntry :=
  (managed.asArray.getD []).filterMap (decodeEntry env)

/-- The entry is the applier's own. -/
def isMine (manager : String) (e : DecodedEntry) : Bool :=
  e.manager = manager && e.operation = .apply

/-! ## Reading an entry -/

variable {e : DecodedEntry}

theorem decodeEntry_some {raw : Json} (h : decodeEntry env raw = some e) :
    (raw.get "manager").bind asStr = some e.manager ∧ e.raw = raw ∧
      e.operation = (if (raw.get "operation").bind asStr = some "Update" then .update else .apply) ∧
      e.fields = ((raw.get "fieldsV1").map (fromValue env)).getD new := by
  unfold decodeEntry at h
  cases hmanager : (raw.get "manager").bind asStr with
  | none =>
    rw [hmanager] at h
    cases h
  | some manager =>
    rw [hmanager] at h
    cases h
    exact ⟨rfl, rfl, rfl, rfl⟩

variable {manager : String} {current : Json} {applied : FieldSet}

theorem decodeEntry_of {raw : Json} (h : (raw.get "manager").bind asStr = some manager) :
    decodeEntry env raw = some ⟨manager,
      if (raw.get "operation").bind asStr = some "Update" then .update else .apply,
      ((raw.get "fieldsV1").map (fromValue env)).getD new, raw⟩ := by
  simp only [decodeEntry, h, bind, bind_some, pure]

theorem readManagedFields_raw (h : e ∈ readManagedFields env current) :
    decodeEntry env e.raw = some e := by
  unfold readManagedFields at h
  split at h
  · cases h
  · obtain ⟨raw, -, hraw⟩ := mem_filterMap.mp h
    rw [(decodeEntry_some hraw).2.1]
    exact hraw

/-- An index in a stored entry was read as a 64-bit number. -/
theorem indexFits_of_fromFieldsV1Key (k : String) (el : PathElement)
    (h : PathElement.fromFieldsV1Key env k = some el) : IndexFits el := by
  unfold PathElement.fromFieldsV1Key at h
  split at h
  · cases h
    trivial
  · obtain ⟨keys, -, rfl⟩ := map_eq_some_iff.mp h
    trivial
  · obtain ⟨v, -, rfl⟩ := map_eq_some_iff.mp h
    trivial
  · obtain ⟨i, hi, rfl⟩ := map_eq_some_iff.mp h
    exact parseUsize_lt hi
  · cases h

theorem readManagedFields_readsBack (h : e ∈ readManagedFields env current)
    (hlabels : ∀ v ∈ e.fields.labels, env.parse (env.render v) = some v) :
    e.fields.All (ReadsBack env) := by
  refine All.readsBack ?_ hlabels
  rw [(decodeEntry_some (readManagedFields_raw h)).2.2.2]
  cases e.raw.get "fieldsV1" with
  | none => exact .new
  | some v => exact (Kept.all _).fromValue indexFits_of_fromFieldsV1Key v

theorem fieldsetOf_readsBack {config : Json}
    (hlabels : ∀ v ∈ (fieldsetOf env gvk config).labels, env.parse (env.render v) = some v) :
    (fieldsetOf env gvk config).All (ReadsBack env) := by
  refine All.readsBack ((Kept.all _).fieldsetOf ?_ config) hlabels
  intro el hel
  cases el with
  | index i => exact absurd rfl (hel i)
  | _ => trivial

/-! ## Writing an entry -/

variable (env gvk) in
/-- The applier's entry as a later apply reads it. -/
def ownEntry (manager : String) (applied : FieldSet) (time : String) : DecodedEntry :=
  ⟨manager, .apply, applied, makeEntry env gvk manager applied time⟩

theorem isMine_ownEntry (manager : String) (applied : FieldSet) (time : String) :
    isMine manager (ownEntry env gvk manager applied time) = true := by
  simp [isMine, ownEntry]

/-- A field set comes back from the entry that records it. -/
theorem decodeEntry_makeEntry (hback : fromValue env (applied.toValue env) = applied)
    (manager time : String) : decodeEntry env (makeEntry env gvk manager applied time) =
      some (ownEntry env gvk manager applied time) := by
  have hfields : (makeEntry env gvk manager applied time).get "fieldsV1" =
    some (applied.toValue env) := rfl
  have hstr : ((makeEntry env gvk manager applied time).get "manager").bind asStr =
    some manager := by rfl
  rw [decodeEntry_of hstr, hfields, map_some, hback]
  rfl

variable (env) in
/-- What a forced apply of `applied` leaves of another manager's entry. -/
structure Reduced (applied : FieldSet) (e e' : DecodedEntry) : Prop where
  manager : e'.manager = e.manager
  operation : e'.operation = e.operation
  /-- It keeps the paths that were not applied, and no other. -/
  fields : ∀ p, e'.fields.owns env p = (e.fields.owns env p && !applied.owns env p)
  rest : ∀ k, k ≠ "fieldsV1" → e'.raw.get k = e.raw.get k
  /-- It owns something, unless its trie had nodes that lead to no owned path. -/
  alive : e.fields.idleBelow = true ∨ ∃ p, e'.fields.owns env p = true

/-- Another manager's entry with a trie of its own path elements, read again. -/
theorem decodeEntry_put_fieldsV1 (he : decodeEntry env e.raw = some e) {m : JsonMap}
    (hm : e.raw = .obj m)
    {fields : FieldSet} (hback : fromValue env (fields.toValue env) = fields) :
    decodeEntry env (.obj (put "fieldsV1" (fields.toValue env) m)) =
      some { e with fields := fields, raw := .obj (put "fieldsV1" (fields.toValue env) m) } := by
  obtain ⟨hmanager, -, hop, -⟩ := decodeEntry_some he
  have hother : ∀ k, k ≠ "fieldsV1" →
      (obj (put "fieldsV1" (fields.toValue env) m)).get k = e.raw.get k := by
    intro k hk
    rw [hm, get_obj, get_obj, lookup_put_ne hk]
  have hstr := hmanager
  rw [← hother "manager" (by decide)] at hstr
  rw [decodeEntry_of hstr, hother "operation" (by decide), ← hop, get_obj, lookup_put_self,
    map_some, getD_some, hback]

variable (env gvk) in
/-- What a later apply reads of an entry after this one. -/
def updatedEntry (manager : String) (applied : FieldSet) (force : Bool) (time : String)
    (e : DecodedEntry) : Option DecodedEntry :=
  (updateEntry env gvk manager applied force time e).bind (decodeEntry env)

section
variable {manager time : String} {applied : FieldSet} {force : Bool} {e : DecodedEntry}

theorem updatedEntry_mine (hback : fromValue env (applied.toValue env) = applied)
    (h : isMine manager e = true) :
    updatedEntry env gvk manager applied force time e =
      some (ownEntry env gvk manager applied time) := by
  have hmine : e.manager = manager ∧ e.operation = .apply := by simpa [isMine] using h
  rw [updatedEntry, updateEntry, if_pos hmine, bind_some, decodeEntry_makeEntry hback]

theorem updatedEntry_untouched (he : decodeEntry env e.raw = some e) (h : isMine manager e = false)
    (hforce : force = false ∨ e.operation = .update) :
    updatedEntry env gvk manager applied force time e = some e := by
  have hmine : ¬ (e.manager = manager ∧ e.operation = .apply) := by simpa [isMine] using h
  have htaken : ¬ (force = true ∧ e.operation = .apply) := by
    rintro ⟨rfl, hop⟩
    rcases hforce with hforce | hforce
    · cases hforce
    · rw [hop] at hforce
      cases hforce
  rw [updatedEntry, updateEntry, if_neg hmine, if_neg htaken, bind_some, he]

/-- A forced apply drops another Apply entry that owns nothing but applied paths, or reduces it. -/
theorem updatedEntry_forced (happlied : applied.WellFormed env)
    (he : decodeEntry env e.raw = some e)
    (hwf : e.fields.WellFormed env) (hread : e.fields.All (ReadsBack env))
    (h : isMine manager e = false) (hop : e.operation = .apply) :
    (updatedEntry env gvk manager applied true time e = none ∧
      ∀ p, e.fields.owns env p = true → applied.owns env p = true) ∨
    ∃ e', updatedEntry env gvk manager applied true time e = some e' ∧
    Reduced env applied e e' := by
  have hmine : ¬ (e.manager = manager ∧ e.operation = .apply) := by simpa [isMine] using h
  have howns := owns_subtractSet e.fields happlied
  rw [updatedEntry, updateEntry, if_neg hmine, if_pos ⟨rfl, hop⟩]
  by_cases hempty : (subtractSet env e.fields applied).isEmpty = true
  · left
    refine ⟨by simp [hempty], fun p hp => ?_⟩
    have hgone := howns p
    rw [owns_of_isEmpty hempty, hp] at hgone
    simpa using hgone.symm
  · right
    obtain ⟨m, hm⟩ : ∃ m, e.raw = .obj m := by
      obtain ⟨hmanager, -⟩ := decodeEntry_some he
      cases hraw : e.raw with
      | obj m => exact ⟨m, rfl⟩
      | _ =>
        rw [hraw] at hmanager
        cases hmanager
    have hback := fromValue_toValue (hwf.subtractSet applied) (hread.subtractSet applied)
    have hread' := decodeEntry_put_fieldsV1 he hm hback
    refine ⟨{ e with fields := subtractSet env e.fields applied, raw := .obj (put "fieldsV1"
      ((subtractSet env e.fields applied).toValue env) m) }, ?_, rfl, rfl, howns, ?_, ?_⟩
    · rw [if_neg hempty, hm]
      exact hread'
    · intro k hk
      rw [hm, get_obj, get_obj, lookup_put_ne hk]
    · cases hidle : e.fields.idleBelow with
      | true => exact .inl rfl
      | false =>
        exact .inr (exists_owns (hwf.subtractSet applied) (idleBelow_subtractSet hidle applied)
          (by simpa using hempty))

end

/-! ## All entries -/

theorem decodeEntries_updateOwnership (entries : List DecodedEntry) (manager : String)
    (hback : fromValue env (applied.toValue env) = applied) (force : Bool) (time : String) :
    decodeEntries env (.arr (updateOwnership env gvk entries manager applied force time)) =
      entries.filterMap (updatedEntry env gvk manager applied force time) ++
        if entries.any (isMine manager) then []
        else [ownEntry env gvk manager applied time] := by
  have hany : (entries.any fun e => decide (e.manager = manager) && decide (e.operation = .apply)) =
      entries.any (isMine manager) := rfl
  simp only [decodeEntries, asArray, getD_some, updateOwnership, filterMap_append,
    filterMap_filterMap, hany]
  congr 1
  split
  · rfl
  · rw [filterMap_cons, decodeEntry_makeEntry hback]
    rfl

/-- Where `f` keeps the elements in `q` and makes none of the others one in `q`, those in `q`
stay. -/
theorem filter_filterMap_of_keeps {α : Type} {f : α → Option α} {q : α → Bool} {l : List α}
    (hkeep : ∀ a ∈ l, q a = true → f a = some a)
    (hother : ∀ a ∈ l, q a = false → ∀ b, f a = some b → q b = false) :
    (l.filterMap f).filter q = l.filter q := by
  rw [filter_filterMap, ← filterMap_eq_filter]
  refine filterMap_congr fun a ha => ?_
  cases hq : q a with
  | true => simp [hkeep a ha hq, hq]
  | false =>
    cases hf : f a with
    | none => simp [hq, Option.guard]
    | some b => simp [hq, hother a ha hq b hf, Option.guard]

variable (env) in
/-- `after` is the record that an apply of `applied` by `manager` leaves of `before`. -/
structure ExactOwnership (manager : String) (applied : FieldSet) (force : Bool)
    (before after : List DecodedEntry) : Prop where
  /-- The applier has an entry. -/
  recorded : ∃ e ∈ after, isMine manager e = true
  /-- It owns the applied paths and no other. -/
  mine : ∀ e ∈ after, isMine manager e = true → ∀ p, e.fields.owns env p = applied.owns env p
  /-- Without force every other entry is as it was. -/
  unforced : force = false →
    after.filter (fun e => !isMine manager e) = before.filter fun e => !isMine manager e
  /-- With force the entries that are not of an apply are as they were. -/
  updates : force = true →
    after.filter (fun e => e.operation = .update) = before.filter fun e => e.operation = .update
  /-- With force every other Apply entry is one from before without the applied paths. -/
  taken : force = true → ∀ e' ∈ after, isOtherApply manager e' = true →
    ∃ e ∈ before, isOtherApply manager e = true ∧ Reduced env applied e e'
  /-- With force an Apply entry that is left with a path is still there. -/
  kept : force = true → ∀ e ∈ before, isOtherApply manager e = true →
    (∃ p, e.fields.owns env p = true ∧ applied.owns env p = false) →
    ∃ e' ∈ after, isOtherApply manager e' = true ∧ Reduced env applied e e'

theorem isOtherApply_iff :
    isOtherApply manager e = true ↔ isMine manager e = false ∧ e.operation = .apply := by
  unfold isOtherApply isMine
  by_cases h : e.operation = .apply <;> simp [h]

section
variable {manager time : String} {applied : FieldSet} {force : Bool}
variable {e' : DecodedEntry}

theorem Reduced.isMine (h : Reduced env applied e e') (manager : String) :
    Engenho.isMine manager e' = Engenho.isMine manager e := by
  rw [Engenho.isMine, Engenho.isMine, h.manager, h.operation]

/-- An entry that is left is the applier's, an untouched one, or a reduced one. -/
theorem updatedEntry_cases (happlied : applied.WellFormed env)
    (hback : fromValue env (applied.toValue env) = applied) (he : decodeEntry env e.raw = some e)
    (hwf : e.fields.WellFormed env) (hread : e.fields.All (ReadsBack env))
    (h : updatedEntry env gvk manager applied force time e = some e') :
    (isMine manager e = true ∧ e' = ownEntry env gvk manager applied time) ∨
    (isMine manager e = false ∧ (force = false ∨ e.operation = .update) ∧ e' = e) ∨
    (isMine manager e = false ∧ force = true ∧ e.operation = .apply ∧
      Reduced env applied e e') := by
  cases hmine : isMine manager e with
  | true =>
    rw [updatedEntry_mine hback hmine] at h
    exact .inl ⟨rfl, (Option.some.inj h).symm⟩
  | false =>
    right
    by_cases hforce : force = false ∨ e.operation = .update
    · rw [updatedEntry_untouched he hmine hforce] at h
      exact .inl ⟨rfl, hforce, (Option.some.inj h).symm⟩
    obtain ⟨hf, hop⟩ := not_or.mp hforce
    obtain rfl : force = true := by simpa using hf
    have hop : e.operation = .apply := by
      cases hcase : e.operation with
      | apply => rfl
      | update => exact absurd hcase hop
    rcases updatedEntry_forced happlied he hwf hread hmine hop with ⟨hnone, -⟩ | ⟨e₁, hsome, hred⟩
    · rw [hnone] at h
      cases h
    · rw [hsome] at h
      rw [← Option.some.inj h]
      exact .inr ⟨rfl, rfl, hop, hred⟩

variable {entries : List DecodedEntry} (happlied : applied.WellFormed env)
  (hback : FieldSet.fromValue env (applied.toValue env) = applied)
  (hentries : ∀ e ∈ entries, decodeEntry env e.raw = some e ∧ e.fields.WellFormed env ∧
    e.fields.All (FieldSet.ReadsBack env))
include happlied hback hentries

theorem mem_updateOwnership
    (he' : e' ∈ decodeEntries env
      (.arr (updateOwnership env gvk entries manager applied force time))) :
    e' = ownEntry env gvk manager applied time ∨ ∃ e ∈ entries, isMine manager e = false ∧
      ((force = false ∨ e.operation = .update) ∧ e' = e ∨
        force = true ∧ e.operation = .apply ∧ Reduced env applied e e') := by
  rw [decodeEntries_updateOwnership entries manager hback, mem_append] at he'
  rcases he' with he' | he'
  · obtain ⟨e, he, hupd⟩ := mem_filterMap.mp he'
    obtain ⟨hraw, hwf, hread⟩ := hentries e he
    rcases updatedEntry_cases happlied hback hraw hwf hread hupd with ⟨-, hown⟩ | ⟨hmine,
      hsame⟩ | ⟨hmine, hred⟩
    · exact .inl hown
    · exact .inr ⟨e, he, hmine, .inl hsame⟩
    · exact .inr ⟨e, he, hmine, .inr hred⟩
  · split at he'
    · cases he'
    · exact .inl (mem_singleton.mp he')

/-- The entries in `q` stay as they are, when an apply touches none of them and makes none. -/
theorem filter_updateOwnership {q : DecodedEntry → Bool}
    (hown : q (ownEntry env gvk manager applied time) = false)
    (hkeep : ∀ e, q e = true → isMine manager e = false ∧ (force = false ∨ e.operation = .update))
    (hreduced : force = true → ∀ e e', Reduced env applied e e' → q e' = q e) :
    (decodeEntries env
      (.arr (updateOwnership env gvk entries manager applied force time))).filter q =
      entries.filter q := by
  have htail : (if entries.any (isMine manager) then [] else [ownEntry env gvk manager applied
    time]).filter q =
      [] := by
    split
    · rfl
    · simp [hown]
  rw [decodeEntries_updateOwnership entries manager hback, filter_append, htail, append_nil]
  refine filter_filterMap_of_keeps ?_ ?_
  · intro e he hq
    exact updatedEntry_untouched (hentries e he).1 (hkeep e hq).1 (hkeep e hq).2
  · intro e he hq e' hupd
    obtain ⟨hraw, hwf, hread⟩ := hentries e he
    rcases updatedEntry_cases happlied hback hraw hwf hread hupd with ⟨-, rfl⟩ | ⟨-, -,
      rfl⟩ | ⟨-, hf, -, hred⟩
    · exact hown
    · exact hq
    · rw [hreduced hf e e' hred, hq]

theorem exactOwnership_updateOwnership : ExactOwnership env manager applied force entries
      (decodeEntries env (.arr (updateOwnership env gvk entries manager applied force time))) where
  recorded := by
    refine ⟨ownEntry env gvk manager applied time, ?_, isMine_ownEntry ..⟩
    rw [decodeEntries_updateOwnership entries manager hback, mem_append]
    cases hany : entries.any (isMine manager) with
    | true =>
      obtain ⟨e, he, hmine⟩ := any_eq_true.mp hany
      exact .inl (mem_filterMap.mpr ⟨e, he, updatedEntry_mine hback hmine⟩)
    | false => exact .inr (by simp)
  mine := by
    intro e' he' hmine p
    rcases mem_updateOwnership happlied hback hentries he' with rfl | ⟨e, -, hother, hcase⟩
    · rfl
    have hsame : isMine manager e' = isMine manager e := by
      rcases hcase with ⟨-, rfl⟩ | ⟨-, -, hred⟩
      · rfl
      · exact hred.isMine manager
    rw [hsame, hother] at hmine
    cases hmine
  unforced := by
    intro hforce
    refine filter_updateOwnership happlied hback hentries (by simp [isMine_ownEntry]) ?_ ?_
    · intro e he
      exact ⟨by simpa using he, .inl hforce⟩
    · intro hforce'
      rw [hforce] at hforce'
      cases hforce'
  updates := by
    intro _
    refine filter_updateOwnership happlied hback hentries (by simp [ownEntry]) ?_ ?_
    · intro e he
      have hop : e.operation = .update := of_decide_eq_true he
      exact ⟨by simp [isMine, hop], .inr hop⟩
    · intro _ e e' hred
      rw [hred.operation]
  taken := by
    intro hforce e' he' hother
    obtain ⟨hmine', hop'⟩ := isOtherApply_iff.mp hother
    rcases mem_updateOwnership happlied hback hentries he' with rfl | ⟨e, he, hmine,
      ⟨hleft, rfl⟩ | ⟨-, hop, hred⟩⟩
    · rw [isMine_ownEntry] at hmine'
      cases hmine'
    · rcases hleft with hleft | hleft
      · rw [hforce] at hleft
        cases hleft
      · rw [hop'] at hleft
        cases hleft
    · exact ⟨e, he, isOtherApply_iff.mpr ⟨hmine, hop⟩, hred⟩
  kept := by
    rintro rfl e he hother ⟨p, hp, hnot⟩
    obtain ⟨hmine, hop⟩ := isOtherApply_iff.mp hother
    obtain ⟨hraw, hwf, hread⟩ := hentries e he
    have hforced : (updatedEntry env gvk manager applied true time e = none ∧ _) ∨ _ :=
      updatedEntry_forced happlied hraw hwf hread hmine hop
    rcases hforced with ⟨-, hall⟩ | ⟨e', hsome, hred⟩
    · rw [hall p hp] at hnot
      cases hnot
    · refine ⟨e', ?_, isOtherApply_iff.mpr
        ⟨by rw [hred.isMine, hmine], by rw [hred.operation, hop]⟩, hred⟩
      rw [decodeEntries_updateOwnership entries manager hback, mem_append]
      exact .inl (mem_filterMap.mpr ⟨e, he, hsome⟩)

end

/-- An apply on an object records what it applied, exactly; and a config's field set comes back from
its stored form. -/
theorem applySsa_ownership (env : Env) (gvk : Gvk) (config : Json)
    (hconfig : ∀ v ∈ (fieldsetOf env gvk config).labels, env.parse (env.render v) = some v) :
    (∀ p, (FieldSet.fromValue env ((fieldsetOf env gvk config).toValue env)).owns env p =
      (fieldsetOf env gvk config).owns env p) ∧
    ∀ (current : Json) (manager : String) (force : Bool) (time : String) (out : SsaOutcome),
      (∀ e ∈ readManagedFields env current, ∀ v ∈ e.fields.labels,
        env.parse (env.render v) = some v) →
      applySsa env gvk (some current) config manager force time = .ok out →
      ExactOwnership env manager (fieldsetOf env gvk config) force (readManagedFields env current)
        (decodeEntries env out.managedFields) := by
  have hwf : (fieldsetOf env gvk config).WellFormed env := fieldsetOf_wellFormed gvk config
  have hback := fromValue_toValue hwf (fieldsetOf_readsBack hconfig)
  refine ⟨fun p => by rw [hback], ?_⟩
  intro current manager force time out hstored hok
  obtain ⟨-, hmanaged, -⟩ := applySsa_ok hok
  rw [hmanaged]
  refine exactOwnership_updateOwnership hwf hback fun e he => ⟨readManagedFields_raw he,
    readManagedFields_wellFormed he, readManagedFields_readsBack he (hstored e he)⟩

/-- A pod the builder applied. -/
def builtPod : Json :=
  .obj [
    ("metadata", .obj [("managedFields", .arr [
      applyEntry "builder" (.obj [("f:spec", .obj [
        ("f:containers", .obj [("k:\x7b\"name\":\"web\"\x7d", .obj [
          ("f:image", ownedLeaf), ("f:name", ownedLeaf)])])])])])]),
    ("spec", .obj [("containers", .arr [.obj [("image", .str "web:1"), ("name", .str "web")]])])]

def newImage : Json :=
  .obj [("spec", .obj
    [("containers", .arr [.obj [("image", .str "web:2"), ("name", .str "web")]])])]

theorem forced_newImage_ownership :
    (fieldsetOf namedEnv podGvk newImage).labels = [.obj [("name", .str "web")]] ∧
    ∃ out, applySsa namedEnv podGvk (some builtPod) newImage "deployer" true "now" = .ok out ∧
      ExactOwnership namedEnv "deployer" (fieldsetOf namedEnv podGvk newImage) true
        (readManagedFields namedEnv builtPod) (decodeEntries namedEnv out.managedFields) := by
  refine ⟨by decide +kernel, _, rfl, ?_⟩
  exact (applySsa_ownership namedEnv podGvk newImage (by decide +kernel)).2 builtPod
    "deployer" true "now" _
    (by decide +kernel) rfl

/-- The builder applies a field and an empty list that is merged by key. -/
def emptyList : Json := .obj [("spec", .obj [("a", .num (.int 1)), ("containers", .arr [])])]

/-- An entry that names no manager. -/
def nameless : Json :=
  .obj [("fieldsV1", .obj [("f:spec", ownedLeaf)]), ("operation", .str "Apply")]

/-- A forced apply takes the last path of the builder's entry and leaves the entry; an apply of
nothing is recorded as an entry; and an entry that names no manager is gone after an apply without
force. -/
theorem applySsa_leaves_idle :
    (∃ created out, applySsa namedEnv podGvk none emptyList "builder" false "t0" = .ok created ∧
      applySsa namedEnv podGvk (some created.merged) (.obj [("spec", .obj [("a", .num (.int 2))])])
        "deployer" true "t1" = .ok out ∧
      ∃ e ∈ decodeEntries namedEnv out.managedFields, isOtherApply "deployer" e = true ∧
        e.fields.ownedPaths = []) ∧
    (∃ out, applySsa namedEnv podGvk (some builtPod) (.obj [("metadata", .obj [])]) "deployer" false
      "t1" = .ok out ∧
      ∃ e ∈ decodeEntries namedEnv out.managedFields, isMine "deployer" e = true ∧
      e.fields.ownedPaths = []) ∧
    ∃ out, applySsa namedEnv podGvk
        (some (.obj [("metadata", .obj [("managedFields", .arr [nameless])])]))
        newImage "deployer" false "t1" =
          .ok out ∧
      out.managedFields.asArray.any (fun entries => nameless ∉ entries) = true := by
  refine ⟨⟨_, _, rfl, rfl, ?_⟩, ⟨_, rfl, ?_⟩, _, rfl, ?_⟩ <;> decide +kernel

end Engenho
