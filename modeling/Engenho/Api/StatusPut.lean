import Engenho.Api.StatusPatch
import Engenho.Api.Proposal

/-!
# PUT of the status subresource

A PUT of `/status` is sent to the store as the merge patch `{"status": s}`. A merge patch keeps the
fields it does not name and removes those it sets to null, so the stored status is the one that was
sent only if it names every field of the old one again and carries no null (`overwrites`).

* `merge_eq_self_iff`: when a merge patch gives back the patch.
* `putStatus_replaces_iff`: when a PUT replaces the status.
* `putStatus_keeps_removed`: a field that was left out is still there.
-/

namespace Engenho
open Assoc ResourceCatalog Option

/-! ## The handler -/

/-- The revision an object says it is of. -/
def revisionOf (value : Json) : Option Nat :=
  ((metaField "resourceVersion" value).bind Json.asStr).bind parseUsize

/-- The patch a PUT sends and its precondition: the body's, or the revision of the object it
read. -/
def scopedStatus (env : Env) (live incoming : Json) : Except ApiError (Json × Option Nat) := do
  let expected ← bodyPrecondition env incoming
  return (.obj [("status", (incoming.get "status").getD .null)], expected.or (revisionOf live))

namespace WriteHandler

/-- A merge patch of a part of an object, proposed and read back. -/
def proposeScopedPatch (h : WriteHandler) (env : Env) (c : ResourceCatalog) (key : ResourceKey)
    (name : String) (patch : Json) (expected : Option Nat) (t : Turn) :
    ResourceCatalog × Except ApiError Json :=
  let out := c.propose env (.patch key patch .merge none expected) t
  (out.1, do
    let result ← out.2
    if result.op = .conflict then throw (h.rvConflict name expected)
    else if result.op = .patchRejected then
      throw (.badRequest (result.patchError.getD "patch rejected"))
    else
      match out.1.get key with
      | some stored => return stampTypeMeta h.toStoreBackedHandler stored
      | none => throw (.internal "subresource patch lost during commit"))

end WriteHandler

/-! ## Merging over an old value -/

mutual
/-- Every field of `old` is named again, at every level, and no field is null. -/
def overwrites (old : Json) : Json → Bool
  | .obj fields =>
    (old.asObject.getD []).all (fun e => (fields.lookup e.1).isSome) &&
      overwritesFields (old.asObject.getD []) fields
  | _ => true
def overwritesFields (old : JsonMap) : List (String × Json) → Bool
  | [] => true
  | (k, v) :: rest =>
    !v.isNull && overwrites ((old.lookup k).getD .null) v && overwritesFields old rest
end

variable {fields : JsonMap} {key : ResourceKey} {name : String}

theorem mergeRfc7396Fields_eq_self_iff {old : JsonMap} (hf : Sorted fields) (ho : Sorted old) :
    mergeRfc7396Fields old fields = fields ↔ (∀ e ∈ old, (fields.lookup e.1).isSome = true) ∧
      ∀ e ∈ fields, e.2.isNull = false ∧ mergeRfc7396 ((old.lookup e.1).getD .null) e.2 = e.2 := by
  constructor
  · intro h
    have hlookup : ∀ k, (mergeRfc7396Fields old fields).lookup k = fields.lookup k :=
      fun k => by rw [h]
    refine ⟨fun e he => ?_, fun e he => ?_⟩
    · have hk := hlookup e.1
      rw [lookup_mergeRfc7396Fields hf] at hk
      cases hl : fields.lookup e.1 with
      | some v => rfl
      | none =>
        rw [hl, ho.lookup_of_mem he] at hk
        cases hk
    · have hk := hlookup e.1
      rw [lookup_mergeRfc7396Fields hf, hf.lookup_of_mem he] at hk
      cases hnull : e.2.isNull with
      | true => simp [hnull] at hk
      | false => exact ⟨rfl, by simpa [hnull] using hk⟩
  · rintro ⟨hnamed, hsame⟩
    refine (sorted_mergeRfc7396Fields ho fields).ext hf fun k => ?_
    rw [lookup_mergeRfc7396Fields hf]
    cases hl : fields.lookup k with
    | some v =>
      obtain ⟨hnull, hv⟩ := hsame (k, v) (mem_of_lookup hl)
      simp [hnull, hv]
    | none =>
      cases hold : old.lookup k with
      | none => rfl
      | some v =>
        have := hnamed (k, v) (mem_of_lookup hold)
        rw [hl] at this
        cases this

mutual
/-- Merging `s` over `old` gives `s` back exactly if `s` overwrites `old`. -/
theorem merge_eq_self_iff : ∀ (s old : Json), s.canonical = true → old.canonical = true →
    (mergeRfc7396 old s = s ↔ overwrites old s = true)
  | .obj fields, old, hs, hold => by
    have hold := Json.canonicalFields_asObject hold
    rw [mergeRfc7396, Json.obj.injEq, overwrites, Bool.and_eq_true, List.all_eq_true,
      mergeRfc7396Fields_eq_self_iff (Json.sorted_of_canonicalFields hs)
        (Json.sorted_of_canonicalFields hold),
      overwritesFields_iff fields (old.asObject.getD []) hs hold]
  | .null, old, _, _ | .bool _, old, _, _ | .num _, old, _, _ | .str _, old, _,
    _ | .arr _, old, _, _ =>
    by simp [mergeRfc7396, overwrites]
theorem overwritesFields_iff : ∀ (fields old : JsonMap), Json.canonicalFields fields = true →
    Json.canonicalFields old = true →
    (overwritesFields old fields = true ↔ ∀ e ∈ fields, e.2.isNull = false ∧
      mergeRfc7396 ((old.lookup e.1).getD .null) e.2 = e.2)
  | [], old, _, _ => by simp [overwritesFields]
  | (k, v) :: rest, old, hs, hold => by
    simp only [Json.canonicalFields, Bool.and_eq_true] at hs
    have hvalue : ((old.lookup k).getD .null).canonical = true := by
      cases hl : old.lookup k with
      | none => rfl
      | some x => exact Json.canonical_of_lookup hold hl
    rw [overwritesFields, Bool.and_eq_true, Bool.and_eq_true, ← merge_eq_self_iff v _ hs.1.2 hvalue,
      overwritesFields_iff rest old hs.2 hold, List.forall_mem_cons, Bool.not_eq_true']
end

/-! ## What a PUT stores -/

/-- A merge patch of a live object, by what is there afterwards. -/
theorem applyPatch_merge_cases (env : Env) {res : Resources} {before : Json} {m : VersionMeta}
    (hlive : res.get key = some (before, m)) (patch : Json) (expected : Option Nat) (rev : Nat) :
    let out := applyPatch env res key patch .merge none expected .skip rev
    let merged := mergeRfc7396 before patch
    out.2.op = .conflict ∨ out.1.get key = none ∨
    (unchanged before merged none = true ∧ out.1.get key = some (before, m)) ∨
    (out.1.get key).map Prod.fst =
      some (stampRevision merged rev (computeGenerationOnPut (some before) merged)) := by
  simp only [applyPatch, hlive, PatchBody.fromRaw, applyPatchBody, reduceCtorEq, if_false]
  split
  · exact .inl rfl
  right
  split
  · rename_i hskip
    simp only [OnIdentical.skips, any_some, Bool.and_eq_true] at hskip
    exact .inr (.inl ⟨hskip.1, hlive⟩)
  unfold finalizerReleaseRemoval
  split
  · rename_i out hout
    split at hout
    · cases hout
    · cases hout
      exact .inl (OrdMap.get_erase_self ..)
  · exact .inr (.inr (by rw [OrdMap.get_insert_self]; rfl))

/-- The document a PUT makes of an object: only the status is another. -/
theorem merge_status (fields : JsonMap) {s : Json} (hs : s.isObject = true) :
    mergeRfc7396 (.obj fields) (.obj [("status", s)]) =
      .obj (put "status" (mergeRfc7396 ((fields.lookup "status").getD .null) s) fields) := by
  obtain ⟨inner, rfl⟩ := Json.isObject_iff.mp hs
  simp [mergeRfc7396, mergeRfc7396Fields, Json.isNull]

theorem keptOutside_merge_status (fields : JsonMap) (s : Json) :
    KeptOutside (.obj fields) (mergeRfc7396 (.obj fields) (.obj [("status", s)])) := by
  obtain ⟨fields', he, hm⟩ := merge_scoped fields (.obj [("status", s)])
  have hscoped : scopedFields (.obj [("status", s)]) = [("status", s)] := rfl
  rw [hscoped] at he
  rw [he, hm.keptOutside_iff]
  rfl

/-- A document that says nothing new has the field that was there. -/
theorem lookup_of_unchanged {x : Json} (hname : name ≠ "metadata")
    (h : unchanged (.obj fields) (.obj (put name x fields)) none = true) :
    fields.lookup name = some x := by
  simp only [unchanged, objectsEqualExcept, List.not_mem_nil, not_false_eq_true, decide_true,
    List.filter_true, Bool.and_eq_true, decide_eq_true_eq, List.all_eq_true] at h
  cases hl : fields.lookup name with
  | none =>
    have := h.1
    rw [length_put_of_lookup_none hl] at this
    omega
  | some o =>
    have hfield := h.2 (name, o) (mem_of_lookup hl)
    simpa [lookup_put_self, hname] using hfield

theorem AgreesOutsideStatus.refl (v : Json) : AgreesOutsideStatus v v :=
  ⟨fun _ _ _ => rfl, fun _ _ => rfl, rfl, fun _ => rfl⟩

namespace WriteHandler

theorem proposeScopedPatch_ok {h : WriteHandler} {env : Env} {c : ResourceCatalog}
    {patch answer : Json} {expected : Option Nat} {t : Turn}
    (ha : (h.proposeScopedPatch env c key name patch expected t).2 = .ok answer) :
    let out := dispatch env c.resources (.patch key patch .merge none expected) .skip
      (c.revision + 1)
    (h.proposeScopedPatch env c key name patch expected t).1.resources = out.1 ∧
      out.2.op ≠ .conflict ∧
      (out.1.get key).isSome = true := by
  unfold proposeScopedPatch at ha ⊢
  obtain ⟨result, hresult, ha⟩ := Except.of_bind_ok ha
  unfold propose at hresult ha ⊢
  split at hresult
  · cases hresult
  rename_i hread
  split at hresult
  · cases hresult
  rename_i hfailed
  simp only [hfailed] at ha ⊢
  cases hresult
  simp only [applyUnder, hread] at ha ⊢
  split at ha
  · cases ha
  rename_i hop
  split at ha
  · cases ha
  split at ha
  · rename_i stored hstored
    obtain ⟨e, he, -⟩ := map_eq_some_iff.mp hstored
    exact ⟨rfl, hop, by rw [isSome_iff_exists]; exact ⟨e, he⟩⟩
  · cases ha

/-- An accepted PUT of a status object makes the stored status the one that was sent, and leaves
everything else but the resource version, exactly if what was sent names every field of the old
status again and carries no null. -/
theorem putStatus_replaces_iff (h : WriteHandler) (env : Env) (capacity : Nat)
    (ops : List CatalogOp) (key : ResourceKey) (name : String) (t : Turn) (live incoming : Json)
    {s before patch answer : Json}
    {expected : Option Nat} (hbefore : (Logged.after env capacity ops).cat.get key = some before)
    (hobj : before.isObject = true) (hcanon : before.canonical = true)
    (hs : incoming.get "status" = some s) (hsobj : s.isObject = true) (hscanon : s.canonical = true)
    (hsend : scopedStatus env live incoming = .ok (patch, expected))
    (ha : (h.proposeScopedPatch env (Logged.after env capacity ops).cat key name patch
      expected t).2 =
      .ok answer) :
    ∃ after, (h.proposeScopedPatch env (Logged.after env capacity ops).cat key name patch expected
        t).1.get key = some after ∧
      (after.get "status" = some s ∧ AgreesOutsideStatus before after ↔
        overwrites ((before.get "status").getD .null) s = true) := by
  obtain ⟨⟨before, m⟩, hlive, rfl⟩ := Option.map_eq_some_iff.mp hbefore
  have hb := Logged.after_stampedMeta env capacity ops hlive
  obtain ⟨fields, hfields⟩ := Json.isObject_iff.mp hobj
  subst hfields
  obtain rfl : patch = .obj [("status", s)] := by
    obtain ⟨_, -, hsend⟩ := Except.of_bind_ok hsend
    rw [hs] at hsend
    exact (Prod.mk.inj (Except.ok.inj hsend)).1.symm
  obtain ⟨hres, hop, hsome⟩ := proposeScopedPatch_ok ha
  have hold : (((Json.obj fields).get "status").getD .null).canonical = true := by
    cases hl : fields.lookup "status" with
    | none => simp [hl, Json.canonical]
    | some o => simpa [hl] using Json.canonical_of_lookup hcanon hl
  have hmerge := merge_status fields hsobj
  rw [← merge_eq_self_iff s _ hscanon hold, ResourceCatalog.get, hres]
  rcases applyPatch_merge_cases env hlive (.obj [("status", s)]) expected
      ((Logged.after env capacity ops).cat.revision + 1) with
    hconflict | hgone | ⟨hunchanged, hsame⟩ | hstored
  · exact absurd hconflict hop
  · exact absurd (hsome.symm.trans (congrArg Option.isSome hgone)) (by simp)
  · -- nothing was stored: the status was the merged one already
    rw [hmerge] at hunchanged
    have hstatus := lookup_of_unchanged (by decide) hunchanged
    refine ⟨.obj fields, congrArg (Option.map Prod.fst) hsame, fun hw => ?_,
      fun hw => ⟨?_, .refl _⟩⟩
    · exact Option.some.inj (hstatus.symm.trans hw.1)
    · exact hstatus.trans (congrArg some hw)
  · refine ⟨_, hstored, ?_⟩
    rw [agreesOutsideStatus_iff hb rfl, get_stampRevision _ _ _ (by decide), hmerge, Json.get_obj,
      Assoc.lookup_put_self, ← hmerge]
    exact ⟨fun hw => Option.some.inj hw.1,
      fun hw => ⟨congrArg some hw, keptOutside_merge_status fields s⟩⟩

/-! ## Concrete PUTs -/

/-- A running pod with a message. -/
def storeRunning : CatalogOp :=
  .command (.put podKey (.obj [("metadata", .obj []),
    ("status", .obj [("message", .str "m"), ("phase", .str "Running")])]) none) .v1 1 1

def quiet : Turn := ⟨"t1", 1, 2, none, none⟩

def failedStatus : Json := .obj [("message", .str "n"), ("phase", .str "Failed")]

theorem putStatus_replaces_failed :
    let c := (Logged.after atomicEnv 4 [storeRunning]).cat
    let out := podWrites.proposeScopedPatch atomicEnv c podKey "web"
      (.obj [("status", failedStatus)])
      (some 1) quiet
    ∃ after, out.1.get podKey = some after ∧ after.get "status" = some failedStatus := by
  intro c out
  have hbefore : c.get podKey = some _ := rfl
  have hanswer : out.2 = .ok _ := rfl
  obtain ⟨after, hafter, hiff⟩ := putStatus_replaces_iff podWrites atomicEnv 4 [storeRunning] podKey
    "web" quiet .null (.obj [("metadata", .obj [("resourceVersion", .str "1")]),
      ("status", failedStatus)])
    hbefore rfl (by decide +kernel) rfl rfl (by decide +kernel) (by rfl) hanswer
  exact ⟨after, hafter, (hiff.mpr (by decide +kernel)).1⟩

/-- A PUT without the message, and one that sets it to null, are accepted: the first leaves the old
message, the second stores no null. -/
theorem putStatus_keeps_removed :
    let c := (Logged.after atomicEnv 4 [storeRunning]).cat
    let put (s : Json) := podWrites.proposeScopedPatch atomicEnv c podKey "web"
      (.obj [("status", s)])
      (some 1) quiet
    let without := Json.obj [("phase", .str "Failed")]
    let nulled := Json.obj [("message", .null), ("phase", .str "Failed")]
    (c.get podKey).map (fun live => scopedStatus atomicEnv live (.obj [("status", without)])) =
      some (.ok (.obj [("status", without)], some 1)) ∧
    (put without).2.toBool = true ∧
    ((put without).1.get podKey).bind (Json.get "status") =
      some (.obj [("message", .str "m"), ("phase", .str "Failed")]) ∧
    (put nulled).2.toBool = true ∧
    ((put nulled).1.get podKey).bind (Json.get "status") = some without := by
  decide +kernel

end WriteHandler
end Engenho
