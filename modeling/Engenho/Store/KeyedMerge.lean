import Engenho.Lib.KeyedList
import Engenho.Store.Directives

/-!
# Lists merged by key, element by element

What `mergeListByKey` makes of a list whose elements have distinct keys (`ElementWise`): each
element is merged with the patch elements that have its key, in their order, or deleted; the others
stay as they are; what is not deleted stays where it is, and new elements follow in the order of the
patch.

The names of the merge keys must not be directives, and the keys in the patch must be scalars: a
merge removes a null and merges objects, so that an element with such a key can lose it
(`mergeListByKey_gaps`).
-/

namespace Engenho
open KeyedList (Keyed Run erased)
section
variable (env : Env) (gvk : Gvk) (path : List String)

/-- What patch elements with one key, one after another, make of the element with that key. -/
def outcome : Option Json → List Json → Except PatchError (Option Json)
  | cur, [] => .ok cur
  | cur, p :: ps =>
    if deletes p then outcome none ps
    else
      match cur with
      | none => outcome (some (appended p)) ps
      | some e => do
        let merged ← strategicMerge env gvk path e p
        outcome (some merged) ps

/-- The list is merged one element at a time. -/
structure ElementWise (keys : List String) (existing ps out : List Json) : Prop where
  /-- Every element has a key, and no two the same. -/
  keyed : Keyed (keyOf keys) out
  /-- An element is what the patch elements with its key make of it; without any it is unchanged. -/
  each : ∀ pkey, outcome env gvk path (existing.find? fun e => keyOf keys e = some pkey)
      (ps.filter fun p => keyOf keys p = some pkey) =
      .ok (out.find? fun e => keyOf keys e = some pkey)
  /-- First the elements that no directive deletes, in their order, then the new ones in the
  patch's. -/
  order : ∃ news, out.map (keyOf keys) =
      (existing.map (keyOf keys)).filter
      (fun k => !ps.any fun p => deletes p && decide (keyOf keys p = k)) ++ news ∧
    news.Sublist (ps.map (keyOf keys))

end

section
variable {env : Env} {gvk : Gvk} {path keys : List String}

/-- A patch element with a key, which is made of scalars unless it is a key to delete. -/
def named (keys : List String) (p : Json) : Bool :=
  p.canonical && (keyOf keys p).any fun pkey => deletes p || pkey.all isScalar

variable {pkey : List Json}

theorem scalar_of_named {p : Json} (h : named keys p = true) (hdel : deletes p = false)
    (hkey : keyOf keys p = some pkey) : pkey.all isScalar = true := by
  simpa [named, hkey, hdel] using (Bool.and_eq_true_iff.mp h).2

section
variable (hnames : ∀ k ∈ keys, k ≠ patchSentinel ∧ k ≠ retainKeysSentinel)
include hnames

theorem keyOf_appended_self {p : Json} (hkey : keyOf keys p = some pkey) :
    keyOf keys (appended p) = some pkey := by
  obtain ⟨m, rfl, hm⟩ := keyOf_eq_some hkey
  rw [appended, keyOf_obj, ← hm]
  exact List.map_inj_left.mpr fun k hk => Assoc.lookup_drop_ne (hnames k hk).1 m

theorem KeyedStep.change {out mid : List Json} {p : Json}
    (h : KeyedStep env gvk path keys out p pkey mid)
    (hkey : keyOf keys p = some pkey) (hp : named keys p = true) :
    ∃ new, KeyedList.Change (keyOf keys) pkey out new mid ∧ new.isNone = deletes p ∧
      ∀ ps, outcome env gvk path (out.find? fun e => keyOf keys e = some pkey) (p :: ps) =
        outcome env gvk path new ps := by
  cases h with
  | absent hdel hout => exact ⟨none, .keep hout, hdel.symm, fun ps => by simp [outcome, hdel]⟩
  | append hdel hout =>
    have hnone := KeyedList.find?_none_of_not_mem (KeyedList.not_mem_keys hout)
    refine ⟨_, .add _ (keyOf_appended_self hnames hkey) hout, hdel.symm, fun ps => ?_⟩
    rw [hnone, outcome, hdel]
    rfl
  | delete idx hdel hout =>
    exact ⟨none, .erase idx hout, hdel.symm, fun ps => by simp [outcome, hdel]⟩
  | merge idx e merged hdel hout he hm =>
    have hc := (Bool.and_eq_true_iff.mp hp).1
    have hmerged := keyOf_strategicMerge hm hc hkey (scalar_of_named hp hdel hkey) hnames
    refine ⟨_, .put idx merged hmerged hout, hdel.symm, fun ps => ?_⟩
    rw [(keyOf_of_findIdx? hout he).2, outcome, hdel]
    simp only [Bool.false_eq_true, if_false, hm, bind, Except.bind]

theorem mergeListByKey_run {ps out out' : List Json} (hout : Keyed (keyOf keys) out)
    (hps : ∀ p ∈ ps, named keys p = true) (h : mergeListByKey env gvk keys path out ps = .ok out') :
    ∃ cs, Run (keyOf keys) out cs out' ∧ (cs.map fun c => some c.1) = ps.map (keyOf keys) ∧
      (∀ k, erased cs k = ps.any fun p => deletes p && decide (keyOf keys p = k)) ∧
      ∀ pkey, outcome env gvk path (out.find? fun e => keyOf keys e = some pkey)
        (ps.filter fun p => keyOf keys p = some pkey) = .ok (out'.find? fun e => keyOf keys e =
          some pkey) := by
  induction ps generalizing out with
  | nil =>
    cases h
    exact ⟨[], .nil _, rfl, fun _ => rfl, fun _ => rfl⟩
  | cons p ps ih =>
    obtain ⟨hp, hps⟩ := List.forall_mem_cons.mp hps
    obtain ⟨pkey, hkey, -⟩ := (Option.any_eq_true ..).mp (Bool.and_eq_true_iff.mp hp).2
    obtain ⟨mid, hstep, hrest⟩ := mergeListByKey_keyed hkey h
    obtain ⟨new, hchange, hnone, houtcome⟩ := hstep.change hnames hkey hp
    obtain ⟨cs, hrun, hcs, herased, heach⟩ := ih (hchange.keyed hout) hps hrest
    refine ⟨(pkey, new) :: cs, .cons hchange hrun, ?_, fun k => ?_, fun pkey' => ?_⟩
    · rw [List.map_cons, List.map_cons, hkey, hcs]
    · rw [List.any_cons, ← herased k, hkey, ← hnone, Bool.and_comm]
      rfl
    · by_cases hk : pkey' = pkey
      · subst hk
        rw [List.filter_cons_of_pos (by simp [hkey]), houtcome, ← heach, hchange.find?_self hout]
      · have hne : ¬ pkey = pkey' := fun h => hk h.symm
        rw [List.filter_cons_of_neg (by simp [hkey, hne]), ← heach, hchange.find?_other hout hk]

end

/-- A list with distinct keys, without directives, is merged element by element. It stays without
directives if the patch is tidy for it and, where the patch names each element once, only then. -/
theorem mergeListByKey_elementwise {existing ps out : List Json}
    (hexisting : Keyed (keyOf keys) existing) (hps : ∀ p ∈ ps, named keys p = true)
    (hnames : ∀ k ∈ keys, k ≠ patchSentinel ∧ k ≠ retainKeysSentinel)
    (hc : Json.canonicalList existing = true) (hfree : freeList false existing = true)
    (h : mergeListByKey env gvk keys path existing ps = .ok out) :
    ElementWise env gvk path keys existing ps out ∧
    (wellKeyedList env gvk false keys path ps = true →
      tidyList env gvk false keys path existing [] ps = true → freeList false out = true) ∧
    (wellKeyedList env gvk true keys path ps = true →
      (freeList false out = true ↔ tidyList env gvk false keys path existing [] ps = true)) := by
  have hcp : Json.canonicalList ps = true := Json.canonicalList_iff.mpr fun p hp =>
    (Bool.and_eq_true_iff.mp (hps p hp)).1
  have hself : withinList false existing existing = true :=
    withinList_iff.mpr fun x hx => .inl (freeList_iff.mp hfree x hx)
  have hkeep : ∀ {once}, wellKeyedList env gvk once keys path ps = true →
      tidyList env gvk false keys path existing [] ps = true → freeList false out = true :=
    fun hw ht => directiveFree_of_within (.arr out) (c := .arr existing)
      (mergeListByKey_within ps h hcp hw hc hc hfree (fun _ _ => rfl) ht hself)
  refine ⟨?_, hkeep, fun hw => ⟨fun hout => ?_, hkeep hw⟩⟩
  · obtain ⟨cs, hrun, hcs, herased, heach⟩ := mergeListByKey_run hnames hexisting hps h
    obtain ⟨news, hkeys, hsub⟩ := hrun.order hexisting
    refine ⟨hrun.keyed hexisting, heach, news, ?_, hcs ▸ hsub⟩
    rw [hkeys]
    simp [herased]
  · exact tidyList_of_mergeListByKey ps h hcp hw (freeList_iff.mp hfree) (fun _ _ => rfl)
      (by simp) hout

end

/-- Three containers of a pod. -/
def threeContainers : List Json :=
  [.obj [("name", .str "a"), ("tty", .bool true)], .obj [("name", .str "b")],
    .obj [("name", .str "d")]]

/-- One container is changed twice, one deleted, one new. -/
def containerPatch : List Json :=
  [.obj [("image", .str "x"), ("name", .str "a")],
    .obj [("$patch", .str "delete"), ("name", .str "b")],
    .obj [("name", .str "c")], .obj [("image", .str "y"), ("name", .str "a")]]

theorem threeContainers_elementwise :
    ∃ out, mergeListByKey podEnv podGvk ["name"]
    ["spec", "containers"] threeContainers containerPatch = .ok out ∧
      ElementWise podEnv podGvk ["spec", "containers"] ["name"] threeContainers containerPatch out ∧
      freeList false out = true := by
  have hout : mergeListByKey podEnv podGvk ["name"] ["spec", "containers"]
    threeContainers containerPatch = .ok _ := rfl
  have hall := mergeListByKey_elementwise ⟨by decide +kernel, by decide +kernel⟩ (by decide +kernel)
    (by decide +kernel) (by decide +kernel) (by decide +kernel) hout
  exact ⟨_, hout, hall.1, hall.2.1 (by decide +kernel) (by decide +kernel)⟩

/-- A new volume is appended with its `$retainKeys`, and naming an element by a null takes its key
away. -/
theorem mergeListByKey_gaps :
    let patch : List Json := [.obj [("$retainKeys", .arr [.str "name"]), ("name", .str "v")]]
    let merged := fun (existing ps : List Json) =>
      (mergeListByKey podEnv podGvk ["name"] ["spec", "volumes"] existing ps).toOption
    patch.all (named ["name"]) = true ∧
      (merged [] patch).any (fun out => !freeList false out) = true ∧
      merged [.obj [("name", .null)]] [.obj [("name", .null)]] = some [.obj []] := by
  decide +kernel

end Engenho
