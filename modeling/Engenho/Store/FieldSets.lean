import Engenho.Store.Ssa

/-!
# Ownership tries

What a `FieldSet` owns, operation by operation. The children of a node are found by the text of
their path element, so two paths with one text are one path to the trie (`owns_congr`).

* `WellFormed` tries have their children in order, each under its own text. The tries the code
  builds are well formed.
* `owns_removeOwnedPath` and `owns_subtractSet`: giving up paths is a set difference.
* `fromValue_toValue`: a trie comes back from its stored form, when the JSON values in its path
  elements (`labels`) come back from their texts.
* `idleBelow`: a trie may have nodes that lead to no owned path. A trie without them that is not
  empty owns something (`exists_owns`).
-/

namespace Engenho
open Assoc PathElement Option List

/-! ## Ownership tries -/

/-- Children are in the order of their keys, and a key is the text of its path element. -/
inductive FieldSet.WellFormed (env : Env) : FieldSet → Prop
  | node (own : Bool) (cs : List (String × PathElement × FieldSet)) (sorted : Assoc.Sorted cs)
      (keyed : ∀ e ∈ cs, e.1 = e.2.1.toFieldsV1Key env)
      (below : ∀ e ∈ cs, FieldSet.WellFormed env e.2.2) : FieldSet.WellFormed env (.node own cs)

namespace FieldSet
variable {env : Env}

theorem WellFormed.new : WellFormed env new := .node false [] List.Pairwise.nil (by simp) (by simp)

variable {s : FieldSet} {e : String × PathElement × FieldSet}

theorem WellFormed.own (h : WellFormed env s) : WellFormed env s.own := by
  cases h with
  | node own cs sorted keyed below => exact .node true cs sorted keyed below

theorem WellFormed.setChild {c : FieldSet} (h : WellFormed env s) (hc : WellFormed env c)
    (el : PathElement) :
    WellFormed env (s.setChild env el c) := by
  cases h with
  | node own cs sorted keyed below =>
    have hkey : el.toFieldsV1Key env =
        (((cs.lookup (el.toFieldsV1Key env)).map Prod.fst).getD el).toFieldsV1Key env := by
      cases hl : cs.lookup (el.toFieldsV1Key env) with
      | none => rfl
      | some entry => exact keyed _ (mem_of_lookup hl)
    refine .node own _ sorted.put ?_ ?_
    · intro e he
      rcases mem_put he with rfl | he
      · exact hkey
      · exact keyed e he
    · intro e he
      rcases mem_put he with rfl | he
      · exact hc
      · exact below e he

variable {el : PathElement} {cs : List (String × PathElement × FieldSet)} {p : Path}

theorem WellFormed.child? {c : FieldSet} (h : WellFormed env s) (hc : s.child? env el = some c) :
    WellFormed env c := by
  cases h with
  | node own cs sorted keyed below =>
    obtain ⟨e, hl, rfl⟩ := map_eq_some_iff.mp hc
    exact below _ (mem_of_lookup hl)

theorem WellFormed.childOr (h : WellFormed env s) (el : PathElement) :
    WellFormed env (s.childOr env el) := by
  unfold FieldSet.childOr
  cases hc : s.child? env el with
  | none => exact .new
  | some c => exact h.child? hc

theorem WellFormed.removeChild (h : WellFormed env s) (el : PathElement) :
    WellFormed env (s.removeChild env el) := by
  cases h with
  | node own cs sorted keyed below =>
    exact .node own _ sorted.drop (fun e he => keyed e (mem_of_mem_filter he))
      (fun e he => below e (mem_of_mem_filter he))

theorem mem_childPaths (h : p ∈ childPaths cs) :
    ∃ e ∈ cs, ∃ els ∈ e.2.2.ownedPaths, p = e.2.1 :: els := by
  induction cs with
  | nil => simp [childPaths] at h
  | cons c cs ih =>
    simp only [childPaths, mem_append, List.mem_map] at h
    rcases h with ⟨els, hels, rfl⟩ | h
    · exact ⟨_, mem_cons_self .., els, hels, rfl⟩
    · obtain ⟨e, he, hrest⟩ := ih h
      exact ⟨e, mem_cons_of_mem _ he, hrest⟩

theorem mem_childPaths_of (he : e ∈ cs) {els : Path} (hels : els ∈ e.2.2.ownedPaths) :
    e.2.1 :: els ∈ childPaths cs := by
  induction cs with
  | nil => cases he
  | cons c cs ih =>
    rw [childPaths, mem_append]
    rcases mem_cons.mp he with rfl | he
    · exact .inl (mem_map_of_mem hels)
    · exact .inr (ih he)

theorem owns_of_mem (hs : WellFormed env s) (h : p ∈ s.ownedPaths) : s.owns env p = true := by
  induction p generalizing s with
  | nil =>
    cases s with
    | node own cs =>
      simp only [ownedPaths, mem_append] at h
      rcases h with h | h
      · cases own with
        | true => rfl
        | false => cases h
      · obtain ⟨e, -, els, -, he⟩ := mem_childPaths h
        cases he
  | cons el p ih =>
    cases hs with
    | node own cs sorted keyed below =>
      have hchild : el :: p ∈ childPaths cs := by
        simp only [ownedPaths, mem_append] at h
        rcases h with h | h
        · cases own <;> simp at h
        · exact h
      obtain ⟨e, he, els, hels, heq⟩ := mem_childPaths hchild
      cases heq
      have hl : cs.lookup (e.2.1.toFieldsV1Key env) = some e.2 := by
        rw [← keyed e he]
        exact sorted.lookup_of_mem he
      have hchild? : (node own cs).child? env e.2.1 = some e.2.2 := by simp [child?, children, hl]
      simp only [owns, hchild?]
      exact ih (below e he) hels

/-! ## Lookups -/

theorem child?_setChild (s c : FieldSet) (el el' : PathElement) :
    (s.setChild env el c).child? env el' =
      if el'.toFieldsV1Key env = el.toFieldsV1Key env then some c else s.child? env el' := by
  simp only [setChild, child?, children, lookup_put]
  split <;> rfl

theorem child?_removeChild (s : FieldSet) (el el' : PathElement) :
    (s.removeChild env el).child? env el' =
      if el'.toFieldsV1Key env = el.toFieldsV1Key env then none else s.child? env el' := by
  simp only [removeChild, child?, children, lookup_drop]
  split <;> rfl

theorem owns_cons (s : FieldSet) (el : PathElement) (els : Path) :
    s.owns env (el :: els) = (s.child? env el).any fun c => c.owns env els := by
  rw [owns]
  cases s.child? env el <;> rfl

theorem owns_of_isEmpty (h : s.isEmpty = true) (p : Path) : s.owns env p = false := by
  obtain ⟨own, cs⟩ := s
  simp only [isEmpty, Bool.and_eq_true, Bool.not_eq_true', List.isEmpty_iff] at h
  obtain ⟨rfl, rfl⟩ := h
  cases p <;> rfl

variable (env) in
/-- The texts of a path, by which a trie finds it. -/
def texts (p : Path) : List String := p.map (PathElement.toFieldsV1Key env)

@[simp] theorem texts_cons (el : PathElement) (p : Path) :
    texts env (el :: p) = el.toFieldsV1Key env :: texts env p := rfl

theorem owns_congr {q : Path} (h : texts env p = texts env q) (s : FieldSet) :
    s.owns env p = s.owns env q := by
  induction p generalizing q s with
  | nil =>
    obtain rfl : q = [] := map_eq_nil_iff.mp h.symm
    rfl
  | cons el p ih =>
    cases q with
    | nil => cases h
    | cons el' q =>
      obtain ⟨hel, hrest⟩ := List.cons.inj h
      have hchild : s.child? env el = s.child? env el' := by rw [child?, child?, hel]
      rw [owns_cons, owns_cons, hchild]
      cases s.child? env el' with
      | none => rfl
      | some c => exact ih hrest c

/-- An owned path is listed, up to its text. -/
theorem exists_mem_ownedPaths (hs : WellFormed env s) (h : s.owns env p = true) :
    ∃ q ∈ s.ownedPaths, texts env q = texts env p := by
  induction p generalizing s with
  | nil =>
    cases s with
    | node own cs =>
      obtain rfl : own = true := h
      exact ⟨[], by simp [ownedPaths], rfl⟩
  | cons el p ih =>
    cases hs with
    | node own cs sorted keyed below =>
      rw [owns_cons] at h
      obtain ⟨c, hc, howns⟩ := (any_eq_true _ _).mp h
      obtain ⟨⟨el', c'⟩, hl, rfl⟩ := map_eq_some_iff.mp hc
      have hmem := mem_of_lookup hl
      obtain ⟨q, hq, htexts⟩ := ih (below _ hmem) howns
      refine ⟨el' :: q, ?_, ?_⟩
      · rw [ownedPaths, mem_append]
        exact .inr (mem_childPaths_of hmem hq)
      · have hkey : el.toFieldsV1Key env = el'.toFieldsV1Key env := keyed _ hmem
        rw [texts_cons, texts_cons, htexts, hkey]

/-! ## Giving up paths -/

theorem WellFormed.removeOwnedPath (h : WellFormed env s) (p : Path) :
    WellFormed env (removeOwnedPath env s p) := by
  induction p generalizing s with
  | nil =>
    cases h with
    | node own cs sorted keyed below => exact .node false cs sorted keyed below
  | cons el p ih =>
    unfold Engenho.removeOwnedPath
    cases hc : s.child? env el with
    | none => exact h
    | some c =>
      dsimp only
      split
      · exact h.removeChild el
      · exact h.setChild (ih (h.child? hc)) el

/-- Giving up a path gives up nothing else. -/
theorem owns_removeOwnedPath (s : FieldSet) (p q : Path) :
    (removeOwnedPath env s p).owns env q =
    (s.owns env q && decide (texts env q ≠ texts env p)) := by
  induction p generalizing s q with
  | nil =>
    cases q with
    | nil => simp [removeOwnedPath, owns, selfOwned]
    | cons el' q => simp [removeOwnedPath, owns_cons, child?, children, texts]
  | cons el p ih =>
    unfold removeOwnedPath
    cases hc : s.child? env el with
    | none =>
      cases q with
      | nil => simp [texts]
      | cons el' q =>
        by_cases hel : el'.toFieldsV1Key env = el.toFieldsV1Key env
        · have hnone : s.child? env el' = none := by rw [child?, hel]; exact hc
          simp [owns_cons, hnone]
        · simp [hel]
    | some c =>
      cases q with
      | nil =>
        dsimp only
        split <;> simp [owns, setChild, removeChild, selfOwned, texts]
      | cons el' q =>
        by_cases hel : el'.toFieldsV1Key env = el.toFieldsV1Key env
        · -- the path goes into the child that lost `p`
          have hsome : s.child? env el' = some c := by rw [child?, hel]; exact hc
          have hchild := ih c q
          dsimp only
          split
          · rename_i hempty
            rw [owns_of_isEmpty hempty] at hchild
            simp only [owns_cons, child?_removeChild, hel, if_true, hsome, any_none, any_some,
              texts_cons, ne_eq, List.cons.injEq, true_and]
            exact hchild
          · simp only [owns_cons, child?_setChild, hel, if_true, hsome, any_some, texts_cons, ne_eq,
              List.cons.injEq, true_and]
            exact hchild
        · dsimp only
          split
          · simp [owns_cons, child?_removeChild, hel]
          · simp [owns_cons, child?_setChild, hel]

/-- The paths that are left of `s` are those `remove` does not own. -/
theorem owns_subtractSet (s : FieldSet) {remove : FieldSet} (hr : WellFormed env remove)
    (q : Path) : (subtractSet env s remove).owns env q = (s.owns env q && !remove.owns env q) := by
  have hfold : ∀ (ps : List Path) (s : FieldSet),
      (ps.foldl (fun s p => removeOwnedPath env s p) s).owns env q =
        (s.owns env q && !ps.any fun p => decide (texts env q = texts env p)) := by
    intro ps
    induction ps with
    | nil => simp
    | cons p ps ih =>
      intro s
      rw [foldl_cons, ih, owns_removeOwnedPath, Bool.and_assoc]
      simp
  have hany : (remove.ownedPaths.any fun p => decide (texts env q = texts env p)) =
      remove.owns env q := by
    rw [Bool.eq_iff_iff, List.any_eq_true]
    constructor
    · rintro ⟨p, hp, htexts⟩
      rw [owns_congr (of_decide_eq_true htexts)]
      exact owns_of_mem hr hp
    · intro h
      obtain ⟨p, hp, htexts⟩ := exists_mem_ownedPaths hr h
      exact ⟨p, hp, decide_eq_true htexts.symm⟩
  rw [subtractSet, hfold, hany]

theorem WellFormed.subtractSet (h : WellFormed env s) (remove : FieldSet) :
    WellFormed env (subtractSet env s remove) := by
  unfold Engenho.subtractSet
  generalize remove.ownedPaths = ps
  induction ps generalizing s with
  | nil => exact h
  | cons p ps ih => exact ih (h.removeOwnedPath p)

/-! ## The path elements of a trie -/

/-- Every path element of the trie is in `P`. -/
inductive All (P : PathElement → Prop) : FieldSet → Prop
  | node (own : Bool) (cs : List (String × PathElement × FieldSet)) (here : ∀ e ∈ cs, P e.2.1)
      (below : ∀ e ∈ cs, All P e.2.2) : All P (.node own cs)

section
variable {P : PathElement → Prop} {s c : FieldSet}

theorem All.new : All P new := .node false [] (by simp) (by simp)

section
variable (h : All P s)
include h

theorem All.own : All P s.own := by
  cases h with
  | node own cs here below => exact .node true cs here below

theorem All.child? (hc : s.child? env el = some c) : All P c := by
  cases h with
  | node own cs here below =>
    obtain ⟨e, hl, rfl⟩ := map_eq_some_iff.mp hc
    exact below _ (mem_of_lookup hl)

theorem All.childOr (el : PathElement) : All P (s.childOr env el) := by
  unfold FieldSet.childOr
  cases hc : s.child? env el with
  | none => exact .new
  | some c => exact h.child? hc

theorem All.removeChild (el : PathElement) : All P (s.removeChild env el) := by
  cases h with
  | node own cs here below =>
    exact .node own _ (fun e he => here e (mem_of_mem_filter he))
      (fun e he => below e (mem_of_mem_filter he))

/-- A new child comes under `el`, or under the path element that was there. -/
theorem All.setChild (hc : All P c) (hel : P el ∨ s.child? env el ≠ none) :
    All P (s.setChild env el c) := by
  cases h with
  | node own cs here below =>
    have hkey : P (((cs.lookup (el.toFieldsV1Key env)).map Prod.fst).getD el) := by
      cases hl : cs.lookup (el.toFieldsV1Key env) with
      | none =>
        rcases hel with hel | hel
        · exact hel
        · simp [FieldSet.child?, children, hl] at hel
      | some entry => exact here _ (mem_of_lookup hl)
    refine .node own _ ?_ ?_
    · intro e he
      rcases mem_put he with rfl | he
      · exact hkey
      · exact here e he
    · intro e he
      rcases mem_put he with rfl | he
      · exact hc
      · exact below e he

theorem All.removeOwnedPath (p : Path) : All P (removeOwnedPath env s p) := by
  induction p generalizing s with
  | nil =>
    cases h with
    | node own cs here below => exact .node false cs here below
  | cons el p ih =>
    unfold Engenho.removeOwnedPath
    cases hc : s.child? env el with
    | none => exact h
    | some c =>
      dsimp only
      split
      · exact h.removeChild el
      · exact h.setChild (ih (h.child? hc)) (.inr (by simp [hc]))

theorem All.subtractSet (remove : FieldSet) : All P (subtractSet env s remove) := by
  unfold Engenho.subtractSet
  generalize remove.ownedPaths = ps
  induction ps generalizing s with
  | nil => exact h
  | cons p ps ih => exact ih (h.removeOwnedPath p)

end
end

/-! ## The tries the code builds -/

/-- What a config's metadata adds to the child of its field. -/
def metadataChild (env : Env) (gvk : Gvk) (path : List String) (s : FieldSet) (k : String) :
    Json → FieldSet
  | .obj fs => buildMetadataFieldset env gvk (path ++ [k]) (s.childOr env (.field k)) fs
  | _ => s.childOr env (.field k)

variable (env) in
/-- `I` holds of what is built from path elements in `P`. -/
structure Kept (P : PathElement → Prop) (I : FieldSet → Prop) : Prop where
  new : I new
  own : ∀ {s : FieldSet}, I s → I s.own
  childOr : ∀ {s : FieldSet} (el : PathElement), I s → I (s.childOr env el)
  setChild : ∀ {s c : FieldSet} {el : PathElement}, I s → I c → P el → I (s.setChild env el c)
  removeChild : ∀ {s : FieldSet} (el : PathElement), I s → I (s.removeChild env el)

theorem Kept.wellFormed : Kept env (fun _ => True) (WellFormed env) where
  new := .new
  own := WellFormed.own
  childOr el h := h.childOr el
  setChild h hc _ := h.setChild hc _
  removeChild el h := h.removeChild el

theorem Kept.all (P : PathElement → Prop) : Kept env P (All P) where
  new := .new
  own := All.own
  childOr el h := h.childOr el
  setChild h hc hel := h.setChild hc (.inl hel)
  removeChild el h := h.removeChild el

section
variable {P : PathElement → Prop} {I : FieldSet → Prop} (kept : Kept env P I)
include kept

mutual
theorem Kept.fromValue (hP : ∀ k el, PathElement.fromFieldsV1Key env k = some el → P el) :
    ∀ v : Json, I (fromValue env v)
  | .obj fields => Kept.fromFields hP fields kept.new
  | .null | .bool _ | .num _ | .str _ | .arr _ => kept.new
theorem Kept.fromFields (hP : ∀ k el, PathElement.fromFieldsV1Key env k = some el → P el) :
    ∀ (fields : List (String × Json)) {s : FieldSet}, I s → I (fromFields env s fields)
  | [], _, h => h
  | (k, v) :: rest, s, h => by
    unfold Engenho.FieldSet.fromFields
    split
    · exact Kept.fromFields hP rest (kept.own h)
    · split
      · rename_i el hel
        exact Kept.fromFields hP rest (kept.setChild h (Kept.fromValue hP v) (hP k el hel))
      · exact Kept.fromFields hP rest h
end

variable {gvk : Gvk}
omit kept in
theorem buildFields_cons (path : List String) (s : FieldSet) (k : String) (v : Json)
    (rest : JsonMap) :
    buildFields env gvk path s ((k, v) :: rest) = if path = [] ∧ k = "metadata" then
        buildFields env gvk path
          (if (metadataChild env gvk path s k v).isEmpty then s.removeChild env (.field k)
          else s.setChild env (.field k) (metadataChild env gvk path s k v)) rest
      else
        buildFields env gvk path (s.setChild env (.field k)
          (buildFieldset env gvk (path ++ [k]) (s.childOr env (.field k)) v)) rest := by
  cases v <;> rfl

variable (hP : ∀ el : PathElement, (∀ i, el ≠ .index i) → P el)
include hP

mutual
theorem Kept.buildFieldset (path : List String) : ∀ (config : Json) {s : FieldSet}, I s →
    I (buildFieldset env gvk path s config)
  | .obj [], _, h => kept.own h
  | .obj (f :: fs), _, h => Kept.buildFields path (f :: fs) h
  | .arr xs, s, h => by
    unfold Engenho.buildFieldset
    split
    · exact kept.own h
    · refine List.foldlRecOn xs _ h ?_
      intro s hs v _
      exact kept.setChild hs (kept.own (kept.childOr _ hs)) (hP _ (by simp))
    · exact Kept.buildListFieldset _ path xs h
    · exact Kept.buildListFieldset _ path xs h
  | .null, _, h | .bool _, _, h | .num _, _, h | .str _, _, h => kept.own h
theorem Kept.buildFields (path : List String) :
    ∀ (fields : List (String × Json)) {s : FieldSet}, I s →
    I (buildFields env gvk path s fields)
  | [], _, h => h
  | (k, v) :: rest, s, h => by
    rw [buildFields_cons]
    have hchild := kept.childOr (.field k) h
    split
    · -- the metadata: an empty child is taken away again
      have hmeta : I (metadataChild env gvk path s k v) := match v with
        | .obj fs => Kept.buildMetadataFieldset _ fs hchild
        | .null | .bool _ | .num _ | .str _ | .arr _ => hchild
      refine Kept.buildFields path rest ?_
      split
      · exact kept.removeChild _ h
      · exact kept.setChild h hmeta (hP _ (by simp))
    · exact Kept.buildFields path rest
        (kept.setChild h (Kept.buildFieldset _ v hchild) (hP _ (by simp)))
theorem Kept.buildMetadataFieldset (path : List String) :
    ∀ (fields : List (String × Json)) {s : FieldSet}, I s →
    I (buildMetadataFieldset env gvk path s fields)
  | [], _, h => h
  | (k, v) :: rest, s, h => by
    unfold Engenho.buildMetadataFieldset
    split
    · exact Kept.buildMetadataFieldset path rest h
    · exact Kept.buildMetadataFieldset path rest
        (kept.setChild h (Kept.buildFieldset _ v (kept.childOr _ h)) (hP _ (by simp)))
theorem Kept.buildListFieldset (keys path : List String) : ∀ (xs : List Json) {s : FieldSet}, I s →
    I (buildListFieldset env gvk keys path s xs)
  | [], _, h => h
  | .obj m :: rest, s, h => by
    exact Kept.buildListFieldset keys path rest
      (kept.setChild h (Kept.buildFieldset path (.obj m) (kept.childOr _ h)) (hP _ (by simp)))
  | .null :: rest, s, h | .bool _ :: rest, s, h | .num _ :: rest, s, h | .str _ :: rest, s, h
  | .arr _ :: rest, s, h => Kept.buildListFieldset keys path rest
      (kept.setChild h (kept.own (kept.childOr _ h)) (hP _ (by simp)))
end

theorem Kept.fieldsetOf (config : Json) : I (fieldsetOf env gvk config) :=
  Kept.buildFieldset kept hP [] config kept.new

end

theorem fromValue_wellFormed (v : Json) : WellFormed env (fromValue env v) :=
  Kept.wellFormed.fromValue (fun _ _ _ => trivial) v

theorem fieldsetOf_wellFormed (gvk : Gvk) (config : Json) :
    WellFormed env (fieldsetOf env gvk config) :=
  Kept.wellFormed.fieldsetOf (fun _ _ => trivial) config

/-! ## The stored form -/

variable (env) in
/-- The text of a path element is read as the path element. -/
def ReadsBack (el : PathElement) : Prop :=
  PathElement.fromFieldsV1Key env (el.toFieldsV1Key env) = some el

theorem readsBack_field (name : String) : ReadsBack env (.field name) := by
  simp [ReadsBack, toFieldsV1Key, fromFieldsV1Key]

theorem readsBack_key {keys : JsonMap} (h : env.parse (env.render (.obj keys)) = some (.obj keys)) :
    ReadsBack env (.key keys) := by
  simp [ReadsBack, toFieldsV1Key, fromFieldsV1Key, h]

theorem readsBack_value {v : Json} (h : env.parse (env.render v) = some v) :
    ReadsBack env (.value v) := by
  simp [ReadsBack, toFieldsV1Key, fromFieldsV1Key, h]

theorem readsBack_index {i : Nat} (h : i < 2 ^ 64) : ReadsBack env (.index i) := by
  have htext : ("i:" ++ toString i).toList = 'i' :: ':' :: (toString i).toList := by simp
  simp only [ReadsBack, toFieldsV1Key, fromFieldsV1Key, htext, String.ofList_toList,
    parseUsize_toString, h, if_true, map_some]

/-- The JSON values a path element is written with. -/
def elementLabels : PathElement → List Json
  | .key keys => [.obj keys]
  | .value v => [v]
  | _ => []

mutual
/-- The JSON values in the path elements of a trie. -/
def labels : FieldSet → List Json
  | .node _ cs => childLabels cs
def childLabels : List (String × PathElement × FieldSet) → List Json
  | [] => []
  | (_, el, c) :: rest => elementLabels el ++ labels c ++ childLabels rest
end

theorem mem_childLabels (he : e ∈ cs) {v : Json} (hv : v ∈ elementLabels e.2.1 ∨ v ∈ labels e.2.2) :
    v ∈ childLabels cs := by
  induction cs with
  | nil => cases he
  | cons c cs ih =>
    rw [childLabels, mem_append, mem_append]
    rcases mem_cons.mp he with rfl | he
    · exact .inl hv
    · exact .inr (ih he)

/-- An index in a path is a 64-bit number. -/
def IndexFits : PathElement → Prop
  | .index i => i < 2 ^ 64
  | _ => True

/-- A trie whose values come back from their texts has path elements that come back. -/
theorem All.readsBack (h : All IndexFits s)
    (hlabels : ∀ v ∈ s.labels, env.parse (env.render v) = some v) :
    All (ReadsBack env) s := by
  induction h with
  | node own cs here below ih =>
    refine .node own cs ?_ ?_
    · intro e he
      have hmine : ∀ v ∈ elementLabels e.2.1, env.parse (env.render v) = some v :=
        fun v hv => hlabels v (mem_childLabels he (.inl hv))
      have hfits := here e he
      cases hel : e.2.1 with
      | field name => exact readsBack_field name
      | key keys =>
        rw [hel] at hmine
        exact readsBack_key (hmine _ (mem_singleton_self _))
      | value v =>
        rw [hel] at hmine
        exact readsBack_value (hmine _ (mem_singleton_self _))
      | index i =>
        rw [hel] at hfits
        exact readsBack_index hfits
    · intro e he
      exact ih e he fun v hv => hlabels v (mem_childLabels he (.inr hv))

/-- The mark of an owned node comes before every path element. -/
theorem dot_lt_toFieldsV1Key (el : PathElement) : "." < el.toFieldsV1Key env := by
  have hfirst : ∀ (c : Char) (rest : List Char), '.' < c → ".".toList < c :: rest :=
    fun c rest h => List.Lex.rel h
  rw [String.lt_iff_toList_lt]
  cases el with
  | field name => simpa [toFieldsV1Key] using hfirst 'f' _ (by decide)
  | key keys => simpa [toFieldsV1Key] using hfirst 'k' _ (by decide)
  | value v => simpa [toFieldsV1Key] using hfirst 'v' _ (by decide)
  | index i => simpa [toFieldsV1Key] using hfirst 'i' _ (by decide)

theorem childValues_eq (sorted : Assoc.Sorted cs) (keyed : ∀ e ∈ cs, e.1 = e.2.1.toFieldsV1Key env)
    {out : JsonMap} (hout : ∀ o ∈ out, ∀ e ∈ cs, o.1 < e.1) :
    childValues env out cs = out ++ cs.map fun e => (e.1, e.2.2.toValue env) := by
  induction cs generalizing out with
  | nil => simp [childValues]
  | cons c cs ih =>
    obtain ⟨key, el, s⟩ := c
    have hkey : key = el.toFieldsV1Key env := keyed _ (.head _)
    obtain ⟨hlt, hsorted⟩ := pairwise_cons.mp sorted
    have hlast : ∀ o ∈ out, o.1 < key := fun o ho => hout o ho _ (.head _)
    rw [childValues, ← hkey, put_of_forall_lt hlast,
      ih hsorted (fun e he => keyed e (.tail _ he)) ?_]
    · simp
    intro o ho e he
    rcases mem_append.mp ho with ho | ho
    · exact hout o ho e (.tail _ he)
    · rw [mem_singleton.mp ho]
      exact hlt e he

theorem fromFields_map (sorted : Assoc.Sorted cs) (keyed : ∀ e ∈ cs, e.1 = e.2.1.toFieldsV1Key env)
    (hread : ∀ e ∈ cs, ReadsBack env e.2.1)
    (hback : ∀ e ∈ cs, fromValue env (e.2.2.toValue env) = e.2.2)
    (own : Bool) {front : List (String × PathElement × FieldSet)}
    (hfront : ∀ o ∈ front, ∀ e ∈ cs, o.1 < e.1) :
    fromFields env (.node own front) (cs.map fun e => (e.1, e.2.2.toValue env)) =
      .node own (front ++ cs) := by
  induction cs generalizing front with
  | nil => simp [fromFields]
  | cons c cs ih =>
    obtain ⟨key, el, s⟩ := c
    obtain rfl : key = el.toFieldsV1Key env := keyed _ (.head _)
    obtain ⟨hlt, hsorted⟩ := pairwise_cons.mp sorted
    have hel : fromFieldsV1Key env (el.toFieldsV1Key env) = some el := hread _ (.head _)
    have hs : fromValue env (s.toValue env) = s := hback _ (.head _)
    have hlast : ∀ o ∈ front, o.1 < el.toFieldsV1Key env := fun o ho => hfront o ho _ (.head _)
    have hset : (FieldSet.node own front).setChild env el s =
        .node own (front ++ [(el.toFieldsV1Key env, el, s)]) := by
      simp [setChild, children, selfOwned, lookup_of_forall_lt hlast, put_of_forall_lt hlast]
    rw [map_cons, fromFields, if_neg (dot_lt_toFieldsV1Key el).ne', hel]
    dsimp only
    rw [hs, hset, ih hsorted (fun e he => keyed e (.tail _ he))
      (fun e he => hread e (.tail _ he)) (fun e he => hback e (.tail _ he)) ?_]
    · simp
    intro o ho e he
    rcases mem_append.mp ho with ho | ho
    · exact hfront o ho e (.tail _ he)
    · rw [mem_singleton.mp ho]
      exact hlt e he

theorem fromValue_toValue (hs : WellFormed env s) (hread : All (ReadsBack env) s) :
    fromValue env (s.toValue env) = s := by
  induction hs with
  | node own cs sorted keyed below ih =>
    cases hread with
    | node _ _ here hbelow =>
      have hback : ∀ e ∈ cs, fromValue env (e.2.2.toValue env) = e.2.2 :=
        fun e he => ih e he (hbelow e he)
      have hdot : ∀ o ∈ [((".", .obj []) : String × Json)], ∀ e ∈ cs, o.1 < e.1 := by
        intro o ho e he
        rw [mem_singleton.mp ho, keyed e he]
        exact dot_lt_toFieldsV1Key _
      cases own with
      | false =>
        simp only [toValue]
        rw [childValues_eq sorted keyed (by simp)]
        exact fromFields_map sorted keyed here hback false (by simp)
      | true =>
        simp only [toValue, if_true]
        rw [childValues_eq sorted keyed hdot]
        exact fromFields_map sorted keyed here hback true (by simp [new, children])

/-! ## Nodes that lead nowhere -/

mutual
/-- Below the root of the trie there is a node that is not owned and has no children. -/
def idleBelow : FieldSet → Bool
  | .node _ cs => idleChildren cs
def idleChildren : List (String × PathElement × FieldSet) → Bool
  | [] => false
  | (_, _, c) :: rest => c.isEmpty || idleBelow c || idleChildren rest
end

theorem idleChildren_eq (cs : List (String × PathElement × FieldSet)) :
    idleChildren cs = cs.any fun e => e.2.2.isEmpty || e.2.2.idleBelow := by
  induction cs with
  | nil => rfl
  | cons e cs ih => rw [idleChildren, ih, any_cons]

theorem idleBelow_eq_false :
    s.idleBelow = false ↔ ∀ e ∈ s.children, e.2.2.isEmpty = false ∧ e.2.2.idleBelow = false := by
  cases s with
  | node own cs => simp [idleBelow, idleChildren_eq, children]

theorem idleBelow_removeOwnedPath (h : s.idleBelow = false) (p : Path) :
    (removeOwnedPath env s p).idleBelow = false := by
  induction p generalizing s with
  | nil =>
    cases s with
    | node own cs => exact h
  | cons el p ih =>
    have hs := idleBelow_eq_false.mp h
    unfold removeOwnedPath
    cases hc : s.child? env el with
    | none => exact h
    | some c =>
      dsimp only
      split
      · refine idleBelow_eq_false.mpr fun e he => hs e (mem_of_mem_filter he)
      rename_i hne
      obtain ⟨entry, hl, rfl⟩ := map_eq_some_iff.mp hc
      have hchild := (hs _ (mem_of_lookup hl)).2
      refine idleBelow_eq_false.mpr fun e he => ?_
      rcases mem_put he with rfl | he
      · exact ⟨by simpa using hne, ih hchild⟩
      · exact hs e he

theorem idleBelow_subtractSet (h : s.idleBelow = false) (remove : FieldSet) :
    (subtractSet env s remove).idleBelow = false := by
  unfold subtractSet
  generalize remove.ownedPaths = ps
  induction ps generalizing s with
  | nil => exact h
  | cons p ps ih => exact ih (idleBelow_removeOwnedPath h p)

/-- A trie without idle nodes that is not empty owns something. -/
theorem exists_owns (hs : WellFormed env s) (hidle : s.idleBelow = false)
    (hempty : s.isEmpty = false) :
    ∃ p, s.owns env p = true := by
  induction hs with
  | node own cs sorted keyed below ih =>
    cases own with
    | true => exact ⟨[], rfl⟩
    | false =>
      cases cs with
      | nil => cases hempty
      | cons e cs =>
        have he : e ∈ e :: cs := (.head _)
        obtain ⟨hne, hbelow⟩ := idleBelow_eq_false.mp hidle e he
        obtain ⟨p, hp⟩ := ih e he hbelow hne
        refine ⟨e.2.1 :: p, ?_⟩
        have hl := sorted.lookup_of_mem he
        rw [keyed e he] at hl
        rw [owns_cons, child?, children, hl]
        exact hp

end FieldSet
end Engenho
