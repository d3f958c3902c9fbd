import Engenho.Api.FieldValidation

/-!
# What the field check keeps, and what the scan sees

`pruned` is the value a typed decode would keep: without the keys a struct of the schema does not
have.

* `removeAll_walk`: removing the reported paths one after the other leaves the pruned value.
  Removing a key moves no other path, since lists keep their elements and no reported path lies
  inside another.
* `visit_finds`: what the walk of the decoded value reports, the scan of the text finds.
* `clean_of_visit`: a text of which the scan finds nothing has no unknown and no repeated key where
  the schema describes it.
* `checkObject_keeps`: the check. `checkObject_keeps_raw`: where it does not look.
-/

namespace Engenho
open StrictPath Assoc List Option
variable {row : Row}

/-! ## The shape of an object and of a list -/

/-- The shapes of the keys of an object of this shape, where it has keys. -/
def Shape.field? : Shape → Option (String → Option ShapeId)
  | .struct fields => some fun key => fields.lookup key
  | .map values => some fun _ => some values
  | _ => none

/-- The shape of the elements of a list of this shape, where it is one. -/
def Shape.item? : Shape → Option ShapeId
  | .list items => some items
  | _ => none

variable (id : ShapeId) (field : String → Option ShapeId) (path : StrictPath) (map : JsonMap)

theorem walk_obj : walk row id path (.obj map) =
      ((row.shape id).field?.map fun field => walkFields row field path map).getD [] := by
  rw [walk]
  cases row.shape id <;> rfl

theorem walk_arr (xs : List Json) : walk row id path (.arr xs) =
      ((row.shape id).item?.map fun items => walkList row items path 0 xs).getD [] := by
  rw [walk]
  cases row.shape id <;> rfl

/-- What the walk reports of one key. -/
def walkKey (row : Row) (field : String → Option ShapeId) (path : StrictPath) (key : String)
    (child : Json) : List StrictPath :=
  match field key with
  | some id => walk row id (path ++ [.key key]) child
  | none => [path.child key]

theorem walkFields_cons (key : String)
    (child : Json) (rest : JsonMap) : walkFields row field path ((key, child) :: rest) =
      walkKey row field path key child ++ walkFields row field path rest := by
  rfl

theorem walkFields_eq :
    walkFields row field path map = map.flatMap fun e => walkKey row field path e.1 e.2 := by
  induction map with
  | nil => rfl
  | cons e rest ih => rw [walkFields_cons, ih, flatMap_cons]

theorem walkList_eq (items : ShapeId) (path : StrictPath) (index : Nat) (xs : List Json) :
    walkList row items path index xs =
      (xs.zipIdx index).flatMap fun e => walk row items (path ++ [.index e.2]) e.1 := by
  induction xs generalizing index with
  | nil => rfl
  | cons x xs ih => rw [walkList, ih, zipIdx_cons, flatMap_cons]

/-! ## What a kind knows of a value -/

mutual
/-- A value without the fields its schema does not know. -/
def pruned (row : Row) (id : ShapeId) : Json → Json
  | .obj map =>
    match (row.shape id).field? with
    | some field => .obj (prunedFields row field map)
    | none => .obj map
  | .arr elements =>
    match (row.shape id).item? with
    | some items => .arr (prunedList row items elements)
    | none => .arr elements
  | v => v
def prunedFields (row : Row) (field : String → Option ShapeId) : List (String × Json) → JsonMap
  | [] => []
  | (key, child) :: rest =>
    match field key with
    | some id => (key, pruned row id child) :: prunedFields row field rest
    | none => prunedFields row field rest
def prunedList (row : Row) (items : ShapeId) : List Json → List Json
  | [] => []
  | child :: rest => pruned row items child :: prunedList row items rest
end

theorem prunedFields_eq (field : String → Option ShapeId) (map : JsonMap) :
    prunedFields row field map =
      map.filterMap fun e => (field e.1).map fun id => (e.1, pruned row id e.2) := by
  induction map with
  | nil => rfl
  | cons e rest ih =>
    rw [prunedFields]
    cases hf : field e.1 <;> simp [hf, ih]

theorem prunedList_eq (items : ShapeId) (xs : List Json) :
    prunedList row items xs = xs.map (pruned row items) := by
  induction xs with
  | nil => rfl
  | cons x xs ih => rw [prunedList, ih, map_cons]

theorem lookup_prunedFields (field : String → Option ShapeId) (map : JsonMap) (k : String) :
    (prunedFields row field map).lookup k =
      (map.lookup k).bind fun child => (field k).map fun id => pruned row id child := by
  induction map with
  | nil => rfl
  | cons e rest ih =>
    obtain ⟨key, child⟩ := e
    rw [prunedFields, lookup_cons_ite]
    by_cases hk : k = key
    · subst hk
      cases hf : field k with
      | some id => simp
      | none => simp [ih, hf]
    · rw [if_neg hk]
      split
      · rw [lookup_cons_ite, if_neg hk, ih]
      · exact ih

variable {field : String → Option ShapeId} {map : JsonMap} {path : StrictPath}

theorem sorted_prunedFields (h : Assoc.Sorted map) (field : String → Option ShapeId) :
    Assoc.Sorted (prunedFields row field map) := by
  rw [prunedFields_eq]
  refine h.filterMap _ fun a b hab a' ha b' hb => ?_
  obtain ⟨_, -, rfl⟩ := map_eq_some_iff.mp ha
  obtain ⟨_, -, rfl⟩ := map_eq_some_iff.mp hb
  exact hab

/-- Nothing of a pruned value is unknown. -/
theorem walk_pruned (id : ShapeId) (path : StrictPath) (v : Json) :
    walk row id path (pruned row id v) = [] := by
  induction v generalizing id path with
  | obj map ih =>
    rw [pruned]
    cases hf : (row.shape id).field? with
    | none => simp [walk_obj, hf]
    | some field =>
      rw [walk_obj, hf, map_some, walkFields_eq, prunedFields_eq]
      refine flatMap_eq_nil_iff.mpr fun e he => ?_
      obtain ⟨e', he', h⟩ := mem_filterMap.mp he
      obtain ⟨id', hid, rfl⟩ := map_eq_some_iff.mp h
      simp only [walkKey, hid]
      exact ih e' he' id' _
  | arr xs ih =>
    rw [pruned]
    cases hi : (row.shape id).item? with
    | none => simp [walk_arr, hi]
    | some items =>
      rw [walk_arr, hi, map_some, walkList_eq, prunedList_eq]
      refine flatMap_eq_nil_iff.mpr fun e he => ?_
      obtain ⟨x, hx, hxe⟩ := mem_map.mp (fst_mem_of_mem_zipIdx he)
      rw [← hxe]
      exact ih x hx items _
  | _ => rfl

/-! ## Removing what the walk reports -/

/-- The paths of a walk go on from where it starts. -/
theorem walk_append (pre path : StrictPath) (id : ShapeId) (v : Json) :
    walk row id (pre ++ path) v = (walk row id path v).map (pre ++ ·) := by
  induction v generalizing id path with
  | obj map ih =>
    rw [walk_obj, walk_obj]
    cases (row.shape id).field? with
    | none => rfl
    | some field =>
      simp only [map_some, getD_some, walkFields_eq, map_flatMap]
      refine flatMap_congr fun e he => ?_
      unfold walkKey
      cases field e.1 with
      | some id => simp [ih e he]
      | none => simp [StrictPath.child]
  | arr xs ih =>
    rw [walk_arr, walk_arr]
    cases (row.shape id).item? with
    | none => rfl
    | some items =>
      simp only [map_some, getD_some, walkList_eq, map_flatMap]
      refine flatMap_congr fun e he => ?_
      rw [append_assoc, ih e.1 (fst_mem_of_mem_zipIdx he)]
  | _ => rfl

variable {id : ShapeId} {a b : Findings}

/-- A walk reports keys of the value, never the value itself. -/
theorem walk_ne_nil {p : StrictPath} {v : Json} (h : p ∈ walk row id [] v) : p ≠ [] := by
  have below : ∀ {step : PathStep} {id : ShapeId} {child : Json}, p ∈ walk row id [step] child →
      p ≠ [] := by
    intro step id child h
    rw [← append_nil [step], walk_append] at h
    obtain ⟨q, -, rfl⟩ := mem_map.mp h
    exact cons_ne_nil _ _
  cases v with
  | obj map =>
    rw [walk_obj] at h
    cases hf : (row.shape id).field? with
    | none => simp [hf] at h
    | some field =>
      rw [hf, map_some, walkFields_eq] at h
      obtain ⟨e, -, h⟩ := mem_flatMap.mp h
      unfold walkKey at h
      split at h
      · exact below h
      · rw [mem_singleton.mp h]
        exact cons_ne_nil _ _
  | arr xs =>
    rw [walk_arr] at h
    cases hi : (row.shape id).item? with
    | none => simp [hi] at h
    | some items =>
      rw [hi, map_some, walkList_eq] at h
      obtain ⟨e, -, h⟩ := mem_flatMap.mp h
      exact below h
  | _ => cases h

/-- The value without the fields at the paths, one after the other. -/
def removeAll (paths : List StrictPath) (value : Json) : Json :=
  paths.foldl (fun value path => removeFrom path value) value

theorem removeAll_append (ps qs : List StrictPath) (v : Json) :
    removeAll (ps ++ qs) v = removeAll qs (removeAll ps v) := foldl_append ..

/-- Removing below a key changes the value of that key. -/
theorem removeAll_key {k : String} {ps : List StrictPath} (hps : ∀ p ∈ ps, p ≠ [])
    (hs : Assoc.Sorted map) {c : Json} (hc : map.lookup k = some c) :
    removeAll (ps.map (.key k :: ·)) (.obj map) = .obj (Assoc.put k (removeAll ps c) map) := by
  induction ps generalizing map c with
  | nil => exact congrArg Json.obj (hs.put_of_lookup hc).symm
  | cons p ps ih =>
    have hp := hps p (by simp)
    have hstep : removeFrom (.key k :: p) (.obj map) = .obj (Assoc.put k (removeFrom p c) map) := by
      rw [removeFrom]
      simp [hp, hc]
    rw [map_cons, removeAll, foldl_cons, hstep, ← removeAll,
      ih (fun q hq => hps q (.tail _ hq)) hs.put (lookup_put_self ..), put_put]
    rfl

/-- Removing below an index changes the element there. -/
theorem removeAll_index (i : Nat) (ps : List StrictPath) (xs : List Json) :
    removeAll (ps.map (.index i :: ·)) (.arr xs) = .arr (xs.modify i (removeAll ps)) := by
  induction ps generalizing xs with
  | nil =>
    have hid : removeAll [] = id := rfl
    rw [hid, modify_id]
    rfl
  | cons p ps ih =>
    have hstep : removeFrom (.index i :: p) (.arr xs) = .arr (xs.modify i (removeFrom p)) := rfl
    rw [map_cons, removeAll, foldl_cons, hstep, ← removeAll, ih, modify_modify_eq]
    rfl

mutual
/-- Removing all that is unknown of a value leaves what the schema knows of it. -/
theorem removeAll_walk (id : ShapeId) : ∀ v : Json, v.canonical = true →
    removeAll (walk row id [] v) v = pruned row id v
  | .obj map, hv => by
    have hs := Json.sorted_of_canonicalFields hv
    rw [walk_obj, pruned]
    cases (row.shape id).field? with
    | none => rfl
    | some field =>
      obtain ⟨map', hmap', hs', hlookup⟩ := removeAll_walkFields field map hs hs hv
        fun e he => hs.lookup_of_mem he
      refine hmap'.trans (congrArg Json.obj (hs'.ext (sorted_prunedFields hs field) fun k => ?_))
      rw [hlookup, lookup_prunedFields]
      cases hk : map.lookup k with
      | some c | none => simp
  | .arr elements, hv => by
    rw [walk_arr, pruned]
    cases (row.shape id).item? with
    | none => rfl
    | some items => exact removeAll_walkList items [] elements hv
  | .null, _ | .bool _, _ | .num _, _ | .str _, _ => rfl
/-- The keys that are still to come stand in the map as they did. -/
theorem removeAll_walkFields (field : String → Option ShapeId) : ∀ (todo : JsonMap) {map : JsonMap},
    Assoc.Sorted map → Assoc.Sorted todo → Json.canonicalFields todo = true →
    (∀ e ∈ todo, map.lookup e.1 = some e.2) →
    ∃ map', removeAll (walkFields row field [] todo) (.obj map) = .obj map' ∧ Assoc.Sorted map' ∧
      ∀ k, map'.lookup k = match todo.lookup k with
        | some child => (field k).map fun id => pruned row id child
        | none => map.lookup k
  | [], map, hs, _, _, _ => ⟨map, rfl, hs, fun _ => rfl⟩
  | (key, child) :: rest, map, hs, htodo, hcanon, hsame => by
    obtain ⟨hfirst, hrest⟩ := List.pairwise_cons.mp htodo
    have hchild := hsame (key, child) (by simp)
    simp only [Json.canonicalFields, Bool.and_eq_true] at hcanon
    have hkey : rest.lookup key = none := by
      cases hl : rest.lookup key with
      | none => rfl
      | some c => exact absurd (hfirst _ (mem_of_lookup hl)) (lt_irrefl key)
    -- the step at this key: its value is pruned, or it is gone
    have hstep : ∃ mid, removeAll (walkKey row field [] key child) (.obj map) = .obj mid ∧
        Assoc.Sorted mid ∧ mid.lookup key = ((field key).map fun id => pruned row id child) ∧
        ∀ k, k ≠ key → mid.lookup k = map.lookup k := by
      unfold walkKey
      cases field key with
      | none =>
        exact ⟨Assoc.drop key map, rfl, hs.drop, lookup_drop_self ..,
          fun k hk => lookup_drop_ne hk map⟩
      | some id =>
        refine ⟨Assoc.put key (pruned row id child) map, ?_, hs.put, lookup_put_self .., fun k hk =>
          lookup_put_ne hk ..⟩
        have hpaths : walk row id [.key key] child = (walk row id [] child).map (.key key :: ·) :=
          walk_append [.key key] [] id child
        simp only [List.nil_append, hpaths]
        rw [removeAll_key (fun p hp => walk_ne_nil hp) hs hchild,
          removeAll_walk id child hcanon.1.2]
    obtain ⟨mid, hmid, hsmid, hself, hother⟩ := hstep
    obtain ⟨map', hmap', hs', hlookup⟩ :=
      removeAll_walkFields field rest hsmid hrest hcanon.2 fun e he => by
      rw [hother e.1 (hfirst e he).ne']
      exact hsame e (.tail _ he)
    refine ⟨map', by rw [walkFields_cons, removeAll_append, hmid, hmap'], hs', fun k => ?_⟩
    rw [hlookup, lookup_cons_ite]
    by_cases hk : k = key
    · subst hk
      rw [hkey, if_pos rfl]
      exact hself
    · rw [if_neg hk, hother k hk]
theorem removeAll_walkList (items : ShapeId) :
    ∀ (done todo : List Json), Json.canonicalList todo = true →
    removeAll (walkList row items [] done.length todo) (.arr (done ++ todo)) =
      .arr (done ++ prunedList row items todo)
  | done, [], _ => by rw [prunedList]; rfl
  | done, child :: rest, hcanon => by
    simp only [Json.canonicalList, Bool.and_eq_true] at hcanon
    have hpaths : walk row items [.index done.length] child =
        (walk row items [] child).map (.index done.length :: ·) :=
      walk_append [.index done.length] [] items child
    have hmodify : (done ++ child :: rest).modify done.length
      (removeAll (walk row items [] child)) =
        (done ++ [pruned row items child]) ++ rest := by
      rw [← removeAll_walk items child hcanon.1]
      simp [List.modify_eq_take_cons_drop]
    have ih := removeAll_walkList items (done ++ [pruned row items child]) rest hcanon.2
    rw [List.length_append, List.length_singleton] at ih
    rw [walkList, removeAll_append, List.nil_append, hpaths, removeAll_index, hmodify,
      ih, prunedList, List.append_assoc]
    rfl
end

/-! ## The fields a kind knows -/

/-- The value at a path. -/
def resolve : StrictPath → Json → Option Json
  | [], v => some v
  | .key k :: rest, v => (v.get k).bind (resolve rest)
  | .index i :: rest, v => (v.asArray.bind fun xs => xs[i]?).bind (resolve rest)

/-- The shape the schema has at a path, if it knows the path. -/
def Row.follow (row : Row) (id : ShapeId) : StrictPath → Option ShapeId
  | [] => some id
  | .key k :: rest =>
    ((row.shape id).field?.bind fun field => field k).bind fun id => row.follow id rest
  | .index _ :: rest => (row.shape id).item?.bind fun id => row.follow id rest

/-- A field the schema knows is still there, pruned as its own shape says. -/
theorem resolve_pruned {id' : ShapeId} (h : row.follow id path = some id') (v : Json) :
    resolve path (pruned row id v) = (resolve path v).map (pruned row id') := by
  induction path generalizing id v with
  | nil =>
    cases h
    rfl
  | cons step rest ih =>
    cases step with
    | key k =>
      obtain ⟨idk, hk, hrest⟩ := bind_eq_some_iff.mp h
      obtain ⟨field, hfield, hk⟩ := bind_eq_some_iff.mp hk
      cases v with
      | obj map =>
        rw [pruned, hfield]
        simp only [resolve, Json.get_obj, lookup_prunedFields, hk]
        cases map.lookup k with
        | none => rfl
        | some child => exact ih hrest child
      | arr xs =>
        have hget : (pruned row id (.arr xs)).get k = none := by
          rw [pruned]
          split <;> rfl
        simp only [resolve, hget]
        rfl
      | _ => rfl
    | index i =>
      obtain ⟨items, hitems, hrest⟩ := bind_eq_some_iff.mp h
      cases v with
      | arr xs =>
        rw [pruned, hitems]
        simp only [resolve, Json.asArray, bind_some, prunedList_eq, List.getElem?_map]
        cases xs[i]? with
        | none => rfl
        | some child => exact ih hrest child
      | obj map =>
        have hget : (pruned row id (.obj map)).asArray = none := by
          rw [pruned]
          split <;> rfl
        simp only [resolve, hget]
        rfl
      | _ => rfl

theorem canonical_of_resolve {v w : Json} (hv : v.canonical = true) (h : resolve path v = some w) :
    w.canonical = true := by
  induction path generalizing v with
  | nil =>
    cases h
    exact hv
  | cons step rest ih =>
    cases step with
    | key k =>
      obtain ⟨c, hc, hrest⟩ := bind_eq_some_iff.mp h
      cases v with
      | obj map => exact ih (Json.canonical_of_lookup hv hc) hrest
      | _ => cases hc
    | index i =>
      obtain ⟨c, hc, hrest⟩ := bind_eq_some_iff.mp h
      cases v with
      | arr xs => exact ih (Json.canonicalList_iff.mp hv c (mem_of_getElem? hc)) hrest
      | _ => cases hc

/-! ## Decoding -/

mutual
theorem canonical_decoded : ∀ doc : Json, (decoded doc).canonical = true
  | .obj fields => canonicalFields_decoded rfl fields
  | .arr xs => canonicalList_decoded xs
  | .null | .bool _ | .num _ | .str _ => rfl
theorem canonicalFields_decoded {map : JsonMap} (hmap : Json.canonicalFields map = true) :
    ∀ fields : JsonMap, Json.canonicalFields (decodedFields map fields) = true
  | [] => by exact hmap
  | (k, v) :: rest => by
    exact canonicalFields_decoded (Json.canonicalFields_put hmap (canonical_decoded v) k) rest
theorem canonicalList_decoded : ∀ xs : List Json, Json.canonicalList (decodedList xs) = true
  | [] => rfl
  | x :: xs => by
    rw [decodedList, Json.canonicalList, canonical_decoded x, canonicalList_decoded xs]
    rfl
end

/-- A field of the decoded value stands in the text. -/
theorem mem_decodedFields {fields : JsonMap} {k : String} {c : Json}
    (h : (k, c) ∈ decodedFields map fields) :
    (k, c) ∈ map ∨ ∃ v, (k, v) ∈ fields ∧ c = decoded v := by
  induction fields generalizing map with
  | nil => exact .inl h
  | cons e rest ih =>
    obtain ⟨k', v⟩ := e
    rcases ih h with h | ⟨w, hw, rfl⟩
    · rcases mem_put h with he | h
      · cases he
        exact .inr ⟨v, by simp, rfl⟩
      · exact .inl h
    · exact .inr ⟨w, mem_cons_of_mem _ hw, rfl⟩

/-! ## What the scan finds -/

/-- Nothing that was found is lost. -/
def Findings.Grows (a b : Findings) : Prop := ∃ more, b.items = a.items ++ more

theorem Findings.Grows.refl (a : Findings) : a.Grows a := ⟨[], by simp⟩

theorem Findings.Grows.trans {c : Findings} (h : a.Grows b) (h' : b.Grows c) : a.Grows c := by
  obtain ⟨more, hm⟩ := h
  obtain ⟨more', hm'⟩ := h'
  exact ⟨more ++ more', by rw [hm', hm, append_assoc]⟩

theorem Findings.grows_record (a : Findings) (f : Finding) : a.Grows (a.record f) := by
  unfold Findings.record
  split
  · exact ⟨[f], rfl⟩
  · exact .refl a

/-- The finding was made, or there was no more room for it. -/
def Findings.Notes (found : Findings) (f : Finding) : Prop :=
  f ∈ found.items ∨ maxFindings ≤ found.items.length

theorem Findings.notes_record (found : Findings) (f : Finding) : (found.record f).Notes f := by
  unfold Findings.record
  split
  · exact .inl (by simp)
  · rename_i h
    by_cases hf : f ∈ found.items
    · exact .inl hf
    · exact .inr (by simp only [hf, not_false_eq_true, and_true] at h; omega)

theorem Findings.Notes.mono {f : Finding} (h : a.Notes f) (hg : a.Grows b) : b.Notes f := by
  obtain ⟨more, hm⟩ := hg
  rcases h with h | h
  · exact .inl (by rw [hm]; exact mem_append_left _ h)
  · exact .inr (by rw [hm, length_append]; omega)

theorem Findings.Grows.nil (h : a.Grows b) (hb : b.items = []) : a.items = [] := by
  obtain ⟨more, hm⟩ := h
  rw [hb] at hm
  exact (append_eq_nil_iff.mp hm.symm).1

namespace Scanner
variable {s : Scanner}

theorem grows_duplicateCheck (path : StrictPath) (key : String) (seen : List String)
    (found : Findings) :
    found.Grows (s.duplicateCheck path key seen found).2 := by
  unfold duplicateCheck
  split
  · exact found.grows_record _
  · exact .refl found

theorem grows_enter (here : At) (path : StrictPath) (key : String) (seen : List String)
    (found : Findings) : found.Grows (s.enter here path key seen found).2.2 := by
  unfold enter
  split
  · exact .refl found
  · exact .refl found
  · exact grows_duplicateCheck ..
  · split
    · exact grows_duplicateCheck ..
    · split
      · exact grows_duplicateCheck ..
      · exact found.grows_record _
  · split
    · split
      · exact grows_duplicateCheck ..
      · exact found.grows_record _
    · exact grows_duplicateCheck ..
    · exact .refl found

mutual
theorem grows_visit (here : At) (path : StrictPath) (found : Findings) :
    ∀ doc : Json, found.Grows (s.visit here path found doc)
  | .obj fields => by exact grows_visitMap here path [] found fields
  | .arr xs => by exact grows_visitSeq (s.element here) path 0 found xs
  | .null | .bool _ | .num _ | .str _ => .refl found
theorem grows_visitSeq (element : At) (path : StrictPath) (index : Nat) (found : Findings) :
    ∀ xs : List Json, found.Grows (s.visitSeq element path index found xs)
  | [] => by exact .refl found
  | x :: xs =>
    by exact (grows_visit element _ found x).trans (grows_visitSeq element path (index + 1) _ xs)
theorem grows_visitMap (here : At) (path : StrictPath) (seen : List String) (found : Findings) :
    ∀ fields : JsonMap, found.Grows (s.visitMap here path seen found fields)
  | [] => by exact .refl found
  | (key, value) :: rest => by
    exact ((grows_enter here path key seen found).trans (grows_visit _ _ _ value)).trans
      (grows_visitMap here path _ _ rest)
end
end Scanner

/-- The scanner of a kind's body. -/
def Row.scanner (row : Row) : Scanner := ⟨some row, .object⟩

theorem enter_typed (id : ShapeId) (path : StrictPath) (key : String) (seen : List String)
    (found : Findings) (hfield : (row.shape id).field? = some field) :
    row.scanner.enter (.typed id) path key seen found = match field key with
      | some f => (.typed f, row.scanner.duplicateCheck path key seen found)
      | none => (.raw, seen, row.scanner.found .unknown path key found) := by
  have hshape : row.scanner.shape id = row.shape id := rfl
  rw [Scanner.enter, hshape]
  cases hs : row.shape id with
  | struct fields | map values =>
    rw [hs] at hfield
    cases hfield
    rfl
  | list | leaf | raw => simp [hs, Shape.field?] at hfield

theorem element_typed {items : ShapeId} (hitems : (row.shape id).item? = some items) :
    row.scanner.element (.typed id) = .typed items := by
  have hshape : row.scanner.shape id = row.shape id := rfl
  rw [Scanner.element, hshape]
  cases hs : row.shape id with
  | list => simpa [hs, Shape.item?] using hitems
  | _ => simp [hs, Shape.item?] at hitems

mutual
/-- What the walk of the decoded value reports, the scan of the text finds. -/
theorem visit_finds : ∀ (doc : Json) {id : ShapeId} {path p : StrictPath} (found : Findings),
    p ∈ walk row id path (decoded doc) →
    (row.scanner.visit (.typed id) path found doc).Notes ⟨.unknown, p, .object⟩
  | .obj fields, id, path, p, found, h => by
    rw [decoded, walk_obj] at h
    cases hf : (row.shape id).field? with
    | none => simp [hf] at h
    | some field =>
      rw [hf, Option.map_some, walkFields_eq] at h
      obtain ⟨⟨k, c⟩, he, hp⟩ := List.mem_flatMap.mp h
      rcases mem_decodedFields he with he | ⟨v, hv, rfl⟩
      · cases he
      · exact visitMap_finds fields hf [] found hv hp
  | .arr xs, id, path, p, found, h => by
    rw [decoded, walk_arr] at h
    cases hi : (row.shape id).item? with
    | none => simp [hi] at h
    | some items =>
      rw [hi] at h
      rw [Scanner.visit, element_typed hi]
      exact visitSeq_finds xs 0 found h
  | .null, _, _, _, _, h | .bool _, _, _, _, _, h | .num _, _, _, _, _, h | .str _, _, _, _, _, h =>
    nomatch h
theorem visitMap_finds : ∀ (fields : JsonMap) {id : ShapeId} {field : String → Option ShapeId}
    {path p : StrictPath} {k : String} {v : Json}, (row.shape id).field? = some field →
    ∀ (seen : List String) (found : Findings), (k, v) ∈ fields →
    p ∈ walkKey row field path k (decoded v) →
    (row.scanner.visitMap (.typed id) path seen found fields).Notes ⟨.unknown, p, .object⟩
  | (key, value) :: rest, id, field, path, p, k, v, hf, seen, found, hmem, hp => by
    rw [Scanner.visitMap]
    rcases List.mem_cons.mp hmem with he | hmem
    · cases he
      refine Findings.Notes.mono ?_ (Scanner.grows_visitMap ..)
      simp only [enter_typed id path key seen found hf]
      unfold walkKey at hp
      cases hk : field key with
      | some f =>
        rw [hk] at hp
        exact visit_finds value _ hp
      | none =>
        rw [hk] at hp
        rw [List.mem_singleton.mp hp]
        exact (Findings.notes_record found _).mono (Scanner.grows_visit ..)
    · exact visitMap_finds rest hf _ _ hmem hp
theorem visitSeq_finds : ∀ (xs : List Json) {items : ShapeId} {path p : StrictPath} (index : Nat)
    (found : Findings), p ∈ walkList row items path index (decodedList xs) →
    (row.scanner.visitSeq (.typed items) path index found xs).Notes ⟨.unknown, p, .object⟩
  | [], _, _, _, _, _, h => nomatch h
  | x :: xs, items, path, p, index, found, h => by
    rcases List.mem_append.mp h with h | h
    · exact (visit_finds x found h).mono (Scanner.grows_visitSeq ..)
    · exact visitSeq_finds xs (index + 1) _ h
end

/-! ## What a strict check accepts -/

mutual
/-- No struct of the schema has a key it does not know, and no struct or map of the schema a key
twice, at every depth the schema describes. -/
def clean (row : Row) (id : ShapeId) : Json → Bool
  | .obj fields =>
    match (row.shape id).field? with
    | some field => (fields.map Prod.fst).Nodup && cleanFields row field fields
    | none => true
  | .arr xs =>
    match (row.shape id).item? with
    | some items => cleanList row items xs
    | none => true
  | _ => true
def cleanFields (row : Row) (field : String → Option ShapeId) : List (String × Json) → Bool
  | [] => true
  | (key, value) :: rest =>
    (match field key with
      | some id => clean row id value
      | none => false) && cleanFields row field rest
def cleanList (row : Row) (items : ShapeId) : List Json → Bool
  | [] => true
  | x :: xs => clean row items x && cleanList row items xs
end

mutual
/-- A text of which the scan finds nothing is clean. -/
theorem clean_of_visit : ∀ (doc : Json) {id : ShapeId} {path : StrictPath} {found : Findings},
    (row.scanner.visit (.typed id) path found doc).items = [] → clean row id doc = true
  | .obj fields, id, path, found, h => by
    rw [clean]
    cases hf : (row.shape id).field? with
    | none => rfl
    | some field =>
      obtain ⟨-, hnodup, hclean⟩ := clean_of_visitMap fields hf h
      simp [hnodup, hclean]
  | .arr xs, id, path, found, h => by
    rw [Scanner.visit] at h
    rw [clean]
    cases hi : (row.shape id).item? with
    | none => rfl
    | some items =>
      rw [element_typed hi] at h
      exact clean_of_visitSeq xs h
  | .null, _, _, _, _ | .bool _, _, _, _, _ | .num _, _, _, _, _ | .str _, _, _, _, _ => rfl
theorem clean_of_visitMap : ∀ (fields : JsonMap) {id : ShapeId} {field : String → Option ShapeId}
    {path : StrictPath} {seen : List String}
    {found : Findings}, (row.shape id).field? = some field →
    (row.scanner.visitMap (.typed id) path seen found fields).items = [] →
    (∀ e ∈ fields, e.1 ∉ seen) ∧ (fields.map Prod.fst).Nodup ∧ cleanFields row field fields = true
  | [], _, _, _, _, _, _, _ => ⟨by simp, by simp, rfl⟩
  | (key, value) :: rest, id, field, path, seen, found, hf, h => by
    rw [Scanner.visitMap, enter_typed id path key seen found hf] at h
    -- whatever was found before is found after, so nothing was
    have hvisit := (Scanner.grows_visitMap ..).nil h
    have henter := (Scanner.grows_visit ..).nil hvisit
    cases hk : field key with
    | none =>
      simp only [hk, Scanner.found] at henter
      rcases Findings.notes_record found ⟨.unknown, path.child key, row.scanner.origin⟩ with hn | hn
      · rw [henter] at hn
        cases hn
      · rw [henter] at hn
        cases hn
    | some f =>
      simp only [hk] at h hvisit henter
      have hseen : key ∉ seen := by
        intro hmem
        simp only [Scanner.duplicateCheck, hmem, if_true, Scanner.found] at henter
        rcases Findings.notes_record found ⟨.duplicate, path.child key,
          row.scanner.origin⟩ with hn | hn
        · rw [henter] at hn
          cases hn
        · rw [henter] at hn
          cases hn
      simp only [Scanner.duplicateCheck, hseen] at h hvisit
      obtain ⟨hrest, hnodup, hclean⟩ := clean_of_visitMap rest hf h
      have hvalue := clean_of_visit value hvisit
      refine ⟨fun e he => ?_, ?_, by simp [cleanFields, hk, hvalue, hclean]⟩
      · rcases List.mem_cons.mp he with rfl | he
        · exact hseen
        · exact fun hmem => hrest e he (.tail _ hmem)
      · rw [List.map_cons, List.nodup_cons]
        refine ⟨fun hmem => ?_, hnodup⟩
        obtain ⟨e, he, hek⟩ := List.mem_map.mp hmem
        exact hrest e he (by simp [hek])
theorem clean_of_visitSeq : ∀ (xs : List Json) {items : ShapeId} {path : StrictPath} {index : Nat}
    {found : Findings}, (row.scanner.visitSeq (.typed items) path index found xs).items = [] →
    cleanList row items xs = true
  | [], _, _, _, _, _ => rfl
  | x :: xs, items, path, index, found, h => by
    rw [cleanList, clean_of_visit x ((Scanner.grows_visitSeq ..).nil h), clean_of_visitSeq xs h]
    rfl
end

/-! ## The check -/

theorem checkObject_ok {read : String → Except String Json} {schemas : Schemas}
    {directive : Directive}
    {kind : KindRef} {raw : String} {doc value object : Json} {warnings warnings' : Warnings}
    (hrow : schemas.row kind.group kind.version kind.kind = some row) (hread : read raw = .ok doc)
    (h : checkObject read schemas directive kind (some raw) value warnings =
      .ok (object, warnings')) :
    object = removeAll (unknownPaths row value) value ∧
      (directive.mode = .strict → (scanDocument (.kind row) doc).items = []) := by
  have hscan : (scan read raw (.kind row)).mapError kind.undecodable =
      .ok (scanDocument (.kind row) doc) := by
    rw [scan, hread]
    rfl
  simp only [checkObject, hrow, hscan] at h
  obtain ⟨found, hfound, h⟩ := Except.of_bind_ok h
  cases hfound
  obtain ⟨w, hjudge, h⟩ := Except.of_bind_ok h
  cases h
  refine ⟨rfl, fun hstrict => ?_⟩
  unfold Directive.judge at hjudge
  split at hjudge
  · assumption
  · rw [hstrict] at hjudge
    cases hjudge

/-- An accepted body is kept as its schema knows it. Every field the schema knows is there with its
value, less what is unknown inside it, and nothing unknown is left. Under `Strict` the text had no
unknown field, and no field twice where the schema describes the object, and the value is unchanged.
What the walk of the value reports, the scan of the text finds, up to the cap. -/
theorem checkObject_keeps (read : String → Except String Json) (schemas : Schemas)
    (directive : Directive) (kind : KindRef) (raw : String) (warnings : Warnings)
    {row : Row} {doc : Json}
    (hrow : schemas.row kind.group kind.version kind.kind = some row) (hread : read raw = .ok doc) :
    (∀ object warnings',
      checkObject read schemas directive kind (some raw) (decoded doc) warnings =
      .ok (object, warnings') →
      (∀ path id v, row.follow row.root path = some id → resolve path (decoded doc) = some v →
        resolve path object = some (pruned row id v) ∧
          (walk row id [] v = [] → resolve path object = some v)) ∧
      unknownPaths row object = [] ∧
      (directive.mode = .strict → clean row row.root doc = true ∧ object = decoded doc)) ∧
    ∃ found, scan read raw (.kind row) = .ok found ∧
      ∀ path ∈ unknownPaths row (decoded doc), found.Notes ⟨.unknown, path, .object⟩ := by
  have hcanon := canonical_decoded doc
  have hunchanged : ∀ {id : ShapeId} {v : Json}, v.canonical = true → walk row id [] v = [] →
      pruned row id v = v := by
    intro id v hv hnone
    rw [← removeAll_walk id v hv, hnone]
    rfl
  have hagree : ∀ path ∈ unknownPaths row (decoded doc),
      (scanDocument (.kind row) doc).Notes ⟨.unknown, path, .object⟩ :=
    fun path hpath => visit_finds doc ⟨[]⟩ hpath
  refine ⟨fun object warnings' hok => ?_, scanDocument (.kind row) doc, by rw [scan, hread]; rfl,
    hagree⟩
  obtain ⟨hobject, hstrict⟩ := checkObject_ok hrow hread hok
  have hpruned : object = pruned row row.root (decoded doc) :=
    hobject.trans (removeAll_walk row.root _ hcanon)
  refine ⟨fun path id v hfollow hv => ?_, ?_, fun hmode => ?_⟩
  · have hresolve : resolve path object = some (pruned row id v) := by
      rw [hpruned, resolve_pruned hfollow, hv]
      rfl
    refine ⟨hresolve, fun hnone => ?_⟩
    rw [hresolve, hunchanged (canonical_of_resolve hcanon hv) hnone]
  · rw [hpruned]
    exact walk_pruned row.root [] (decoded doc)
  · have hfound := hstrict hmode
    refine ⟨clean_of_visit doc hfound, hpruned.trans (hunchanged hcanon ?_)⟩
    refine List.eq_nil_iff_forall_not_mem.mpr fun path hpath => ?_
    rcases hagree path hpath with hn | hn
    · rw [hfound] at hn
      cases hn
    · rw [hfound] at hn
      cases hn

/-! ## A concrete kind -/

/-- A revision: its data are raw, its name is a scalar. -/
def revisionSchemas : Schemas :=
  ⟨[.struct [("data", 1), ("metadata", 2)], .raw, .struct [("name", 3)], .leaf],
    [(("apps", "v1", "ControllerRevision"), 0)]⟩

def revisionRow : Row := ⟨revisionSchemas, 0⟩

def revisionKind : KindRef := ⟨"apps", "v1", "ControllerRevision", "apps/v1"⟩

/-- A text with an unknown field. -/
def misspelt : Json := .obj [("metadata", .obj [("name", .str "r"), ("nmae", .str "s")])]

theorem checkObject_keeps_misspelt : let read : String → Except String Json := fun _ => .ok misspelt
    ∃ object warnings', checkObject read revisionSchemas ⟨.warn, true⟩ revisionKind (some "")
    (decoded misspelt)
        ⟨[]⟩ = .ok (object, warnings') ∧
      resolve [.key "metadata", .key "name"] object = some (.str "r") ∧
      unknownPaths revisionRow object = [] := by
  intro read
  have hok : checkObject read revisionSchemas ⟨.warn, true⟩ revisionKind (some "")
    (decoded misspelt) ⟨[]⟩ =
    .ok (_, _) := rfl
  have hrow : revisionSchemas.row revisionKind.group revisionKind.version revisionKind.kind =
      some revisionRow := by decide +kernel
  obtain ⟨hkeeps, hnone, -⟩ :=
    (checkObject_keeps read revisionSchemas ⟨.warn, true⟩ revisionKind "" ⟨[]⟩
    hrow rfl).1 _ _ hok
  have hname := (hkeeps [.key "metadata", .key "name"] 3 (.str "r") (by decide +kernel)
    (by decide +kernel)).2 (by decide +kernel)
  exact ⟨_, _, hok, hname, hnone⟩

/-- A text with a key twice inside a raw value, and an object where the name should be. -/
def repeated : Json :=
  .obj [("data", .obj [("x", .num (.int 1)), ("x", .num (.int 2))]),
    ("metadata", .obj [("name", .obj [("other", .bool true)])])]

/-- Under `Strict` a text with a key twice inside a raw value is accepted, of which only the last
value is kept, and so is an object where the schema has a scalar: the schema knows none of its
keys. -/
theorem checkObject_keeps_raw : let read : String → Except String Json := fun _ => .ok repeated
    let out := checkObject read revisionSchemas ⟨.strict, true⟩ revisionKind (some "")
      (decoded repeated) ⟨[]⟩
    (out.map Prod.fst).toOption = some (.obj [("data", .obj [("x", .num (.int 2))]),
      ("metadata", .obj [("name", .obj [("other", .bool true)])])]) ∧
    revisionRow.follow 0 [.key "metadata", .key "name", .key "other"] = none := by
  decide +kernel

end Engenho
