import Engenho.Lib.Except
import Engenho.Lib.JsonPointer
import Engenho.Store.Patch

/-!
# JSON patches against their standard

`prescribed` is what RFC 6902 makes of a list of operations; `none` says that the patch is refused.
`applyJsonPatch` follows it but for `replace`, where it follows the upstream server: a member that
an object does not have is set, and the whole document is replaced by an object or an array only
(`upstreamReplace`).

The pointer walker reads more texts than the standard has pointers and indices, and it carries out a
move that goes below its own source where the next array element has come up to the source's place.
`regular` leaves these out; on a run of regular operations the walker and the prescription agree
(`applyJsonPatch_prescribed`).
-/

namespace Engenho
open List Option Bool
open JsonPointer (parse index child resolve within edit)

/-! ## What the standard prescribes -/

/-- The meaning of one operation, over a meaning of `replace`. -/
def prescribedOp (replace : Json → List String → Json → Option Json) (doc : Json) :
    JsonPatchOp → Option Json
  | .add path value => (parse path).bind fun ts => JsonPointer.add value ts doc
  | .remove path => (parse path).bind fun ts => JsonPointer.remove ts doc
  | .replace path value => (parse path).bind fun ts => replace value ts doc
  | .copy source path =>
    (parse source).bind fun src => (parse path).bind fun ts =>
      (resolve src doc).bind fun v => JsonPointer.add v ts doc
  | .move source path =>
    (parse source).bind fun src => (parse path).bind fun ts =>
      if src <+: ts ∧ src ≠ ts then none
      else (resolve src doc).bind fun v => (JsonPointer.remove src doc).bind (JsonPointer.add v ts)
  | .test path value =>
    (parse path).bind fun ts => (resolve ts doc).bind fun v =>
      if v.equalTo value then some doc else none

/-- The operations in turn, each on what the ones before it have left. -/
def prescribed (replace : Json → List String → Json → Option Json) (doc : Json) :
    List JsonPatchOp → Option Json
  | [] => some doc
  | op :: ops => (prescribedOp replace doc op).bind fun doc => prescribed replace doc ops

/-- The value at the last step, set in an object whether it is there or not. -/
def setLast (value : Json) (t : String) : Json → Option Json
  | .obj m => some (.obj (Assoc.put t value m))
  | v => within t (fun _ => some value) v

/-- `replace` as the upstream server has it. -/
def upstreamReplace (value : Json) : List String → Json → Option Json
  | [], _ => if value.isObject || value.isArray then some value else none
  | ts, v => edit (setLast value) ts v

/-! ## Pointer texts -/

theorem replacePair_cons_ne {a b r x : Char} (h : x ≠ a) (l : List Char) :
    replacePair a b r (x :: l) = x :: replacePair a b r l := by
  cases l with
  | nil => rfl
  | cons y l =>
    rw [replacePair, if_neg]
    exact fun hxy => h hxy.1

/-- Replacing first the one escape and then the other reads every token that is properly escaped. -/
theorem replacePair_of_unescape {t t' : List Char} (h : JsonPointer.unescape t = some t') :
    replacePair '~' '0' '~' (replacePair '~' '1' '/' t) = t' := by
  fun_induction JsonPointer.unescape t generalizing t' with
  | case1 =>
    cases h
    rfl
  | case2 => cases h
  | case3 rest ih =>
    obtain ⟨rest', hrest, rfl⟩ := map_eq_some_iff.mp h
    have hinner : replacePair '~' '1' '/' ('~' :: '0' :: rest) =
        '~' :: '0' :: replacePair '~' '1' '/' rest := by
      rw [replacePair, if_neg (by decide), replacePair_cons_ne (by decide)]
    rw [hinner, replacePair, if_pos ⟨rfl, rfl⟩, ih hrest]
  | case4 rest _ ih =>
    obtain ⟨rest', hrest, rfl⟩ := map_eq_some_iff.mp h
    rw [replacePair, if_pos ⟨rfl, rfl⟩, replacePair_cons_ne (by decide), ih hrest]
  | case5 => cases h
  | case6 c rest hc ih =>
    obtain ⟨rest', hrest, rfl⟩ := map_eq_some_iff.mp h
    rw [replacePair_cons_ne hc, replacePair_cons_ne hc, ih hrest]

variable {α : Type} {t last : String} {v v' : Json} {bad : PatchError}

theorem map_of_mapM {β : Type} {f : α → Option β} {g : α → β}
    (hfg : ∀ {a b}, f a = some b → g a = b)
    {l : List α} {bs : List β} (h : l.mapM f = some bs) : l.map g = bs := by
  induction l generalizing bs with
  | nil =>
    cases h
    rfl
  | cons a l ih =>
    rw [mapM_cons] at h
    obtain ⟨b, hb, h⟩ := bind_eq_some_iff.mp h
    obtain ⟨bs', hbs, h⟩ := bind_eq_some_iff.mp h
    cases h
    rw [map_cons, hfg hb, ih hbs]

variable {ts : List String}
variable {path : String} {value x doc : Json}

theorem pointerTokens_of_parse (h : parse path = some ts) : pointerTokens path = ts := by
  unfold parse at h
  unfold pointerTokens
  split at h
  · rename_i hnil
    cases h
    rw [if_pos]
    simpa using hnil
  · rename_i c rest hcons
    have hne : path.isEmpty = false := by
      cases hempty : path.isEmpty with
      | false => rfl
      | true =>
        have : path.toList = [] := by simpa using hempty
        rw [this] at hcons
        cases hcons
    rw [hne, hcons]
    split at h
    · rename_i hc
      subst hc
      refine map_of_mapM (fun {a b} hab => ?_) h
      obtain ⟨t', ht', rfl⟩ := map_eq_some_iff.mp hab
      rw [replacePair_of_unescape ht']
    · cases h

/-! ## Walking a document -/

/-- The two readings of a token agree where it is used as an index. -/
def strictStep (t : String) (v : Json) : Bool := !v.isArray || parseUsize t == index t

/-- No array on the way is entered by a number that is no array index of the standard, such as `01`
or `+1`. -/
def strict : List String → Json → Bool
  | [], _ => true
  | t :: ts, v => strictStep t v && (child t v).all (strict ts)

theorem strictStep_arr {xs : List Json} (h : strictStep t (.arr xs) = true) :
    parseUsize t = index t := by
  simpa [strictStep, Json.isArray] using h

theorem pointerStep_eq (h : strictStep t v = true) : pointerStep t v = child t v := by
  cases v with
  | arr xs => rw [pointerStep, child, strictStep_arr h]
  | _ => rfl

theorem getTokens_eq (h : strict ts v = true) : getTokens ts v = resolve ts v := by
  induction ts generalizing v with
  | nil => rfl
  | cons t ts ih =>
    rw [strict, and_eq_true] at h
    rw [getTokens, resolve, pointerStep_eq h.1]
    cases hx : child t v with
    | none => rfl
    | some x =>
      rw [hx] at h
      exact ih h.2

/-- The walker edits the last step as `edit` does, if it does so inside the parent. -/
theorem modifyAt_eq_edit {f : String → Json → Except PatchError (Json × α)}
    {g : String → Json → Option Json}
    (hfg : ∀ t v, strictStep t v = true → (f t v).toOption.map Prod.fst = g t v)
    (h : strict ts v = true) (hlast : ts.getLast? = some last) :
    (modifyAt bad (f last) ts.dropLast v).toOption.map Prod.fst = edit g ts v := by
  induction ts generalizing v with
  | nil => cases hlast
  | cons t ts ih =>
    rw [strict, and_eq_true] at h
    cases ts with
    | nil =>
      cases hlast
      exact hfg t v h.1
    | cons t' ts =>
      rw [dropLast_cons_cons, edit]
      cases v with
      | obj m =>
        rw [modifyAt, within]
        cases hx : m.lookup t with
        | none => rfl
        | some x =>
          have hstrict : strict (t' :: ts) x = true := by simpa [child, hx] using h.2
          dsimp only
          rw [bind_some, ← ih hstrict hlast]
          cases modifyAt bad (f last) (t' :: ts).dropLast x <;> rfl
      | arr xs =>
        rw [modifyAt, within, strictStep_arr h.1]
        cases hi : index t with
        | none => rfl
        | some i =>
          dsimp only [bind_some]
          cases hx : xs[i]? with
          | none => rfl
          | some x =>
            have hstrict : strict (t' :: ts) x = true := by simpa [child, hi, hx] using h.2
            dsimp only
            rw [bind_some, ← ih hstrict hlast]
            cases modifyAt bad (f last) (t' :: ts).dropLast x <;> rfl
      | _ => rfl

theorem insertIdx_eq_take_drop (a : α) {l : List α} {i : Nat} (h : i ≤ l.length) :
    l.insertIdx i a = l.take i ++ a :: l.drop i := by
  induction i generalizing l with
  | zero => simp
  | succ i ih =>
    cases l with
    | nil => simp at h
    | cons b l => simp [ih (by simpa using h)]

theorem addLast_eq (t : String) (v : Json) (h : strictStep t v = true) :
    (addLast bad t value v).toOption.map Prod.fst = JsonPointer.addLast value t v := by
  cases v with
  | arr xs =>
    rw [addLast, JsonPointer.addLast, strictStep_arr h]
    by_cases ht : t = "-"
    · rw [if_pos ht, if_pos ht]
      rfl
    rw [if_neg ht, if_neg ht]
    cases index t with
    | none => rfl
    | some i =>
      dsimp only [bind_some]
      by_cases hi : i ≤ xs.length
      · rw [if_neg (by omega), if_pos hi, insertIdx_eq_take_drop value hi]
        rfl
      · rw [if_pos (by omega), if_neg hi]
        rfl
  | _ => rfl

theorem removeLast_eq (t : String) (v : Json) (h : strictStep t v = true) :
    (removeLast bad t v).toOption.map Prod.fst = JsonPointer.removeLast t v := by
  cases v with
  | obj m =>
    rw [removeLast, JsonPointer.removeLast]
    cases m.lookup t <;> rfl
  | arr xs =>
    rw [removeLast, JsonPointer.removeLast, strictStep_arr h]
    cases index t with
    | none => rfl
    | some i =>
      dsimp only [bind_some]
      by_cases hi : i < xs.length
      · rw [List.getElem?_eq_getElem hi, if_pos hi]
        rfl
      · rw [List.getElem?_eq_none (by omega), if_neg hi]
        rfl
  | _ => rfl

theorem replaceLast_eq (t : String) (v : Json) (h : strictStep t v = true) :
    (replaceLast bad t value v).toOption.map Prod.fst = setLast value t v := by
  cases v with
  | arr xs =>
    rw [replaceLast, setLast, within, strictStep_arr h]
    · cases index t with
      | none => rfl
      | some i =>
        dsimp only [bind_some]
        by_cases hi : i < xs.length
        · rw [List.getElem?_eq_getElem hi, if_pos hi]
          rfl
        · rw [List.getElem?_eq_none (by omega), if_neg hi]
          rfl
    · intro m hm
      cases hm
  | _ => rfl

theorem map_toOption {ε β : Type} (f : α → β) (r : Except ε α) :
    (r.map f).toOption = r.toOption.map f := by
  cases r <;> rfl

section
variable {path : String} {ts : List String} {doc : Json}

theorem exists_getLast? (a : α) (l : List α) : ∃ last, (a :: l).getLast? = some last :=
  ⟨_, List.getLast?_eq_some_getLast (cons_ne_nil a l)⟩

section
variable (hp : parse path = some ts) (h : strict ts doc = true)
include hp h

theorem pointerAdd_eq (value : Json) :
    (pointerAdd doc path value).toOption = JsonPointer.add value ts doc := by
  unfold pointerAdd
  simp only [pointerTokens_of_parse hp]
  cases ts with
  | nil => rfl
  | cons t ts =>
    obtain ⟨last, hlast⟩ := exists_getLast? t ts
    simp only [hlast, map_toOption]
    exact modifyAt_eq_edit addLast_eq h hlast

theorem pointerReplace_eq (value : Json) :
    (pointerReplace doc path value).toOption = upstreamReplace value ts doc := by
  unfold pointerReplace
  simp only [pointerTokens_of_parse hp]
  cases ts with
  | nil =>
    rw [upstreamReplace]
    by_cases hv : value.isObject || value.isArray
    · simp only [hv]
      rfl
    · simp only [hv]
      rfl
  | cons t ts =>
    obtain ⟨last, hlast⟩ := exists_getLast? t ts
    simp only [hlast, map_toOption]
    exact modifyAt_eq_edit replaceLast_eq h hlast

theorem pointerRemove_eq :
    (pointerRemove doc path).toOption.map Prod.fst = JsonPointer.remove ts doc := by
  unfold pointerRemove
  simp only [pointerTokens_of_parse hp]
  cases ts with
  | nil => rfl
  | cons t ts =>
    obtain ⟨last, hlast⟩ := exists_getLast? t ts
    simp only [hlast]
    exact modifyAt_eq_edit removeLast_eq h hlast

end
end

/-! ## Moves -/

theorem removeLast_value (h : removeLast bad last v = .ok (v', x)) :
    pointerStep last v = some x := by
  cases v with
  | obj m =>
    rw [removeLast] at h
    split at h
    · cases h
    · rename_i hx
      cases h
      exact hx
  | arr xs =>
    rw [removeLast] at h
    split at h
    · cases h
    rename_i hi
    split at h
    · cases h
    · rename_i hx
      cases h
      rw [pointerStep, hi, bind_some, hx]
  | _ => cases h

/-- What a removal returns is the value that stood there. -/
theorem modifyAt_removeLast_value (h : modifyAt bad (removeLast bad last) ts v = .ok (v', x)) :
    getTokens (ts ++ [last]) v = some x := by
  induction ts generalizing v v' x with
  | nil => simp [getTokens, removeLast_value h]
  | cons t ts ih =>
    rw [cons_append, getTokens]
    cases v with
    | obj m =>
      rw [modifyAt] at h
      split at h
      · cases h
      · rename_i y hy
        obtain ⟨⟨y', x'⟩, hr, h⟩ := Except.of_bind_ok h
        cases h
        rw [pointerStep, hy, bind_some, ih hr]
    | arr xs =>
      rw [modifyAt] at h
      split at h
      · cases h
      rename_i hi
      split at h
      · cases h
      · rename_i y hy
        obtain ⟨⟨y', x'⟩, hr, h⟩ := Except.of_bind_ok h
        cases h
        rw [pointerStep, hi, bind_some, hy, bind_some, ih hr]
    | _ => cases h

theorem pointerRemove_value {doc' : Json} (hp : parse path = some ts) (hs : strict ts doc = true)
    (h : pointerRemove doc path = .ok (doc', x)) : resolve ts doc = some x := by
  rw [← getTokens_eq hs]
  unfold pointerRemove at h
  simp only [pointerTokens_of_parse hp] at h
  split at h
  · rename_i hnil
    cases h
    rw [List.getLast?_eq_none_iff.mp hnil]
    rfl
  · rename_i last hlast
    obtain ⟨pre, hpre⟩ := List.getLast?_eq_some_iff.mp hlast
    rw [hpre, dropLast_concat] at h
    rw [hpre]
    exact modifyAt_removeLast_value h

/-- The location is an array element that others follow: once it is removed, the next one is
there. -/
def followed : List String → Json → Bool
  | [], _ => false
  | [t], v => v.asArray.any fun xs => (index t).any (· + 1 < xs.length)
  | t :: t' :: ts, v => (child t v).any (followed (t' :: ts))

theorem child_of_within {f : Json → Option Json} (h : within t f v = some v') :
    ∃ x x', child t v = some x ∧ f x = some x' ∧ child t v' = some x' := by
  cases v with
  | obj m =>
    obtain ⟨x, hx, h⟩ := bind_eq_some_iff.mp h
    obtain ⟨x', hx', rfl⟩ := map_eq_some_iff.mp h
    exact ⟨x, x', hx, hx', Assoc.lookup_put_self ..⟩
  | arr xs =>
    obtain ⟨i, hi, h⟩ := bind_eq_some_iff.mp h
    obtain ⟨x, hx, h⟩ := bind_eq_some_iff.mp h
    obtain ⟨x', hx', rfl⟩ := map_eq_some_iff.mp h
    obtain ⟨hlt, -⟩ := List.getElem?_eq_some_iff.mp hx
    refine ⟨x, x', ?_, hx', ?_⟩
    · rw [child, hi, bind_some, hx]
    · rw [child, hi, bind_some, List.getElem?_set_self hlt]
  | _ => cases h

/-- Nothing is at the place of a removed value, unless an array moved up there. -/
theorem resolve_of_remove (hne : ts ≠ []) (h : edit JsonPointer.removeLast ts v = some v')
    (hf : followed ts v = false) : resolve ts v' = none := by
  induction ts generalizing v v' with
  | nil => exact absurd rfl hne
  | cons t ts ih =>
    cases ts with
    | nil =>
      cases v with
      | obj m =>
        obtain ⟨x, -, rfl⟩ := map_eq_some_iff.mp h
        rw [resolve, child, Assoc.lookup_drop_self]
        rfl
      | arr xs =>
        obtain ⟨i, hi, h⟩ := bind_eq_some_iff.mp h
        split at h
        · rename_i hlt
          cases h
          have hlast : ¬ i + 1 < xs.length := by simpa [followed, Json.asArray, hi] using hf
          have hlen := length_eraseIdx_of_lt hlt
          rw [resolve, child, hi, bind_some, List.getElem?_eq_none (by omega)]
          rfl
        · cases h
      | _ => cases h
    | cons t' ts =>
      obtain ⟨x, x', hx, hx', hv'⟩ := child_of_within h
      have hfx : followed (t' :: ts) x = false := by simpa [followed, hx] using hf
      rw [resolve, hv']
      exact ih (cons_ne_nil t' ts) hx' hfx

/-- Nothing can be done below a place where nothing is. -/
theorem edit_below {last : String → Json → Option Json} {rest : List String} (hrest : rest ≠ [])
    (h : resolve ts v = none) : edit last (ts ++ rest) v = none := by
  induction ts generalizing v with
  | nil => cases h
  | cons t ts ih =>
    obtain ⟨t', ts', hts⟩ : ∃ t' ts', ts ++ rest = t' :: ts' :=
      exists_cons_of_ne_nil (by simp [hrest])
    rw [cons_append, hts, edit]
    cases hw : within t (edit last (t' :: ts')) v with
    | none => rfl
    | some v' =>
      obtain ⟨x, x', hx, hx', -⟩ := child_of_within hw
      rw [resolve, hx] at h
      rw [← hts, ih h] at hx'
      cases hx'

theorem edit_null {last : String → Json → Option Json} (hlast : ∀ t, last t .null = none)
    (ts : List String) : edit last ts .null = none := by
  match ts with
  | [] => rfl
  | [t] => exact hlast t
  | t :: t' :: ts => rfl

/-- A value cannot be moved below itself, unless an array moved up to its place. -/
theorem add_below_removed {ts' : List String} (hpre : ts <+: ts') (hne : ts ≠ ts')
    (h : JsonPointer.remove ts v = some v') (hf : followed ts v = false) :
    JsonPointer.add x ts' v' = none := by
  obtain ⟨rest, rfl⟩ := hpre
  have hrest : rest ≠ [] := by
    rintro rfl
    exact hne (append_nil ts).symm
  obtain ⟨t', ts', hts⟩ : ∃ t' ts', ts ++ rest = t' :: ts' :=
    exists_cons_of_ne_nil (by simp [hrest])
  have hadd : JsonPointer.add x (ts ++ rest) v' = edit (JsonPointer.addLast x) (ts ++ rest) v' := by
    rw [hts]
    rfl
  rw [hadd]
  cases ts with
  | nil =>
    cases h
    exact edit_null (fun _ => rfl) _
  | cons t ts => exact edit_below hrest (resolve_of_remove (cons_ne_nil t ts) h hf)

/-! ## Conformance -/

/-- The operation's pointers are pointers of the standard and enter arrays by its indices; a move
does not go below a source that the next array element replaces; and a test compares no two numbers
of one value that are written apart, such as `1` and `1.0`. -/
def regular (doc : Json) : JsonPatchOp → Bool
  | .add path _ => (parse path).any (strict · doc)
  | .remove path => (parse path).any (strict · doc)
  | .replace path _ => (parse path).any (strict · doc)
  | .copy source path => (parse source).any (strict · doc) && (parse path).any (strict · doc)
  | .move source path =>
    (parse source).any fun src => (parse path).any fun ts =>
      strict src doc && (JsonPointer.remove src doc).all (strict ts) &&
        !(decide (src <+: ts ∧ src ≠ ts) && followed src doc)
  | .test path value =>
    (parse path).any fun ts =>
      strict ts doc && (resolve ts doc).all fun v => !v.equalTo value || decide (v = value)

/-- Every operation is regular on the document it meets. -/
def regularRun (doc : Json) : List JsonPatchOp → Bool
  | [] => true
  | op :: ops => regular doc op && (prescribedOp upstreamReplace doc op).all (regularRun · ops)

theorem applyOneOp_move_eq {source : String} {src : List String} (hsrc : parse source = some src)
    (hts : parse path = some ts) (hs : strict src doc = true)
    (hafter : (JsonPointer.remove src doc).all (strict ts) = true)
    (hbelow : src <+: ts → src ≠ ts → followed src doc = false) :
    (applyOneOp doc (.move source path)).toOption =
      prescribedOp upstreamReplace doc (.move source path) := by
  have hremove := pointerRemove_eq hsrc hs
  simp only [applyOneOp, prescribedOp, hsrc, hts, bind_some]
  cases hr : pointerRemove doc source with
  | error e =>
    rw [hr] at hremove
    have hnone := hremove.symm
    split
    · rfl
    · rw [hnone]
      cases resolve src doc <;> rfl
  | ok r =>
    obtain ⟨doc', x⟩ := r
    rw [hr] at hremove
    have hsome : JsonPointer.remove src doc = some doc' := hremove.symm
    have hstrict : strict ts doc' = true := by simpa [hsome] using hafter
    have hadd := pointerAdd_eq hts hstrict x
    rw [pointerRemove_value hsrc hs hr, hsome]
    change (pointerAdd doc' path x).toOption = _
    rw [hadd]
    split
    · rename_i hpre
      exact add_below_removed hpre.1 hpre.2 hsome (hbelow hpre.1 hpre.2)
    · rfl

theorem applyOneOp_prescribed {op : JsonPatchOp} (h : regular doc op = true) :
    (applyOneOp doc op).toOption = prescribedOp upstreamReplace doc op := by
  cases op with
  | add path value =>
    obtain ⟨ts, hp, hs⟩ := (Option.any_eq_true ..).mp h
    rw [prescribedOp, hp]
    exact pointerAdd_eq hp hs value
  | remove path =>
    obtain ⟨ts, hp, hs⟩ := (Option.any_eq_true ..).mp h
    rw [applyOneOp, prescribedOp, hp, map_toOption]
    exact pointerRemove_eq hp hs
  | replace path value =>
    obtain ⟨ts, hp, hs⟩ := (Option.any_eq_true ..).mp h
    rw [applyOneOp, prescribedOp, hp, bind_some]
    exact pointerReplace_eq hp hs value
  | copy source path =>
    rw [regular, and_eq_true] at h
    obtain ⟨src, hsrc, hs⟩ := (Option.any_eq_true ..).mp h.1
    obtain ⟨ts, hp, hst⟩ := (Option.any_eq_true ..).mp h.2
    simp only [applyOneOp, prescribedOp, hsrc, hp, bind_some, pointerGet,
      pointerTokens_of_parse hsrc, getTokens_eq hs]
    cases resolve src doc with
    | none => rfl
    | some v => exact pointerAdd_eq hp hst v
  | move source path =>
    obtain ⟨src, hsrc, h⟩ := (Option.any_eq_true ..).mp h
    obtain ⟨ts, hp, h⟩ := (Option.any_eq_true ..).mp h
    simp only [and_eq_true, not_eq_true', and_eq_false_iff, decide_eq_false_iff_not] at h
    refine applyOneOp_move_eq hsrc hp h.1.1 h.1.2 fun hpre hne => ?_
    exact h.2.resolve_left fun hnot => hnot ⟨hpre, hne⟩
  | test path value =>
    obtain ⟨ts, hp, h⟩ := (Option.any_eq_true ..).mp h
    rw [and_eq_true] at h
    obtain ⟨hs, hsame⟩ := h
    simp only [applyOneOp, prescribedOp, hp, bind_some, pointerGet, pointerTokens_of_parse hp,
      getTokens_eq hs]
    cases hv : resolve ts doc with
    | none => rfl
    | some v =>
      have hiff : v.equalTo value = true ↔ v = value := by
        refine ⟨fun heq => ?_, fun heq => heq ▸ v.equalTo_self⟩
        simpa [hv, heq] using hsame
      dsimp only [bind_some]
      by_cases heq : v = value
      · rw [if_pos heq, if_pos (hiff.mpr heq)]
        rfl
      · rw [if_neg heq, if_neg (mt hiff.mp heq)]
        rfl

/-- A list of operations that are regular in turn is carried out as prescribed: it gives the
prescribed document, and it is refused as a whole when one of its operations is not valid. -/
theorem applyJsonPatch_prescribed (doc : Json) (ops : List JsonPatchOp)
    (h : regularRun doc ops = true) :
    (applyJsonPatch doc ops).toOption = prescribed upstreamReplace doc ops := by
  induction ops generalizing doc with
  | nil => rfl
  | cons op ops ih =>
    rw [regularRun, Bool.and_eq_true] at h
    have hone := applyOneOp_prescribed h.1
    rw [prescribed, ← hone]
    rw [← hone] at h
    rw [applyJsonPatch]
    cases hop : applyOneOp doc op with
    | error e => rfl
    | ok doc' =>
      rw [hop] at h
      exact ih doc' h.2

/-- A patch that goes through every kind of step: escapes, an index at the end of an array, the
place after the last, a move from an array to an object, and a member that is not there yet. -/
def mixedOps : List JsonPatchOp :=
  [.add "/list/2" (.str "c"), .add "/list/-" (.str "d"), .move "/list/0" "/a~1b/m~0n",
    .copy "/list" "/seen", .test "/a~1b/m~0n" (.str "a"), .replace "/status" (.obj []),
    .remove "/list"]

def mixedDoc : Json := .obj [("a/b", .obj []), ("list", .arr [.str "a", .str "b"])]

theorem mixedOps_prescribed : regularRun mixedDoc mixedOps = true ∧
      (applyJsonPatch mixedDoc mixedOps).toOption = prescribed upstreamReplace mixedDoc mixedOps ∧
      prescribed upstreamReplace mixedDoc mixedOps =
        some (.obj [("a/b", .obj [("m~n", .str "a")]),
          ("seen", .arr [.str "b", .str "c", .str "d"]), ("status", .obj [])]) :=
  ⟨by decide +kernel, applyJsonPatch_prescribed _ _ (by decide +kernel), by decide +kernel⟩

/-- Operations that the standard refuses and the walker carries out, and one the other way: a member
that is not there is replaced and the whole document is not, a pointer without a slash is the whole
document, `01` is an index, a tilde stands alone, an element is moved below itself, and `1` is not
`1.0`. -/
theorem applyJsonPatch_departs : let two : Json := .arr [.obj [], .obj []]
    let differ := fun (doc : Json) (op : JsonPatchOp) =>
      (applyJsonPatch doc [op]).toOption ≠ prescribed JsonPointer.replace doc [op]
    differ (.obj []) (.replace "/a" .null) ∧ differ (.obj []) (.replace "" (.str "x")) ∧
      differ (.obj []) (.add "name" .null) ∧ differ two (.remove "/01") ∧
      differ two (.remove "/+1") ∧ differ (.obj []) (.add "/~" .null) ∧
      differ two (.move "/0" "/0/child") ∧
      differ (.num (.int 1)) (.test "" (.num (.float "1.0"))) := by
  decide +kernel

end Engenho
