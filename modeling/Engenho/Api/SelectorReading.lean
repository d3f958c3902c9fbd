import Engenho.Api.LabelSelector
import Engenho.Api.SelectorGrammar

/-!
# How the clauses of a selector are read

The reader against the grammar, clause by clause. White space at the ends of a clause and of its
parts is trimmed, and since no operator occurs in a valid key or value, the first one that the
reader finds is the one of the clause.

* `splitTopLevel_intercalate`: clauses with commas between them are cut apart again.
* `Form.valid`, `validText`: the texts that are read as they are written.
* `clause_read`: what the reader makes of each clause of the grammar.
-/

namespace Engenho
open Kube Cut List

/-! ## Cutting at the commas -/

theorem splitTopLevelFrom_ne_nil (depth : Int) (cur s : List Char) :
    splitTopLevelFrom depth cur s ≠ [] := by
  induction s generalizing depth cur with
  | nil => exact cons_ne_nil _ _
  | cons c s ih =>
    rw [splitTopLevelFrom]
    split_ifs
    · exact ih _ _
    · exact ih _ _
    · exact cons_ne_nil _ _
    · exact ih _ _

theorem intercalate_splitTopLevelFrom (depth : Int) (cur s : List Char) :
    [','].intercalate (splitTopLevelFrom depth cur s) = cur ++ s := by
  induction s generalizing depth cur with
  | nil => simp [splitTopLevelFrom]
  | cons c s ih =>
    rw [splitTopLevelFrom]
    split_ifs with hopen hclose hcomma
    · simp [ih]
    · simp [ih]
    · rw [intercalate_cons_of_ne_nil (splitTopLevelFrom_ne_nil _ _ _), ih, hcomma.1]
      simp
    · simp [ih]

theorem intercalate_splitTopLevel (s : List Char) : [','].intercalate (splitTopLevel s) = s :=
  intercalate_splitTopLevelFrom 0 [] s

variable {t s k x v head : List Char} {d : Char} {vs : List (List Char)}

/-- Text without parentheses, and at depth 0 without commas, is passed over. -/
theorem splitTopLevelFrom_plain {depth : Int} (cur rest : List Char)
    (h : ∀ c ∈ t, c ≠ '(' ∧ c ≠ ')' ∧ (c = ',' → depth ≠ 0)) :
    splitTopLevelFrom depth cur (t ++ rest) = splitTopLevelFrom depth (cur ++ t) rest := by
  induction t generalizing cur with
  | nil => simp
  | cons c t ih =>
    rw [forall_mem_cons] at h
    obtain ⟨⟨hopen, hclose, hcomma⟩, ht⟩ := h
    rw [cons_append, splitTopLevelFrom, if_neg hopen, if_neg hclose, if_neg fun h => hcomma h.1 h.2,
      ih (cur ++ [c]) ht, append_assoc, singleton_append]

/-- A clause is not cut. -/
def Closed (t : List Char) : Prop :=
  ∀ cur rest, splitTopLevelFrom 0 cur (t ++ rest) = splitTopLevelFrom 0 (cur ++ t) rest

theorem closed_plain (h : ∀ c ∈ t, c ≠ '(' ∧ c ≠ ')' ∧ c ≠ ',') : Closed t :=
  fun cur rest => splitTopLevelFrom_plain cur rest fun c hc =>
    ⟨(h c hc).1, (h c hc).2.1, fun heq => absurd heq (h c hc).2.2⟩

theorem Closed.append (hs : Closed s) (ht : Closed t) : Closed (s ++ t) := by
  intro cur rest
  rw [append_assoc, hs, ht, append_assoc]

/-- Between parentheses there may be commas. -/
theorem closed_parens (h : ∀ c ∈ t, c ≠ '(' ∧ c ≠ ')') : Closed (['('] ++ t ++ [')']) := by
  intro cur rest
  have hinner : ∀ c ∈ t, c ≠ '(' ∧ c ≠ ')' ∧ (c = ',' → (0 + 1 : Int) ≠ 0) :=
    fun c hc => ⟨(h c hc).1, (h c hc).2, fun _ => by decide⟩
  rw [append_assoc, append_assoc, singleton_append, splitTopLevelFrom, if_pos rfl,
    splitTopLevelFrom_plain _ _ hinner, singleton_append, splitTopLevelFrom, if_neg (by decide),
    if_pos rfl]
  simp

theorem splitTopLevel_intercalate {ts : List (List Char)} (hne : ts ≠ []) (h : ∀ t ∈ ts, Closed t) :
    splitTopLevel ([','].intercalate ts) = ts := by
  unfold splitTopLevel
  induction ts with
  | nil => exact absurd rfl hne
  | cons t ts ih =>
    rw [forall_mem_cons] at h
    by_cases hts : ts = []
    · subst hts
      simpa [splitTopLevelFrom] using h.1 [] []
    · rw [intercalate_cons_of_ne_nil hts, append_assoc, h.1, singleton_append,
        splitTopLevelFrom, if_neg (by decide), if_neg (by decide), if_pos ⟨rfl, rfl⟩, ih hts h.2,
        nil_append]

/-! ## Parts of a clause -/

/-- The characters of a key or value with white space around it. -/
def isPartChar (c : Char) : Bool := isSpace c || isKeyChar c

theorem ne_of_isPartChar {c : Char} (hc : isPartChar c = true) (hd : isPartChar d = false) :
    c ≠ d := by
  rintro rfl
  rw [hc] at hd
  cases hd

theorem notMem_of_isPartChar (hs : ∀ c ∈ s, isPartChar c = true) (hd : isPartChar d = false) :
    d ∉ s :=
  fun h => ne_of_isPartChar (hs d h) hd rfl

theorem isWhitespace_of_isSpace {c : Char} (h : isSpace c = true) : isWhitespace c = true := by
  simp only [isSpace, Bool.or_eq_true, decide_eq_true_eq] at h
  rcases h with ((rfl | rfl) | rfl) | rfl <;> decide

theorem not_isWhitespace_of_isKeyChar {c : Char} (h : isKeyChar c = true) :
    isWhitespace c = false := by
  obtain ⟨hlow, hhigh⟩ := isKeyChar_range h
  simp only [isWhitespace, Bool.or_eq_false_iff, Bool.and_eq_false_iff, decide_eq_false_iff_not]
  omega

theorem blank_isWhitespace (h : Blank s) : ∀ c ∈ s, isWhitespace c = true :=
  fun c hc => isWhitespace_of_isSpace (h c hc)

theorem solid_key (hne : k ≠ []) (h : ∀ c ∈ k, isKeyChar c = true) : Cut.Solid isWhitespace k :=
  solid_of_forall hne fun c hc => not_isWhitespace_of_isKeyChar (h c hc)

theorem padded_chars (h : Padded s x) (hx : ∀ c ∈ x, isKeyChar c = true) :
    ∀ c ∈ s, isPartChar c = true := by
  obtain ⟨a, b, rfl, ha, hb⟩ := h
  intro c hc
  simp only [mem_append] at hc
  rcases hc with (hc | hc) | hc
  · simp [isPartChar, ha c hc]
  · simp [isPartChar, hx c hc]
  · simp [isPartChar, hb c hc]

theorem trim_padded (h : Padded s x) (hx : ∀ c ∈ x, isKeyChar c = true) : trim s = x := by
  obtain ⟨a, b, rfl, ha, hb⟩ := h
  by_cases hne : x = []
  · subst hne
    refine trim_eq_nil_iff.mpr fun c hc => isWhitespace_of_isSpace ?_
    simp only [append_nil, mem_append] at hc
    exact hc.elim (ha c) (hb c)
  · exact trim_pad (solid_key hne hx) (blank_isWhitespace ha) (blank_isWhitespace hb)

/-- A text whose white space is the one of the grammar. -/
def KubeSpaced (s : List Char) : Prop := ∀ c ∈ s, isWhitespace c = true → isSpace c = true

theorem kubeSpaced_of_isPartChar (h : ∀ c ∈ s, isPartChar c = true) : KubeSpaced s := by
  intro c hc hwhite
  have hpart := h c hc
  rw [isPartChar, Bool.or_eq_true] at hpart
  rcases hpart with hspace | hkey
  · exact hspace
  · rw [not_isWhitespace_of_isKeyChar hkey] at hwhite
    cases hwhite

theorem kubeSpaced_append : KubeSpaced (s ++ t) ↔ KubeSpaced s ∧ KubeSpaced t := forall_mem_append

theorem blank_of_kubeSpaced (hs : KubeSpaced s) (h : ∀ c ∈ s, isWhitespace c = true) : Blank s :=
  fun c hc => hs c hc (h c hc)

theorem padded_trim (hs : KubeSpaced s) : Padded s (trim s) := by
  obtain ⟨a, b, heq, ha, hb⟩ := exists_pads isWhitespace s
  change s = a ++ trim s ++ b at heq
  have hs' : KubeSpaced (a ++ trim s ++ b) := by
    rw [← heq]
    exact hs
  obtain ⟨hpre, hpost⟩ := kubeSpaced_append.mp hs'
  exact ⟨a, b, heq, blank_of_kubeSpaced (kubeSpaced_append.mp hpre).1 ha,
    blank_of_kubeSpaced hpost hb⟩

theorem blank_append (hs : Blank s) (ht : Blank t) : Blank (s ++ t) :=
  forall_mem_append.mpr ⟨hs, ht⟩

variable {a c op : List Char}

theorem padded_left (ha : Blank a) (h : Padded s x) : Padded (a ++ s) x := by
  obtain ⟨b, c, rfl, hb, hc⟩ := h
  exact ⟨a ++ b, c, by simp, blank_append ha hb, hc⟩

theorem padded_right {b : List Char} (h : Padded s x) (hb : Blank b) : Padded (s ++ b) x := by
  obtain ⟨a, c, rfl, ha, hc⟩ := h
  exact ⟨a, c ++ b, by simp, ha, blank_append hc hb⟩

/-! ## The form of a clause -/

/-- Without `!` in front, the first operator decides. -/
theorem form_eq (hne : c ≠ []) (hbang : '!' ∉ c.head?) : form c = match Cut.splitOnce ['('] c with
    | some (head, rest) => .set head rest
    | none =>
      match Cut.splitOnce ['!', '='] c with
      | some (k, v) => .notEquals k v
      | none =>
        match Cut.splitOnce ['=', '='] c with
        | some (k, v) => .equals k v
        | none =>
          match Cut.splitOnce ['='] c with
          | some (k, v) => .equals k v
          | none => .present c := by
  unfold form
  split
  · exact absurd rfl hne
  · exact absurd rfl hbang
  · rfl

theorem head_ne_bang (hne : a ≠ []) (ha : ∀ c ∈ a, isPartChar c = true) (s : List Char) :
    '!' ∉ (a ++ s).head? := by
  obtain ⟨x, t, rfl⟩ := exists_cons_of_ne_nil hne
  have hchar := ha x (.head _)
  intro heq
  cases heq
  exact absurd hchar (by decide)

/-- Two parts with an operator between them. -/
structure Between (c a op b : List Char) : Prop where
  text : c = a ++ op ++ b
  ne_nil : a ≠ []
  left : ∀ c ∈ a, isPartChar c = true
  right : ∀ c ∈ b, isPartChar c = true

namespace Between
variable {c a op b : List Char}

theorem clause_ne_nil (h : Between c a op b) : c ≠ [] := by
  rw [h.text, append_assoc]
  exact append_ne_nil_of_left_ne_nil h.ne_nil _

theorem no_bang (h : Between c a op b) : '!' ∉ c.head? := by
  rw [h.text, append_assoc]
  exact head_ne_bang h.ne_nil h.left _

theorem notMem (h : Between c a op b) (hd : isPartChar d = false) (hop : d ∉ op) : d ∉ c := by
  rw [h.text, mem_append, mem_append]
  rintro ((hmem | hmem) | hmem)
  · exact notMem_of_isPartChar h.left hd hmem
  · exact hop hmem
  · exact notMem_of_isPartChar h.right hd hmem

variable {ds : List Char}

/-- The operator is where the reader cuts. -/
theorem splitOnce_self (h : Between c a (d :: ds) b) (hd : isPartChar d = false) :
    Cut.splitOnce (d :: ds) c = some (a, b) := by
  rw [h.text]
  exact Cut.splitOnce_append (notMem_of_isPartChar h.left hd)

theorem splitOnce_none (h : Between c a op b) (hd : isPartChar d = false) (hop : d ∉ op) :
    Cut.splitOnce (d :: ds) c = none :=
  splitOnce_of_notMem (h.notMem hd hop)

theorem form_notEquals (h : Between c a ['!', '='] b) : form c = .notEquals a b := by
  have hopen : Cut.splitOnce ['('] c = none := h.splitOnce_none (by decide) (by decide)
  rw [form_eq h.clause_ne_nil h.no_bang, hopen, h.splitOnce_self (by decide)]

theorem form_doubleEquals (h : Between c a ['=', '='] b) : form c = .equals a b := by
  have hopen : Cut.splitOnce ['('] c = none := h.splitOnce_none (by decide) (by decide)
  have hbang : Cut.splitOnce ['!', '='] c = none := h.splitOnce_none (by decide) (by decide)
  rw [form_eq h.clause_ne_nil h.no_bang, hopen, hbang, h.splitOnce_self (by decide)]

theorem form_equals (h : Between c a ['='] b) : form c = .equals a b := by
  have hopen : Cut.splitOnce ['('] c = none := h.splitOnce_none (by decide) (by decide)
  have hbang : Cut.splitOnce ['!', '='] c = none := h.splitOnce_none (by decide) (by decide)
  have hdouble : Cut.splitOnce ['=', '='] c = none := by
    rw [h.text, append_assoc]
    exact splitOnce_double (notMem_of_isPartChar h.left (by decide))
      (notMem_of_isPartChar h.right (by decide))
  rw [form_eq h.clause_ne_nil h.no_bang, hopen, hbang, hdouble, h.splitOnce_self (by decide)]

/-- An operator that the reader does not know. -/
theorem form_present (h : Between c a op b) (hop : '(' ∉ op ∧ '!' ∉ op ∧ '=' ∉ op) :
    form c = .present c := by
  have hopen : Cut.splitOnce ['('] c = none := h.splitOnce_none (by decide) hop.1
  have hbang : Cut.splitOnce ['!', '='] c = none := h.splitOnce_none (by decide) hop.2.1
  have hdouble : Cut.splitOnce ['=', '='] c = none := h.splitOnce_none (by decide) hop.2.2
  have hequals : Cut.splitOnce ['='] c = none := h.splitOnce_none (by decide) hop.2.2
  rw [form_eq h.clause_ne_nil h.no_bang, hopen, hbang, hdouble, hequals]

end Between

theorem pairText_trim (h : PairText op s k v) (hop : Cut.Solid isWhitespace op) :
    ∃ a b, Between (trim s) a op b ∧ trim a = k ∧ trim b = v := by
  obtain ⟨hk, hv, hs, ht⟩ := h
  rename_i s t
  obtain ⟨hne, hkey⟩ := isLabelKey_chars hk
  have hvalue := isLabelValue_chars hv
  have hleft := trim_dropWhile.trans (trim_padded hs hkey)
  have hright := trim_rdropWhile.trans (trim_padded ht hvalue)
  refine ⟨s.dropWhile isWhitespace, t.rdropWhile isWhitespace, ⟨trim_append hop, ?_, ?_, ?_⟩,
    hleft, hright⟩
  · intro hnil
    rw [hnil] at hleft
    exact hne hleft.symm
  · exact fun c hc => padded_chars hs hkey c ((dropWhile_suffix _).subset hc)
  · exact fun c hc => padded_chars ht hvalue c ((List.rdropWhile_prefix _ _).subset hc)

theorem form_set (hne : head ≠ []) (h : ∀ c ∈ head, isPartChar c = true) (rest : List Char) :
    form (head ++ ['('] ++ rest) = .set head rest := by
  have hcut : Cut.splitOnce ['('] (head ++ ['('] ++ rest) = some (head, rest) :=
    Cut.splitOnce_append (notMem_of_isPartChar h (by decide))
  rw [form_eq (by simp) (by rw [append_assoc]; exact head_ne_bang hne h _), hcut]

theorem solid_parens (s : List Char) : Cut.Solid isWhitespace (['('] ++ s ++ [')']) :=
  Cut.Solid.append (solid_of_all (by simp) (by decide)) (solid_of_all (by simp) (by decide)) s

theorem words_key_op {gap : List Char} (hk : k ≠ []) (hkey : ∀ c ∈ k, isKeyChar c = true)
    (hgap : Blank gap) (hne : gap ≠ []) (hop : op ≠ []) (hopkey : ∀ c ∈ op, isKeyChar c = true) :
    Cut.words isWhitespace (k ++ gap ++ op) = [k, op] := by
  have hword : ∀ {x : List Char}, (∀ c ∈ x, isKeyChar c = true) → ∀ c ∈ x, isWhitespace c = false :=
    fun h c hc => not_isWhitespace_of_isKeyChar (h c hc)
  obtain ⟨d, gap, rfl⟩ := exists_cons_of_ne_nil hne
  have hblank := blank_isWhitespace hgap
  rw [forall_mem_cons] at hblank
  rw [append_assoc, cons_append, words_word hk (hword hkey) hblank.1,
    words_blank hblank.2, words_single hop (hword hopkey)]

/-- What the reader cuts out of a set clause. -/
structure SetCut (c k op : List Char) (vs : List (List Char)) (head rest : List Char) : Prop where
  cut : form c = .set head rest
  words : Cut.words isWhitespace (trim head) = [k, op]
  last : rest.getLast? = some ')'
  values : (rest.dropLast.splitOn ',').map trim = vs

variable {us : List (List Char)} {rest : List Char} {r : Requirement}
section
variable (h : List.Forall₂ (fun u v => Padded u v ∧ isLabelValue v = true) us vs)
include h

theorem map_trim_padded : us.map trim = vs := by
  induction h with
  | nil => rfl
  | cons huv _ ih => rw [map_cons, trim_padded huv.1 (isLabelValue_chars huv.2), ih]

theorem isPartChar_of_padded : ∀ u ∈ us, ∀ c ∈ u, isPartChar c = true := by
  induction h with
  | nil => simp
  | cons huv _ ih => exact forall_mem_cons.mpr ⟨padded_chars huv.1 (isLabelValue_chars huv.2), ih⟩

end

theorem setText_cut (h : SetText op s k vs) (hop : op ≠ [])
    (hopkey : ∀ c ∈ op, isKeyChar c = true) :
    ∃ head rest, SetCut (trim s) k op vs head rest := by
  obtain ⟨hk, ⟨pre, post, rfl, hpre, hpost⟩, hgap, hne, ha, hus, hvs, hb⟩ := h
  rename_i gap a b us
  obtain ⟨hkne, hkey⟩ := isLabelKey_chars hk
  -- the key, the operator and the white space between them
  have hmid : Cut.Solid isWhitespace (k ++ (post ++ gap) ++ op) :=
    Cut.Solid.append (solid_key hkne hkey) (solid_key hop hopkey) _
  obtain ⟨head, hdef⟩ : ∃ head,
      head = (pre ++ (k ++ (post ++ gap) ++ op) ++ a).dropWhile isWhitespace :=
    ⟨_, rfl⟩
  have hhead : trim head = k ++ (post ++ gap) ++ op := by
    rw [hdef]
    exact trim_dropWhile.trans (trim_pad hmid (blank_isWhitespace hpre) (blank_isWhitespace ha))
  have htrim : trim (pre ++ k ++ post ++ gap ++ op ++ a ++ ['('] ++ [','].intercalate us ++
    [')'] ++ b) =
      head ++ ['('] ++ ([','].intercalate us ++ [')']) := by
    have hcut := trim_append (p := isWhitespace) (a := pre ++ (k ++ (post ++ gap) ++ op) ++ a)
      (b := b)
      (solid_parens ([','].intercalate us))
    rw [rdropWhile_eq_nil_iff.mpr (blank_isWhitespace hb), ← hdef] at hcut
    simpa [trim] using hcut
  have hchars : ∀ c ∈ head, isPartChar c = true := by
    intro c hc
    rw [hdef] at hc
    have hmem := (dropWhile_suffix _).subset hc
    simp only [mem_append] at hmem
    rcases hmem with (h | (h | h | h) | h) | h
    · simp [isPartChar, hpre c h]
    · simp [isPartChar, hkey c h]
    · simp [isPartChar, hpost c h]
    · simp [isPartChar, hgap c h]
    · simp [isPartChar, hopkey c h]
    · simp [isPartChar, ha c h]
  have hheadne : head ≠ [] := by
    rintro rfl
    exact hmid.ne_nil hhead.symm
  have hsplit : ([','].intercalate us).splitOn ',' = us := splitOn_intercalate ','
      (fun u hu => notMem_of_isPartChar (isPartChar_of_padded hvs u hu) (by decide)) hus
  refine ⟨head, [','].intercalate us ++ [')'], ?_, ?_, by simp, ?_⟩
  · rw [htrim]
    exact form_set hheadne hchars _
  · rw [hhead]
    exact words_key_op hkne hkey (blank_append hpost hgap) (append_ne_nil_of_right_ne_nil _ hne)
      hop hopkey
  · rw [dropLast_concat, hsplit, map_trim_padded hvs]

/-! ## Which texts are read as they are written -/

/-- The parts that the reader cuts out are a valid key and valid values, none of them empty in a
set, and nothing stands behind the set. -/
def Form.valid : Form → Bool
  | .empty => false
  | .absent key => isLabelKey (trim key)
  | .set head rest =>
    (match Cut.words isWhitespace (trim head) with
      | [key, op] => isLabelKey key && (op = "in".toList || op = "notin".toList)
      | _ => false) &&
    rest.getLast? = some ')' &&
    (rest.dropLast.splitOn ',').all fun v => !(trim v).isEmpty && isLabelValue (trim v)
  | .notEquals key value => isLabelKey (trim key) && isLabelValue (trim value)
  | .equals key value => isLabelKey (trim key) && isLabelValue (trim value)
  | .present key => isLabelKey key

/-- The clauses of the text are valid, and its white space is that of the grammar. -/
def validText (s : String) : Bool :=
  (s.toList.all fun c => !isWhitespace c || isSpace c) &&
    ((trim s.toList).isEmpty || (splitTopLevel s.toList).all fun c => (form (trim c)).valid)

/-- The reader keeps all of the requirement. -/
def Kube.Requirement.kept : Requirement → Bool
  | .isIn _ vs => !vs.contains ""
  | .notIn _ vs => !vs.contains ""
  | .greater _ _ => false
  | .less _ _ => false
  | _ => true

/-- What the reader makes of a requirement: it drops empty values, and takes a comparison for a
key. -/
inductive ReadAs : Requirement → LabelRequirement → Prop
  | equals (k v : String) : ReadAs (.equals k v) (.equals k v)
  | notEquals (k v : String) : ReadAs (.notEquals k v) (.notEquals k v)
  | isIn (k : String) (vs : List String) : ReadAs (.isIn k vs) (.isIn k (vs.filter fun v => v ≠ ""))
  | notIn (k : String)
    (vs : List String) : ReadAs (.notIn k vs) (.notIn k (vs.filter fun v => v ≠ ""))
  | present (k : String) : ReadAs (.present k) (.present k)
  | absent (k : String) : ReadAs (.absent k) (.absent k)
  | greater {k c : String} (n : Int) (h : c ≠ k) : ReadAs (.greater k n) (.present c)
  | less {k c : String} (n : Int) (h : c ≠ k) : ReadAs (.less k n) (.present c)

theorem trimKey_of (h : trim a = k) (hk : k ≠ []) (c : List Char) (what : String) :
    trimKey a c what = .ok (String.ofList k) := by
  rw [trimKey, h, if_neg (by simpa using hk)]

theorem map_filter_values (vs : List (List Char)) :
    (vs.filter fun v => !v.isEmpty).map String.ofList = (vs.map String.ofList).filter fun v =>
    v ≠ "" := by
  rw [filter_map]
  congr 1
  refine filter_congr fun v _ => ?_
  cases v <;> simp

theorem SetCut.parse (h : SetCut c k op vs head rest) :
    parseLabelClause c = (if op = "in".toList then
        .ok (some (.isIn (String.ofList k) ((vs.map String.ofList).filter fun v => v ≠ "")))
      else if op = "notin".toList then
        .ok (some (.notIn (String.ofList k) ((vs.map String.ofList).filter fun v => v ≠ "")))
      else .error (badSelector "labelSelector" c "set requires 'in' or 'notin'")) := by
  have hne : rest ≠ [] := by
    rintro rfl
    cases h.last
  have hclose : rest.rdropWhile (· ≠ ')') = rest := by
    rw [rdropWhile_eq_self_iff]
    intro hl
    have hlast := h.last
    rw [List.getLast?_eq_some_getLast hl, Option.some_inj] at hlast
    simp [hlast]
  rw [parseLabelClause_eq, h.cut]
  simp only [parseSetClause, hclose, h.words, h.values, ← map_filter_values]
  rw [if_neg (by simpa using hne)]
  split_ifs <;> rfl

theorem SetCut.valid (h : SetCut c k op vs head rest) (hk : isLabelKey k = true)
    (hop : op = "in".toList ∨ op = "notin".toList) (hvs : ∀ v ∈ vs, isLabelValue v = true) :
    (form c).valid = !(vs.map String.ofList).contains "" := by
  have hall : ((rest.dropLast.splitOn ',').all fun v => !(trim v).isEmpty &&
    isLabelValue (trim v)) =
      vs.all fun v => !v.isEmpty && isLabelValue v := by
    rw [← h.values, all_map]
    rfl
  have hempty : (vs.all fun v => !v.isEmpty && isLabelValue v) =
      !(vs.map String.ofList).contains "" := by
    rw [Bool.eq_iff_iff]
    simp only [all_eq_true, Bool.and_eq_true, Bool.not_eq_true', contains_eq_mem,
      decide_eq_false_iff_not, mem_map, not_exists, not_and]
    constructor
    · intro hv v hmem heq
      cases v with
      | nil => exact absurd (hv [] hmem).1 (by decide)
      | cons c v => simp at heq
    · intro hv v hmem
      refine ⟨?_, hvs v hmem⟩
      cases v with
      | nil => exact absurd rfl (hv [] hmem)
      | cons c v => rfl
  rw [h.cut]
  simp only [Form.valid, h.words, hk, h.last, hall, hempty]
  rcases hop with rfl | rfl <;> simp

/-- How a clause is read. -/
structure ClauseRead (c : List Char) (r : Requirement) (e : LabelRequirement) : Prop where
  parse : parseLabelClause c = .ok (some e)
  readAs : ReadAs r e
  valid : (form c).valid = r.kept

theorem pairText_valid (h : PairText op s k v) : isLabelKey k = true ∧ isLabelValue v = true := by
  obtain ⟨hk, hv, -, -⟩ := h
  exact ⟨hk, hv⟩

theorem isLabelKey_eq_false (hmem : d ∈ c) (hd : isKeyChar d = false) : isLabelKey c = false := by
  by_contra h
  rw [Bool.not_eq_false] at h
  exact ne_of_isKeyChar ((isLabelKey_chars h).2 d hmem) hd rfl

theorem equals_read (h : PairText ['='] s k v ∨ PairText ['=', '='] s k v) :
    ClauseRead (trim s) (.equals (String.ofList k) (String.ofList v))
      (.equals (String.ofList k) (String.ofList v)) := by
  have hvalid := h.elim pairText_valid pairText_valid
  obtain ⟨a, b, hform, ha, hb⟩ : ∃ a b, form (trim s) = .equals a b ∧ trim a = k ∧ trim b = v := by
    rcases h with h | h
    · obtain ⟨a, b, hbetween, ha, hb⟩ := pairText_trim h (solid_of_all (by simp) (by decide))
      exact ⟨a, b, hbetween.form_equals, ha, hb⟩
    · obtain ⟨a, b, hbetween, ha, hb⟩ := pairText_trim h (solid_of_all (by simp) (by decide))
      exact ⟨a, b, hbetween.form_doubleEquals, ha, hb⟩
  refine ⟨?_, .equals _ _, ?_⟩
  · rw [parseLabelClause_eq, hform]
    simp only [trimKey_of ha (isLabelKey_chars hvalid.1).1, hb]
    rfl
  · rw [hform]
    simp only [Form.valid, ha, hb, hvalid]
    rfl

theorem notEquals_read (h : PairText ['!', '='] s k v) :
    ClauseRead (trim s) (.notEquals (String.ofList k) (String.ofList v))
      (.notEquals (String.ofList k) (String.ofList v)) := by
  have hvalid := pairText_valid h
  obtain ⟨a, b, hbetween, ha, hb⟩ := pairText_trim h (solid_of_all (by simp) (by decide))
  refine ⟨?_, .notEquals _ _, ?_⟩
  · rw [parseLabelClause_eq, hbetween.form_notEquals]
    simp only [trimKey_of ha (isLabelKey_chars hvalid.1).1, hb]
    rfl
  · rw [hbetween.form_notEquals]
    simp only [Form.valid, ha, hb, hvalid]
    rfl

theorem present_read (hk : isLabelKey k = true) (hs : Padded s k) :
    ClauseRead (trim s) (.present (String.ofList k)) (.present (String.ofList k)) := by
  obtain ⟨hne, hkey⟩ := isLabelKey_chars hk
  have hbetween : Between k k [] [] :=
    ⟨by simp, hne, fun c hc => by simp [isPartChar, hkey c hc], by simp⟩
  have hform : form k = .present k := hbetween.form_present (by simp)
  rw [trim_padded hs hkey]
  refine ⟨?_, .present _, ?_⟩
  · rw [parseLabelClause_eq, hform]
  · rw [hform]
    exact hk

theorem absent_read (ha : Blank a) (hk : isLabelKey k = true) (hs : Padded s k) :
    ClauseRead (trim (a ++ ['!'] ++ s)) (.absent (String.ofList k))
    (.absent (String.ofList k)) := by
  obtain ⟨hne, hkey⟩ := isLabelKey_chars hk
  have htrim : trim (a ++ ['!'] ++ s) = '!' :: s.rdropWhile isWhitespace := by
    rw [trim, trim_append (solid_of_all (by simp) (by decide)),
      dropWhile_eq_nil_iff.mpr (blank_isWhitespace ha)]
    rfl
  have hs' : trim (s.rdropWhile isWhitespace) = k := trim_rdropWhile.trans (trim_padded hs hkey)
  rw [htrim]
  refine ⟨?_, .absent _, ?_⟩
  · simp only [parseLabelClause, hs']
    rw [if_neg (by simpa using hne)]
  · simp only [form, Form.valid, hs', hk]
    rfl

/-- A comparison has no operator for the reader, which takes all of the clause for a key. -/
theorem comparison_read {op : Char} (h : PairText [op] s k v)
    (hop : isPartChar op = false) (hplain : op ≠ '(' ∧ op ≠ '!' ∧ op ≠ '=')
    (hsolid : isWhitespace op = false) :
    parseLabelClause (trim s) = .ok (some (.present (String.ofList (trim s)))) ∧
      String.ofList (trim s) ≠ String.ofList k ∧ (form (trim s)).valid = false := by
  obtain ⟨a, b, hbetween, -, -⟩ :=
    pairText_trim h (solid_of_forall (by simp) (by simpa using hsolid))
  have hkeychar : isKeyChar op = false := by
    rw [isPartChar, Bool.or_eq_false_iff] at hop
    exact hop.2
  have hmem : op ∈ trim s := by
    rw [hbetween.text]
    simp
  have hform : form (trim s) = .present (trim s) :=
    hbetween.form_present (by simpa [eq_comm] using hplain)
  have hinvalid := isLabelKey_eq_false hmem hkeychar
  refine ⟨?_, ?_, ?_⟩
  · rw [parseLabelClause_eq, hform]
  · rw [Ne, String.ofList_inj]
    intro heq
    rw [heq, (pairText_valid h).1] at hinvalid
    cases hinvalid
  · rw [hform]
    exact hinvalid

theorem setText_valid (h : SetText op s k vs) :
    isLabelKey k = true ∧ ∀ v ∈ vs, isLabelValue v = true := by
  obtain ⟨hk, -, -, -, -, -, hvs, -⟩ := h
  refine ⟨hk, ?_⟩
  induction hvs with
  | nil => simp
  | cons huv _ ih => exact forall_mem_cons.mpr ⟨huv.2, ih⟩

/-- Every clause of the grammar is read. -/
theorem clause_read (h : Clause s r) : ∃ e, ClauseRead (trim s) r e := by
  cases h with
  | equals h => exact ⟨_, equals_read h⟩
  | notEquals h => exact ⟨_, notEquals_read h⟩
  | isIn h =>
    obtain ⟨head, rest, hcut⟩ := setText_cut h (by decide) (all_eq_true.mp (by decide))
    obtain ⟨hk, hvs⟩ := setText_valid h
    exact ⟨_, hcut.parse.trans (if_pos rfl), .isIn _ _, hcut.valid hk (.inl rfl) hvs⟩
  | notIn h =>
    obtain ⟨head, rest, hcut⟩ := setText_cut h (by decide) (all_eq_true.mp (by decide))
    obtain ⟨hk, hvs⟩ := setText_valid h
    exact ⟨_, hcut.parse.trans ((if_neg (by decide)).trans (if_pos rfl)), .notIn _ _,
      hcut.valid hk (.inr rfl) hvs⟩
  | present hk hs => exact ⟨_, present_read hk hs⟩
  | absent ha hk hs => exact ⟨_, absent_read ha hk hs⟩
  | greater h hn =>
    obtain ⟨hparse, hne, hvalid⟩ := comparison_read h (by decide) (by decide) (by decide)
    exact ⟨_, hparse, .greater _ hne, hvalid⟩
  | less h hn =>
    obtain ⟨hparse, hne, hvalid⟩ := comparison_read h (by decide) (by decide) (by decide)
    exact ⟨_, hparse, .less _ hne, hvalid⟩

/-! ## Selectors -/

/-- The characters of a clause outside parentheses. -/
def isClauseChar (c : Char) : Bool := isPartChar c || c = '=' || c = '!' || c = '>' || c = '<'

theorem closed_of_isClauseChar (h : ∀ c ∈ s, isClauseChar c = true) : Closed s := by
  have hne : ∀ d, isClauseChar d = false → ∀ c ∈ s, c ≠ d := by
    rintro d hd c hc rfl
    rw [h c hc] at hd
    cases hd
  exact closed_plain fun c hc =>
    ⟨hne '(' (by decide) c hc, hne ')' (by decide) c hc, hne ',' (by decide) c hc⟩

theorem kubeSpaced_of_isClauseChar (h : ∀ c ∈ s, isClauseChar c = true) : KubeSpaced s := by
  intro c hc hwhite
  have hchar := h c hc
  simp only [isClauseChar, Bool.or_eq_true, decide_eq_true_eq] at hchar
  rcases hchar with (((hpart | rfl) | rfl) | rfl) | rfl
  · exact kubeSpaced_of_isPartChar (s := [c]) (by simpa using hpart) c (.head _) hwhite
  all_goals exact absurd hwhite (by decide)

theorem isClauseChar_of_isPartChar {c : Char} (h : isPartChar c = true) :
    isClauseChar c = true := by
  simp [isClauseChar, h]

theorem isClauseChar_of_blank (h : Blank s) : ∀ c ∈ s, isClauseChar c = true :=
  fun c hc => isClauseChar_of_isPartChar (by simp [isPartChar, h c hc])

theorem isClauseChar_of_padded (h : Padded s x) (hx : ∀ c ∈ x, isKeyChar c = true) :
    ∀ c ∈ s, isClauseChar c = true :=
  fun c hc => isClauseChar_of_isPartChar (padded_chars h hx c hc)

theorem pairText_chars (h : PairText op s k v) (hop : ∀ c ∈ op, isClauseChar c = true) :
    ∀ c ∈ s, isClauseChar c = true := by
  obtain ⟨hk, hv, hs, ht⟩ := h
  simp only [forall_mem_append]
  exact ⟨⟨isClauseChar_of_padded hs (isLabelKey_chars hk).2, hop⟩,
    isClauseChar_of_padded ht (isLabelValue_chars hv)⟩

theorem setText_text (h : SetText op s k vs) (hop : ∀ c ∈ op, isClauseChar c = true) :
    Closed s ∧ KubeSpaced s := by
  obtain ⟨hk, hs, hgap, -, ha, -, hvs, hb⟩ := h
  rename_i s gap a b us
  have hbefore : ∀ c ∈ s ++ gap ++ op ++ a, isClauseChar c = true := by
    simp only [forall_mem_append]
    exact ⟨⟨⟨isClauseChar_of_padded hs (isLabelKey_chars hk).2, isClauseChar_of_blank hgap⟩, hop⟩,
      isClauseChar_of_blank ha⟩
  have hbehind := isClauseChar_of_blank hb
  have hinner : ∀ c ∈ [','].intercalate us, c = ',' ∨ isPartChar c = true := by
    intro c hc
    rcases mem_intercalate hc with rfl | ⟨u, hu, hcu⟩
    · exact .inl rfl
    · exact .inr (isPartChar_of_padded hvs u hu c hcu)
  have hparens : ∀ c ∈ [','].intercalate us, c ≠ '(' ∧ c ≠ ')' := by
    intro c hc
    rcases hinner c hc with rfl | hpart
    · decide
    · exact ⟨ne_of_isPartChar hpart (by decide), ne_of_isPartChar hpart (by decide)⟩
  constructor
  · have h := ((closed_of_isClauseChar hbefore).append (closed_parens hparens)).append
      (closed_of_isClauseChar hbehind)
    simpa using h
  have hspaced : KubeSpaced ([','].intercalate us) := by
    intro c hc hwhite
    rcases hinner c hc with rfl | hpart
    · exact absurd hwhite (by decide)
    · exact kubeSpaced_of_isPartChar (s := [c]) (by simpa using hpart) c (.head _) hwhite
  have hopen : KubeSpaced ['('] := forall_mem_singleton.mpr (by decide)
  have hclose : KubeSpaced [')'] := forall_mem_singleton.mpr (by decide)
  rw [kubeSpaced_append, kubeSpaced_append, kubeSpaced_append, kubeSpaced_append]
  exact ⟨⟨⟨⟨kubeSpaced_of_isClauseChar hbefore, hopen⟩, hspaced⟩, hclose⟩,
    kubeSpaced_of_isClauseChar hbehind⟩

theorem clause_text (h : Clause s r) : Closed s ∧ KubeSpaced s := by
  have hplain : (∀ c ∈ s, isClauseChar c = true) → Closed s ∧ KubeSpaced s :=
    fun h => ⟨closed_of_isClauseChar h, kubeSpaced_of_isClauseChar h⟩
  cases h with
  | equals h =>
    rcases h with h | h
    · exact hplain (pairText_chars h (all_eq_true.mp (by decide)))
    · exact hplain (pairText_chars h (all_eq_true.mp (by decide)))
  | notEquals h => exact hplain (pairText_chars h (all_eq_true.mp (by decide)))
  | isIn h | notIn h => exact setText_text h (all_eq_true.mp (by decide))
  | present hk hs => exact hplain (isClauseChar_of_padded hs (isLabelKey_chars hk).2)
  | absent ha hk hs =>
    refine hplain ?_
    simp only [forall_mem_append]
    exact ⟨⟨isClauseChar_of_blank ha, all_eq_true.mp (by decide)⟩,
      isClauseChar_of_padded hs (isLabelKey_chars hk).2⟩
  | greater h _ | less h _ => exact hplain (pairText_chars h (all_eq_true.mp (by decide)))

theorem parseClauses_read {ss : List (List Char)} {rs : List Requirement}
    (h : List.Forall₂ Clause ss rs) :
    ∃ es, parseClauses ss = .ok es ∧ List.Forall₂ ReadAs rs es ∧
      (ss.all fun c => (form (trim c)).valid) = rs.all Requirement.kept := by
  induction h with
  | nil => exact ⟨[], rfl, .nil, rfl⟩
  | cons hclause _ ih =>
    obtain ⟨e, hread⟩ := clause_read hclause
    obtain ⟨es, hparse, hreads, hvalid⟩ := ih
    refine ⟨e :: es, ?_, .cons hread.readAs hreads, ?_⟩
    · rw [parseClauses, hread.parse, hparse]
      rfl
    · rw [all_cons, all_cons, hread.valid, hvalid]

end Engenho
