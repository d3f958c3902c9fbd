import Mathlib.Data.List.Forall2
import Engenho.Api.SelectorReading

/-!
# What selectors that are read mean

Every text of the grammar is read, and keeps its meaning exactly if it is a `validText`: the reader
drops the empty values of a set, takes a comparison for a key, and also accepts texts that are not
in the grammar.

* `selector_read`, `selector_of_validText`: texts of the grammar and texts that are valid.
* `parseLabelSelector_reads_iff`: which texts are read as they are written, and which lists of
  requirements come back from their own text.
* `parseLabelSelector_misreads`: texts that are accepted with another meaning.
-/

namespace Engenho
open Kube Cut LabelRequirement Clause Option List Bool

/-! ## Texts of the grammar -/

variable {s : String} {rs : List Requirement} {e : LabelRequirement} {es : List LabelRequirement}

theorem parseLabelSelector_some (h : s.toList ≠ []) :
    parseLabelSelector (some s) = parseClauses (splitTopLevel s.toList) := by
  have hne : (!s.isEmpty) = true := by
    rw [not_eq_true', ← not_eq_true, String.isEmpty_iff]
    rintro rfl
    exact h rfl
  simp only [parseLabelSelector, filter_some, hne, if_true]

theorem parseLabelSelector_blank (h : Blank s.toList) : parseLabelSelector (some s) = .ok [] := by
  by_cases hnil : s.toList = []
  · rw [String.toList_eq_nil_iff.mp hnil]
    rfl
  · have hclosed := closed_of_isClauseChar (isClauseChar_of_blank h)
    have hsplit : splitTopLevel s.toList = [s.toList] := by
      simpa using @splitTopLevel_intercalate [s.toList] (by simp) (by simpa using hclosed)
    have htrim : trim s.toList = [] := trim_eq_nil_iff.mpr (blank_isWhitespace h)
    rw [parseLabelSelector_some hnil, hsplit, parseClauses, htrim]
    rfl

theorem validText_iff : validText s = true ↔ KubeSpaced s.toList ∧
    (trim s.toList = [] ∨ ∀ c ∈ splitTopLevel s.toList, (form (trim c)).valid = true) := by
  have hspaced : (s.toList.all fun c => !isWhitespace c || isSpace c) = true ↔
      KubeSpaced s.toList := by
    simp only [List.all_eq_true]
    refine forall₂_congr fun c _ => ?_
    cases isWhitespace c <;> simp
  rw [validText, and_eq_true, or_eq_true, hspaced, List.isEmpty_iff, List.all_eq_true]

theorem clauses_text {ss : List (List Char)} (h : List.Forall₂ Clause ss rs) :
    ∀ t ∈ ss, Closed t ∧ KubeSpaced t ∧ trim t ≠ [] := by
  induction h with
  | nil => simp
  | cons hclause _ ih =>
    obtain ⟨hclosed, hspaced⟩ := clause_text hclause
    obtain ⟨e, hread⟩ := clause_read hclause
    refine forall_mem_cons.mpr ⟨⟨hclosed, hspaced, fun hnil => ?_⟩, ih⟩
    have hparse := hread.parse
    rw [hnil] at hparse
    cases hparse

/-- Every text of the grammar is read; the valid ones are those of which all is kept. -/
theorem selector_read (h : Selector s.toList rs) :
    ∃ es, parseLabelSelector (some s) = .ok es ∧ List.Forall₂ ReadAs rs es ∧
      (validText s = true ↔ ∀ r ∈ rs, r.kept = true) := by
  generalize hs : s.toList = cs at h
  cases h with
  | blank hblank =>
    subst hs
    refine ⟨[], parseLabelSelector_blank hblank, .nil, iff_of_true ?_ (by simp)⟩
    exact validText_iff.mpr ⟨fun c hc _ => hblank c hc,
      .inl (trim_eq_nil_iff.mpr (blank_isWhitespace hblank))⟩
  | clauses hne h =>
    rename_i ss
    obtain ⟨es, hparse, hreads, hvalid⟩ := parseClauses_read h
    have htext := clauses_text h
    have hsplit : splitTopLevel ([','].intercalate ss) = ss :=
      splitTopLevel_intercalate hne fun t ht => (htext t ht).1
    have hspaced : KubeSpaced ([','].intercalate ss) := by
      intro c hc hwhite
      rcases mem_intercalate hc with rfl | ⟨t, ht, hct⟩
      · exact absurd hwhite (by decide)
      · exact (htext t ht).2.1 c hct hwhite
    have htrim : trim ([','].intercalate ss) ≠ [] := by
      obtain ⟨t, ts, rfl⟩ := exists_cons_of_ne_nil hne
      intro hnil
      have hblank := trim_eq_nil_iff.mp hnil
      refine (htext t (.head _)).2.2 (trim_eq_nil_iff.mpr fun c hc => hblank c ?_)
      exact mem_intercalate_of_mem (.head _) hc
    refine ⟨es, ?_, hreads, ?_⟩
    · have hnil : s.toList ≠ [] := by
        rw [hs]
        intro hnil
        rw [hnil] at htrim
        exact htrim rfl
      rw [parseLabelSelector_some hnil, hs, hsplit, hparse]
    · rw [validText_iff, hs, hsplit, ← List.all_eq_true, hvalid]
      simp [hspaced, htrim]

/-! ## Valid texts -/

variable {a b d op : List Char} {r : LabelRequirement}

theorem setText_of_words {head inner key : List Char} (hspaced : KubeSpaced d)
    (hd : d = a ++ (head ++ ['('] ++ (inner ++ [')'])) ++ b) (ha : Blank a) (hb : Blank b)
    (hwords : Cut.words isWhitespace (trim head) = [key, op]) (hkey : isLabelKey key = true)
    (hvalues : ∀ v ∈ inner.splitOn ',', isLabelValue (trim v) = true) :
    SetText op d key ((inner.splitOn ',').map trim) := by
  rw [hd, kubeSpaced_append, kubeSpaced_append, kubeSpaced_append, kubeSpaced_append,
    kubeSpaced_append] at hspaced
  obtain ⟨⟨-, ⟨hhead, -⟩, hinner, -⟩, -⟩ := hspaced
  obtain ⟨pre, post, hpads, hpre, hpost⟩ := padded_trim hhead
  obtain ⟨p₁, gap, p₂, htext, hp₁, hgap, hne, hp₂⟩ := words_pair hwords
  rw [hpads, htext] at hhead
  simp only [kubeSpaced_append] at hhead
  obtain ⟨⟨-, ⟨⟨⟨hsp₁, -⟩, hspgap⟩, -⟩, hsp₂⟩, -⟩ := hhead
  have hkeypad : Padded (a ++ (pre ++ (p₁ ++ key))) key :=
    padded_left ha (padded_left hpre ⟨p₁, [], by simp,
      blank_of_kubeSpaced hsp₁ hp₁, by simp [Blank]⟩)
  have hcommas : inner = [','].intercalate (inner.splitOn ',') :=
    (@intercalate_splitOn _ inner _ _ ',').symm
  have hvs : List.Forall₂ (fun u v => Padded u v ∧ isLabelValue v = true) (inner.splitOn ',')
      ((inner.splitOn ',').map trim) := by
    rw [forall₂_map_right_iff, forall₂_same]
    refine fun u hu => ⟨padded_trim fun c hc => hinner c ?_, hvalues u hu⟩
    rw [hcommas]
    exact mem_intercalate_of_mem hu hc
  have hmk : SetText op _ key _ := SetText.mk hkey hkeypad (blank_of_kubeSpaced hspgap hgap) hne
    (blank_append (blank_of_kubeSpaced hsp₂ hp₂) hpost) (splitOn_ne_nil ',' inner) hvs hb
  rw [hd, hpads, htext]
  simpa using hmk

theorem pairText_of_valid {c k v : List Char} (hspaced : KubeSpaced d) (hd : d = a ++ c ++ b)
    (ha : Blank a) (hb : Blank b) (hc : c = k ++ op ++ v)
    (h : isLabelKey (trim k) = true ∧ isLabelValue (trim v) = true) :
    PairText op d (trim k) (trim v) := by
  have htext : d = (a ++ k) ++ op ++ (v ++ b) := by
    rw [hd, hc]
    simp
  rw [htext, kubeSpaced_append, kubeSpaced_append, kubeSpaced_append, kubeSpaced_append] at hspaced
  obtain ⟨⟨⟨-, hk⟩, -⟩, hv, -⟩ := hspaced
  rw [htext]
  exact .mk h.1 h.2 (padded_left ha (padded_trim hk)) (padded_right (padded_trim hv) hb)

/-- A clause whose parts are valid is one of the grammar. -/
theorem clause_of_valid (hspaced : KubeSpaced d) (h : (form (trim d)).valid = true) :
    ∃ r, Clause d r := by
  obtain ⟨a, b, hd, ha, hb⟩ := padded_trim hspaced
  have hof := form_of (trim d)
  have hpart : ∀ {s : List Char}, (∀ c ∈ s, c ∈ d) → Padded s (trim s) :=
    fun hs => padded_trim fun c hc => hspaced c (hs c hc)
  generalize hform : form (trim d) = f at h hof
  cases f with
  | empty => cases h
  | absent key =>
    have htext : d = a ++ ['!'] ++ (key ++ b) := by
      rw [hd, hof]
      simp
    rw [htext]
    exact ⟨_, .absent ha h (padded_right (hpart fun c hc => by rw [htext]; simp [hc]) hb)⟩
  | set head rest =>
    simp only [Form.valid, and_eq_true, decide_eq_true_eq, List.all_eq_true] at h
    obtain ⟨⟨hwords, hlast⟩, hvalues⟩ := h
    obtain ⟨inner, rfl⟩ := List.getLast?_eq_some_iff.mp hlast
    rw [dropLast_concat] at hvalues
    split at hwords
    · rename_i key op heq
      rw [and_eq_true, or_eq_true, decide_eq_true_eq, decide_eq_true_eq] at hwords
      have hset : SetText op d key ((inner.splitOn ',').map trim) :=
        setText_of_words hspaced (by rw [← hof]; exact hd) ha hb heq hwords.1 fun v hv =>
          (hvalues v hv).2
      rcases hwords.2 with rfl | rfl
      · exact ⟨_, .isIn hset⟩
      · exact ⟨_, .notIn hset⟩
    · cases hwords
  | notEquals k v =>
    rw [Form.valid, and_eq_true] at h
    exact ⟨_, .notEquals (pairText_of_valid hspaced hd ha hb hof h)⟩
  | equals k v =>
    rw [Form.valid, and_eq_true] at h
    rcases hof with hof | hof
    · exact ⟨_, .equals (.inr (pairText_of_valid hspaced hd ha hb hof h))⟩
    · exact ⟨_, .equals (.inl (pairText_of_valid hspaced hd ha hb hof h))⟩
  | present key =>
    rw [← hof] at h
    exact ⟨_, .present h ⟨a, b, hd, ha, hb⟩⟩

theorem selector_of_validText (h : validText s = true) : ∃ rs, Selector s.toList rs := by
  obtain ⟨hspaced, hclauses⟩ := validText_iff.mp h
  rcases hclauses with hnil | hclauses
  · exact ⟨[], .blank (blank_of_kubeSpaced hspaced (trim_eq_nil_iff.mp hnil))⟩
  have hread : ∀ ts : List (List Char), (∀ t ∈ ts, KubeSpaced t ∧ (form (trim t)).valid = true) →
      ∃ rs, List.Forall₂ Clause ts rs := by
    intro ts
    induction ts with
    | nil => exact fun _ => ⟨[], .nil⟩
    | cons t ts ih =>
      intro hts
      rw [forall_mem_cons] at hts
      obtain ⟨r, hr⟩ := clause_of_valid hts.1.1 hts.1.2
      obtain ⟨rs, hrs⟩ := ih hts.2
      exact ⟨r :: rs, .cons hr hrs⟩
  obtain ⟨rs, hrs⟩ := hread (splitTopLevel s.toList) fun t ht => by
    refine ⟨fun c hc => hspaced c ?_, hclauses t ht⟩
    rw [← intercalate_splitTopLevel s.toList]
    exact mem_intercalate_of_mem ht hc
  refine ⟨rs, ?_⟩
  rw [← intercalate_splitTopLevel s.toList]
  exact .clauses (splitTopLevelFrom_ne_nil _ _ _) hrs

/-! ## Meaning -/

/-- The requirement that the reader means. -/
def LabelRequirement.toKube : LabelRequirement → Requirement
  | .equals k v => .equals k v
  | .notEquals k v => .notEquals k v
  | .isIn k vs => .isIn k vs
  | .notIn k vs => .notIn k vs
  | .present k => .present k
  | .absent k => .absent k

/-- A selector of labels matches as its requirements say. -/
theorem matches_toKube (es : List LabelRequirement) (obj : Json) :
    Selectors.matches ⟨es, []⟩ obj = true ↔ ∀ e ∈ es, e.toKube.Matches (labelsOf obj) := by
  simp only [Selectors.matches, all_nil, Bool.and_true, List.all_eq_true]
  refine forall₂_congr fun e _ => ?_
  cases e with
  | equals k v | notEquals k v => exact decide_eq_true_iff
  | isIn k vs =>
    change (labelsOf obj k).any (fun h => vs.any fun s => s = h) = true ↔
      ∃ v ∈ vs, labelsOf obj k = some v
    cases labelsOf obj k with
    | none => simp
    | some h =>
      simp only [any_some, List.any_eq_true, decide_eq_true_eq, some_inj]
      exact exists_congr fun v => and_congr_right fun _ => eq_comm
  | notIn k vs =>
    change (labelsOf obj k).all (fun h => !vs.any fun s => s = h) = true ↔
      ∀ v ∈ vs, labelsOf obj k ≠ some v
    cases labelsOf obj k with
    | none => simp
    | some h =>
      simp only [all_some, not_eq_true', List.any_eq_false, decide_eq_true_eq, ne_eq, some_inj]
      exact forall₂_congr fun v _ => not_congr eq_comm
  | present k => exact isSome_iff_exists
  | absent k => exact isNone_iff_eq_none

/-- The requirement that is read says the same of every object. -/
def Agree (r : Requirement) (e : LabelRequirement) : Prop :=
  ∀ obj, Selectors.matches ⟨[e], []⟩ obj = true ↔ r.Matches (labelsOf obj)

theorem agree_toKube {r : Requirement} :
    Agree r e ↔ ∀ obj, e.toKube.Matches (labelsOf obj) ↔ r.Matches (labelsOf obj) := by
  simp [Agree, matches_toKube]

/-- An object with one label. -/
def labelled (k v : String) : Json := .obj [("metadata", .obj [("labels", .obj [(k, .str v)])])]

theorem labelsOf_labelled (k v k' : String) :
    labelsOf (labelled k v) k' = if k' = k then some v else none := by
  by_cases h : k' = k
  · subst h
    simp [labelsOf, labelled, Json.asStr]
  · have hlookup : List.lookup k' [(k, Json.str v)] = none := by
      rw [lookup_cons, beq_eq_false_iff_ne.mpr h]
      rfl
    simp [labelsOf, labelled, h, hlookup]

/-- Reading changes the meaning exactly where it drops something. -/
theorem agree_iff {r : Requirement} (h : ReadAs r e) : Agree r e ↔ r.kept = true := by
  rw [agree_toKube]
  cases h with
  | equals k v | notEquals k v | present k | absent k => exact iff_of_true (fun _ => Iff.rfl) rfl
  | isIn k vs =>
    simp only [toKube, Requirement.Matches, Requirement.kept, contains_eq_mem,
      not_eq_true', decide_eq_false_iff_not, mem_filter, decide_eq_true_eq]
    constructor
    · intro hagree hmem
      obtain ⟨v, ⟨-, hne⟩, hv⟩ :=
        (hagree (labelled k "")).mpr ⟨"", hmem, by simp [labelsOf_labelled]⟩
      rw [labelsOf_labelled, if_pos rfl, some_inj] at hv
      exact hne hv.symm
    · intro hmem obj
      refine exists_congr fun v => and_congr_left fun _ => and_iff_left_of_imp fun hv heq => ?_
      rw [heq] at hv
      exact hmem hv
  | notIn k vs =>
    simp only [toKube, Requirement.Matches, Requirement.kept, contains_eq_mem,
      not_eq_true', decide_eq_false_iff_not, mem_filter, decide_eq_true_eq]
    constructor
    · intro hagree hmem
      refine (hagree (labelled k "")).mp ?_ "" hmem (by simp [labelsOf_labelled])
      rintro v ⟨-, hne⟩ hv
      rw [labelsOf_labelled, if_pos rfl, some_inj] at hv
      exact hne hv.symm
    · intro hmem obj
      refine forall_congr' fun v => ⟨fun h hv => h ⟨hv, fun heq => hmem (heq ▸ hv)⟩,
        fun h hv => h hv.1⟩
  | greater n hne | less n hne =>
    rename_i k c
    refine iff_of_false (fun hagree => ?_) (by simp [Requirement.kept])
    obtain ⟨v, -, hv, -⟩ := (hagree (labelled c "")).mp ⟨"", by simp [labelsOf_labelled]⟩
    rw [labelsOf_labelled, if_neg hne.symm] at hv
    cases hv

theorem forall₂_agree_iff (h : List.Forall₂ ReadAs rs es) :
    List.Forall₂ Agree rs es ↔ ∀ r ∈ rs, r.kept = true := by
  induction h with
  | nil => simp
  | cons hread _ ih => rw [forall₂_cons, forall_mem_cons, agree_iff hread, ih]

theorem matches_of_agree (h : List.Forall₂ Agree rs es) (obj : Json) :
    Selectors.matches ⟨es, []⟩ obj = true ↔ ∀ r ∈ rs, r.Matches (labelsOf obj) := by
  rw [matches_toKube]
  induction h with
  | nil => simp
  | cons hagree _ ih => rw [forall_mem_cons, forall_mem_cons, agree_toKube.mp hagree obj, ih]

/-! ## The text of requirements, read back -/

/-- The key and the values are valid, and a set has values. -/
def LabelRequirement.Valid : LabelRequirement → Prop
  | .equals k v | .notEquals k v => isLabelKey k.toList = true ∧ isLabelValue v.toList = true
  | .isIn k vs | .notIn k vs =>
    isLabelKey k.toList = true ∧ vs ≠ [] ∧ ∀ v ∈ vs, isLabelValue v.toList = true
  | .present k | .absent k => isLabelKey k.toList = true

instance (r : LabelRequirement) : Decidable r.Valid :=
  match r with
  | .equals _ _ | .notEquals _ _ => inferInstanceAs (Decidable (_ ∧ _))
  | .isIn _ _ | .notIn _ _ => inferInstanceAs (Decidable (_ ∧ _ ∧ _))
  | .present _ | .absent _ => inferInstanceAs (Decidable (_ = _))

/-- No value of a set is empty. -/
def LabelRequirement.fullSets : LabelRequirement → Bool
  | .isIn _ vs | .notIn _ vs => !vs.contains ""
  | _ => true

theorem padded_self (x : List Char) : Padded x x :=
  ⟨[], [], by simp, by simp [Blank], by simp [Blank]⟩

theorem setText_text_of_valid {k : String} {vs : List String} (op : List Char)
    (hk : isLabelKey k.toList = true) (hne : vs ≠ [])
    (hvs : ∀ v ∈ vs, isLabelValue v.toList = true) :
    SetText op (k.toList ++ [' '] ++ op ++ [' '] ++ ['('] ++
      [','].intercalate (vs.map String.toList) ++ [')'])
      k.toList (vs.map String.toList) := by
  have hpads : List.Forall₂ (fun u v => Padded u v ∧ isLabelValue v = true) (vs.map String.toList)
      (vs.map String.toList) := by
    rw [forall₂_same]
    intro u hu
    obtain ⟨v, hv, rfl⟩ := mem_map.mp hu
    exact ⟨padded_self _, hvs v hv⟩
  have hspace : Blank [' '] := forall_mem_singleton.mpr (by decide)
  have hmk : SetText op _ k.toList _ :=
    SetText.mk hk (padded_self _) hspace (by simp) hspace (by simpa using hne) hpads (b := [])
      (by simp [Blank])
  simpa using hmk

theorem clause_text_of_valid (h : r.Valid) : Clause r.text r.toKube := by
  cases r with
  | equals k v =>
    have hpair : PairText ['='] (k.toList ++ ['='] ++ v.toList) k.toList v.toList :=
      .mk h.1 h.2 (padded_self _) (padded_self _)
    simpa [toKube, text] using equals (.inl hpair)
  | notEquals k v =>
    have hpair : PairText ['!', '='] (k.toList ++ ['!', '='] ++ v.toList) k.toList v.toList :=
      .mk h.1 h.2 (padded_self _) (padded_self _)
    simpa [toKube, text] using notEquals hpair
  | isIn k vs =>
    have hset := isIn (setText_text_of_valid "in".toList h.1 h.2.1 h.2.2)
    simpa [toKube, text] using hset
  | notIn k vs =>
    have hset := notIn (setText_text_of_valid "notin".toList h.1 h.2.1 h.2.2)
    simpa [toKube, text] using hset
  | present k => simpa [toKube, text] using present h (padded_self k.toList)
  | absent k =>
    have habsent := absent (a := []) (by simp [Blank]) h (padded_self k.toList)
    simpa [toKube, text] using habsent

theorem selector_canonical {rs : List LabelRequirement} (h : ∀ r ∈ rs, r.Valid) :
    Selector (canonical rs).toList (rs.map toKube) := by
  rw [canonical, String.toList_ofList]
  by_cases hne : rs = []
  · subst hne
    exact .blank (by simp [Blank])
  · refine .clauses (by simpa using hne) ?_
    rw [forall₂_map_left_iff, forall₂_map_right_iff, forall₂_same]
    exact fun r hr => clause_text_of_valid (h r hr)

theorem readAs_toKube (h : ReadAs r.toKube e) : e = r ↔ r.fullSets = true := by
  have hfilter : ∀ vs : List String, (vs.filter fun v => v ≠ "") = vs ↔
      (!vs.contains "") = true := by
    intro vs
    simp only [filter_eq_self, decide_eq_true_eq, contains_eq_mem, not_eq_true',
      decide_eq_false_iff_not]
    exact ⟨fun h hmem => h "" hmem rfl, fun h v hv heq => h (heq ▸ hv)⟩
  cases r with
  | equals k v | notEquals k v =>
    cases h
    exact iff_of_true rfl rfl
  | isIn k vs =>
    cases h
    rw [isIn.injEq, hfilter]
    exact and_iff_right rfl
  | notIn k vs =>
    cases h
    rw [notIn.injEq, hfilter]
    exact and_iff_right rfl
  | present k | absent k =>
    cases h
    exact iff_of_true rfl rfl

theorem forall₂_readAs_toKube {rs : List LabelRequirement}
    (h : List.Forall₂ ReadAs (rs.map toKube) es) : es = rs ↔ ∀ r ∈ rs, r.fullSets = true := by
  induction rs generalizing es with
  | nil =>
    cases h
    simp
  | cons r rs ih =>
    obtain ⟨e, es', hread, hreads, rfl⟩ := forall₂_cons_left_iff.mp h
    rw [List.cons.injEq, forall_mem_cons, readAs_toKube hread, ih hreads]

/-! ## Which selectors are read as they are written -/

/-- Requirements come back from their text exactly if their sets have no empty value. A text that is
accepted is in the grammar, and each of its requirements is read with its meaning, exactly if it is
a valid text; then the selector matches the objects that the text means. -/
theorem parseLabelSelector_reads_iff {rs : List LabelRequirement} (hrs : ∀ r ∈ rs, r.Valid)
    {s : String} {es : List LabelRequirement} (hs : parseLabelSelector (some s) = .ok es) :
    (parseLabelSelector (some (canonical rs)) = .ok rs ↔ ∀ r ∈ rs, r.fullSets = true) ∧
    (((∃ qs, Selector s.toList qs) ∧ ∀ qs, Selector s.toList qs → List.Forall₂ Agree qs es) ↔
      validText s = true) ∧
    (validText s = true → ∀ qs, Selector s.toList qs → ∀ obj,
      Selectors.matches ⟨es, []⟩ obj = true ↔ ∀ q ∈ qs, q.Matches (labelsOf obj)) := by
  -- in the grammar, agreement is validity
  have hagree : ∀ qs, Selector s.toList qs → (List.Forall₂ Agree qs es ↔ validText s = true) := by
    intro qs hqs
    obtain ⟨es', hparse, hreads, hvalid⟩ := selector_read hqs
    rw [hs] at hparse
    cases hparse
    rw [forall₂_agree_iff hreads, hvalid]
  refine ⟨?_, ⟨?_, ?_⟩, ?_⟩
  · obtain ⟨es', hparse, hreads, -⟩ := selector_read (selector_canonical hrs)
    rw [hparse, Except.ok.injEq]
    exact forall₂_readAs_toKube hreads
  · rintro ⟨⟨qs, hqs⟩, hall⟩
    exact (hagree qs hqs).mp (hall qs hqs)
  · intro hvalid
    exact ⟨selector_of_validText hvalid, fun qs hqs => (hagree qs hqs).mpr hvalid⟩
  · intro hvalid qs hqs obj
    exact matches_of_agree ((hagree qs hqs).mpr hvalid) obj

theorem parseLabelSelector_reads_web :
    parseLabelSelector (some "app=web,tier notin (db)") = .ok [.equals "app" "web",
      .notIn "tier" ["db"]] ∧
      ∀ obj, Selectors.matches ⟨[.equals "app" "web", .notIn "tier" ["db"]], []⟩ obj = true ↔
        ∀ q ∈ [Requirement.equals "app" "web", Requirement.notIn "tier" ["db"]],
        q.Matches (labelsOf obj) := by
  have hvalid : ∀ r ∈ [LabelRequirement.equals "app" "web", .notIn "tier" ["db"]], r.Valid := by
    decide +kernel
  have hs : parseLabelSelector (some "app=web,tier notin (db)") =
      .ok [.equals "app" "web", .notIn "tier" ["db"]] := by
    decide +kernel
  have hreads := parseLabelSelector_reads_iff hvalid hs
  exact ⟨hreads.1.mpr (by decide), hreads.2.2 (by decide +kernel) _ (selector_canonical hvalid)⟩

/-- A second `=` and what stands behind a set are not refused, and the empty value of a set is
lost. -/
theorem parseLabelSelector_misreads :
    (parseLabelSelector (some "env=prod=blue") = .ok [.equals "env" "prod=blue"] ∧
      ¬ ∃ qs, Selector "env=prod=blue".toList qs) ∧
    (parseLabelSelector (some "tier in (web) or tier=db") = .ok [.isIn "tier" ["web"]] ∧
      validText "tier in (web) or tier=db" = false) ∧
    (LabelRequirement.isIn "tier" ["", "web"]).Valid ∧
    parseLabelSelector (some (canonical [.isIn "tier" ["", "web"]])) = .ok [.isIn "tier" ["web"]] ∧
    Selectors.matches ⟨[.isIn "tier" ["web"]], []⟩ (labelled "tier" "") = false ∧
    (Requirement.isIn "tier" ["", "web"]).Matches (labelsOf (labelled "tier" "")) := by
  refine ⟨⟨by decide +kernel, ?_⟩, by decide +kernel, by decide +kernel, by decide +kernel,
    by decide +kernel, ⟨"", by simp, by decide +kernel⟩⟩
  rintro ⟨qs, hqs⟩
  obtain ⟨es, hparse, hreads, hvalid⟩ := selector_read hqs
  cases hparse
  -- an equality is read from an equality, and nothing of it is dropped
  obtain ⟨q, qs, hread, hnil, rfl⟩ := List.forall₂_cons_right_iff.mp hreads
  cases hnil
  cases hread
  have htext := hvalid.mpr (by simp [Requirement.kept])
  revert htext
  decide +kernel

end Engenho
