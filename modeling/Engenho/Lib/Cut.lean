import Mathlib.Data.List.DropRight

/-!
# Cutting texts

A text is a list over any alphabet, and `p` says which of its characters are blank. `trim` takes the
blanks off both ends, `words` are the parts between blanks, `splitOnce` cuts at the first place
where a pattern occurs.

A part is `Solid` if it neither begins nor ends with a blank: trimming a text with a solid part in
the middle works on what stands before and behind it (`trim_append`).
-/

universe u
namespace Cut
open List
variable {α : Type u}

/-- A list without the `p` at its ends. -/
def trim (p : α → Bool) (s : List α) : List α := (s.dropWhile p).rdropWhile p

/-- The runs between the `p`. -/
def words (p : α → Bool) (s : List α) : List (List α) := (s.splitOnP p).filter fun w => !w.isEmpty

/-- What stands before and behind the first occurrence of `pat`. -/
def splitOnce [DecidableEq α] (pat : List α) : List α → Option (List α × List α)
  | [] => if pat.isEmpty then some ([], []) else none
  | c :: s =>
    if pat.isPrefixOf (c :: s) then some ([], (c :: s).drop pat.length)
    else (splitOnce pat s).map fun ab => (c :: ab.1, ab.2)

/-- It begins and ends with something that is no `p`. -/
structure Solid (p : α → Bool) (x : List α) : Prop where
  first : ∃ c s, x = c :: s ∧ p c = false
  last : ∃ s c, x = s ++ [c] ∧ p c = false

variable {p : α → Bool} {a b s t x : List α} {c : α}

/-! ## Trimming -/

theorem Solid.ne_nil (h : Solid p x) : x ≠ [] := by
  obtain ⟨c, s, rfl, -⟩ := h.first
  exact cons_ne_nil c s

theorem solid_of_forall (hne : x ≠ []) (h : ∀ c ∈ x, p c = false) : Solid p x where
  first := by
    obtain ⟨c, s, rfl⟩ := exists_cons_of_ne_nil hne
    exact ⟨c, s, rfl, h c (.head _)⟩
  last := ⟨x.dropLast, x.getLast hne, (dropLast_append_getLast hne).symm, h _ (getLast_mem hne)⟩

theorem solid_of_all (hne : x ≠ []) (h : (x.all fun c => !p c) = true) : Solid p x :=
  solid_of_forall hne fun c hc => by simpa using all_eq_true.mp h c hc

theorem Solid.append (ha : Solid p a) (hb : Solid p b) (s : List α) : Solid p (a ++ s ++ b) where
  first := by
    obtain ⟨c, t, rfl, hc⟩ := ha.first
    exact ⟨c, t ++ s ++ b, by simp, hc⟩
  last := by
    obtain ⟨t, c, rfl, hc⟩ := hb.last
    exact ⟨a ++ s ++ t, c, by simp, hc⟩

theorem dropWhile_solid (h : Solid p x) : (a ++ x ++ b).dropWhile p = a.dropWhile p ++ x ++ b := by
  obtain ⟨c, s, rfl, hc⟩ := h.first
  induction a with
  | nil => simp [hc]
  | cons d a ih =>
    by_cases hd : p d = true
    · simpa [hd] using ih
    · simp [hd]

theorem rdropWhile_solid (h : Solid p x) :
    (a ++ x ++ b).rdropWhile p = a ++ x ++ b.rdropWhile p := by
  obtain ⟨s, c, rfl, hc⟩ := h.last
  induction b using List.reverseRecOn with
  | nil =>
    have hnot : ¬ p c = true := by simp [hc]
    rw [append_nil, ← append_assoc, rdropWhile_concat_neg p _ _ hnot, rdropWhile_nil, append_nil]
  | append_singleton b d ih =>
    by_cases hd : p d = true
    · rw [← append_assoc, rdropWhile_concat_pos p _ _ hd, rdropWhile_concat_pos p _ _ hd]
      exact ih
    · rw [← append_assoc, rdropWhile_concat_neg p _ _ hd, rdropWhile_concat_neg p _ _ hd,
        append_assoc]

theorem trim_append (h : Solid p x) :
    trim p (a ++ x ++ b) = a.dropWhile p ++ x ++ b.rdropWhile p := by
  rw [trim, dropWhile_solid h, rdropWhile_solid h]

theorem trim_eq_nil_iff : trim p s = [] ↔ ∀ c ∈ s, p c = true := by
  rw [trim, rdropWhile_eq_nil_iff]
  constructor
  · intro h c hc
    rw [← takeWhile_append_dropWhile (p := p) (l := s), mem_append] at hc
    exact hc.elim mem_takeWhile_imp (h c)
  · intro h c hc
    exact h c ((dropWhile_suffix p).subset hc)

theorem trim_pad (h : Solid p x) (ha : ∀ c ∈ a, p c = true) (hb : ∀ c ∈ b, p c = true) :
    trim p (a ++ x ++ b) = x := by
  have ha' : a.dropWhile p = [] := dropWhile_eq_nil_iff.mpr ha
  have hb' : b.rdropWhile p = [] := rdropWhile_eq_nil_iff.mpr hb
  rw [trim_append h, ha', hb', nil_append, append_nil]

/-- A text is what trimming leaves, with blanks around it. -/
theorem exists_pads (p : α → Bool) (s : List α) :
    ∃ a b, s = a ++ trim p s ++ b ∧ (∀ c ∈ a, p c = true) ∧ ∀ c ∈ b, p c = true := by
  refine ⟨s.takeWhile p, (s.dropWhile p).rtakeWhile p, ?_, fun c => mem_takeWhile_imp,
    fun c => mem_rtakeWhile_imp⟩
  rw [trim, append_assoc, rdropWhile_append_rtakeWhile, takeWhile_append_dropWhile]

theorem trim_dropWhile : trim p (s.dropWhile p) = trim p s := by
  rw [trim, dropWhile_idempotent, trim]

theorem solid_trim (h : trim p s ≠ []) : Solid p (trim p s) where
  first := by
    obtain ⟨c, t, hct⟩ := exists_cons_of_ne_nil h
    obtain ⟨r, hr⟩ := rdropWhile_prefix p (s.dropWhile p)
    rw [← trim, hct] at hr
    refine ⟨c, t, hct, ?_⟩
    have hne : s.dropWhile p ≠ [] := by simp [← hr]
    simpa [← hr] using head_dropWhile_not p hne
  last := by
    have hlast : ¬ p ((trim p s).getLast h) = true := rdropWhile_last_not p (s.dropWhile p) h
    exact ⟨_, _, (dropLast_append_getLast h).symm, by simpa using hlast⟩

theorem trim_rdropWhile : trim p (s.rdropWhile p) = trim p s := by
  by_cases h : trim p s = []
  · rw [h, rdropWhile_eq_nil_iff.mpr (trim_eq_nil_iff.mp h)]
    rfl
  · obtain ⟨a, b, hs, ha, hb⟩ := exists_pads p s
    have hsolid := solid_trim h
    have hcut : s.rdropWhile p = a ++ trim p s := by
      conv_lhs => rw [hs]
      rw [rdropWhile_solid hsolid, rdropWhile_eq_nil_iff.mpr hb, append_nil]
    rw [hcut]
    simpa using trim_pad (b := []) hsolid ha (by simp)

/-! ## The first occurrence of a pattern -/

section SplitOnce
variable [DecidableEq α] {pat : List α}

theorem splitOnce_eq (h : splitOnce pat s = some (a, b)) : s = a ++ pat ++ b := by
  induction s generalizing a with
  | nil =>
    rw [splitOnce] at h
    split at h
    · rename_i hpat
      cases h
      simp [isEmpty_iff.mp hpat]
    · cases h
  | cons d s ih =>
    rw [splitOnce] at h
    split at h
    · rename_i hpat
      obtain ⟨t, ht⟩ := isPrefixOf_iff_prefix.mp hpat
      cases h
      simp [← ht]
    · obtain ⟨ab, hab, heq⟩ := Option.map_eq_some_iff.mp h
      cases heq
      rw [ih (a := ab.1) hab]
      rfl

/-- Before a pattern that begins with `c`, no `c`. -/
theorem splitOnce_append (h : c ∉ a) : splitOnce (c :: pat) (a ++ c :: pat ++ b) = some (a, b) := by
  induction a with
  | nil => simp [splitOnce]
  | cons d a ih =>
    rw [mem_cons, not_or] at h
    rw [cons_append, cons_append, splitOnce, if_neg (by simp [h.1]), ih h.2]
    rfl

theorem splitOnce_of_notMem (h : c ∉ s) : splitOnce (c :: pat) s = none := by
  induction s with
  | nil => rfl
  | cons d s ih =>
    rw [mem_cons, not_or] at h
    rw [splitOnce, if_neg (by simp [h.1]), ih h.2]
    rfl

/-- No two of `c` in a row where there is only one. -/
theorem splitOnce_double (ha : c ∉ a) (hb : c ∉ b) : splitOnce [c, c] (a ++ c :: b) = none := by
  induction a with
  | nil =>
    have hnot : ¬ List.isPrefixOf [c, c] (c :: b) = true := by
      rw [List.isPrefixOf_iff_prefix, cons_prefix_cons]
      rintro ⟨-, t, rfl⟩
      simp at hb
    rw [nil_append, splitOnce, if_neg hnot, splitOnce_of_notMem hb]
    rfl
  | cons d a ih =>
    rw [mem_cons, not_or] at ha
    rw [cons_append, splitOnce, if_neg (by simp [ha.1]), ih ha.2]
    rfl

end SplitOnce

/-! ## Joining -/

variable {ss : List (List α)}

theorem mem_intercalate {d : α} (h : c ∈ [d].intercalate ss) : c = d ∨ ∃ s ∈ ss, c ∈ s := by
  induction ss with
  | nil => cases h
  | cons s ss ih =>
    by_cases hss : ss = []
    · subst hss
      exact .inr ⟨s, (.head _), by simpa using h⟩
    · rw [intercalate_cons_of_ne_nil hss, append_assoc, mem_append, mem_append, mem_singleton] at h
      rcases h with h | h | h
      · exact .inr ⟨s, (.head _), h⟩
      · exact .inl h
      · rcases ih h with heq | ⟨t, ht, hc⟩
        · exact .inl heq
        · exact .inr ⟨t, mem_cons_of_mem _ ht, hc⟩

theorem mem_intercalate_of_mem {d : α} (hs : s ∈ ss) (hc : c ∈ s) : c ∈ [d].intercalate ss := by
  induction ss with
  | nil => cases hs
  | cons t ss ih =>
    by_cases hss : ss = []
    · subst hss
      rw [mem_singleton] at hs
      subst hs
      simpa using hc
    · rw [intercalate_cons_of_ne_nil hss, append_assoc, mem_append, mem_append]
      rcases mem_cons.mp hs with rfl | hmem
      · exact .inl hc
      · exact .inr (.inr (ih hmem))

/-! ## Words -/

theorem words_nil : words p [] = [] := rfl

theorem words_blank (ha : ∀ c ∈ a, p c = true) : words p (a ++ s) = words p s := by
  induction a with
  | nil => rfl
  | cons c a ih =>
    rw [forall_mem_cons] at ha
    rw [← ih ha.2, words, cons_append, splitOnP_cons_eq_if_modifyHead, if_pos ha.1]
    rfl

theorem words_word (hne : x ≠ []) (hx : ∀ c ∈ x, p c = false) (hc : p c = true) :
    words p (x ++ c :: s) = x :: words p s := by
  rw [words, splitOnP_append_cons_of_forall_mem hx c hc, filter_cons_of_pos (by simpa using hne)]
  rfl

theorem words_single (hne : x ≠ []) (hx : ∀ c ∈ x, p c = false) : words p x = [x] := by
  rw [words, splitOnP_eq_singleton hx, filter_cons_of_pos (by simpa using hne)]
  rfl

/-- A word of a text: blanks before it, and the end or a blank behind it. -/
structure FirstWord (p : α → Bool) (s a x rest : List α) : Prop where
  text : s = a ++ x ++ rest
  blank : ∀ c ∈ a, p c = true
  ne_nil : x ≠ []
  word : ∀ c ∈ x, p c = false
  stop : rest = [] ∨ ∃ c t, rest = c :: t ∧ p c = true

theorem exists_firstWord (p : α → Bool) (s : List α) :
    (∀ c ∈ s, p c = true) ∨ ∃ a x rest, FirstWord p s a x rest := by
  by_cases hs : s.dropWhile p = []
  · exact .inl (dropWhile_eq_nil_iff.mp hs)
  have hstart : p ((s.dropWhile p).head hs) = false := by simpa using head_dropWhile_not p hs
  refine .inr ⟨s.takeWhile p, (s.dropWhile p).takeWhile (!p ·),
    (s.dropWhile p).dropWhile (!p ·), ?_,
    fun c => mem_takeWhile_imp, ?_, fun c hc => by simpa using mem_takeWhile_imp hc, ?_⟩
  · rw [append_assoc, takeWhile_append_dropWhile, takeWhile_append_dropWhile]
  · obtain ⟨d, t, hd⟩ := exists_cons_of_ne_nil hs
    simp only [hd, head_cons] at hstart
    simp [hd, hstart]
  · cases hrest : (s.dropWhile p).dropWhile (!p ·) with
    | nil => exact .inl rfl
    | cons c t =>
      have hne : (s.dropWhile p).dropWhile (!p ·) ≠ [] := by simp [hrest]
      exact .inr ⟨c, t, rfl, by simpa [hrest] using head_dropWhile_not (!p ·) hne⟩

theorem FirstWord.words {rest : List α} (h : FirstWord p s a x rest) :
    words p s = x :: words p rest := by
  rw [h.text, append_assoc, words_blank h.blank]
  rcases h.stop with rfl | ⟨c, t, rfl, hc⟩
  · rw [append_nil, words_single h.ne_nil h.word, words_nil]
  · rw [words_word h.ne_nil h.word hc]
    exact congrArg (x :: ·) (words_blank (a := [c]) (by simpa using hc)).symm

theorem words_cons {ws : List (List α)} (h : words p s = x :: ws) :
    ∃ a rest, FirstWord p s a x rest ∧ words p rest = ws := by
  rcases exists_firstWord p s with hall | ⟨a, y, rest, hword⟩
  · rw [← append_nil s, words_blank hall] at h
    cases h
  · rw [hword.words] at h
    cases h
    exact ⟨a, rest, hword, rfl⟩

theorem words_eq_nil (h : words p s = []) : ∀ c ∈ s, p c = true := by
  rcases exists_firstWord p s with hall | ⟨a, y, rest, hword⟩
  · exact hall
  · rw [hword.words] at h
    cases h

/-- A text of two words: blanks around them, and one at least between them. -/
theorem words_pair {y : List α} (h : words p s = [x, y]) :
    ∃ a gap b, s = a ++ x ++ gap ++ y ++ b ∧ (∀ c ∈ a, p c = true) ∧ (∀ c ∈ gap, p c = true) ∧
    gap ≠ [] ∧
      ∀ c ∈ b, p c = true := by
  obtain ⟨a, rest, hfirst, hrest⟩ := words_cons h
  obtain ⟨gap, b, hsecond, hb⟩ := words_cons hrest
  have hgap : gap ≠ [] := by
    rintro rfl
    have htext := hsecond.text
    rcases hfirst.stop with rfl | ⟨c, t, rfl, hc⟩
    · cases hrest
    -- the second word would begin with a blank
    obtain ⟨d, y', rfl⟩ := exists_cons_of_ne_nil hsecond.ne_nil
    have hcd : c = d := by simpa using congrArg List.head? htext
    have hd := hsecond.word d (.head _)
    rw [← hcd, hc] at hd
    cases hd
  refine ⟨a, gap, b, ?_, hfirst.blank, hsecond.blank, hgap, words_eq_nil hb⟩
  rw [hfirst.text, hsecond.text]
  simp

end Cut
