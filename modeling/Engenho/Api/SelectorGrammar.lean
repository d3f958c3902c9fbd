import Engenho.Lib.Cut
import Engenho.Api.Selectors

/-!
# The selectors of Kubernetes

What a label selector is, apart from the code that reads it: keys and values, the grammar of the
text, and what a requirement says about the labels of an object.

* `isLabelKey`, `isLabelValue`: the valid keys and values.
* `Clause`, `Selector`: the grammar; white space may stand around every part.
* `Requirement.Matches`: the meaning of a requirement.
-/

namespace Engenho.Kube
open List Bool

/-! ## Keys and values -/

def isSpace (c : Char) : Bool := c = ' ' || c = '\t' || c = '\r' || c = '\n'

def isNameChar (c : Char) : Bool := c.isAlphanum || c = '-' || c = '_' || c = '.'

/-- Up to 63 characters, the first and the last a letter or a digit. -/
def isName (s : List Char) : Bool :=
  s.length ≤ 63 && s.all isNameChar && s.head?.any Char.isAlphanum && s.getLast?.any Char.isAlphanum

def isDnsEnd (c : Char) : Bool := c.isLower || c.isDigit

/-- A part of a DNS name. -/
def isDnsLabel (s : List Char) : Bool :=
  (s.all fun c => isDnsEnd c || c = '-') && s.head?.any isDnsEnd && s.getLast?.any isDnsEnd

/-- A DNS name. -/
def isDnsSubdomain (s : List Char) : Bool := s.length ≤ 253 && (s.splitOn '.').all isDnsLabel

/-- A name, or one in a domain. -/
def isLabelKey (s : List Char) : Bool :=
  match s.splitOn '/' with
  | [name] => isName name
  | [domain, name] => isDnsSubdomain domain && isName name
  | _ => false

/-- The value of a label. -/
def isLabelValue (s : List Char) : Bool := s.isEmpty || isName s

/-! ## Requirements -/

/-- What a clause of the grammar asks for. -/
inductive Requirement where
  | equals (key value : String)
  | notEquals (key value : String)
  | isIn (key : String) (values : List String)
  | notIn (key : String) (values : List String)
  | present (key : String)
  | absent (key : String)
  | greater (key : String) (bound : Int)
  | less (key : String) (bound : Int)
deriving DecidableEq, Repr

def digits? (s : List Char) : Option Nat :=
  if s.isEmpty || !s.all Char.isDigit then none
  else some (s.foldl (fun n c => 10 * n + (c.toNat - '0'.toNat)) 0)

/-- A decimal number of 64 bits. -/
def decimal? (s : List Char) : Option Int :=
  let n : Option Int :=
    match s with
    | '-' :: t => (digits? t).map fun n => -(n : Int)
    | '+' :: t => (digits? t).map Int.ofNat
    | t => (digits? t).map Int.ofNat
  n.filter fun n => decide (-2 ^ 63 ≤ n ∧ n < 2 ^ 63)

/-- What a requirement says. A label that is not there satisfies `!=`, `notin` and `!`, and fails
the others. -/
def Requirement.Matches (labels : String → Option String) : Requirement → Prop
  | .equals k v => labels k = some v
  | .notEquals k v => labels k ≠ some v
  | .isIn k vs => ∃ v ∈ vs, labels k = some v
  | .notIn k vs => ∀ v ∈ vs, labels k ≠ some v
  | .present k => ∃ v, labels k = some v
  | .absent k => labels k = none
  | .greater k n => ∃ v m, labels k = some v ∧ decimal? v.toList = some m ∧ n < m
  | .less k n => ∃ v m, labels k = some v ∧ decimal? v.toList = some m ∧ m < n

/-- The labels of an object: the members of `metadata.labels` that are texts. -/
def labelsOf (obj : Json) (k : String) : Option String :=
  ((((obj.get "metadata").bind (Json.get "labels")).bind (Json.get k))).bind Json.asStr

/-! ## The grammar -/

def Blank (s : List Char) : Prop := ∀ c ∈ s, isSpace c = true

/-- A part with white space around it. -/
def Padded (s x : List Char) : Prop := ∃ a b, s = a ++ x ++ b ∧ Blank a ∧ Blank b

/-- A key, the word `op`, and values in parentheses. The empty text is a value. -/
inductive SetText (op : List Char) : List Char → List Char → List (List Char) → Prop
  | mk {s k gap a b : List Char} {us vs : List (List Char)} (hk : isLabelKey k = true)
      (hs : Padded s k)
      (hgap : Blank gap) (hne : gap ≠ []) (ha : Blank a) (hus : us ≠ [])
      (hvs : List.Forall₂ (fun u v => Padded u v ∧ isLabelValue v = true) us vs) (hb : Blank b) :
      SetText op (s ++ gap ++ op ++ a ++ ['('] ++ [','].intercalate us ++ [')'] ++ b) k vs

/-- A key and a value with `op` between them. -/
inductive PairText (op : List Char) : List Char → List Char → List Char → Prop
  | mk {s t k v : List Char} (hk : isLabelKey k = true) (hv : isLabelValue v = true)
      (hs : Padded s k)
      (ht : Padded t v) : PairText op (s ++ op ++ t) k v

/-- The texts of a clause, by the grammar. -/
inductive Clause : List Char → Requirement → Prop
  | equals {s k v : List Char} (h : PairText ['='] s k v ∨ PairText ['=', '='] s k v) :
      Clause s (.equals (String.ofList k) (String.ofList v))
  | notEquals {s k v : List Char} (h : PairText ['!', '='] s k v) :
      Clause s (.notEquals (String.ofList k) (String.ofList v))
  | isIn {s k : List Char} {vs : List (List Char)} (h : SetText "in".toList s k vs) :
      Clause s (.isIn (String.ofList k) (vs.map String.ofList))
  | notIn {s k : List Char} {vs : List (List Char)} (h : SetText "notin".toList s k vs) :
      Clause s (.notIn (String.ofList k) (vs.map String.ofList))
  | present {s k : List Char} (hk : isLabelKey k = true) (hs : Padded s k) :
      Clause s (.present (String.ofList k))
  | absent {a s k : List Char} (ha : Blank a) (hk : isLabelKey k = true) (hs : Padded s k) :
      Clause (a ++ ['!'] ++ s) (.absent (String.ofList k))
  | greater {s k v : List Char} {n : Int} (h : PairText ['>'] s k v) (hn : decimal? v = some n) :
      Clause s (.greater (String.ofList k) n)
  | less {s k v : List Char} {n : Int} (h : PairText ['<'] s k v) (hn : decimal? v = some n) :
      Clause s (.less (String.ofList k) n)

/-- Clauses with commas between them; blank text asks for nothing. -/
inductive Selector : List Char → List Requirement → Prop
  | blank {s : List Char} (hs : Blank s) : Selector s []
  | clauses {ss : List (List Char)} {rs : List Requirement} (hne : ss ≠ [])
      (h : List.Forall₂ Clause ss rs) : Selector ([','].intercalate ss) rs

/-! ## The characters of keys and values -/

/-- The characters of keys; those of values are among them. -/
def isKeyChar (c : Char) : Bool := isNameChar c || c = '/'

theorem ne_of_isKeyChar {c d : Char} (hc : isKeyChar c = true) (hd : isKeyChar d = false) :
    c ≠ d := by
  rintro rfl
  rw [hc] at hd
  cases hd

/-- From the hyphen to the last letter of ASCII. -/
theorem isKeyChar_range {c : Char} (h : isKeyChar c = true) : 0x2D ≤ c.toNat ∧ c.toNat ≤ 0x7A := by
  delta isKeyChar isNameChar Char.isAlphanum Char.isAlpha Char.isUpper Char.isLower
    Char.isDigit at h
  simp only [or_eq_true, and_eq_true, decide_eq_true_eq, ge_iff_le, UInt32.le_iff_toNat_le] at h
  change ((((((65 ≤ c.toNat ∧ c.toNat ≤ 90) ∨ (97 ≤ c.toNat ∧ c.toNat ≤ 122)) ∨
    (48 ≤ c.toNat ∧ c.toNat ≤ 57)) ∨ c = '-') ∨ c = '_') ∨ c = '.') ∨ c = '/' at h
  rcases h with (((h | rfl) | rfl) | rfl) | rfl
  · omega
  all_goals decide

theorem isKeyChar_of_isNameChar {c : Char} (h : isNameChar c = true) : isKeyChar c = true := by
  simp [isKeyChar, h]

variable {s : List Char}

theorem isNameChar_of_isName (h : isName s = true) : ∀ c ∈ s, isNameChar c = true := by
  simp only [isName, and_eq_true, all_eq_true] at h
  exact h.1.1.2

theorem ne_nil_of_isName (h : isName s = true) : s ≠ [] := by
  rintro rfl
  revert h
  decide

theorem isNameChar_of_isLabelValue (h : isLabelValue s = true) : ∀ c ∈ s, isNameChar c = true := by
  rw [isLabelValue, or_eq_true] at h
  rcases h with h | h
  · rw [isEmpty_iff.mp h]
    simp
  · exact isNameChar_of_isName h

theorem isNameChar_of_isDnsSubdomain (h : isDnsSubdomain s = true) :
    ∀ c ∈ s, isNameChar c = true := by
  intro c hc
  rw [isDnsSubdomain, and_eq_true, all_eq_true] at h
  rw [← @intercalate_splitOn _ s _ _ '.'] at hc
  rcases Cut.mem_intercalate hc with rfl | ⟨t, ht, hct⟩
  · decide
  have hlabel := h.2 t ht
  simp only [isDnsLabel, and_eq_true, all_eq_true] at hlabel
  have hchar := hlabel.1.1 c hct
  simp only [isDnsEnd, or_eq_true, decide_eq_true_eq] at hchar
  rcases hchar with (hlower | hdigit) | rfl
  · have halpha : c.isAlpha = true := (or_eq_true _ _).mpr (.inr hlower)
    simp [isNameChar, Char.isAlphanum, halpha]
  · simp [isNameChar, Char.isAlphanum, hdigit]
  · decide

/-- A valid key is a word of key characters. -/
theorem isLabelKey_chars (h : isLabelKey s = true) : s ≠ [] ∧ ∀ c ∈ s, isKeyChar c = true := by
  have hs := @intercalate_splitOn _ s _ _ '/'
  unfold isLabelKey at h
  split at h
  · rename_i name hname
    rw [hname] at hs
    have heq : s = name := by simpa using hs.symm
    subst heq
    exact ⟨ne_nil_of_isName h, fun c hc => isKeyChar_of_isNameChar (isNameChar_of_isName h c hc)⟩
  · rename_i domain name hname
    rw [hname] at hs
    rw [and_eq_true] at h
    have heq : s = domain ++ ['/'] ++ name := by simpa using hs.symm
    subst heq
    refine ⟨by simp, fun c hc => ?_⟩
    simp only [append_assoc, mem_append, mem_singleton] at hc
    rcases hc with hc | rfl | hc
    · exact isKeyChar_of_isNameChar (isNameChar_of_isDnsSubdomain h.1 c hc)
    · decide
    · exact isKeyChar_of_isNameChar (isNameChar_of_isName h.2 c hc)
  · cases h

theorem isLabelValue_chars (h : isLabelValue s = true) : ∀ c ∈ s, isKeyChar c = true :=
  fun c hc => isKeyChar_of_isNameChar (isNameChar_of_isLabelValue h c hc)

end Engenho.Kube
