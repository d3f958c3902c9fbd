import Mathlib.Data.Prod.Lex
import Mathlib.Order.WithBot
import Engenho.Lib.Json

/-!
# Keys of stored resources and LIST scopes

A resource is stored under `(group, version, kind, namespace, name)`, keys in lexicographic order
(an absent namespace below every present one). A `ListScope` names one group, version and kind,
and one namespace or all of them.

The store reads a scope as one run of the ordered map, from `ListScope.first` up to
`ListScope.endKey`. `ListScope.range_eq_filter` says that this run is exactly the scope's keys.
-/

namespace Engenho
open List String

/-- The name of an object. -/
structure ResourceKey where
  group : String
  version : String
  kind : String
  /-- `namespace` in the source, a reserved word here. -/
  ns : Option String
  name : String
deriving DecidableEq, Repr

/-- The value of a resource: opaque JSON. -/
abbrev ResourceValue := Json

/-- Objects with their keys. -/
abbrev Items := List (ResourceKey × Json)

namespace ResourceKey

/-- An optional string in the derived order: absent is least. -/
def optOrd : Option String → WithBot String
  | none => ⊥
  | some s => s

/-- The tuple that the derived order compares. -/
def ord (k : ResourceKey) : String ×ₗ String ×ₗ String ×ₗ WithBot String ×ₗ String :=
  toLex (k.group, toLex (k.version, toLex (k.kind, toLex (optOrd k.ns, k.name))))

theorem optOrd_inj {a b : Option String} : optOrd a = optOrd b ↔ a = b := by
  cases a <;> cases b <;> simp [optOrd]

theorem ord_injective : Function.Injective ord := by
  rintro ⟨g, v, k, ns, n⟩ ⟨g', v', k', ns', n'⟩ h
  obtain ⟨rfl, h⟩ := Prod.mk.inj h
  obtain ⟨rfl, h⟩ := Prod.mk.inj h
  obtain ⟨rfl, h⟩ := Prod.mk.inj h
  obtain ⟨hns, rfl⟩ := Prod.mk.inj h
  obtain rfl : ns = ns' := optOrd_inj.mp hns
  rfl

instance : LinearOrder ResourceKey where
  le a b := a.ord ≤ b.ord
  lt a b := a.ord < b.ord
  le_refl a := le_refl a.ord
  le_trans _ _ _ := le_trans
  lt_iff_le_not_ge _ _ := lt_iff_le_not_ge
  le_antisymm _ _ h h' := ord_injective (le_antisymm h h')
  le_total a b := le_total a.ord b.ord
  toDecidableLE a b := inferInstanceAs (Decidable (a.ord ≤ b.ord))
  toDecidableLT a b := inferInstanceAs (Decidable (a.ord < b.ord))
  toDecidableEq := inferInstance

variable {k k' : ResourceKey}

theorem lt_iff_ord : k < k' ↔ k.ord < k'.ord := Iff.rfl

theorem le_iff_ord : k ≤ k' ↔ k.ord ≤ k'.ord := Iff.rfl

/-- The label that messages and minted uids use. -/
def label (k : ResourceKey) : String :=
  let group := if k.group.isEmpty then "v1" else k.group
  match k.ns with
  | some ns => group ++ "/" ++ k.version ++ "/" ++ k.kind ++ "/" ++ ns ++ "/" ++ k.name
  | none => group ++ "/" ++ k.version ++ "/" ++ k.kind ++ "/" ++ k.name

end ResourceKey

/-! ## The order of strings around a successor -/

/-- The least string above `s`. -/
def successor (s : String) : String := s ++ "\x00"

theorem eq_of_lt_append_zero : ∀ {s x : List Char}, ¬ x < s → x < s ++ ['\x00'] → x = s
  | [], [], _, _ => rfl
  | [], c :: x, _, h => by
    rw [nil_append, cons_lt_cons_iff] at h
    rcases h with h | ⟨_, h⟩
    · have : c.toNat < 0 := h
      omega
    · exact absurd h (not_lt_nil _)
  | c :: s, [], h, _ => absurd (nil_lt_cons ..) h
  | c :: s, d :: x, h, h' => by
    rw [cons_append, cons_lt_cons_iff] at h'
    rw [cons_lt_cons_iff, not_or, not_and] at h
    rcases h' with h' | ⟨rfl, h'⟩
    · exact absurd h' h.1
    · rw [eq_of_lt_append_zero (h.2 rfl) h']

theorem eq_of_lt_successor {s x : String} (h : s ≤ x) (h' : x < successor s) : x = s := by
  rw [lt_iff_toList_lt, successor, toList_append] at h'
  refine toList_injective (eq_of_lt_append_zero (fun hlt => ?_) h')
  exact not_le_of_gt (lt_iff_toList_lt.mpr hlt) h

theorem lt_successor (s : String) : s < successor s := by
  rw [lt_iff_toList_lt, successor, toList_append]
  induction s.toList with
  | nil => exact nil_lt_cons ..
  | cons c l ih => exact cons_lt_cons_iff.mpr (.inr ⟨rfl, ih⟩)

theorem empty_le (s : String) : "" ≤ s := by exact not_lt_nil _

/-! ## Scopes -/

/-- What a LIST asks for. -/
structure ListScope where
  group : String
  version : String
  kind : String
  ns : Option String
deriving DecidableEq, Repr

namespace ListScope

variable (s : ListScope)

/-- The key is in the scope. -/
def contains (k : ResourceKey) : Bool :=
  k.group = s.group && k.version = s.version && k.kind = s.kind &&
    (match s.ns with
     | none => true
     | some ns => k.ns = some ns)

/-- The least key the scope can hold. -/
def first : ResourceKey := ⟨s.group, s.version, s.kind, s.ns, ""⟩

/-- The least key above every key of the scope. `end` in the source, a reserved word here. -/
def endKey : ResourceKey :=
  match s.ns with
  | none => ⟨s.group, s.version, successor s.kind, none, ""⟩
  | some ns => ⟨s.group, s.version, s.kind, some (successor ns), ""⟩

/-- The entries of an ordered map with `lower ≤ key < upper`, or `lower < key` when the lower
bound is excluded. -/
def between {α : Type} (m : OrdMap ResourceKey α) (excluded : Bool) (lower upper : ResourceKey) :
    List (ResourceKey × α) :=
  m.entries.filter fun e => (if excluded then lower < e.1 else lower ≤ e.1) && e.1 < upper

/-- The scope's entries, in key order, those after the cursor when there is one. -/
def range {α : Type} (s : ListScope) (m : OrdMap ResourceKey α) (after : Option ResourceKey) :
    List (ResourceKey × α) :=
  match after with
  | some cursor =>
    if s.endKey ≤ cursor then between m false s.endKey s.endKey
    else if s.first ≤ cursor then between m true cursor s.endKey
    else between m false s.first s.endKey
  | none => between m false s.first s.endKey

variable {α : Type} (m : OrdMap ResourceKey α) (after : Option ResourceKey)

/-- Lexicographic bounds that agree on the first part pin the first part. -/
theorem lex_between {β : Type} [LinearOrder α] [LinearOrder β] {a x : α} {b b' y : β} :
    (toLex (a, b) ≤ toLex (x, y) ∧ toLex (x, y) < toLex (a, b')) ↔ x = a ∧ b ≤ y ∧ y < b' := by
  rw [Prod.Lex.toLex_le_toLex, Prod.Lex.toLex_lt_toLex]
  constructor
  · rintro ⟨h₁ | ⟨rfl, h₁⟩, h₂ | ⟨h₂, h₃⟩⟩
    · exact absurd h₁ (lt_asymm h₂)
    · exact absurd h₂ h₁.ne'
    · exact absurd h₂ (lt_irrefl _)
    · exact ⟨rfl, h₁, h₃⟩
  · rintro ⟨rfl, h₁, h₂⟩
    exact ⟨.inr ⟨rfl, h₁⟩, .inr ⟨rfl, h₂⟩⟩

/-- Bounds whose first parts are neighbours and whose second parts are least pin the first part. -/
theorem lex_next {β : Type} [LinearOrder α] [LinearOrder β] {a a' x : α} {b y : β} (hlt : a < a')
    (hnext : ∀ {x}, a ≤ x → x < a' → x = a) (hb : ∀ y, b ≤ y) :
    (toLex (a, b) ≤ toLex (x, y) ∧ toLex (x, y) < toLex (a', b)) ↔ x = a := by
  rw [Prod.Lex.toLex_le_toLex, Prod.Lex.toLex_lt_toLex]
  constructor
  · rintro ⟨h₁, h₂ | ⟨_, h₂⟩⟩
    · exact hnext (h₁.elim le_of_lt fun h => h.1.le) h₂
    · exact absurd h₂ (not_lt_of_ge (hb y))
  · rintro rfl
    exact ⟨.inr ⟨rfl, hb y⟩, .inl hlt⟩

theorem contains_iff (k : ResourceKey) : s.contains k = true ↔ s.first ≤ k ∧ k < s.endKey := by
  obtain ⟨g, v, kd, ns⟩ := s
  obtain ⟨kg, kv, kk, kns, kn⟩ := k
  rw [ResourceKey.le_iff_ord, ResourceKey.lt_iff_ord]
  cases ns with
  | none =>
    have hmin : ∀ y : WithBot String ×ₗ String, toLex ((⊥ : WithBot String), "") ≤ y := fun y =>
      Prod.Lex.le_iff.mpr <| by
        rcases eq_or_ne (ofLex y).1 ⊥ with h | h
        · exact .inr ⟨h.symm, empty_le _⟩
        · exact .inl (bot_lt_iff_ne_bot.mpr h)
    have := lex_next (x := kk) (y := toLex (ResourceKey.optOrd kns, kn)) (lt_successor kd)
      eq_of_lt_successor hmin
    simp only [first, endKey, ResourceKey.ord, lex_between]
    simp only [contains, Bool.and_true, Bool.and_eq_true, decide_eq_true_eq, and_assoc]
    exact and_congr_right fun _ => and_congr_right fun _ => this.symm
  | some ns =>
    have hnext : ∀ {x : WithBot String}, (ns : WithBot String) ≤ x → x < successor ns → x = ns := by
      intro x h h'
      cases x with
      | bot => exact absurd h (by simp)
      | coe x =>
        exact congrArg _ (eq_of_lt_successor (WithBot.coe_le_coe.mp h) (WithBot.coe_lt_coe.mp h'))
    have := lex_next (x := ResourceKey.optOrd kns) (y := kn)
      (WithBot.coe_lt_coe.mpr (lt_successor ns)) hnext empty_le
    simp only [first, endKey, ResourceKey.ord, lex_between]
    simp only [contains, Bool.and_eq_true, decide_eq_true_eq, and_assoc]
    refine and_congr_right fun _ => and_congr_right fun _ => and_congr_right fun _ => ?_
    rw [← ResourceKey.optOrd_inj]
    exact this.symm

/-- Reading a scope gives its keys and no others, those above the cursor when there is one. -/
theorem range_eq_filter : s.range m after = m.entries.filter fun e =>
      s.contains e.1 && after.all fun cursor => cursor < e.1 := by
  have hc : ∀ k, s.contains k = (decide (s.first ≤ k) && decide (k < s.endKey)) := fun k => by
    rw [Bool.eq_iff_iff, contains_iff]; simp
  cases after with
  | none => simp only [hc, Option.all_none, Bool.and_true]; rfl
  | some cursor =>
    simp only [range, hc]
    split
    · rename_i h
      refine filter_congr fun e _ => ?_
      by_cases h' : e.1 < s.endKey
      · simp [not_lt_of_ge ((le_of_lt h').trans h)]
      · simp [h']
    · split
      · rename_i h
        refine filter_congr fun e _ => ?_
        by_cases h' : cursor < e.1
        · simp [h', h.trans (le_of_lt h')]
        · simp [h']
      · rename_i h
        refine filter_congr fun e _ => ?_
        by_cases h' : s.first ≤ e.1
        · simp [(lt_of_not_ge h).trans_le h']
        · simp [h']

/-! ## The bounds of a range -/

/-- The range of an ordered map below an excluded upper bound, which panics (`none`) when its bounds
are inverted: the lower bound is above the upper one, or at it when both are excluded. -/
def rangeOrPanic (excluded : Bool) (lower upper : ResourceKey) : Option (List (ResourceKey × α)) :=
  if upper < lower ∨ (excluded ∧ lower = upper) then none else some (between m excluded lower upper)

/-- The bound a range starts from, and whether it is excluded. The cursor is clamped. -/
def lowerBound : Option ResourceKey → Bool × ResourceKey
  | some cursor =>
    if s.endKey ≤ cursor then (false, s.endKey)
    else if s.first ≤ cursor then (true, cursor)
    else (false, s.first)
  | none => (false, s.first)

theorem range_eq_between :
    s.range m after = between m (s.lowerBound after).1 (s.lowerBound after).2 s.endKey := by
  cases after with
  | none => rfl
  | some cursor =>
    simp only [range, lowerBound]
    split
    · rfl
    · split <;> rfl

theorem first_lt_endKey : s.first < s.endKey :=
  ((contains_iff s s.first).mp (by cases h : s.ns <;> simp [contains, first, h])).2

/-- The lower bound is below the end, or is the end and included. -/
theorem lowerBound_le :
    (s.lowerBound after).2 < s.endKey ∨ s.lowerBound after = (false, s.endKey) := by
  cases after with
  | none => exact .inl s.first_lt_endKey
  | some cursor =>
    by_cases hend : s.endKey ≤ cursor
    · exact .inr (if_pos hend)
    · left
      by_cases hfirst : s.first ≤ cursor
      · simpa only [lowerBound, if_neg hend, if_pos hfirst] using lt_of_not_ge hend
      · simpa only [lowerBound, if_neg hend, if_neg hfirst] using s.first_lt_endKey

/-- The range the code asks for never panics, and gives the entries of the scope above the cursor,
in key order. -/
theorem range_selects (s : ListScope) (m : OrdMap ResourceKey α) (after : Option ResourceKey) :
    rangeOrPanic m (s.lowerBound after).1 (s.lowerBound after).2 s.endKey = some (s.range m after) ∧
      s.range m after =
        m.entries.filter (fun e => s.contains e.1 && after.all fun cursor => cursor < e.1) ∧
      ((s.range m after).map Prod.fst).Pairwise (· < ·) := by
  refine ⟨?_, s.range_eq_filter m after, ?_⟩
  · rw [range_eq_between]
    refine if_neg ?_
    rcases s.lowerBound_le after with h | h
    · exact fun hbad => hbad.elim (lt_asymm h) fun hbad => h.ne hbad.2
    · simp [h]
  · rw [range_eq_filter, pairwise_map]
    exact m.sorted.filter _

end ListScope
end Engenho
