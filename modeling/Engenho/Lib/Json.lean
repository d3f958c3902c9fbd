import Mathlib.Algebra.Group.Int.Defs
import Mathlib.Data.String.Basic
import Engenho.Lib.OrdMap

/-!
# JSON values

Values as a document library keeps them in memory: numbers are integers or the shortest text of a
float, and an object is an association list that the map operations `Assoc.put` and `Assoc.drop`
keep in key order.
-/

/-- A number: an integer, or a float by its shortest text. -/
inductive Number where
  | int (i : Int)
  | float (text : String)
deriving DecidableEq, Repr

/-- A JSON value; an object is its list of fields. -/
inductive Json where
  | null
  | bool (b : Bool)
  | num (n : Number)
  | str (s : String)
  | arr (xs : List Json)
  | obj (fields : List (String × Json))
deriving Repr, Inhabited

/-- The fields of an object. -/
abbrev JsonMap := List (String × Json)

namespace Json
open Assoc List

/-- A property of values passes from the elements of an array to the array and from the values of an
object to the object. -/
@[induction_eliminator]
theorem induction {motive : Json → Prop} (null : motive .null) (bool : ∀ b, motive (.bool b))
    (num : ∀ n, motive (.num n)) (str : ∀ s, motive (.str s))
    (arr : ∀ xs, (∀ x ∈ xs, motive x) → motive (.arr xs))
    (obj : ∀ fields, (∀ e ∈ fields, motive e.2) → motive (.obj fields)) (v : Json) : motive v :=
  @Json.rec motive (fun xs => ∀ x ∈ xs, motive x) (fun fields => ∀ e ∈ fields, motive e.2)
    (fun e => motive e.2)
    null bool num str arr obj
    (forall_mem_nil _) (fun _ _ hx hxs => forall_mem_cons.mpr ⟨hx, hxs⟩)
    (forall_mem_nil _) (fun _ _ he hes => forall_mem_cons.mpr ⟨he, hes⟩) (fun _ _ h => h) v

/-! ## Equality -/

mutual
/-- Equality of values, as a test. -/
def beq : Json → Json → Bool
  | .null, .null => true
  | .bool a, .bool b => a == b
  | .num a, .num b => decide (a = b)
  | .str a, .str b => a == b
  | .arr a, .arr b => beqList a b
  | .obj a, .obj b => beqFields a b
  | _, _ => false
def beqList : List Json → List Json → Bool
  | [], [] => true
  | a :: as, b :: bs => beq a b && beqList as bs
  | _, _ => false
def beqFields : List (String × Json) → List (String × Json) → Bool
  | [], [] => true
  | (k, a) :: as, (k', b) :: bs => k == k' && beq a b && beqFields as bs
  | _, _ => false
end

mutual
theorem beq_iff : ∀ a b : Json, beq a b = true ↔ a = b
  | .null, b | .bool _, b | .num _, b | .str _, b => by cases b <;> simp [beq]
  | .arr xs, b => by cases b <;> simp [beq, beqList_iff xs]
  | .obj fs, b => by cases b <;> simp [beq, beqFields_iff fs]
theorem beqList_iff : ∀ a b : List Json, beqList a b = true ↔ a = b
  | [], b => by cases b <;> simp [beqList]
  | x :: xs, b => by cases b <;> simp [beqList, beq_iff x, beqList_iff xs]
theorem beqFields_iff : ∀ a b : List (String × Json), beqFields a b = true ↔ a = b
  | [], b => by cases b <;> simp [beqFields]
  | (k, x) :: xs, b => by
    cases b with
    | nil => simp [beqFields]
    | cons e es => simp [beqFields, beq_iff x, beqFields_iff xs, Prod.ext_iff]
end

instance : DecidableEq Json := fun a b => decidable_of_iff (beq a b = true) (beq_iff a b)

/-! ## Reading -/

/-- The field `k` of an object; anything else has no fields. -/
def get (k : String) : Json → Option Json
  | .obj fields => fields.lookup k
  | _ => none

def asObject : Json → Option JsonMap
  | .obj fields => some fields
  | _ => none

def asArray : Json → Option (List Json)
  | .arr xs => some xs
  | _ => none

def asBool : Json → Option Bool
  | .bool b => some b
  | _ => none

def asStr : Json → Option String
  | .str s => some s
  | _ => none

/-- The value of an integer of any size. -/
def asInt : Json → Option Int
  | .num (.int i) => some i
  | _ => none

/-- The value of an integer in the range of a signed 64-bit word. -/
def asI64 : Json → Option Int
  | .num (.int i) => if -2 ^ 63 ≤ i ∧ i < 2 ^ 63 then some i else none
  | _ => none

def isNull : Json → Bool
  | .null => true
  | _ => false

def isObject : Json → Bool
  | .obj _ => true
  | _ => false

def isArray : Json → Bool
  | .arr _ => true
  | _ => false

@[simp] theorem get_obj (k : String) (m : JsonMap) : get k (.obj m) = m.lookup k := rfl

@[simp] theorem asObject_obj (m : JsonMap) : asObject (.obj m) = some m := rfl

variable {v : Json} {fields : JsonMap}

theorem asObject_eq_some {m : JsonMap} : v.asObject = some m ↔ v = .obj m := by
  cases v <;> simp [asObject]

theorem isObject_iff : v.isObject = true ↔ ∃ m, v = .obj m := by cases v <;> simp [isObject]

theorem isNull_iff : v.isNull = true ↔ v = .null := by cases v <;> simp [isNull]

theorem get_eq_none_of_not_object (h : v.isObject = false) (k : String) : v.get k = none := by
  cases v <;> first | rfl | cases h

theorem asI64_int {i : Int} (h : -2 ^ 63 ≤ i ∧ i < 2 ^ 63) : asI64 (.num (.int i)) = some i := by
  simp only [asI64]; exact if_pos h

theorem asI64_eq_some {n : Int} (h : v.asI64 = some n) :
    v = .num (.int n) ∧ -2 ^ 63 ≤ n ∧ n < 2 ^ 63 := by
  unfold asI64 at h
  split at h
  · split at h
    · rename_i hrange
      cases h
      exact ⟨rfl, hrange⟩
    · cases h
  · cases h

/-! ## Objects as maps -/

mutual
/-- Every object in the value lists its fields in key order, each key once. -/
def canonical : Json → Bool
  | .arr xs => canonicalList xs
  | .obj fields => canonicalFields fields
  | _ => true
def canonicalList : List Json → Bool
  | [] => true
  | x :: xs => x.canonical && canonicalList xs
def canonicalFields : List (String × Json) → Bool
  | [] => true
  | (k, v) :: rest => rest.all (fun e => k < e.1) && v.canonical && canonicalFields rest
end

theorem canonicalFields_iff :
    canonicalFields fields = true ↔ Sorted fields ∧ ∀ e ∈ fields, e.2.canonical = true := by
  induction fields with
  | nil => simp [canonicalFields, Sorted]
  | cons e rest ih =>
    simp only [canonicalFields, Sorted, Bool.and_eq_true, all_eq_true, decide_eq_true_eq, ih,
      pairwise_cons, forall_mem_cons]
    exact and_and_and_comm

section
variable (h : canonicalFields fields = true)
include h

theorem sorted_of_canonicalFields : Sorted fields := (canonicalFields_iff.mp h).1

theorem canonical_of_mem {e : String × Json} (he : e ∈ fields) : e.2.canonical = true :=
  (canonicalFields_iff.mp h).2 e he

theorem canonical_of_lookup {k : String} (hv : fields.lookup k = some v) : v.canonical = true :=
  canonical_of_mem h (mem_of_lookup hv)

theorem canonical_lookup {d : Json} (hd : d.canonical = true) (k : String) :
    ((fields.lookup k).getD d).canonical = true := by
  cases hl : fields.lookup k with
  | none => exact hd
  | some v => exact canonical_of_lookup h hl

theorem canonicalFields_put (hv : v.canonical = true) (k : String) :
    canonicalFields (put k v fields) = true := by
  obtain ⟨hsorted, hall⟩ := canonicalFields_iff.mp h
  refine canonicalFields_iff.mpr ⟨hsorted.put, fun e he => ?_⟩
  rcases mem_put he with rfl | he
  · exact hv
  · exact hall e he

theorem canonicalFields_filter (p : String × Json → Bool) :
    canonicalFields (fields.filter p) = true := by
  obtain ⟨hsorted, hall⟩ := canonicalFields_iff.mp h
  exact canonicalFields_iff.mpr ⟨hsorted.filter p, fun e he => hall e (mem_of_mem_filter he)⟩

end

theorem canonicalList_iff {xs : List Json} :
    canonicalList xs = true ↔ ∀ x ∈ xs, x.canonical = true := by
  induction xs with
  | nil => simp [canonicalList]
  | cons x xs ih => simp [canonicalList, ih]

theorem canonicalFields_asObject (h : v.canonical = true) :
    canonicalFields (v.asObject.getD []) = true := by
  cases v with
  | obj fields => exact h
  | _ => rfl

end Json
