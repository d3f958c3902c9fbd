import Mathlib.Data.List.Basic
import Engenho.Lib.Json

/-!
# JSON pointers and edits at a location

The standards' side of a JSON patch: how a pointer text is read (RFC 6901), what a location of a
document is, and what it means to add, remove or replace a value there (RFC 6902). Everything is
total: `none` says that the text is no pointer or that the location does not exist.

* `parse`: the reference tokens of a pointer;
* `index`: the number a token stands for in an array;
* `resolve`: the value at a location;
* `edit`: a change of the last step of a location, everything beside the way to it kept;
* `Json.equalTo`: the equality of a `test`, with numbers compared by value.
-/

/-! ## Equality by value -/

/-- The mantissa and the power of ten of a float's text, `-1.5e-7` being `(-15, -8)`. -/
def Number.decimalText (text : List Char) : Int × Int :=
  let negative := text.head? = some '-'
  let unsigned := text.filter (· ≠ '-')
  let mantissa := unsigned.takeWhile (· ≠ 'e')
  let fraction := (mantissa.dropWhile (· ≠ '.')).drop 1
  let whole := mantissa.takeWhile (· ≠ '.')
  let exponent := unsigned.dropWhile (· ≠ 'e') |>.filter Char.isDigit
  let value : List Char → Nat := List.foldl (fun n c => 10 * n + (c.toNat - '0'.toNat)) 0
  let m : Int := value (whole ++ fraction)
  let e : Int := value exponent
  -- the sign of the exponent is the one minus sign after the `e`
  let below := (text.dropWhile (· ≠ 'e')).contains '-'
  (if negative then -m else m, (if below then -e else e) - fraction.length)

/-- The value of a number as a mantissa and a power of ten. -/
def Number.decimal : Number → Int × Int
  | .int i => (i, 0)
  | .float text => decimalText text.toList

/-- The two numbers have the same value, however they are written. -/
def Number.equalTo (a b : Number) : Bool :=
  let low := min a.decimal.2 b.decimal.2
  a.decimal.1 * 10 ^ (a.decimal.2 - low).toNat = b.decimal.1 * 10 ^ (b.decimal.2 - low).toNat

theorem Number.equalTo_self (n : Number) : n.equalTo n = true := by simp [Number.equalTo]

namespace Json

mutual
/-- Equality of documents by value: numbers are compared as numbers, the rest as it is. -/
def equalTo : Json → Json → Bool
  | .null, .null => true
  | .bool a, .bool b => a == b
  | .num a, .num b => a.equalTo b
  | .str a, .str b => a == b
  | .arr a, .arr b => equalToList a b
  | .obj a, .obj b => equalToFields a b
  | _, _ => false
def equalToList : List Json → List Json → Bool
  | [], [] => true
  | a :: as, b :: bs => equalTo a b && equalToList as bs
  | _, _ => false
def equalToFields : List (String × Json) → List (String × Json) → Bool
  | [], [] => true
  | (k, a) :: as, (k', b) :: bs => k == k' && equalTo a b && equalToFields as bs
  | _, _ => false
end

mutual
theorem equalTo_self : ∀ v : Json, equalTo v v = true
  | .null => rfl
  | .bool b => beq_self_eq_true b
  | .num n => Number.equalTo_self n
  | .str s => beq_self_eq_true s
  | .arr xs => equalToList_self xs
  | .obj fields => equalToFields_self fields
theorem equalToList_self : ∀ xs : List Json, equalToList xs xs = true
  | [] => rfl
  | x :: xs => by simp [equalToList, equalTo_self x, equalToList_self xs]
theorem equalToFields_self : ∀ fields : List (String × Json), equalToFields fields fields = true
  | [] => rfl
  | (k, x) :: rest => by simp [equalToFields, equalTo_self x, equalToFields_self rest]
end
end Json

/-! ## Pointers -/

namespace JsonPointer

/-- A reference token with its escapes read from left to right: `~0` is a tilde and `~1` a slash. No
other character follows a tilde. -/
def unescape : List Char → Option (List Char)
  | [] => some []
  | c :: rest =>
    if c = '~' then
      match rest with
      | [] => none
      | d :: rest =>
        if d = '0' then (unescape rest).map ('~' :: ·)
        else if d = '1' then (unescape rest).map ('/' :: ·)
        else none
    else (unescape rest).map (c :: ·)

/-- The reference tokens of a pointer: the empty text is the whole document, any other pointer
starts with a slash. -/
def parse (path : String) : Option (List String) :=
  match path.toList with
  | [] => some []
  | c :: rest =>
    if c = '/' then (rest.splitOn '/').mapM fun t => (unescape t).map String.ofList else none

/-- The array index a token stands for: `0`, or digits that do not start with a zero. Arrays are
addressed with 64 bits, so a larger number names no element of any of them. -/
def index (t : String) : Option Nat :=
  let digits := t.toList
  if digits.isEmpty || !digits.all Char.isDigit ||
    (digits.head? == some '0' && digits != ['0']) then none
  else
    let n := digits.foldl (fun n c => 10 * n + (c.toNat - '0'.toNat)) 0
    if n < 2 ^ 64 then some n else none

/-! ## Locations -/

/-- The value one token leads to. -/
def child (t : String) : Json → Option Json
  | .obj m => m.lookup t
  | .arr xs => (index t).bind fun i => xs[i]?
  | _ => none

/-- The value at a location. -/
def resolve : List String → Json → Option Json
  | [], v => some v
  | t :: ts, v => (child t v).bind (resolve ts)

/-- The value with its child at `t` made into another by `f`. -/
def within (t : String) (f : Json → Option Json) : Json → Option Json
  | .obj m => (m.lookup t).bind fun x => (f x).map fun x' => .obj (Assoc.put t x' m)
  | .arr xs => (index t).bind fun i => xs[i]?.bind fun x => (f x).map fun x' => .arr (xs.set i x')
  | _ => none

/-- A change of the last step of a location, made by `last` in the value that holds it. -/
def edit (last : String → Json → Option Json) : List String → Json → Option Json
  | [], _ => none
  | [t], v => last t v
  | t :: t' :: ts, v => within t (edit last (t' :: ts)) v

/-- Adds to an object or an array; in an array the values from the index on move up, and `-` is the
place after the last one. -/
def addLast (value : Json) (t : String) : Json → Option Json
  | .obj m => some (.obj (Assoc.put t value m))
  | .arr xs =>
    if t = "-" then some (.arr (xs ++ [value]))
    else (index t).bind fun i => if i ≤ xs.length then some (.arr (xs.insertIdx i value)) else none
  | _ => none

def removeLast (t : String) : Json → Option Json
  | .obj m => (m.lookup t).map fun _ => .obj (Assoc.drop t m)
  | .arr xs => (index t).bind fun i => if i < xs.length then some (.arr (xs.eraseIdx i)) else none
  | _ => none

/-- The value at the location becomes `value`, or a new one is put there. -/
def add (value : Json) : List String → Json → Option Json
  | [], _ => some value
  | ts, v => edit (addLast value) ts v

/-- The document without the value at the location. Of a removed document `null` is left. -/
def remove : List String → Json → Option Json
  | [], _ => some .null
  | ts, v => edit removeLast ts v

/-- The value at the location, which has to be there, becomes `value`. -/
def replace (value : Json) : List String → Json → Option Json
  | [], _ => some value
  | ts, v => edit (fun t => within t fun _ => some value) ts v

end JsonPointer
