import Engenho.Lib.Cut
import Engenho.Api.Selectors

/-!
# Reading label selectors

The text of a label selector is cut at its commas outside parentheses, and each clause is read by a
search for the first operator in it.

* `parseLabelSelector`: the reader of a text, `parseLabelClause` the one of a clause.
* `Form`: which of the operators the reader finds first, and the parts it cuts out there.
* `canonical`: a list of requirements as text.
-/

namespace Engenho

/-- The white space of Unicode. -/
def isWhitespace (c : Char) : Bool :=
  let n := c.toNat
  (9 ≤ n && n ≤ 13) || n = 0x20 || n = 0x85 || n = 0xA0 || n = 0x1680 ||
    (0x2000 ≤ n && n ≤ 0x200A) ||
    n = 0x2028 || n = 0x2029 || n = 0x202F || n = 0x205F || n = 0x3000

def trim (s : List Char) : List Char := Cut.trim isWhitespace s

/-- The clause of a selector that could not be read, and why. -/
structure BadSelector where
  what : String
  clause : String
  why : String
deriving DecidableEq, Repr

def BadSelector.text (debugStr : String → String) (e : BadSelector) : String :=
  "invalid " ++ e.what ++ " clause " ++ debugStr e.clause ++ ": " ++ e.why

def badSelector (what : String) (clause : List Char) (why : String) : BadSelector :=
  ⟨what, String.ofList clause, why⟩

/-! ## Clauses -/

def splitTopLevelFrom : Int → List Char → List Char → List (List Char)
  | _, cur, [] => [cur]
  | depth, cur, c :: s =>
    if c = '(' then splitTopLevelFrom (depth + 1) (cur ++ [c]) s
    else if c = ')' then splitTopLevelFrom (depth - 1) (cur ++ [c]) s
    else if c = ',' ∧ depth = 0 then cur :: splitTopLevelFrom depth [] s
    else splitTopLevelFrom depth (cur ++ [c]) s

/-- The clauses between commas that stand in no set. -/
def splitTopLevel (s : List Char) : List (List Char) := splitTopLevelFrom 0 [] s

def trimKey (k clause : List Char) (what : String) : Except BadSelector String :=
  if (trim k).isEmpty then .error (badSelector what clause "empty key") else .ok (String.ofList
    (trim k))

/-- `key in (a,b)` or `key notin (a,b)`: what stands before the first `(` and behind it. What stands
behind the last `)` is not read. -/
def parseSetClause (c head rest : List Char) : Except BadSelector LabelRequirement :=
  let upToClose := rest.rdropWhile (· ≠ ')')
  if upToClose.isEmpty then .error (badSelector "labelSelector" c "unterminated '(' set")
  else
    let inner := upToClose.dropLast
    let values := (((inner.splitOn ',').map trim).filter fun v => !v.isEmpty).map String.ofList
    match Cut.words isWhitespace (trim head) with
    | [] => .error (badSelector "labelSelector" c "empty key before set")
    | [_] => .error (badSelector "labelSelector" c "set requires 'in' or 'notin'")
    | [key, op] =>
      if op = "in".toList then .ok (.isIn (String.ofList key) values)
      else if op = "notin".toList then .ok (.notIn (String.ofList key) values)
      else .error (badSelector "labelSelector" c "set requires 'in' or 'notin'")
    | _ => .error (badSelector "labelSelector" c "extra tokens before set")

/-- One clause. -/
def parseLabelClause (c : List Char) : Except BadSelector (Option LabelRequirement) :=
  match c with
  | [] => .ok none
  | '!' :: key =>
    if (trim key).isEmpty then .error (badSelector "labelSelector" c "empty key after '!'")
    else .ok (some (.absent (String.ofList (trim key))))
  | _ =>
    match Cut.splitOnce ['('] c with
    | some (head, rest) => (parseSetClause c head rest).map some
    | none =>
      match Cut.splitOnce ['!', '='] c with
      | some (k, v) =>
        (trimKey k c "labelSelector").map fun key => some (.notEquals key (String.ofList (trim v)))
      | none =>
        match Cut.splitOnce ['=', '='] c with
        | some (k, v) =>
          (trimKey k c "labelSelector").map fun key => some (.equals key (String.ofList (trim v)))
        | none =>
          match Cut.splitOnce ['='] c with
          | some (k, v) =>
            (trimKey k c "labelSelector").map fun key => some (.equals key (String.ofList (trim v)))
          | none => .ok (some (.present (String.ofList c)))

/-- The clauses one after another, up to the first that cannot be read. -/
def parseClauses : List (List Char) → Except BadSelector (List LabelRequirement)
  | [] => .ok []
  | clause :: rest => do
    let req ← parseLabelClause (trim clause)
    let out ← parseClauses rest
    pure (req.toList ++ out)

/-- The requirements of a selector. -/
def parseLabelSelector (s : Option String) : Except BadSelector (List LabelRequirement) :=
  match s.filter fun s => !s.isEmpty with
  | none => .ok []
  | some s => parseClauses (splitTopLevel s.toList)

/-! ## The text of requirements -/

def LabelRequirement.text : LabelRequirement → List Char
  | .equals k v => k.toList ++ ['='] ++ v.toList
  | .notEquals k v => k.toList ++ ['!', '='] ++ v.toList
  | .isIn k vs => k.toList ++ " in (".toList ++ [','].intercalate (vs.map String.toList) ++ [')']
  | .notIn k vs =>
    k.toList ++ " notin (".toList ++ [','].intercalate (vs.map String.toList) ++ [')']
  | .present k => k.toList
  | .absent k => '!' :: k.toList

/-- The selector as text. -/
def canonical (rs : List LabelRequirement) : String :=
  String.ofList ([','].intercalate (rs.map LabelRequirement.text))

/-! ## What the reader finds in a clause -/

/-- The parts that the reader cuts a clause into. -/
inductive Form where
  | empty
  | absent (key : List Char)
  | set (head rest : List Char)
  | notEquals (key value : List Char)
  | equals (key value : List Char)
  | present (key : List Char)
deriving DecidableEq, Repr

/-- Which form a clause has. -/
def form (c : List Char) : Form :=
  match c with
  | [] => .empty
  | '!' :: key => .absent key
  | _ =>
    match Cut.splitOnce ['('] c with
    | some (head, rest) => .set head rest
    | none =>
      match Cut.splitOnce ['!', '='] c with
      | some (k, v) => .notEquals k v
      | none =>
        match Cut.splitOnce ['=', '='] c with
        | some (k, v) => .equals k v
        | none =>
          match Cut.splitOnce ['='] c with
          | some (k, v) => .equals k v
          | none => .present c

theorem parseLabelClause_eq (c : List Char) : parseLabelClause c = match form c with
    | .empty => .ok none
    | .absent key =>
      if (trim key).isEmpty then .error (badSelector "labelSelector" c "empty key after '!'")
      else .ok (some (.absent (String.ofList (trim key))))
    | .set head rest => (parseSetClause c head rest).map some
    | .notEquals k v =>
      (trimKey k c "labelSelector").map fun key => some (.notEquals key (String.ofList (trim v)))
    | .equals k v =>
      (trimKey k c "labelSelector").map fun key => some (.equals key (String.ofList (trim v)))
    | .present k => .ok (some (.present (String.ofList k))) := by
  unfold parseLabelClause form
  split
  · rfl
  · rfl
  · cases Cut.splitOnce ['('] c with
    | some ab => rfl
    | none =>
      cases Cut.splitOnce ['!', '='] c with
      | some ab => rfl
      | none =>
        cases Cut.splitOnce ['=', '='] c with
        | some ab => rfl
        | none => cases Cut.splitOnce ['='] c <;> rfl

/-- The text of a form. -/
def Form.Of (c : List Char) : Form → Prop
  | .empty => c = []
  | .absent key => c = '!' :: key
  | .set head rest => c = head ++ ['('] ++ rest
  | .notEquals k v => c = k ++ ['!', '='] ++ v
  | .equals k v => c = k ++ ['=', '='] ++ v ∨ c = k ++ ['='] ++ v
  | .present k => c = k

theorem form_of (c : List Char) : (form c).Of c := by
  unfold form
  split
  · rfl
  · rfl
  · split
    · rename_i head rest h
      exact Cut.splitOnce_eq h
    split
    · rename_i k v h
      exact Cut.splitOnce_eq h
    · split
      · rename_i k v h
        exact .inl (Cut.splitOnce_eq h)
      · split
        · rename_i k v h
          exact .inr (Cut.splitOnce_eq h)
        · rfl

end Engenho
