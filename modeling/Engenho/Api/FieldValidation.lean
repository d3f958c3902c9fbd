import Engenho.Api.ListPage

/-!
# Unknown and duplicate fields of a request body

A body is looked through twice. The scan reads the text, where a key can stand twice; the walk reads
the decoded value, whose maps keep the last one. Both follow the kind's schema: a key a struct does
not have is unknown and not looked into, a map knows every key, and inside a raw value, or a value
that is not of the schema's kind, nothing is looked at.

* `Row`: the schema of a kind, a table of shapes that may refer to each other.
* `Scanner.visit`: the scan of the text.
* `walk`, `removeFrom`: the walk and the removal of what it reports.
* `checkObject`: the check of a body that is an object.
-/

namespace Engenho

/-! ## Paths -/

/-- A step of a path. -/
inductive PathStep where
  | key (k : String)
  | index (i : Nat)
deriving DecidableEq, Repr

abbrev StrictPath := List PathStep

namespace StrictPath

def child (path : StrictPath) (key : String) : StrictPath := path ++ [.key key]

/-- The value without the field the path names. A path that does not lead to a key removes
nothing. -/
def removeFrom : StrictPath → Json → Json
  | [], value => value
  | .key key :: rest, value =>
    match value with
    | .obj map =>
      if rest = [] then .obj (Assoc.drop key map)
      else
        match map.lookup key with
        | some next => .obj (Assoc.put key (removeFrom rest next) map)
        | none => value
    | _ => value
  | .index i :: rest, value =>
    match value with
    | .arr items => .arr (items.modify i (removeFrom rest))
    | _ => value

def stepText (first : Bool) : PathStep → String
  | .key key => if first then key else "." ++ key
  | .index i => "[" ++ toString i ++ "]"

def text : StrictPath → String
  | [] => ""
  | step :: rest => stepText true step ++ String.join (rest.map (stepText false))

end StrictPath

/-! ## Findings -/

/-- An unknown field, or one given twice. -/
inductive FindingKind where
  | unknown
  | duplicate
deriving DecidableEq, Repr

/-- Where the field stands. -/
inductive Origin where
  | object
  | jsonPatch
deriving DecidableEq, Repr

/-- A field that a strict reader refuses. -/
structure Finding where
  kind : FindingKind
  path : StrictPath
  origin : Origin
deriving DecidableEq, Repr

/-- A character as `strconv.Quote` writes it. Every control character is below 0x100. -/
def goEscape (c : Char) : String :=
  if c = '"' then "\\\""
  else if c = '\\' then "\\\\"
  else if c = '\n' then "\\n"
  else if c = '\r' then "\\r"
  else if c = '\t' then "\\t"
  else if c.toNat < 0x20 ∨ (0x7f ≤ c.toNat ∧ c.toNat < 0xa0) then
    "\\x" ++ String.ofList [Nat.digitChar (c.toNat / 16), Nat.digitChar (c.toNat % 16)]
  else c.toString

def goQuoted (s : String) : String := "\"" ++ String.join (s.toList.map goEscape) ++ "\""

def Finding.text (f : Finding) : String :=
  (match f.origin with
    | .jsonPatch => "json patch "
    | .object => "") ++
  (match f.kind with
    | .unknown => "unknown field "
    | .duplicate => "duplicate field ") ++ goQuoted (StrictPath.text f.path)

def maxFindings : Nat := 100

/-- What was found, in order, each once, up to the cap. -/
structure Findings where
  items : List Finding
deriving DecidableEq, Repr

/-- Adds a finding, while there is room. -/
def Findings.record (found : Findings) (finding : Finding) : Findings :=
  if found.items.length < maxFindings ∧
    finding ∉ found.items then ⟨found.items ++ [finding]⟩ else found

/-! ## Schemas -/

abbrev ShapeId := Nat

/-- What a value at one position of a kind may hold. -/
inductive Shape where
  | struct (fields : List (String × ShapeId))
  | map (values : ShapeId)
  | list (items : ShapeId)
  | leaf
  | raw
deriving DecidableEq, Repr

/-- The shapes of all kinds. -/
structure Schemas where
  shapes : List Shape
  roots : List ((String × String × String) × ShapeId)
deriving DecidableEq, Repr

/-- The schema of one kind. -/
structure Row where
  schemas : Schemas
  root : ShapeId
deriving DecidableEq, Repr

/-- A shape by its number. -/
def Row.shape (row : Row) (id : ShapeId) : Shape := (row.schemas.shapes[id]?).getD .raw

/-- The schema of a kind. -/
def Schemas.row (schemas : Schemas) (group version kind : String) : Option Row :=
  (schemas.roots.lookup (group, version, kind)).map fun root => ⟨schemas, root⟩

/-! ## The scan of a text -/

/-- What a body is read as. -/
inductive Target where
  | kind (row : Row)
  | untyped
  | jsonPatch
deriving DecidableEq, Repr

/-- Where the scanner stands. -/
inductive At where
  | typed (id : ShapeId)
  | untyped
  | raw
  | jsonPatchOps
  | jsonPatchOp
deriving DecidableEq, Repr

/-- The reader of a body that looks for findings. -/
structure Scanner where
  row : Option Row
  origin : Origin
deriving DecidableEq, Repr

namespace Scanner

def shape (s : Scanner) (id : ShapeId) : Shape :=
  match s.row with
  | some row => row.shape id
  | none => .raw

def found (s : Scanner) (kind : FindingKind) (path : StrictPath) (key : String) (found : Findings) :
    Findings :=
  found.record ⟨kind, path.child key, s.origin⟩

/-- A key that may stand once: the keys seen with it, and what was found. -/
def duplicateCheck (s : Scanner) (path : StrictPath) (key : String) (seen : List String)
    (found : Findings) : List String × Findings :=
  if key ∈ seen then (seen, s.found .duplicate path key found) else (key :: seen, found)

/-- A key of an object: where its value stands, the keys seen, and what was found. -/
def enter (s : Scanner) (here : At) (path : StrictPath) (key : String) (seen : List String)
    (found : Findings) : At × List String × Findings :=
  match here with
  | .raw => (.raw, seen, found)
  | .jsonPatchOps => (.raw, seen, found)
  | .untyped => (.untyped, s.duplicateCheck path key seen found)
  | .jsonPatchOp =>
    if key = "op" ∨ key = "path" ∨ key = "from" then (.raw, s.duplicateCheck path key seen found)
    else if key = "value" then (.untyped, s.duplicateCheck path key seen found)
    else (.raw, seen, s.found .unknown path key found)
  | .typed id =>
    match s.shape id with
    | .struct fields =>
      match fields.lookup key with
      | some field => (.typed field, s.duplicateCheck path key seen found)
      | none => (.raw, seen, s.found .unknown path key found)
    | .map values => (.typed values, s.duplicateCheck path key seen found)
    | _ => (.raw, seen, found)

/-- Where an element of a list stands. -/
def element (s : Scanner) : At → At
  | .untyped => .untyped
  | .jsonPatchOps => .jsonPatchOp
  | .typed id =>
    match s.shape id with
    | .list items => .typed items
    | _ => .raw
  | .raw => .raw
  | .jsonPatchOp => .raw

mutual
/-- The visit of a document: objects list their keys as the text does, repeats included. The path
the scanner keeps is the argument `path`. -/
def visit (s : Scanner) (here : At) (path : StrictPath) (found : Findings) : Json → Findings
  | .arr xs => visitSeq s (s.element here) path 0 found xs
  | .obj fields => visitMap s here path [] found fields
  | _ => found
/-- The elements of an array. -/
def visitSeq (s : Scanner) (element : At) (path : StrictPath) (index : Nat) (found : Findings) :
    List Json → Findings
  | [] => found
  | x :: xs =>
    visitSeq s element path (index + 1) (visit s element (path ++ [.index index]) found x) xs
/-- The fields of an object. -/
def visitMap (s : Scanner) (here : At) (path : StrictPath) (seen : List String) (found : Findings) :
    List (String × Json) → Findings
  | [] => found
  | (key, value) :: rest =>
    let entered := s.enter here path key seen found
    visitMap s here path entered.2.1 (visit s entered.1 (path ++ [.key key]) entered.2.2 value) rest
end
end Scanner

/-- The scan of a document. -/
def scanDocument (target : Target) (doc : Json) : Findings :=
  match target with
  | .kind row => Scanner.visit ⟨some row, .object⟩ (.typed row.root) [] ⟨[]⟩ doc
  | .untyped => Scanner.visit ⟨none, .object⟩ .untyped [] ⟨[]⟩ doc
  | .jsonPatch => Scanner.visit ⟨none, .jsonPatch⟩ .jsonPatchOps [] ⟨[]⟩ doc

mutual
/-- The value a document decodes to: of a repeated key, the last value. -/
def decoded : Json → Json
  | .arr xs => .arr (decodedList xs)
  | .obj fields => .obj (decodedFields [] fields)
  | v => v
def decodedList : List Json → List Json
  | [] => []
  | x :: xs => decoded x :: decodedList xs
def decodedFields (map : JsonMap) : List (String × Json) → JsonMap
  | [] => map
  | (k, v) :: rest => decodedFields (Assoc.put k (decoded v) map) rest
end

/-! ## The walk of a value -/

mutual
/-- Every unknown field of a value. -/
def walk (row : Row) (id : ShapeId) (path : StrictPath) : Json → List StrictPath
  | .obj map =>
    match row.shape id with
    | .struct fields => walkFields row (fun key => fields.lookup key) path map
    | .map values => walkFields row (fun _ => some values) path map
    | _ => []
  | .arr elements =>
    match row.shape id with
    | .list items => walkList row items path 0 elements
    | _ => []
  | _ => []
/-- The loop over the keys of an object; `field` is the shape of a key, if it is known. -/
def walkFields (row : Row) (field : String → Option ShapeId) (path : StrictPath) :
    List (String × Json) → List StrictPath
  | [] => []
  | (key, child) :: rest =>
    (match field key with
      | some id => walk row id (path ++ [.key key]) child
      | none => [path.child key]) ++ walkFields row field path rest
def walkList (row : Row) (items : ShapeId) (path : StrictPath) (index : Nat) :
    List Json → List StrictPath
  | [] => []
  | child :: rest =>
    walk row items (path ++ [.index index]) child ++ walkList row items path (index + 1) rest
end

/-- The fields of a value that its schema does not have. -/
def unknownPaths (row : Row) (value : Json) : List StrictPath := walk row row.root [] value

/-! ## The check -/

/-- What a request wants done with findings. -/
inductive FieldValidation where
  | ignore
  | warn
  | strict
deriving DecidableEq, Repr

/-- A `fieldValidation` parameter: the mode, and whether the client named it. -/
structure Directive where
  mode : FieldValidation
  asked : Bool
deriving DecidableEq, Repr

def Directive.wantsToKnow (d : Directive) : Bool := d.asked && d.mode ≠ .ignore

/-- The warnings of a response, each text once. -/
structure Warnings where
  texts : List String
deriving DecidableEq, Repr

def Warnings.add (w : Warnings) (text : String) : Warnings :=
  if text.isEmpty = false ∧ text ∉ w.texts then ⟨w.texts ++ [text]⟩ else w

def strictDecodingError (found : Findings) : String :=
  "strict decoding error: " ++ ", ".intercalate (found.items.map Finding.text)

/-- Refuses, warns, or lets pass. -/
def Directive.judge (d : Directive) (found : Findings) (warnings : Warnings)
    (refusal : String → ApiError) : Except ApiError Warnings :=
  if found.items = [] then .ok warnings
  else
    match d.mode with
    | .strict => .error (refusal (strictDecodingError found))
    | .warn => .ok (found.items.foldl (fun w finding => w.add finding.text) warnings)
    | .ignore => .ok warnings

/-- A kind, as messages name it. -/
structure KindRef where
  group : String
  version : String
  kind : String
  apiVersion : String
deriving DecidableEq, Repr

def KindRef.undecodable (k : KindRef) (error : String) : ApiError :=
  .badRequest (k.kind ++ " in version \"" ++ k.version ++ "\" cannot be handled as a " ++
    k.kind ++ ": " ++
    error)

def notCheckedFields (k : KindRef) : String :=
  "fieldValidation: unknown fields are not detected for " ++ k.kind ++ " in " ++ k.apiVersion ++
    "; only duplicate fields were checked"

section
-- the JSON reader: the document of a text, its objects with their keys as they stand
variable (read : String → Except String Json)

/-- The findings of a text. -/
def scan (raw : String) (target : Target) : Except String Findings :=
  (read raw).map (scanDocument target)

/-- The check of a body that is an object: what is left of its value, and the warnings. -/
def checkObject (schemas : Schemas) (directive : Directive) (kind : KindRef) (raw : Option String)
    (value : Json) (warnings : Warnings) : Except ApiError (Json × Warnings) := do
  let schema := schemas.row kind.group kind.version kind.kind
  let found ← match raw with
    | some raw =>
      (scan read raw (match schema with
        | some row => .kind row
        | none => .untyped)).mapError kind.undecodable
    | none => .ok ⟨[]⟩
  let warnings ← directive.judge found warnings kind.undecodable
  match schema with
  | some row =>
    return ((unknownPaths row value).foldl (fun value path => StrictPath.removeFrom path value)
      value, warnings)
  | none =>
    if directive.wantsToKnow then return (value, warnings.add (notCheckedFields kind))
    else return (value, warnings)

end
end Engenho
