import Engenho.Api.Scale

/-!
# Reading and writing the objects of controllers

The fields of the metadata every controller reads, the writes into an object whose shape a user
chose, and owner references.

A write goes to an object or an array at a path. What is absent or null on the way is made, and
anything else is a fault that names the path (`editObject`, `editArray`).
-/

namespace Engenho
namespace Controllers

/-! ## The metadata -/

def metaStr (field : String) (v : Json) : Option String := (metaField field v).bind Json.asStr

def nonEmpty (s : Option String) : Option String := s.filter fun s => !s.isEmpty

/-- The uid, if it is not empty. -/
def uid (v : Json) : Option String := nonEmpty (metaStr "uid" v)

def name (v : Json) : Option String := metaStr "name" v

/-- `namespace` in the source, a reserved word here. -/
def nsOf (v : Json) : Option String := metaStr "namespace" v

/-- The object is being deleted. -/
def isTerminating (v : Json) : Bool := (deletionTimestampOf v).isSome

/-! ## Faults -/

/-- What should stand at a path. -/
inductive Container where
  | object
  | array
deriving DecidableEq, Repr

def Container.text : Container → String
  | .object => "an object"
  | .array => "an array"

/-- A stored object does not have the shape a controller needs: a write needs a container, or a read
needs an integer. -/
inductive ShapeFault where
  | wrong (path : List String) (expected : Container) (found : ShapeKind)
  | unreadable (e : ShapeError)
deriving DecidableEq, Repr

namespace ShapeFault

def text : ShapeFault → String
  | .wrong path expected found =>
    (if path = [] then "the object itself" else dotted path) ++ " is " ++ found.text ++
      ", expected " ++
      expected.text
  | .unreadable e => e.text

/-- The fault as one of the object that holds this one at `root`. -/
def under (root : List String) : ShapeFault → ShapeFault
  | .wrong path expected found => .wrong (root ++ path) expected found
  | .unreadable (.notAnInteger path found) => .unreadable (.notAnInteger (root ++ path) found)

end ShapeFault

/-- Why a pass fails. -/
inductive ControllerError where
  | invalidResource (text : String)
  | shape (fault : ShapeFault)
deriving DecidableEq, Repr

def ControllerError.text : ControllerError → String
  | .invalidResource text => "invalid resource: " ++ text
  | .shape fault => "malformed object: " ++ fault.text

/-! ## Counts -/

/-- The integer of a field, or the error of the object. -/
def readInt (field : DefaultedInt) (object : Json) : Except ControllerError Int :=
  (field.read object).mapError fun e => .shape (.unreadable e)

/-- A count: a negative integer reads as zero. -/
def readCount (field : DefaultedInt) (object : Json) : Except ControllerError Nat :=
  (readInt field object).map Int.toNat

/-! ## Writes -/

/-- An object, or null for an empty one. -/
def objectSlot (path : List String) : Json → Except ShapeFault JsonMap
  | .obj m => .ok m
  | v =>
    match ShapeKind.of v with
    | none => .ok []
    | some found => .error (.wrong path .object found)

/-- An array, or null for an empty one. -/
def arraySlot (path : List String) : Json → Except ShapeFault (List Json)
  | .arr items => .ok items
  | v =>
    match ShapeKind.of v with
    | none => .ok []
    | some found => .error (.wrong path .array found)

/-- Changes the object at a path. `above` is the path of the value itself. -/
def editObject (above : List String) (f : JsonMap → Except ShapeFault JsonMap) :
    List String → Json → Except ShapeFault Json
  | [], v => do
    let m ← objectSlot above v
    let m ← f m
    return .obj m
  | step :: path, v => do
    let m ← objectSlot above v
    let inner ← editObject (above ++ [step]) f path ((m.lookup step).getD .null)
    return .obj (Assoc.put step inner m)

/-- Changes the array `last` of the object at a path. -/
def editArray (path : List String) (last : String) (f : List Json → List Json) (v : Json) :
    Except ShapeFault Json :=
  editObject [] (fun m => do
    let items ← arraySlot (path ++ [last]) ((m.lookup last).getD .null)
    return Assoc.put last (.arr (f items)) m) path v

/-! ## Owner references -/

/-- A reference to an owner. -/
structure OwnerReference where
  apiVersion : String
  kind : String
  name : String
  uid : String
  controller : Bool
  blockOwnerDeletion : Bool
deriving DecidableEq, Repr

def flag (field : String) (b : Bool) : JsonMap := if b then [(field, .bool true)] else []

def OwnerReference.toValue (r : OwnerReference) : Json :=
  .obj ((flag "controller" r.controller ++ flag "blockOwnerDeletion" r.blockOwnerDeletion).foldl
    (fun m e => Assoc.put e.1 e.2 m)
    [("apiVersion", .str r.apiVersion), ("kind", .str r.kind), ("name", .str r.name),
      ("uid", .str r.uid)])

/-- A flag that may be left out. -/
def readFlag (v : Json) (field : String) : Option Bool :=
  match v.get field with
  | none => some false
  | some b => b.asBool

/-- Reads a reference. -/
def OwnerReference.ofValue (v : Json) : Option OwnerReference := do
  let apiVersion ← (v.get "apiVersion").bind Json.asStr
  let kind ← (v.get "kind").bind Json.asStr
  let name ← (v.get "name").bind Json.asStr
  let uid ← (v.get "uid").bind Json.asStr
  let controller ← readFlag v "controller"
  let blockOwnerDeletion ← readFlag v "blockOwnerDeletion"
  return ⟨apiVersion, kind, name, uid, controller, blockOwnerDeletion⟩

def refUid (ref : Json) : Option String := (ref.get "uid").bind Json.asStr

/-- The references with a new owner, unless one has its uid. -/
def addOwner (owner : OwnerReference) (refs : List Json) : List Json :=
  if refs.any fun r => refUid r = some owner.uid then refs else refs ++ [owner.toValue]

/-- Adds the owner to a child. -/
def setOwnerReference (child : Json) (owner : OwnerReference) : Except ShapeFault Json :=
  editArray ["metadata"] "ownerReferences" (addOwner owner) child

/-- A reference as the controller of an object. -/
def asController (ref : Json) : Option OwnerReference :=
  if ((ref.get "controller").bind Json.asBool).getD false then
    (OwnerReference.ofValue ref).filter fun o => !o.uid.isEmpty
  else none

def ownerReferences (v : Json) : List Json :=
  ((metaField "ownerReferences" v).bind Json.asArray).getD []

/-- The owner that controls the object. -/
def controllingOwner (child : Json) : Option OwnerReference :=
  (ownerReferences child).findSome? asController

/-- The owner with this uid controls it. -/
def isOwnedBy (child : Json) (ownerUid : String) : Bool :=
  (controllingOwner child).any fun o => o.uid = ownerUid

/-- The reference to a parent. -/
def ownerRefFor (parent : Json) (apiVersion kind : String) : Option OwnerReference :=
  match name parent, uid parent with
  | some n, some u => some ⟨apiVersion, kind, n, u, true, true⟩
  | _, _ => none

end Controllers
end Engenho
