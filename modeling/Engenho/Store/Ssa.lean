import Mathlib.Data.List.Destutter
import Engenho.Store.Patch

/-!
# Server-side apply

`applySsa` merges a manager's config into an object and records, in `metadata.managedFields`, which
manager owns which field.

* `FieldSet` is the ownership trie of one manager: its children are ordered by the text of their
  path element, the key they have in the stored document.
* `fieldsetOf` computes the fields a config applies; `readManagedFields` decodes the stored entries.
* A field another manager owns with another value is a conflict. Without one (or with `force`) the
  config is strategic-merged, and the fields the manager owned and no longer applies are removed
  (`removeAt`) unless another manager owns them too.
-/

namespace Engenho

/-- A step of a path. -/
inductive PathElement where
  | field (name : String)
  | key (keys : JsonMap)
  | value (v : Json)
  | index (i : Nat)
deriving DecidableEq

abbrev Path := List PathElement

/-- The fields one manager owns: whether it owns the node itself, and its children by the text of
their path element. -/
inductive FieldSet where
  | node (selfOwned : Bool) (children : List (String × PathElement × FieldSet))

namespace FieldSet

def new : FieldSet := .node false []

def selfOwned : FieldSet → Bool
  | .node own _ => own

def children : FieldSet → List (String × PathElement × FieldSet)
  | .node _ cs => cs

def isEmpty (s : FieldSet) : Bool := !s.selfOwned && s.children.isEmpty

/-- `s` with its own node owned. -/
def own (s : FieldSet) : FieldSet := .node true s.children
end FieldSet

section
variable (env : Env)
namespace PathElement

/-- The text of a path element, its key in the stored document. -/
def toFieldsV1Key : PathElement → String
  | .field name => "f:" ++ name
  | .key keys => "k:" ++ env.render (.obj keys)
  | .value v => "v:" ++ env.render v
  | .index i => "i:" ++ toString i

/-- The step that a key of `fieldsV1` names. -/
def fromFieldsV1Key (key : String) : Option PathElement :=
  match key.toList with
  | 'f' :: ':' :: rest => some (.field (String.ofList rest))
  | 'k' :: ':' :: rest => ((env.parse (String.ofList rest)).bind Json.asObject).map .key
  | 'v' :: ':' :: rest => (env.parse (String.ofList rest)).map .value
  | 'i' :: ':' :: rest => (parseUsize (String.ofList rest)).map .index
  | _ => none

end PathElement

namespace FieldSet

variable (s : FieldSet) (el : PathElement)

/-- The child under `el`. The map compares keys by their text. -/
def child? : Option FieldSet :=
  (s.children.lookup (el.toFieldsV1Key env)).map Prod.snd

/-- The child under `el`, or a new one. -/
def childOr : FieldSet := (s.child? env el).getD new

/-- `s` with `c` under `el`. An entry that is there keeps its path element. -/
def setChild (c : FieldSet) : FieldSet :=
  let key := el.toFieldsV1Key env
  .node s.selfOwned (Assoc.put key (((s.children.lookup key).map Prod.fst).getD el, c) s.children)

def removeChild : FieldSet :=
  .node s.selfOwned (Assoc.drop (el.toFieldsV1Key env) s.children)

mutual
/-- Every owned path, a node before its children. -/
def ownedPaths : FieldSet → List Path
  | .node own cs => (if own then [[]] else []) ++ childPaths cs
def childPaths : List (String × PathElement × FieldSet) → List Path
  | [] => []
  | (_, el, c) :: rest => (ownedPaths c).map (el :: ·) ++ childPaths rest
end

/-- The path is in the set. -/
def owns (s : FieldSet) : Path → Bool
  | [] => s.selfOwned
  | el :: els =>
    match s.child? env el with
    | none => false
    | some c => c.owns els

mutual
/-- The set as `fieldsV1`. -/
def toValue : FieldSet → Json
  | .node own cs => .obj (childValues (if own then [(".", .obj [])] else []) cs)
def childValues (out : JsonMap) : List (String × PathElement × FieldSet) → JsonMap
  | [] => out
  | (_, el, c) :: rest => childValues (Assoc.put (el.toFieldsV1Key env) (toValue c) out) rest
end

mutual
/-- The set that a `fieldsV1` stands for. -/
def fromValue : Json → FieldSet
  | .obj fields => fromFields new fields
  | _ => new
def fromFields (s : FieldSet) : List (String × Json) → FieldSet
  | [] => s
  | (k, v) :: rest =>
    if k = "." then fromFields s.own rest
    else
      match PathElement.fromFieldsV1Key env k with
      | some el => fromFields (s.setChild env el (fromValue v)) rest
      | none => fromFields s rest
end
end FieldSet

/-! ## The fields a config applies -/

/-- Metadata no apply owns. -/
def apiserverOwnedMetadata : List String :=
  ["managedFields", "resourceVersion", "uid", "generation", "creationTimestamp",
    "deletionTimestamp"]

/-- The merge key of an element as far as it has one. -/
def keyTuple (keys : List String) (m : JsonMap) : JsonMap :=
  keys.foldl (fun t k => match m.lookup k with
    | some v => Assoc.put k v t
    | none => t) []

variable (gvk : Gvk)

mutual
/-- Adds the paths that a config sets. -/
def buildFieldset (path : List String) (out : FieldSet) : Json → FieldSet
  | .obj [] => out.own
  | .obj (f :: fs) => buildFields path out (f :: fs)
  | .arr xs =>
    match env.mergeStrategy gvk path with
    | .replace => out.own
    | .set => xs.foldl (fun out el =>
        out.setChild env (.value el) (out.childOr env (.value el)).own) out
    | .mergeByKey keys => buildListFieldset keys path out xs
    | .mergeByKeyRetainKeys keys => buildListFieldset keys path out xs
  | _ => out.own
def buildFields (path : List String) (out : FieldSet) : List (String × Json) → FieldSet
  | [] => out
  | (k, v) :: rest =>
    let child := out.childOr env (.field k)
    if path = [] ∧ k = "metadata" then
      let child := match v with
        | .obj fs => buildMetadataFieldset (path ++ [k]) child fs
        | _ => child
      buildFields path
        (if child.isEmpty then out.removeChild env (.field k) else out.setChild env
          (.field k) child)
        rest
    else
      buildFields path (out.setChild env (.field k) (buildFieldset (path ++ [k]) child v)) rest
def buildMetadataFieldset (path : List String) (out : FieldSet) : List (String × Json) → FieldSet
  | [] => out
  | (k, v) :: rest =>
    if k ∈ apiserverOwnedMetadata then buildMetadataFieldset path out rest
    else
      buildMetadataFieldset path
        (out.setChild env (.field k) (buildFieldset (path ++ [k]) (out.childOr env (.field k)) v))
        rest
def buildListFieldset (keys path : List String) (out : FieldSet) : List Json → FieldSet
  | [] => out
  | .obj m :: rest =>
    let el := PathElement.key (keyTuple keys m)
    buildListFieldset keys path
      (out.setChild env el (buildFieldset path (out.childOr env el) (.obj m))) rest
  | v :: rest =>
    buildListFieldset keys path
      (out.setChild env (.value v) (out.childOr env (.value v)).own) rest
end

variable (current config node : Json) (manager : String) (applied : FieldSet)
  (entries : List DecodedEntry)

/-- The paths that a config sets. -/
def fieldsetOf : FieldSet := buildFieldset env gvk [] FieldSet.new config

/-! ## Navigation -/

/-- An element of an associative list carries all of `keys`. -/
def matchesKeys (keys : JsonMap) (e : Json) : Bool := keys.all fun kv => e.get kv.1 = some kv.2

/-- The value one step down. -/
def stepElement : PathElement → Option Json
  | .field name => node.get name
  | .index i => node.asArray.bind fun xs => xs[i]?
  | .value v => node.asArray.bind fun xs => xs.find? fun e => e = v
  | .key keys => node.asArray.bind fun xs => xs.find? (matchesKeys keys)

/-- The value at a path. -/
def valueAt (root : Json) : Path → Option Json
  | [] => some root
  | el :: els => (stepElement root el).bind fun v => valueAt v els

/-- The list position a step names. -/
def listElementIndex : PathElement → Option Nat
  | .index i => node.asArray.bind fun xs => if i < xs.length then some i else none
  | .value v => node.asArray.bind fun xs => xs.findIdx? fun e => e = v
  | .key keys => node.asArray.bind fun xs => xs.findIdx? (matchesKeys keys)
  | .field _ => none

/-- An object or array with nothing in it. -/
def isEmptyContainer : Json → Bool
  | .obj m => m.isEmpty
  | .arr xs => xs.isEmpty
  | _ => false

/-- The removal at the last step of a path. -/
def removeLeaf : PathElement → Json → Json
  | .field name, .obj m => .obj (Assoc.drop name m)
  | .index i, .arr xs => .arr (xs.eraseIdx i)
  | .value v, .arr xs => .arr (xs.filter fun e => e ≠ v)
  | .key keys, .arr xs => .arr (xs.filter fun e => !matchesKeys keys e)
  | _, node => node

/-- Removes the value at a path, and says whether the node is an empty container afterwards. An
emptied list element is dropped from its list; an emptied field stays. -/
def removeRec : Path → Json → Json × Bool
  | [], node => (node, false)
  | head :: [], node =>
    let node := removeLeaf head node
    (node, isEmptyContainer node)
  | .field name :: tail, node =>
    match node with
    | .obj m =>
      match m.lookup name with
      | none => (node, false)
      | some child =>
        let m := Assoc.put name (removeRec tail child).1 m
        (.obj m, m.isEmpty)
    | node => (node, false)
  | head :: tail, node =>
    match node, listElementIndex node head with
    | .arr xs, some idx =>
      let (child, emptied) := removeRec tail ((xs[idx]?).getD .null)
      let xs := if emptied then xs.eraseIdx idx else xs.set idx child
      (.arr xs, xs.isEmpty)
    | node, _ => (node, false)

/-- The object without what is at the path. -/
def removeAt (root : Json) (path : Path) : Json := (removeRec path root).1

/-! ## Conflicts -/

/-- Another manager that owns a path, and the path. -/
structure Conflict where
  manager : String
  field : String
deriving DecidableEq, Repr

def renderElement : PathElement → String
  | .field name => "." ++ name
  | .index i => "[" ++ toString i ++ "]"
  | .value v => "[" ++ env.render v ++ "]"
  | .key keys => "[" ++ ",".intercalate (keys.map fun kv => kv.1 ++ "=" ++ env.render kv.2) ++ "]"

def renderFieldPath (path : Path) : String :=
  if path.isEmpty then "." else path.foldl (fun out el => out ++ renderElement env el) ""

/-- The causes of a refused apply, one per conflict. -/
def toCauses (conflicts : List Conflict) : Json :=
  .arr (conflicts.map fun c => .obj [
    ("field", .str c.field),
    ("message", .str ("conflict with \"" ++ c.manager ++ "\"")),
    ("type", .str "FieldManagerConflict")])

/-! ## Managed fields -/

/-- The operation of an entry. -/
inductive ManagedOp where
  | apply
  | update
deriving DecidableEq, Repr

/-- An entry of `managedFields`, read. -/
structure DecodedEntry where
  manager : String
  operation : ManagedOp
  fields : FieldSet
  raw : Json

/-- Reads an entry that names its manager. -/
def decodeEntry (e : Json) : Option DecodedEntry := do
  let manager ← (e.get "manager").bind Json.asStr
  let operation := if (e.get "operation").bind Json.asStr = some "Update" then .update else .apply
  let fields := ((e.get "fieldsV1").map (FieldSet.fromValue env)).getD FieldSet.new
  return ⟨manager, operation, fields, e⟩

/-- The entries of an object. -/
def readManagedFields : List DecodedEntry :=
  match ((current.get "metadata").bind (Json.get "managedFields")).bind Json.asArray with
  | none => []
  | some entries => entries.filterMap (decodeEntry env)

/-- The entry of an apply. -/
def makeEntry (fieldset : FieldSet) (time : String) : Json :=
  .obj [
    ("apiVersion",
      .str (if gvk.group.isEmpty then gvk.version else gvk.group ++ "/" ++ gvk.version)),
    ("fieldsType", .str "FieldsV1"),
    ("fieldsV1", fieldset.toValue env),
    ("manager", .str manager),
    ("operation", .str "Apply"),
    ("time", .str time)]

/-- Gives up one path, and every child that is left empty on the way. -/
def removeOwnedPath (s : FieldSet) : Path → FieldSet
  | [] => .node false s.children
  | el :: els =>
    match s.child? env el with
    | none => s
    | some c =>
      let c := removeOwnedPath c els
      if c.isEmpty then s.removeChild env el else s.setChild env el c

def subtractSet (s remove : FieldSet) : FieldSet :=
  remove.ownedPaths.foldl (fun s path => removeOwnedPath env s path) s

/-- What an apply leaves of an entry. -/
def updateEntry (force : Bool) (time : String) (e : DecodedEntry) : Option Json :=
  if e.manager = manager ∧ e.operation = .apply then some (makeEntry env gvk manager applied time)
  else if force ∧ e.operation = .apply then
    let remaining := subtractSet env e.fields applied
    if remaining.isEmpty then none
    else
      match e.raw with
      | .obj m => some (.obj (Assoc.put "fieldsV1" (remaining.toValue env) m))
      | raw => some raw
  else some e.raw

/-- The entries after an apply. -/
def updateOwnership (manager : String) (applied : FieldSet) (force : Bool) (time : String) :
    List Json :=
  entries.filterMap (updateEntry env gvk manager applied force time) ++
    if entries.any fun e => e.manager = manager && e.operation = .apply then []
    else [makeEntry env gvk manager applied time]

/-- Writes `managedFields`, making `metadata` when it is absent. -/
def setManagedFields (object managed : Json) : Json :=
  match object with
  | .obj m =>
    match (m.lookup "metadata").getD (.obj []) with
    | .obj md => .obj (Assoc.put "metadata" (.obj (Assoc.put "managedFields" managed md)) m)
    | _ => object
  | object => object

/-! ## The interpreter -/

/-- The manager `e` stands against an apply by `manager`. -/
def isOtherApply (e : DecodedEntry) : Bool :=
  e.manager ≠ manager && e.operation = .apply

/-- The conflicts of applying `config`, in the order of the config's fields. -/
def ssaConflicts : List Conflict :=
  (fieldsetOf env gvk config).ownedPaths.flatMap fun path =>
    entries.filterMap fun e =>
      if isOtherApply manager e && e.fields.owns env path
          && decide (valueAt config path ≠ valueAt current path) then
        some ⟨e.manager, renderFieldPath env path⟩
      else none

/-- The paths `manager` owned before and gives up with this apply, in the order of its entry. -/
def droppedPaths (manager : String) (entries : List DecodedEntry) : List Path :=
  let prior := ((entries.find? fun e => e.manager = manager && e.operation = .apply).map
    DecodedEntry.fields).getD FieldSet.new
  prior.ownedPaths.filter fun path =>
    !applied.owns env path && !entries.any fun e => isOtherApply manager e && e.fields.owns env path

/-- What an apply came to. -/
inductive SsaOutcome where
  | created (merged managedFields : Json)
  | updated (merged managedFields : Json)

def SsaOutcome.merged : SsaOutcome → Json
  | .created merged _ => merged
  | .updated merged _ => merged

def SsaOutcome.managedFields : SsaOutcome → Json
  | .created _ managedFields => managedFields
  | .updated _ managedFields => managedFields

/-- The order of a refused apply's conflicts. -/
def conflictLe (a b : Conflict) : Prop :=
  a.field < b.field ∨ (a.field = b.field ∧ a.manager ≤ b.manager)

instance : DecidableRel conflictLe := fun a b =>
  inferInstanceAs (Decidable (a.field < b.field ∨ (a.field = b.field ∧ a.manager ≤ b.manager)))

/-- A server-side apply to what is there. -/
def applySsa (current : Option Json) (config : Json) (manager : String) (force : Bool)
    (time : String) : Except (List Conflict) SsaOutcome :=
  let applied := fieldsetOf env gvk config
  match current with
  | none =>
    let managed := .arr [makeEntry env gvk manager applied time]
    .ok (.created (setManagedFields config managed) managed)
  | some current =>
    let entries := readManagedFields env current
    let conflicts := ssaConflicts env gvk current config manager entries
    if !conflicts.isEmpty && !force then
      .error ((conflicts.insertionSort conflictLe).destutter (· ≠ ·))
    else
      -- a failed merge leaves the object as it is
      let merged := (strategicMerge env gvk [] current config).toOption.getD current
      let merged := (droppedPaths env applied manager entries).foldl removeAt merged
      let managed := .arr (updateOwnership env gvk entries manager applied force time)
      .ok (.updated (setManagedFields merged managed) managed)

end
end Engenho
