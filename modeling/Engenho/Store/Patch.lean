import Engenho.Lib.Machine
import Engenho.Store.Resource

/-!
# The patch engine

The three patch algorithms the store runs on a stored object:

* `mergeRfc7396`: a JSON merge patch;
* `applyJsonPatch`: a list of RFC 6902 operations on JSON pointers, all or nothing;
* `strategicMerge`: an object merge that asks the schema, at every list field, how to merge it.

`Env` holds what the engine uses from outside the repository: the schema lookup, the JSON text
format, the text of a decoding error, and the uid hash. Recursion is on the patch.
-/

namespace Engenho

/-- Group, version and kind. -/
structure Gvk where
  group : String
  version : String
  kind : String
deriving DecidableEq, Repr

def Gvk.ofKey (k : ResourceKey) : Gvk := ⟨k.group, k.version, k.kind⟩

/-- How a list is merged. -/
inductive ListMergeStrategy where
  | replace
  | mergeByKey (keys : List String)
  | mergeByKeyRetainKeys (keys : List String)
  | set
deriving DecidableEq, Repr

/-- What `$patch` asks for. -/
inductive PatchDirective where
  | replace
  | delete
  | merge
deriving DecidableEq, Repr

/-- The algorithm of a patch request. -/
inductive PatchType where
  | merge
  | strategic
  | json
  | apply
deriving DecidableEq, Repr

/-- What the store takes from outside its own code. -/
structure Env where
  /-- The schema lookup of a list field: kind of the object, path of the field. -/
  mergeStrategy : Gvk → List String → ListMergeStrategy
  /-- The uid of a key's label and create revision. -/
  mintUid : String → Nat → String
  /-- The text of a JSON value. -/
  render : Json → String
  /-- A JSON text read back. -/
  parse : String → Option Json
  /-- A string as a quoted and escaped literal. -/
  debugStr : String → String
  /-- The decoder's complaint about a body that is no list of operations. -/
  opArrayFault : Json → String

/-- The environment of the concrete runs: no schema is known, so every list is atomic, and a uid
shows what it was minted from. -/
def atomicEnv : Env where
  mergeStrategy _ _ := .replace
  mintUid label rev := label ++ "@" ++ toString rev
  render _ := ""
  parse _ := none
  debugStr s := s
  opArrayFault _ := ""

def podGvk : Gvk := ⟨"", "v1", "Pod"⟩

/-- Why a patch fails. -/
inductive PatchError where
  | rfcMerge (what : String)
  | jsonPointer (path : String)
  | testFailed (path : String)
  | missingMergeKey (path key : String)
  | badDirective (raw : String)
  | unsupported (what : String)
deriving DecidableEq, Repr

def PatchError.text (env : Env) : PatchError → String
  | .rfcMerge what => "merge patch failed: " ++ what
  | .jsonPointer path => "json patch: bad pointer " ++ env.debugStr path
  | .testFailed path => "json patch: test failed at " ++ env.debugStr path
  | .missingMergeKey path key =>
    "strategic merge: list at " ++ env.debugStr path ++ " is missing merge key " ++ env.debugStr key
  | .badDirective raw => "strategic merge: bad $patch directive " ++ env.debugStr raw
  | .unsupported what => "unsupported patch: " ++ what

/-! ## Merge patches -/

mutual
/-- A JSON merge patch: null removes. -/
def mergeRfc7396 (target : Json) : Json → Json
  | .obj fields => .obj (mergeRfc7396Fields (target.asObject.getD []) fields)
  | patch => patch
def mergeRfc7396Fields (target : JsonMap) : List (String × Json) → JsonMap
  | [] => target
  | (k, v) :: rest =>
    mergeRfc7396Fields
      (if v.isNull then Assoc.drop k target
       else Assoc.put k (mergeRfc7396 ((target.lookup k).getD .null) v) target) rest
end

/-! ## JSON pointers -/

/-- `a`, `b` next to each other become `r`. -/
def replacePair (a b r : Char) : List Char → List Char
  | x :: y :: rest =>
    if x = a ∧ y = b then r :: replacePair a b r rest else x :: replacePair a b r (y :: rest)
  | l => l

variable (bad : PatchError) (doc : Json) (s last path : String) (value : Json)

/-- The tokens of a pointer. What stands before the first slash is skipped, whatever it is. -/
def pointerTokens : List String :=
  if path.isEmpty then []
  else ((path.toList.splitOn '/').drop 1).map fun t =>
    String.ofList (replacePair '~' '0' '~' (replacePair '~' '1' '/' t))

/-- A decimal 64-bit index, with an optional plus sign. -/
def parseUsize : Option Nat := Machine.readUnsigned 64 s.toList

theorem parseUsize_lt {s : String} {n : Nat} (h : parseUsize s = some n) : n < 2 ^ 64 := by
  simpa using (Option.filter_eq_some_iff.mp h).2

theorem parseUsize_toString (n : Nat) :
    parseUsize (toString n) = if n < 2 ^ 64 then some n else none := by
  rw [parseUsize, Machine.readUnsigned, Machine.readNat_toString]
  simp [Option.filter]

/-- One step of a pointer. -/
def pointerStep (t : String) : Json → Option Json
  | .obj m => m.lookup t
  | .arr xs => (parseUsize t).bind fun i => xs[i]?
  | _ => none

def getTokens : List String → Json → Option Json
  | [], v => some v
  | t :: ts, v => (pointerStep t v).bind (getTokens ts)

def pointerGet : Option Json := getTokens (pointerTokens path) doc

/-- Replaces the value at `tokens` by what `f` makes of it, and returns what `f` returns beside. -/
def modifyAt {α : Type} (bad : PatchError) (f : Json → Except PatchError (Json × α)) :
    List String → Json → Except PatchError (Json × α)
  | [], v => f v
  | t :: ts, .obj m =>
    match m.lookup t with
    | none => .error bad
    | some v => do
      let (v', a) ← modifyAt bad f ts v
      return (.obj (Assoc.put t v' m), a)
  | t :: ts, .arr xs =>
    match parseUsize t with
    | none => .error bad
    | some i =>
      match xs[i]? with
      | none => .error bad
      | some v => do
        let (v', a) ← modifyAt bad f ts v
        return (.arr (xs.set i v'), a)
  | _ :: _, _ => .error bad

/-- `add` at the last token, inside its parent. -/
def addLast : Json → Except PatchError (Json × Unit)
  | .obj m => .ok (.obj (Assoc.put last value m), ())
  | .arr xs =>
    if last = "-" then .ok (.arr (xs ++ [value]), ())
    else
      match parseUsize last with
      | none => .error bad
      | some i =>
        if xs.length < i then .error bad else .ok (.arr (xs.take i ++ value :: xs.drop i), ())
  | _ => .error bad

/-- `replace` at the last token, inside its parent. An absent object field is created. -/
def replaceLast : Json → Except PatchError (Json × Unit)
  | .obj m => .ok (.obj (Assoc.put last value m), ())
  | .arr xs =>
    match parseUsize last with
    | none => .error bad
    | some i => if i < xs.length then .ok (.arr (xs.set i value), ()) else .error bad
  | _ => .error bad

/-- `remove` at the last token, inside its parent. -/
def removeLast : Json → Except PatchError (Json × Json)
  | .obj m =>
    match m.lookup last with
    | none => .error bad
    | some v => .ok (.obj (Assoc.drop last m), v)
  | .arr xs =>
    match parseUsize last with
    | none => .error bad
    | some i =>
      match xs[i]? with
      | none => .error bad
      | some v => .ok (.arr (xs.eraseIdx i), v)
  | _ => .error bad

/-- The `add` of a JSON patch. -/
def pointerAdd : Except PatchError Json :=
  let tokens := pointerTokens path
  match tokens.getLast? with
  | none => .ok value
  | some last =>
    (modifyAt (.jsonPointer path) (addLast (.jsonPointer path) last value) tokens.dropLast doc).map
      Prod.fst

/-- The `replace` of a JSON patch. -/
def pointerReplace : Except PatchError Json :=
  let tokens := pointerTokens path
  match tokens.getLast? with
  | none => if value.isObject || value.isArray then .ok value else .error (.jsonPointer path)
  | some last =>
    (modifyAt (.jsonPointer path) (replaceLast (.jsonPointer path) last value) tokens.dropLast
      doc).map Prod.fst

/-- The `remove` of a JSON patch. -/
def pointerRemove : Except PatchError (Json × Json) :=
  let tokens := pointerTokens path
  match tokens.getLast? with
  | none => .ok (.null, doc)
  | some last =>
    modifyAt (.jsonPointer path) (removeLast (.jsonPointer path) last) tokens.dropLast doc

/-! ## JSON patches -/

/-- An operation of a JSON patch. -/
inductive JsonPatchOp where
  | add (path : String) (value : Json)
  | remove (path : String)
  | replace (path : String) (value : Json)
  | copy (source path : String)
  | move (source path : String)
  | test (path : String) (value : Json)
deriving DecidableEq, Repr

/-- The decoder of one operation: an object with the tag `op`, or the tag and the fields in
order as an array. -/
def JsonPatchOp.decode : Json → Option JsonPatchOp
  | .obj m => do
    let tag ← (m.lookup "op").bind Json.asStr
    let str := fun field => (m.lookup field).bind Json.asStr
    match tag with
    | "add" => return .add (← str "path") (← m.lookup "value")
    | "remove" => return .remove (← str "path")
    | "replace" => return .replace (← str "path") (← m.lookup "value")
    | "copy" => return .copy (← str "from") (← str "path")
    | "move" => return .move (← str "from") (← str "path")
    | "test" => return .test (← str "path") (← m.lookup "value")
    | _ => none
  | .arr [.str "add", .str path, value] => some (.add path value)
  | .arr [.str "remove", .str path] => some (.remove path)
  | .arr [.str "replace", .str path, value] => some (.replace path value)
  | .arr [.str "copy", .str source, .str path] => some (.copy source path)
  | .arr [.str "move", .str source, .str path] => some (.move source path)
  | .arr [.str "test", .str path, value] => some (.test path value)
  | _ => none

/-- One operation of a JSON patch. -/
def applyOneOp : JsonPatchOp → Except PatchError Json
  | .add path value => pointerAdd doc path value
  | .remove path => (pointerRemove doc path).map Prod.fst
  | .replace path value => pointerReplace doc path value
  | .copy source path =>
    match pointerGet doc source with
    | none => .error (.jsonPointer source)
    | some v => pointerAdd doc path v
  | .move source path => do
    let (doc, v) ← pointerRemove doc source
    pointerAdd doc path v
  | .test path value =>
    match pointerGet doc path with
    | none => .error (.testFailed path)
    | some actual => if actual = value then .ok doc else .error (.testFailed path)

/-- The operations in order. -/
def applyJsonPatch (current : Json) : List JsonPatchOp → Except PatchError Json
  | [] => .ok current
  | op :: ops => do
    let doc ← applyOneOp current op
    applyJsonPatch doc ops

/-! ## Strategic merge patches -/

def patchSentinel : String := "$patch"

def retainKeysSentinel : String := "$retainKeys"

def PatchDirective.fromValue : Json → Option PatchDirective
  | .str "replace" => some .replace
  | .str "delete" => some .delete
  | .str "merge" => some .merge
  | _ => none

/-- The elements of `existing`, then those of `patch` that are not there yet. -/
def setUnion (existing : List Json) : List Json → List Json
  | [] => existing
  | p :: ps => setUnion (if p ∈ existing then existing else existing ++ [p]) ps

/-- The merge key of a list element: its values of all of `keys`. -/
def keyOf (keys : List String) (el : Json) : Option (List Json) :=
  el.asObject.bind fun m => keys.mapM fun k => m.lookup k

/-- What of `current` a patch object merges into: with a `$retainKeys` list, the listed fields. -/
def retained (current : Json) (patch : JsonMap) : JsonMap :=
  let out := current.asObject.getD []
  match (patch.lookup retainKeysSentinel).bind Json.asArray with
  | none => out
  | some keys => out.filter fun e => e.1 ∈ keys.filterMap Json.asStr

def dotted (path : List String) : String := ".".intercalate path

section
variable (env : Env) (gvk : Gvk)

mutual
/-- A strategic merge patch. -/
def strategicMerge (path : List String) (current : Json) : Json → Except PatchError Json
  | .obj fields =>
    match fields.lookup patchSentinel with
    | none => (strategicFields path (retained current fields) fields).map .obj
    | some dir =>
      match PatchDirective.fromValue dir with
      | some .replace => .ok (.obj (Assoc.drop patchSentinel fields))
      | some _ => (strategicFields path (retained current fields) fields).map .obj
      | none => .error (.badDirective (env.render dir))
  | patch => .ok patch
/-- The loop of `strategicMerge` over the fields of a patch object. -/
def strategicFields (path : List String) (out : JsonMap) :
    List (String × Json) → Except PatchError JsonMap
  | [] => .ok out
  | (k, pv) :: rest =>
    if k = patchSentinel ∨ k = retainKeysSentinel then strategicFields path out rest
    else
      match pv with
      | .null => strategicFields path (Assoc.drop k out) rest
      | .arr ps => do
        let existing := ((out.lookup k).bind Json.asArray).getD []
        let merged ← match env.mergeStrategy gvk (path ++ [k]) with
          | .replace => .ok ps
          | .set => .ok (setUnion existing ps)
          | .mergeByKey keys => mergeListByKey keys (path ++ [k]) existing ps
          | .mergeByKeyRetainKeys keys => mergeListByKey keys (path ++ [k]) existing ps
        strategicFields path (Assoc.put k (.arr merged) out) rest
      | .obj fs => do
        let merged ← strategicMerge (path ++ [k]) ((out.lookup k).getD (.obj [])) (.obj fs)
        strategicFields path (Assoc.put k merged out) rest
      | pv => strategicFields path (Assoc.put k pv out) rest
/-- The merge of two lists of objects by their merge keys. -/
def mergeListByKey (keys path : List String) (out : List Json) :
    List Json → Except PatchError (List Json)
  | [] => .ok out
  | pel :: rest =>
    match keyOf keys pel with
    | none =>
      match pel.asObject with
      | some m =>
        .error (.missingMergeKey (dotted path)
          ((keys.find? fun k => (m.lookup k).isNone).getD ""))
      | none => mergeListByKey keys path (if pel ∈ out then out else out ++ [pel]) rest
    | some pkey =>
      let directive := (pel.get patchSentinel).bind PatchDirective.fromValue
      match out.findIdx? (fun e => keyOf keys e = some pkey) with
      | none =>
        if directive = some .delete then mergeListByKey keys path out rest
        else
          mergeListByKey keys path
            (out ++ [.obj (Assoc.drop patchSentinel (pel.asObject.getD []))]) rest
      | some idx =>
        if directive = some .delete then mergeListByKey keys path (out.eraseIdx idx) rest
        else do
          let merged ← strategicMerge path ((out[idx]?).getD .null) pel
          mergeListByKey keys path (out.set idx merged) rest
end

/-! ## Dispatch -/

/-- A patch that was read by its type. -/
inductive PatchBody where
  | merge (patch : Json)
  | strategic (patch : Json)
  | json (ops : List JsonPatchOp)
  | apply (body : Json)
deriving DecidableEq

/-- Reads the body of a patch. -/
def PatchBody.fromRaw (type : PatchType) (raw : Json) : Except PatchError PatchBody :=
  match type with
  | .merge => .ok (.merge raw)
  | .strategic => .ok (.strategic raw)
  | .apply => .ok (.apply raw)
  | .json =>
    match raw.asArray.bind fun ops => ops.mapM JsonPatchOp.decode with
    | some ops => .ok (.json ops)
    | none => .error (.badDirective ("invalid RFC6902 op array: " ++ env.opArrayFault raw))

def PatchType.debug : PatchType → String
  | .merge => "Merge"
  | .strategic => "Strategic"
  | .json => "Json"
  | .apply => "Apply"

/-- Applies a patch of its type. -/
def applyPatchBody (type : PatchType) (current : Json) (body : PatchBody) :
    Except PatchError Json :=
  match type, body with
  | .merge, .merge p => .ok (mergeRfc7396 current p)
  | .json, .json ops => applyJsonPatch current ops
  | .strategic, .strategic p => strategicMerge env gvk [] current p
  | .apply, _ => .error (.unsupported "server-side apply")
  | type, _ => .error (.unsupported ("patch type " ++ type.debug ++ " with mismatched body"))

end
end Engenho
