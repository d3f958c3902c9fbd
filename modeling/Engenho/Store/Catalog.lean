import Engenho.Store.History
import Engenho.Store.Ssa

/-!
# The resource catalog

The state machine that every replica runs: the live map from keys to values and their version
metadata, and the retained history. A command mutates the map at one tentative revision
(`applyPut`, `applyPatch`, `applySsaCommand`, `applyDelete`, and `applyTxn` for several keys at
once); only a command that changed something commits the revision (`ResourceCatalog.applyUnder`).

The mutation functions take and return the live map, the one field of the catalog they touch.
-/

namespace Engenho

/-! ## Commands and outcomes -/

/-- What a server-side apply carries besides its body. -/
structure ApplyMeta where
  manager : String
  force : Bool
  time : String
deriving DecidableEq, Repr

/-- A condition of a transaction. -/
inductive TxnCompare where
  | modRevisionEq (key : ResourceKey) (revision : Nat)
  | notExists (key : ResourceKey)
deriving DecidableEq, Repr

def TxnCompare.key : TxnCompare → ResourceKey
  | .modRevisionEq key _ => key
  | .notExists key => key

/-- An operation of a transaction. -/
inductive TxnOp where
  | put (key : ResourceKey) (value : ResourceValue)
  | delete (key : ResourceKey) (deletionTimestamp : Option String)
deriving DecidableEq, Repr

def TxnOp.key : TxnOp → ResourceKey
  | .put key _ => key
  | .delete key _ => key

/-- A command of the log. -/
inductive ResourceCommand where
  | put (key : ResourceKey) (value : ResourceValue) (expected : Option Nat)
  | patch (key : ResourceKey) (patch : ResourceValue) (patchType : PatchType)
      (apply : Option ApplyMeta) (expected : Option Nat)
  | delete (key : ResourceKey) (expected : Option Nat) (deletionTimestamp : Option String)
  | txn (compares : List TxnCompare) (success failure : List TxnOp)
deriving DecidableEq, Repr

/-- Every key a command names. -/
def ResourceCommand.keys : ResourceCommand → List ResourceKey
  | .put key _ _ => [key]
  | .patch key _ _ _ _ => [key]
  | .delete key _ _ => [key]
  | .txn compares success failure =>
    compares.map TxnCompare.key ++ (success ++ failure).map TxnOp.key

/-- The rules a logged command is applied under. -/
inductive ApplySemantics where
  | v0
  | v1
deriving DecidableEq, Repr

/-- The place of a command in the log. -/
structure LogSlot where
  semantics : ApplySemantics
  term : Nat
  index : Nat
deriving DecidableEq, Repr

/-- What a command came to. -/
inductive ResourceOp where
  | created
  | replaced
  | patched
  | deleted
  | deletionPending
  | conflict
  | patchRejected
  | applyConflict
  | unchanged
  | noOp
deriving DecidableEq, Repr

/-- The result of a command, with the changes it committed. -/
structure ApplyOutcome where
  op : ResourceOp
  change : Option Change
  patchError : Option String
  extraChanges : List Change
deriving DecidableEq

namespace ApplyOutcome

/-- Nothing was committed. -/
def noChange (op : ResourceOp) : ApplyOutcome := ⟨op, none, none, []⟩

/-- The changes of a transaction were committed. -/
def committed (op : ResourceOp) (first : Change) (rest : List Change) : ApplyOutcome :=
  ⟨op, some first, none, rest⟩

/-- One change was committed. -/
def withChange (op : ResourceOp) (change : Change) : ApplyOutcome := committed op change []

/-- The patch could not be applied. -/
def patchRejected (error : String) : ApplyOutcome := ⟨.patchRejected, none, some error, []⟩

/-- Another manager owns what the apply sets. -/
def applyConflict (causes : String) : ApplyOutcome := ⟨.applyConflict, none, some causes, []⟩

/-- Every change of the command, in order. -/
def changes (o : ApplyOutcome) : List Change := o.change.toList ++ o.extraChanges
end ApplyOutcome

/-! ## Reading and stamping an object -/

def specOf (value : Json) : Option Json := value.get "spec"

/-- The field `key` of the object's spec. -/
def specField (key : String) (value : Json) : Option Json := (value.get "spec").bind (Json.get key)

/-- The field `name` of the object's metadata. -/
def metaField (name : String) (value : Json) : Option Json :=
  (value.get "metadata").bind (Json.get name)

/-- The field `name` of the object's status. -/
def statusField (name : String) (value : Json) : Option Json :=
  (value.get "status").bind (Json.get name)

/-- The pod has a condition that says it is ready. -/
def podIsReady (pod : Json) : Bool :=
  ((statusField "conditions" pod).bind Json.asArray).any fun conditions => conditions.any fun c =>
    (c.get "type").bind Json.asStr = some "Ready" && (c.get "status").bind Json.asStr = some "True"

/-- The object has a finalizer. -/
def hasFinalizers (value : Json) : Bool :=
  ((metaField "finalizers" value).bind Json.asArray).any fun a => !a.isEmpty

/-- When the object was deleted, if that is a text. -/
def deletionTimestampOf (value : Json) : Option String :=
  ((metaField "deletionTimestamp" value).bind Json.asStr).filter fun s => !s.isEmpty

/-- The object is Terminating and no finalizer holds it. -/
def finalizersReleased (post : Json) : Bool :=
  (deletionTimestampOf post).isSome && !hasFinalizers post

/-- Changes the metadata of an object, making it when it is absent. A value that is no object, or
whose metadata is none, stays as it is. -/
def updateMetadata (f : JsonMap → JsonMap) : Json → Json
  | .obj m =>
    match (m.lookup "metadata").getD (.obj []) with
    | .obj md => .obj (Assoc.put "metadata" (.obj (f md)) m)
    | _ => .obj m
  | value => value

/-- A uid that counts: neither null nor the empty string. -/
def uidSet (uid : Json) : Bool := !(uid.isNull || uid.asStr = some "")

/-- The uid of the live object, the client's, or a new one. -/
def stampUid (minted : String) (prior : Option Json) (md : JsonMap) : JsonMap :=
  match (prior.bind (metaField "uid")).filter uidSet with
  | some uid => Assoc.put "uid" uid md
  | none => if (md.lookup "uid").any uidSet then md else Assoc.put "uid" (.str minted) md

/-- The creation time of the live object, if it has one. -/
def stampCreation (prior : Option Json) (md : JsonMap) : JsonMap :=
  match prior.bind (metaField "creationTimestamp") with
  | some t => Assoc.put "creationTimestamp" t md
  | none => md

/-- Uid and creation time, which a write does not change. -/
def stampIdentity (env : Env) (value : Json) (key : ResourceKey) (createRevision : Nat)
    (prior : Option Json) : Json :=
  updateMetadata
    (fun md => stampCreation prior (stampUid (env.mintUid key.label createRevision) prior md)) value

def stampResourceVersion (value : Json) (rev : Nat) : Json :=
  updateMetadata (Assoc.put "resourceVersion" (.str (toString rev))) value

/-- Writes the revision and the generation. -/
def stampRevision (value : Json) (rev : Nat) (generation : Int) : Json :=
  updateMetadata (Assoc.put "generation" (.num (.int generation))) (stampResourceVersion value rev)

/-- Writes the time of the deletion. -/
def stampDeletionTimestamp (value : Json) (ts : String) : Json :=
  updateMetadata (Assoc.put "deletionTimestamp" (.str ts)) value

/-- The generation is the store's own count; here it does not overflow. -/
def generationOf (value : Json) : Int := ((metaField "generation" value).bind Json.asInt).getD 0

/-- The generation grows when the spec changes. -/
def computeGenerationOnPut (prior : Option Json) (next : Json) : Int :=
  match prior with
  | none => 1
  | some prior =>
    let priorGen := max (generationOf prior) 1
    if specOf prior = specOf next then priorGen else priorGen + 1

/-! ## Identical writes -/

/-- Metadata that a comparison leaves out. -/
def computedMetadata : List String := ["resourceVersion", "generation"]

def managedFieldsTime : String := "time"

/-- The objects agree, but for some metadata. -/
def objectsEqualExcept (prior candidate : Json) (ignored : List String)
    (fieldEq : String → Json → Json → Bool) : Bool :=
  match prior, candidate with
  | .obj before, .obj after =>
    let before := before.filter fun e => e.1 ∉ ignored
    before.length = (after.filter fun e => e.1 ∉ ignored).length &&
      before.all fun e => (after.lookup e.1).any fun a => fieldEq e.1 e.2 a
  | prior, candidate => prior = candidate

/-- The records agree, but for the manager's time. -/
def managedFieldsUnchanged (prior candidate : Json) (manager : Option String) : Bool :=
  match manager, prior, candidate with
  | some manager, .arr before, .arr after =>
    let callers := fun (e : Json) => decide ((e.get "manager").bind Json.asStr = some manager)
    before.length = after.length &&
      (before.zip after).all fun (b, a) =>
        if callers b && callers a then
          objectsEqualExcept b a [managedFieldsTime] fun _ b a => b = a
        else b = a
  | _, prior, candidate => prior = candidate

/-- The candidate says nothing new: equal up to the fields the store computes itself. -/
def unchanged (prior candidate : Json) (manager : Option String) : Bool :=
  objectsEqualExcept prior candidate [] fun field p c =>
    if field = "metadata" then
      objectsEqualExcept p c computedMetadata fun field p c =>
        if field = "managedFields" then managedFieldsUnchanged p c manager else p = c
    else p = c

/-- What a write does that changes nothing. -/
inductive OnIdentical where
  | commit
  | skip
deriving DecidableEq, Repr

namespace OnIdentical

/-- What the rules of an entry say to that. -/
def under : ApplySemantics → OnIdentical
  | .v0 => .commit
  | .v1 => .skip

/-- The write changes nothing and is left out. -/
def skips (on : OnIdentical) (prior : Option Json) (candidate : Json) (manager : Option String) :
    Bool :=
  match on with
  | .commit => false
  | .skip => prior.any fun prior =>
    unchanged prior candidate manager && !finalizersReleased candidate

end OnIdentical

/-! ## The mutations -/

/-- The live map. -/
abbrev Resources := OrdMap ResourceKey (ResourceValue × VersionMeta)

/-- The live object has the expected revision. -/
def checkPrecondition (expected : Option Nat) (live : Option VersionMeta) : Bool :=
  match expected with
  | none => true
  | some n => live.any fun m => m.modRevision = n

/-- The metadata of a write over an entry, or of a create. -/
def nextMeta (prior : Option VersionMeta) (rev : Nat) : VersionMeta :=
  match prior with
  | some m => m.bumpedAt rev
  | none => .createdAt rev

/-- A write that leaves a Terminating object without finalizers removes it. The tombstone's prior
is the object the write would have stored. -/
def finalizerReleaseRemoval (res : Resources) (key : ResourceKey) (post : ResourceValue)
    (prior : Option ResourceValue) (rev : Nat) : Option (Resources × ApplyOutcome) :=
  if prior.isNone || !finalizersReleased post then none
  else
    let removedMeta := ((res.get key).map Prod.snd).getD (.createdAt rev)
    some (res.erase key, .withChange .deleted ⟨rev, key, .delete, post, some post, removedMeta⟩)

section
variable (env : Env)

variable (res : Resources) (key : ResourceKey)

def applyPut (value : ResourceValue) (expected : Option Nat)
    (onIdentical : OnIdentical) (rev : Nat) : Resources × ApplyOutcome :=
  let prior := res.get key
  if !checkPrecondition expected (prior.map Prod.snd) then (res, .noChange .conflict)
  else
    let priorValue := prior.map Prod.fst
    let versionMeta := nextMeta (prior.map Prod.snd) rev
    let candidate := stampIdentity env value key versionMeta.createRevision priorValue
    if onIdentical.skips priorValue candidate none then (res, .noChange .unchanged)
    else
      let newValue := stampRevision candidate rev (computeGenerationOnPut priorValue value)
      match finalizerReleaseRemoval res key newValue priorValue rev with
      | some out => out
      | none =>
        (res.insert key (newValue, versionMeta),
          .withChange (if priorValue.isSome then .replaced else .created)
            ⟨rev, key, .put, newValue, priorValue, versionMeta⟩)

def applySsaCommand (body : ResourceValue) (am : ApplyMeta)
    (expected : Option Nat) (onIdentical : OnIdentical) (rev : Nat) : Resources × ApplyOutcome :=
  let prior := res.get key
  if !checkPrecondition expected (prior.map Prod.snd) then (res, .noChange .conflict)
  else
    let priorValue := prior.map Prod.fst
    match applySsa env (Gvk.ofKey key) priorValue body am.manager am.force am.time with
    | .error conflicts => (res, .applyConflict (env.render (toCauses conflicts)))
    | .ok out =>
      let versionMeta := nextMeta (prior.map Prod.snd) rev
      let candidate := stampIdentity env out.merged key versionMeta.createRevision priorValue
      if onIdentical.skips priorValue candidate (some am.manager) then (res, .noChange .unchanged)
      else
        let merged := stampRevision candidate rev (computeGenerationOnPut priorValue candidate)
        match if priorValue.isSome then finalizerReleaseRemoval res key merged priorValue rev
            else none with
        | some out => out
        | none =>
          (res.insert key (merged, versionMeta),
            .withChange (if priorValue.isSome then .patched else .created)
              ⟨rev, key, .put, merged, priorValue, versionMeta⟩)

/-- A patch of any type. -/
def applyPatch (patch : ResourceValue) (patchType : PatchType)
    (apply : Option ApplyMeta) (expected : Option Nat) (onIdentical : OnIdentical) (rev : Nat) :
    Resources × ApplyOutcome :=
  if patchType = .apply then
    match apply with
    | none => (res, .patchRejected "server-side apply requires a fieldManager")
    | some am => applySsaCommand env res key patch am expected onIdentical rev
  else
    match res.get key with
    | none => (res, .noChange (if expected.isSome then .conflict else .noOp))
    | some (priorValue, priorMeta) =>
      if !checkPrecondition expected (some priorMeta) then (res, .noChange .conflict)
      else
        match PatchBody.fromRaw env patchType patch with
        | .error e => (res, .patchRejected (e.text env))
        | .ok body =>
          match applyPatchBody env (Gvk.ofKey key) patchType priorValue body with
          | .error e => (res, .patchRejected (e.text env))
          | .ok merged =>
            if onIdentical.skips (some priorValue) merged none then (res, .noChange .unchanged)
            else
              let versionMeta := priorMeta.bumpedAt rev
              let merged := stampRevision merged rev
                (computeGenerationOnPut (some priorValue) merged)
              match finalizerReleaseRemoval res key merged (some priorValue) rev with
              | some out => out
              | none =>
                (res.insert key (merged, versionMeta),
                  .withChange .patched ⟨rev, key, .put, merged, some priorValue, versionMeta⟩)

end

/-- A delete; with finalizers it only marks the object. -/
def applyDelete (res : Resources) (key : ResourceKey) (expected : Option Nat)
    (deletionTimestamp : Option String) (rev : Nat) : Resources × ApplyOutcome :=
  if !checkPrecondition expected ((res.get key).map Prod.snd) then (res, .noChange .conflict)
  else
    match res.get key with
    | none => (res, .noChange .noOp)
    | some (live, liveMeta) =>
      if !hasFinalizers live then
        (res.erase key, .withChange .deleted ⟨rev, key, .delete, live, some live, liveMeta⟩)
      else if (deletionTimestampOf live).isSome then (res, .noChange .noOp)
      else
        match deletionTimestamp with
        | none => (res, .noChange .noOp)
        | some ts =>
          let versionMeta := liveMeta.bumpedAt rev
          let terminating := stampResourceVersion (stampDeletionTimestamp live ts) rev
          (res.insert key (terminating, versionMeta),
            .withChange .deletionPending ⟨rev, key, .put, terminating, some live, versionMeta⟩)

/-- A condition, against the live map. -/
def evalCompare (res : Resources) : TxnCompare → Bool
  | .modRevisionEq key revision => (res.get key).any fun e => e.2.modRevision = revision
  | .notExists key => (res.get key).isNone

section
variable (env : Env)

/-- One operation of a transaction. -/
def applyTxnOp (rev : Nat) (res : Resources) : TxnOp → Resources × ApplyOutcome
  | .put key value => applyPut env res key value none .commit rev
  | .delete key ts => applyDelete res key none ts rev

/-- The operations of a branch in order, all at one revision, with the changes they made. -/
def applyTxnOps (rev : Nat) (res : Resources) : List TxnOp → Resources × List Change
  | [] => (res, [])
  | op :: ops =>
    let (res', outcome) := applyTxnOp env rev res op
    let (res'', changes) := applyTxnOps rev res' ops
    (res'', outcome.change.toList ++ changes)

/-- A transaction: one revision for all its changes. -/
def applyTxn (res : Resources) (compares : List TxnCompare) (success failure : List TxnOp)
    (rev : Nat) : Resources × ApplyOutcome :=
  let branch := if compares.all (evalCompare res) then success else failure
  let (res', changes) := applyTxnOps env rev res branch
  match changes with
  | [] => (res', .noChange .noOp)
  | first :: rest => (res', .committed .replaced first rest)

end

/-! ## Sealed values -/

/-- Why a sealed value cannot be opened. Keys by their hexadecimal id. -/
inductive SealFault where
  | keyMissing (wanted : String)
  | keyUnusable
  | wrongKey (wanted have_ : String)
  | damaged (key : String)
  | unopened
deriving DecidableEq, Repr

def keyFile : String := "secrets-at-rest.key"

def SealFault.text : SealFault → String
  | .keyMissing wanted =>
    "the secrets key " ++ wanted ++ " is missing; restore " ++ keyFile ++ " from its backup"
  | .keyUnusable => "the secrets key file is unusable; restore " ++ keyFile ++ " from its backup"
  | .wrongKey wanted have_ =>
    "sealed under secrets key " ++ wanted ++ ", this node holds key " ++ have_ ++
      "; restore the matching " ++ keyFile
  | .damaged key =>
    "the sealed value failed authentication under key " ++ key ++
      ": damaged, or moved from another resource"
  | .unopened => "the sealed value was not opened by this store"

/-- An entry this replica cannot open: its sealed form and why. -/
structure Unreadable where
  sealed : ResourceValue × VersionMeta
  fault : SealFault
deriving DecidableEq

/-! ## The catalog -/

/-- The state of the store. -/
structure ResourceCatalog where
  resources : Resources
  lastAppliedTerm : Nat
  lastAppliedIndex : Nat
  history : WatchHistory
  unreadable : OrdMap ResourceKey Unreadable
deriving DecidableEq

namespace ResourceCatalog

/-- An empty catalog. A capacity of zero is read as one. -/
def withHistoryCapacity (capacity : Nat) : ResourceCatalog :=
  ⟨.empty, 0, 0, .new (max capacity 1) (by omega), .empty⟩

variable (c : ResourceCatalog)

/-- The newest revision. -/
def revision : Nat := c.history.head

/-- The revision below which history is gone. -/
def compactedRevision : Nat := c.history.floor

def get (c : ResourceCatalog) (key : ResourceKey) : Option ResourceValue :=
  (c.resources.get key).map Prod.fst

/-- The live object with its version metadata. -/
def getWithMeta (key : ResourceKey) : Option (ResourceValue × VersionMeta) :=
  c.resources.get key

/-- Why the entry cannot be read, if so. -/
def secretFault (key : ResourceKey) : Option SealFault :=
  (c.unreadable.get key).map Unreadable.fault

/-- The first key of the command that cannot be read, and why. -/
def unreadableTouchedBy (cmd : ResourceCommand) : Option (ResourceKey × SealFault) :=
  cmd.keys.findSome? fun key => (c.secretFault key).map fun fault => (key, fault)

section
variable (env : Env)

/-- The mutation of a command at the tentative revision `rev`. -/
def dispatch (res : Resources) (cmd : ResourceCommand) (onIdentical : OnIdentical) (rev : Nat) :
    Resources × ApplyOutcome :=
  match cmd with
  | .put key value expected => applyPut env res key value expected onIdentical rev
  | .patch key patch patchType apply expected =>
    applyPatch env res key patch patchType apply expected onIdentical rev
  | .delete key expected ts => applyDelete res key expected ts rev
  | .txn compares success failure => applyTxn env res compares success failure rev

/-- A command of the log, under the rules of its entry. -/
def applyUnder (c : ResourceCatalog) (cmd : ResourceCommand) (semantics : ApplySemantics)
    (term index : Nat) : ResourceCatalog × ApplyOutcome :=
  match c.unreadableTouchedBy cmd with
  | some (key, fault) =>
    ({ c with lastAppliedTerm := term, lastAppliedIndex := index },
      .patchRejected (key.label ++ ": " ++ fault.text))
  | none =>
    let rev := c.history.nextRevision
    let (resources, outcome) := dispatch env c.resources cmd (.under semantics) rev
    let history := match outcome.change with
      | some change => c.history.commit change outcome.extraChanges
      | none => c.history
    ({ c with resources, history, lastAppliedTerm := term, lastAppliedIndex := index }, outcome)

/-- Drops the history up to a revision. -/
def compact (c : ResourceCatalog) (target : Nat) : ResourceCatalog :=
  { c with history := c.history.compact target }

end
end ResourceCatalog
end Engenho
