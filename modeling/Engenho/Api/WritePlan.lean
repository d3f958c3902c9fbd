import Engenho.Api.Birth
import Engenho.Api.Evict
import Engenho.Api.WatchServe

/-!
# The write pipeline of a main object

Every create, replace, patch and apply of an object goes through `plan`: from what the store holds
it decides create or update, computes the candidate, normalizes it, fills defaults, has it admitted,
and then puts back what the server owns (`stampServerOwned`). A plan is proposed as one
compare-and-swap (`WritePlan.command`).

The stages that only refuse, and the admission webhooks, are outside this model: `WriteRules` holds
what they answer. They may answer differently at every attempt.

`plan_write` is the inversion lemma of the pipeline.
-/

namespace Engenho
open Except

/-- The handler of a kind, as its writes read it. -/
structure WriteHandler extends StoreBackedHandler where
  plural : String
  namespaced : Bool
  /-- The kind serves `/status`. -/
  hasStatus : Bool
  crdSchema : Option Json

/-- The patch types that are no apply. -/
inductive MergeAlgorithm where
  | merge
  | strategic
  | json
deriving DecidableEq, Repr

def MergeAlgorithm.patchType : MergeAlgorithm → PatchType
  | .merge => .merge
  | .strategic => .strategic
  | .json => .json

/-- The options of a server-side apply. -/
structure ApplyOptions where
  manager : String
  force : Bool
deriving DecidableEq, Repr

/-- A write of a main object, as the client asked for it. -/
inductive WriteRequest where
  | create (body : Json)
  | replace (body : Json)
  | patch (body : Json) (algorithm : MergeAlgorithm)
  | apply (config : Json) (opts : ApplyOptions)
deriving DecidableEq

/-- What a verb needs the store to hold. -/
inductive Existence where
  | absent
  | present
  | either
deriving DecidableEq, Repr

/-- The precondition a body carries: its resource version. -/
def bodyPrecondition (env : Env) (body : Json) : Except ApiError (Option Nat) :=
  match metaField "resourceVersion" body with
  | none => .ok none
  | some .null => .ok none
  | some (.str s) =>
    if s.isEmpty then .ok none
    else
      match parseUsize s with
      | some n => .ok (some n)
      | none => .error (.badRequest ("invalid metadata.resourceVersion: " ++ env.debugStr s ++
          " (must be a non-negative integer)"))
  | some other =>
    .error (.badRequest ("metadata.resourceVersion must be a string, got " ++ env.render other))

namespace WriteRequest

/-- The request of a PATCH. -/
def ofPatch (body : Json) (type : PatchType) (opts : Option ApplyOptions) :
    Except ApiError WriteRequest :=
  match type, opts with
  | .apply, some opts => .ok (.apply body opts)
  | .apply, none => .error (.badRequest "server-side apply requires a fieldManager")
  | .merge, _ => .ok (.patch body .merge)
  | .strategic, _ => .ok (.patch body .strategic)
  | .json, _ => .ok (.patch body .json)

def body : WriteRequest → Json
  | .create body => body
  | .replace body => body
  | .patch body _ => body
  | .apply config _ => config

/-- The revision the client names. -/
def clientPrecondition (env : Env) (r : WriteRequest) : Except ApiError (Option Nat) :=
  bodyPrecondition env r.body

/-- Whether the object has to exist. -/
def requires : WriteRequest → Existence
  | .create _ => .absent
  | .replace _ => .present
  | .patch _ _ => .present
  | .apply _ _ => .either

/-- The manager whose managed-fields time an unchanged check ignores. -/
def manager : WriteRequest → Option String
  | .apply _ opts => some opts.manager
  | _ => none

end WriteRequest

/-- Whether a write makes an object or changes one; from what the store holds. -/
inductive Lifecycle where
  | create
  | update (prior : Json) (at_ : Nat)
deriving DecidableEq

namespace Lifecycle

def of : Option (Json × VersionMeta) → Lifecycle
  | none => .create
  | some (prior, m) => .update prior m.modRevision

def prior : Lifecycle → Option Json
  | .create => none
  | .update prior _ => some prior

def revision : Lifecycle → Option Nat
  | .create => none
  | .update _ at_ => some at_

end Lifecycle

/-- The answer of admission. -/
inductive AdmissionDecision where
  | allow
  | mutate (value : Json)
  | deny (reason : String)

/-- What the stages outside this model answer at one attempt: the field validation of a patched
object (prior, candidate, whether the patch was strategic), the refusals of a create, the checks of
a kind and of a schema, and the admission chain. -/
structure WriteRules where
  judgePatched : Json → Json → Bool → Except ApiError Json
  refuseBadCreate : Option ApiError
  violations : Json → List String
  schemaViolations : Json → Json → List String
  review : Option (Lifecycle → Json → AdmissionDecision)

/-- What is to be written, and over what. -/
structure WritePlan where
  lifecycle : Lifecycle
  candidate : Json
deriving DecidableEq

/-- A write, or nothing to write. -/
inductive Planned where
  | unchanged (stored : Json)
  | write (plan : WritePlan)
deriving DecidableEq

/-! ## What the server owns -/

def stampName (name : String) : Json → Json := updateMetadata (Assoc.put "name" (.str name))

def stampNamespace (ns : String) : Json → Json := updateMetadata (Assoc.put "namespace" (.str ns))

/-- The live identity and termination over the candidate's. An identity the live object lacks is the
candidate's to set. -/
def immutableMeta (existing : Json) (md : JsonMap) : JsonMap :=
  let keep (field : String) (md : JsonMap) : JsonMap :=
    match metaField field existing with
    | some v => Assoc.put field v md
    | none => md
  let md := keep "uid" (keep "creationTimestamp" md)
  match metaField "deletionTimestamp" existing with
  | some live => Assoc.put "deletionTimestamp" live md
  | none => Assoc.drop "deletionTimestamp" md

/-- Keeps the metadata a client cannot change. -/
def preserveImmutableMeta (existing : Json) : Json → Json := updateMetadata (immutableMeta existing)

/-- Keeps the status. -/
def preserveStatus (existing : Json) : Json → Json :=
  mapFields fun fields =>
    match existing.get "status" with
    | some live => Assoc.put "status" live fields
    | none => Assoc.drop "status" fields

def isExternalName (service : Json) : Bool :=
  ((service.get "spec").bind (Json.get "type")).bind Json.asStr = some "ExternalName"

/-- The cluster addresses an update leaves out. -/
def keepAddresses (priorSpec : Json) (spec : JsonMap) : JsonMap :=
  let unsetIp := ((spec.lookup "clusterIP").bind Json.asStr).all (·.isEmpty)
  let spec := match if unsetIp then priorSpec.get "clusterIP" else none with
    | some ip => Assoc.put "clusterIP" ip spec
    | none => spec
  let unsetIps := ((spec.lookup "clusterIPs").bind Json.asArray).all (·.isEmpty)
  let priorIps := (priorSpec.get "clusterIPs").filter fun ips => ips.asArray.any fun a => !a.isEmpty
  match if unsetIps then priorIps else none with
  | some ips => Assoc.put "clusterIPs" ips spec
  | none => spec

namespace WriteHandler

variable (h : WriteHandler) (env : Env) (rules : WriteRules)

/-- Keeps what was allocated to a service. -/
def carryAllocatedValues (prior candidate : Json) : Json :=
  if !(h.group = "" && h.version = "v1" && h.kind = "Service") then candidate
  else if isExternalName prior || isExternalName candidate then candidate
  else
    match prior.get "spec" with
    | none => candidate
    | some priorSpec => mapFields (modifyObject "spec" (keepAddresses priorSpec)) candidate

/-- Drops the uid a client sent with a new object. -/
def dropUid : Json → Json := mapFields (modifyObject "metadata" (Assoc.drop "uid"))

/-- What the server writes itself. -/
def stampServerOwned (ns : Option String) (name : String) (lifecycle : Lifecycle)
    (now : Timestamp) (candidate : Json) : Json :=
  let candidate := stampName name candidate
  let candidate := match ns with
    | some ns => stampNamespace ns candidate
    | none => candidate
  match lifecycle with
  | .create => stampBorn h.group h.kind name ns now (dropUid candidate)
  | .update prior _ =>
    let candidate := preserveImmutableMeta prior candidate
    let candidate := if h.hasStatus then preserveStatus prior candidate else candidate
    h.carryAllocatedValues prior candidate

/-! ## Planning -/

/-- The key that a URL names. -/
def key (ns : Option String) (name : String) : Except ApiError ResourceKey :=
  if h.namespaced ≠ ns.isSome then
    .error (.badRequest (h.kind ++ "/" ++ name ++ " is " ++
      (if h.namespaced then "namespaced" else "cluster-scoped") ++ "; got namespace=" ++
      (match ns with
      | some ns => "Some(" ++ env.debugStr ns ++ ")"
      | none => "None")))
  else .ok ⟨h.group, h.version, h.kind, ns, name⟩

variable (key : ResourceKey) (ns : Option String) (name : String) (request : WriteRequest)
  (prior : Option (Json × VersionMeta)) (lifecycle : Lifecycle) (now : Timestamp) (candidate : Json)

def objectRef : String := h.kind ++ "/" ++ name

/-- The object is not at the revision named. -/
def rvConflict (expected : Option Nat) : ApiError :=
  .resourceVersionConflict ("Operation cannot be fulfilled on " ++ h.plural ++ " \"" ++ name ++
    "\": the object has been modified; expected resourceVersion " ++
    (expected.map toString).getD "<none>" ++ " did not match the live object")

def notFound (h : WriteHandler) (name : String) : ApiError := .notFound (h.objectRef name)

def alreadyExists : ApiError :=
  .conflict (h.objectRef name) "resource already exists"

def invalid (h : WriteHandler) (name : String) (causes : List String) : ApiError :=
  .invalid (h.kind ++ " \"" ++ name ++ "\" is invalid: " ++ "; ".intercalate causes)

/-- The object a write would store, before any rule. -/
def candidateOf : Except ApiError Json :=
  match request with
  | .create body => .ok body
  | .replace body => .ok body
  | .patch body algorithm =>
    match lifecycle.prior with
    | none => .error (h.notFound name)
    | some prior =>
      match PatchBody.fromRaw env algorithm.patchType body with
      | .error e => .error (.badRequest (e.text env))
      | .ok body =>
        match applyPatchBody env (Gvk.ofKey key) algorithm.patchType prior body with
        | .error e => .error (.badRequest (e.text env))
        | .ok merged => .ok merged
  | .apply config opts =>
    match applySsa env (Gvk.ofKey key) lifecycle.prior config opts.manager opts.force now.text with
    | .error conflicts => .error (.applyConflict (toCauses conflicts))
    | .ok out => .ok out.merged

/-- Field validation, for a patch only. -/
def judgedCandidate : Except ApiError Json :=
  match request, lifecycle.prior with
  | .patch _ algorithm, some prior => rules.judgePatched prior candidate (algorithm = .strategic)
  | _, _ => .ok candidate

/-- The name in the body is that of the URL. -/
def settleName : Except ApiError Json :=
  match (metaField "name" candidate).bind Json.asStr with
  | some body =>
    if body ≠ name then
      .error (.badRequest ("the name of the object (" ++ body ++
        ") does not match the name on the URL (" ++ name ++ ")"))
    else .ok (stampName name candidate)
  | none => .ok (stampName name candidate)

/-- Defaults, then validation. -/
def defaultAndValidate : Except ApiError Json :=
  let candidate := applyDefaults h.group h.version h.kind candidate
  let violations := rules.violations candidate
  if !violations.isEmpty then .error (h.invalid name violations)
  else
    match h.crdSchema with
    | none => .ok candidate
    | some schema =>
      let candidate := applySchemaDefaults schema candidate
      let violations := rules.schemaViolations schema candidate
      if !violations.isEmpty then .error (h.invalid name violations) else .ok candidate

/-- The admission chain over the candidate; a body it makes is normalized again. -/
def admitCandidate : Except ApiError Json :=
  match rules.review with
  | none => .ok candidate
  | some review =>
    match review lifecycle candidate with
    | .allow => .ok candidate
    | .mutate admitted =>
      (normalize h.group h.kind admitted).mapError fun e => e.admissionError h.version h.kind
    | .deny reason => .error (.forbidden reason)

/-- From the candidate to the object that the server's fields are stamped on. -/
def prepare : Except ApiError Json := do
  let candidate ← h.candidateOf env key name request lifecycle now
  let candidate ← judgedCandidate rules request lifecycle candidate
  let candidate ← (normalize h.group h.kind candidate).mapError fun e =>
    e.requestError h.version h.kind
  let candidate ← settleName name candidate
  match if lifecycle = .create then rules.refuseBadCreate else none with
  | some e => throw e
  | none =>
    let candidate ← h.defaultAndValidate rules name candidate
    h.admitCandidate rules lifecycle candidate

/-- Create or update: a POST is a create whatever the store holds. -/
def lifecycleOf : Except ApiError Lifecycle :=
  match request.requires, prior with
  | .present, none => .error (h.notFound name)
  | .absent, _ => .ok .create
  | _, prior => .ok (.of prior)

/-- The plan of a write to what was read. -/
def plan (clientExpected : Option Nat) (now : Timestamp) : Except ApiError Planned := do
  let lifecycle ← h.lifecycleOf name request prior
  if clientExpected.isSome && lifecycle.revision ≠ clientExpected then
    throw (h.rvConflict name clientExpected)
  else
    let candidate ← h.prepare env rules key name request lifecycle now
    let candidate := h.stampServerOwned ns name lifecycle now candidate
    if request.requires = .absent && prior.isSome then throw (h.alreadyExists name)
    else
      match lifecycle with
      | .update prior at_ =>
        -- a Terminating candidate is left to the store
        if unchanged prior candidate request.manager && !(deletionTimestampOf candidate).isSome then
          return .unchanged prior
        else return .write ⟨.update prior at_, candidate⟩
      | .create => return .write ⟨.create, candidate⟩

end WriteHandler

/-! ## Proposing -/

/-- A create commits only if the name is free, an update only at the revision the plan read. -/
def WritePlan.command (p : WritePlan) (key : ResourceKey) : ResourceCommand :=
  match p.lifecycle with
  | .create => .txn [.notExists key] [.put key p.candidate] []
  | .update _ at_ => .put key p.candidate (some at_)

namespace ResourceCatalog

variable (c : ResourceCatalog) (now : Timestamp)

/-- The proposer stamps what is not there to be replaced. -/
def stampBirth (key : ResourceKey) (value : Json) : Json :=
  match c.get key with
  | some _ => value
  | none => stampBorn key.group key.kind key.name key.ns now value

def stampBirthOp : TxnOp → TxnOp
  | .put key value => .put key (c.stampBirth now key value)
  | .delete key ts => .delete key ts

/-- A command, with what new objects get. -/
def stampBirths : ResourceCommand → ResourceCommand
  | .put key value expected => .put key (c.stampBirth now key value) expected
  | .txn compares success failure =>
    .txn compares (success.map (c.stampBirthOp now)) (failure.map (c.stampBirthOp now))
  | .patch key body type apply expected => .patch key body type apply expected
  | .delete key expected ts => .delete key expected ts

end ResourceCatalog

/-- What a proposal came to. -/
inductive Committed where
  | stored
  | released
  | raced
deriving DecidableEq, Repr

def ResourceOp.debug : ResourceOp → String
  | .created => "Created"
  | .replaced => "Replaced"
  | .patched => "Patched"
  | .deleted => "Deleted"
  | .deletionPending => "DeletionPending"
  | .conflict => "Conflict"
  | .patchRejected => "PatchRejected"
  | .applyConflict => "ApplyConflict"
  | .unchanged => "Unchanged"
  | .noOp => "NoOp"

/-- What the store's answer means for a plan. -/
def ResourceOp.committed : ResourceOp → Except ApiError Committed
  | .created => .ok .stored
  | .replaced => .ok .stored
  | .unchanged => .ok .stored
  | .deleted => .ok .released
  | .conflict => .ok .raced
  | .noOp => .ok .raced
  | op =>
    .error (.internal ("the store answered " ++ op.debug ++ " to a write that proposes only a Put"))

/-! ## Inversion -/

namespace WriteHandler
variable {h : WriteHandler} {env : Env} {rules : WriteRules} {key : ResourceKey}
  {ns : Option String}
  {name : String} {request : WriteRequest} {lifecycle : Lifecycle} {now : Timestamp}

variable {v v' : Json}

theorem metaBase_isSome_of_objectMeta (hm : objectMeta v = true) : (metaBase v).isSome = true := by
  obtain ⟨md, hmd⟩ := Option.isSome_iff_exists.mp hm
  rw [metaBase_of_meta hmd]
  rfl

theorem settleName_ok (hs : settleName name v = .ok v') : v' = stampName name v := by
  unfold settleName at hs
  split at hs
  · split at hs
    · cases hs
    · exact (Except.ok.inj hs).symm
  · exact (Except.ok.inj hs).symm

theorem defaultAndValidate_objectMeta (hd : h.defaultAndValidate rules name v = .ok v')
    (hm : objectMeta v = true) : objectMeta v' = true := by
  have hdef : objectMeta (applyDefaults h.group h.version h.kind v) = true := by
    rw [objectMeta, get_metadata_applyDefaults]
    exact hm
  unfold defaultAndValidate at hd
  simp only at hd
  split at hd
  · cases hd
  split at hd
  · cases hd
    exact hdef
  · split at hd
    · cases hd
    · cases hd
      exact objectMeta_applySchemaDefaults _ hdef

theorem admitCandidate_metadata (ha : h.admitCandidate rules lifecycle v = .ok v')
    (hm : objectMeta v = true) : (metaBase v').isSome = true := by
  have hv := metaBase_isSome_of_objectMeta hm
  unfold admitCandidate at ha
  split at ha
  · cases ha
    exact hv
  · split at ha
    · cases ha
      exact hv
    · exact metaBase_normalize (of_mapError_ok ha)
    · cases ha

/-- What the server's fields are stamped on can carry them. -/
theorem prepare_metadata (hp : h.prepare env rules key name request lifecycle now = .ok v) :
    (metaBase v).isSome = true := by
  obtain ⟨_, -, hp⟩ := of_bind_ok hp
  obtain ⟨_, -, hp⟩ := of_bind_ok hp
  obtain ⟨normal, hnormal, hp⟩ := of_bind_ok hp
  obtain ⟨settled, hsettled, hp⟩ := of_bind_ok hp
  have hmeta : objectMeta settled = true := by
    rw [settleName_ok hsettled, stampName, objectMeta_updateMetadata]
    exact metaBase_normalize (of_mapError_ok hnormal)
  split at hp
  · cases hp
  · obtain ⟨defaulted, hdefaulted, hp⟩ := of_bind_ok hp
    exact admitCandidate_metadata hp (defaultAndValidate_objectMeta hdefaulted hmeta)

variable {prior : Option (Json × VersionMeta)}

theorem lifecycleOf_ok (hl : h.lifecycleOf name request prior = .ok lifecycle) :
    lifecycle = .of prior ∨ request.requires = .absent ∧ lifecycle = .create := by
  unfold lifecycleOf at hl
  split at hl
  · cases hl
  · exact .inr ⟨‹_›, (Except.ok.inj hl).symm⟩
  · exact .inl (Except.ok.inj hl).symm

/-- The inversion lemma of planning: a plan creates where nothing was read, or updates what was
read; the client's precondition names the revision read; the candidate is some object with the
server's fields stamped on it. -/
theorem plan_write {expected : Option Nat} {p : WritePlan}
    (hp : h.plan env rules key ns name request prior expected now = .ok (.write p)) :
    p.lifecycle = .of prior ∧
    (∀ n, expected = some n → p.lifecycle.revision = some n) ∧
    ∃ v, (metaBase v).isSome = true ∧
    p.candidate = h.stampServerOwned ns name p.lifecycle now v := by
  obtain ⟨lifecycle, hlife, hp⟩ := of_bind_ok hp
  split at hp
  · cases hp
  rename_i hexp
  obtain ⟨v, hv, hp⟩ := of_bind_ok hp
  have hrev : ∀ n, expected = some n → lifecycle.revision = some n := by
    rintro n rfl
    simpa using hexp
  simp only at hp
  split at hp
  · cases hp
  rename_i htaken
  -- a POST that found an object went no further
  have hof : lifecycle = .of prior := by
    rcases lifecycleOf_ok hlife with hof | ⟨habsent, rfl⟩
    · exact hof
    · cases prior with
      | none => rfl
      | some e => simp [habsent] at htaken
  split at hp
  · split at hp
    · cases hp
    · cases hp
      exact ⟨hof, hrev, v, prepare_metadata hv, rfl⟩
  · cases hp
    exact ⟨hof, hrev, v, prepare_metadata hv, rfl⟩

theorem key_ok (hk : h.key env ns name = .ok key) :
    key = ⟨h.group, h.version, h.kind, ns, name⟩ := by
  unfold WriteHandler.key at hk
  split at hk
  · cases hk
  · exact (Except.ok.inj hk).symm

/-- Name and namespace of the key over the candidate's. -/
def keyMeta (ns : Option String) (name : String) (md : JsonMap) : JsonMap :=
  match ns with
  | some ns => Assoc.put "namespace" (.str ns) (Assoc.put "name" (.str name) md)
  | none => Assoc.put "name" (.str name) md

theorem keyMeta_name (md : JsonMap) : (keyMeta ns name md).lookup "name" = some (.str name) := by
  unfold keyMeta
  split
  · rw [Assoc.lookup_put_ne (by decide)]
    simp
  · simp

theorem keyMeta_namespace {n : String} (hn : ns = some n) (md : JsonMap) :
    (keyMeta ns name md).lookup "namespace" = some (.str n) := by
  subst hn
  simp [keyMeta]

theorem stampServerOwned_create_eq (v : Json) : h.stampServerOwned ns name .create now v =
      stampBorn h.group h.kind name ns now (dropUid (updateMetadata (keyMeta ns name) v)) := by
  cases ns with
  | none => rfl
  | some n =>
    simp only [stampServerOwned, stampNamespace, stampName, updateMetadata_comp]
    rfl

theorem stampServerOwned_update_eq (prior : Json) (at_ : Nat) (v : Json) :
    h.stampServerOwned ns name (.update prior at_) now v =
      let v := updateMetadata (immutableMeta prior ∘ keyMeta ns name) v
      h.carryAllocatedValues prior (if h.hasStatus then preserveStatus prior v else v) := by
  cases ns with
  | none =>
    simp only [stampServerOwned, preserveImmutableMeta, stampName, updateMetadata_comp]
    rfl
  | some n =>
    simp only [stampServerOwned, preserveImmutableMeta, stampNamespace, stampName,
      updateMetadata_comp]
    rfl

end WriteHandler
end Engenho
