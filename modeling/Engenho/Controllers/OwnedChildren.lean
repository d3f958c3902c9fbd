import Engenho.Controllers.Meta
import Engenho.Store.Listing

/-!
# Controllers that own children

Five controllers share one pass over a parent: gather the children it controls, compute the writes
that bring them to what the parent asks for, send those one by one, gather again, and write the
status of the parent. A `Workload` is what they differ in.

The store can change between any two reads and writes of a pass, so the pass is a machine
(`Reconcile.step`) that stops at each of them. `PassEvent.other` is a command of another writer, and
a pass can be given up anywhere: the answer of the store was an error, or the process ended.
-/

namespace Engenho
namespace Controllers

/-! ## Children -/

/-- The children that are not being deleted. -/
def liveChildren (owned : Items) : Items :=
  owned.filter fun e => !isTerminating e.2

/-- What the pass does with a command, by the object at its key. -/
inductive ChildWrite where
  | create
  | propose
  | leaveTerminating
deriving DecidableEq, Repr

/-- What to do, by what is at the key. -/
def ChildWrite.of (command : ResourceCommand) (live : Option Json) : ChildWrite :=
  let terminating := live.any isTerminating
  match command with
  | .put .. => if terminating then .leaveTerminating else if live.isNone then .create else .propose
  | .delete .. => if terminating then .leaveTerminating else .propose
  | .patch .. | .txn .. => .propose

/-- The key that is read before a command is sent. -/
def childWriteTarget : ResourceCommand → Option ResourceKey
  | .put key .. | .delete key .. => some key
  | .patch .. | .txn .. => none

/-- Where the children of a parent are. -/
def childNamespace (parent : Json) (scope : Option String) : String :=
  ((nsOf parent).or scope).getD "default"

def podKind : Gvk := ⟨"", "v1", "Pod"⟩

/-- The key of a pod. -/
def podKeyIn (ns podName : String) : ResourceKey := ⟨"", "v1", "Pod", some ns, podName⟩

/-- A delete that carries the time it was sent at. -/
def deleteAt (now : String) (key : ResourceKey) : ResourceCommand := .delete key none (some now)

/-- The children that a parent controls. -/
def gatherOwned (c : ResourceCatalog) (kinds : List Gvk) (ownerUid : String) (ns : Option String) :
    Items :=
  kinds.flatMap fun k => (c.listed ⟨k.group, k.version, k.kind, ns⟩).filter fun e =>
    isOwnedBy e.2 ownerUid

/-! ## Pods from a template -/

def templatePath : List String := ["spec", "template"]

/-- The template of a parent. -/
def templateOf (parent : Json) : Option Json :=
  (specField "template" parent).filter fun t => !t.isNull

/-- A pod with its name and owner. -/
def stampPod (pod : Json) (podName ns : String) (owner : OwnerReference) :
    Except ShapeFault Json := do
  let pod ← editObject [] (fun root => .ok (Assoc.put "apiVersion" (.str "v1")
    (Assoc.put "kind" (.str "Pod") root))) [] pod
  let pod ← editObject [] (fun md => .ok (Assoc.put "namespace" (.str ns)
    (Assoc.put "name" (.str podName) md))) ["metadata"] pod
  let pod ← setOwnerReference pod owner
  return mapFields stampBirthStatus pod

/-- A pod cloned from the template of its parent, if there is one. -/
def podFromTemplate (parent : Json) (podName ns : String) (owner : OwnerReference) :
    Except ShapeFault (Option Json) :=
  match templateOf parent with
  | none => .ok none
  | some template =>
    ((stampPod template podName ns owner).mapError (ShapeFault.under templatePath)).map some

/-- Changes the object at a path of a pod made from a template. -/
def editTemplate (path : List String) (f : JsonMap → JsonMap) (pod : Json) :
    Except ShapeFault Json :=
  (editObject [] (fun m => .ok (f m)) path pod).mapError (ShapeFault.under templatePath)

/-- The creates of the pods that are built of the items, in order. -/
def createAll {ι : Type} (ns : String) (build : ι → Except ShapeFault (Option (String × Json))) :
    List ι → Except ShapeFault (List ResourceCommand)
  | [] => .ok []
  | i :: rest => do
    let built ← build i
    let cmds ← createAll ns build rest
    return match built with
      | some (podName, pod) => .put (podKeyIn ns podName) pod none :: cmds
      | none => cmds

/-! ## Status -/

/-- A count as a signed word. -/
def countJson (n : Nat) : Json := .num (.int (min n (2 ^ 63 - 1)))

def generation : DefaultedInt := ⟨["metadata", "generation"], 0⟩

def resourceVersionOf (v : Json) : Option Nat := (metaStr "resourceVersion" v).bind parseUsize

/-- The status, or an empty one. -/
def liveStatus (v : Json) : Json := (v.get "status").getD (.obj [])

/-- The write of a computed status at the revision that was read, if there is anything to write. -/
def statusCommand (key : ResourceKey) (parent desired : Json) : Option ResourceCommand :=
  if liveStatus parent = desired then none
  else (resourceVersionOf parent).map fun expected =>
    .patchCas key (.obj [("status", desired)]) (some expected)

/-! ## The pass -/

/-- What the controllers differ in. -/
structure Workload where
  parentScope : ListScope
  childKinds : List Gvk
  reconcileOne : ResourceCatalog → Json → Items →
    Except ControllerError (List ResourceCommand)
  computeStatus : Json → Items → Int → Option Json

/-- What a pass keeps of its first reads. -/
structure Pass where
  parent : Json
  uid : String
  generation : Int
deriving DecidableEq

/-- Where a pass stands. -/
inductive Stage where
  | idle
  | listed (parent : Json)
  /-- The writes that are left. -/
  | writing (p : Pass) (todo : List ResourceCommand)
  /-- The key of a write was read, and the write is to be sent. -/
  | probed (p : Pass) (cmd : ResourceCommand) (todo : List ResourceCommand)
  | sent (p : Pass) (cmd : ResourceCommand) (todo : List ResourceCommand)
  /-- The write of the status was sent. -/
  | reporting (cmd : ResourceCommand)
deriving DecidableEq

/-- A step of a pass, or another write. -/
inductive PassEvent where
  | other (op : CatalogOp)
  | list
  | gather
  | probe (now : Timestamp)
  | send (now : Timestamp)
  | commit (slot : LogSlot)
  | settle
  | report (slot : LogSlot)
  | abandon
deriving DecidableEq

/-- Some time. -/
def anInstant : Timestamp := ⟨"t", rfl⟩

def stampCreateTimestamp (now : Timestamp) : Json → Json :=
  mapFields fun fields =>
    if creationTimestampIsUnset
      ((fields.lookup "metadata").bind (Json.get "creationTimestamp")) then
      ensureObject "metadata" (stampCreationTimestamp now) fields
    else fields

/-- A create, with its creation time. -/
def stampCreate (now : Timestamp) : ResourceCommand → ResourceCommand
  | .put key value expected => .put key (stampCreateTimestamp now value) expected
  | cmd => cmd

namespace Workload
variable (W : Workload)

/-- Reads the children and plans the writes. -/
def gatherStage (c : ResourceCatalog) (ns : Option String) (parent : Json) : Stage :=
  match uid parent, readInt generation parent with
  | some u, .ok g =>
    match W.reconcileOne c parent (gatherOwned c W.childKinds u ns) with
    | .ok todo => .writing ⟨parent, u, g⟩ todo
    | .error _ => .idle
  | _, _ => .idle

/-- Computes the status to report. -/
def settleStage (c : ResourceCatalog) (key : ResourceKey) (p : Pass) : Stage :=
  let owned := gatherOwned c W.childKinds p.uid key.ns
  match (W.computeStatus p.parent owned p.generation).bind (statusCommand key p.parent) with
  | some cmd => .reporting cmd
  | none => .idle

end Workload

/-- A pass and the store it works on. -/
structure Reconcile where
  cat : ResourceCatalog
  stage : Stage

variable (W : Workload) (env : Env) (key : ResourceKey) (s : Reconcile) (c : ResourceCatalog)
  (cmd : ResourceCommand) (slot : LogSlot) (now : Timestamp) (p : Pass)

/-- Reads the key of a write. -/
def probeStage (cmd : ResourceCommand) (todo : List ResourceCommand) : Stage :=
  match ChildWrite.of cmd ((childWriteTarget cmd).bind c.get) with
  | .leaveTerminating => .writing p todo
  | .create => .probed p (stampCreate now cmd) todo
  | .propose => .probed p cmd todo

/-- The proposal of a command is refused where it names an entry that cannot be read. -/
def sendStage (cmd : ResourceCommand) (todo : List ResourceCommand) : Stage :=
  match c.unreadableTouchedBy cmd with
  | some _ => .idle
  | none => .sent p (c.stampBirths now cmd) todo

/-- The store after a command. -/
def commitSlot : ResourceCatalog :=
  (c.applyUnder env cmd slot.semantics slot.term slot.index).1

theorem commitSlot_get_ne
    {k : ResourceKey} (h : k ∉ cmd.keys) : (commitSlot env c cmd slot).get k = c.get k := by
  unfold ResourceCatalog.get commitSlot
  rw [c.applyUnder_get_ne env cmd slot.semantics slot.term slot.index h]

/-- One step of the passes over the parent at `key`. An event that is not the next of the pass is
nothing. -/
def Reconcile.step : PassEvent → Reconcile
  | .other op => { s with cat := (s.cat.perform env op).1 }
  | .list =>
    match s.stage, (s.cat.listed W.parentScope).lookup key with
    | .idle, some parent => { s with stage := .listed parent }
    | _, _ => s
  | .gather =>
    match s.stage with
    | .listed parent => { s with stage := W.gatherStage s.cat key.ns parent }
    | _ => s
  | .probe now =>
    match s.stage with
    | .writing p (cmd :: todo) => { s with stage := probeStage s.cat now p cmd todo }
    | _ => s
  | .send now =>
    match s.stage with
    | .probed p cmd todo => { s with stage := sendStage s.cat now p cmd todo }
    | _ => s
  | .commit slot =>
    match s.stage with
    | .sent p cmd todo => ⟨commitSlot env s.cat cmd slot, .writing p todo⟩
    | _ => s
  | .settle =>
    match s.stage with
    | .writing p [] => { s with stage := W.settleStage s.cat key p }
    | _ => s
  | .report slot =>
    match s.stage with
    | .reporting cmd => ⟨commitSlot env s.cat cmd slot, .idle⟩
    | _ => s
  | .abandon => { s with stage := .idle }

/-- What a step does. -/
inductive Reconcile.StepCase (W : Workload) (env : Env) (key : ResourceKey) (c : ResourceCatalog) :
    Stage → PassEvent → Reconcile → Prop where
  | stay (st : Stage) (e : PassEvent) : StepCase W env key c st e ⟨c, st⟩
  | other (st : Stage)
    (op : CatalogOp) : StepCase W env key c st (.other op) ⟨(c.perform env op).1, st⟩
  | list {parent : Json} (hlive : c.get key = some parent) :
      StepCase W env key c .idle .list ⟨c, .listed parent⟩
  | gather (parent : Json) :
      StepCase W env key c (.listed parent) .gather ⟨c, W.gatherStage c key.ns parent⟩
  | probe (now : Timestamp) (p : Pass) (cmd : ResourceCommand) (todo : List ResourceCommand) :
      StepCase W env key c (.writing p (cmd :: todo)) (.probe now) ⟨c, probeStage c now p cmd todo⟩
  | send (now : Timestamp) (p : Pass) (cmd : ResourceCommand) (todo : List ResourceCommand) :
      StepCase W env key c (.probed p cmd todo) (.send now) ⟨c, sendStage c now p cmd todo⟩
  | commit (slot : LogSlot) (p : Pass) (cmd : ResourceCommand) (todo : List ResourceCommand) :
      StepCase W env key c (.sent p cmd todo) (.commit slot) ⟨commitSlot env c cmd slot,
        .writing p todo⟩
  | settle (p : Pass) : StepCase W env key c (.writing p []) .settle ⟨c, W.settleStage c key p⟩
  | report (slot : LogSlot) (cmd : ResourceCommand) :
      StepCase W env key c (.reporting cmd) (.report slot) ⟨commitSlot env c cmd slot, .idle⟩
  | abandon (st : Stage) : StepCase W env key c st .abandon ⟨c, .idle⟩

theorem Reconcile.step_cases (e : PassEvent) :
    StepCase W env key s.cat s.stage e (s.step W env key e) := by
  obtain ⟨c, st⟩ := s
  cases e with
  | other op => exact .other st op
  | list =>
    simp only [step]
    split
    · rename_i parent hlook
      exact .list (ResourceCatalog.get_of_mem_listed (Assoc.mem_of_lookup hlook))
    · exact .stay _ _
  | gather =>
    cases st with
    | listed parent => exact .gather parent
    | _ => exact .stay _ _
  | probe now =>
    cases st with
    | writing p todo =>
      cases todo with
      | nil => exact .stay _ _
      | cons cmd todo => exact .probe now p cmd todo
    | _ => exact .stay _ _
  | send now =>
    cases st with
    | probed p cmd todo => exact .send now p cmd todo
    | _ => exact .stay _ _
  | commit slot =>
    cases st with
    | sent p cmd todo => exact .commit slot p cmd todo
    | _ => exact .stay _ _
  | settle =>
    cases st with
    | writing p todo =>
      cases todo with
      | nil => exact .settle p
      | cons cmd todo => exact .stay _ _
    | _ => exact .stay _ _
  | report slot =>
    cases st with
    | reporting cmd => exact .report slot cmd
    | _ => exact .stay _ _
  | abandon => exact .abandon st

/-! ## What a pass writes -/

/-- The command puts a child, or deletes or scales one of those that were gathered. -/
def OnChildren (owned : Items) : ResourceCommand → Prop
  | .put .. => True
  | .delete k .. => k ∈ owned.map Prod.fst
  | .patch k body type apply _ =>
    k ∈ owned.map Prod.fst ∧ type = .merge ∧ apply = none ∧ ∃ w, body = .obj [("spec", w)]
  | .txn .. => False

variable {cmds : List ResourceCommand} {v : Json}
section
variable {ι : Type} {ns : String} {build : ι → Except ShapeFault (Option (String × Json))}
  {items : List ι} (h : createAll ns build items = .ok cmds)
include h

theorem createAll_puts : ∀ cmd ∈ cmds, ∃ k v, cmd = .put k v none := by
  induction items generalizing cmds with
  | nil =>
    cases h
    exact List.forall_mem_nil _
  | cons i rest ih =>
    obtain ⟨built, -, h⟩ := Except.of_bind_ok h
    obtain ⟨more, hmore, h⟩ := Except.of_bind_ok h
    cases h
    cases built with
    | none => exact ih hmore
    | some p => exact List.forall_mem_cons.mpr ⟨⟨_, _, rfl⟩, ih hmore⟩

theorem createAll_onChildren (owned : Items) : ∀ cmd ∈ cmds, OnChildren owned cmd := by
  intro cmd hcmd
  obtain ⟨k, v, rfl⟩ := createAll_puts h cmd hcmd
  trivial

end

/-! ## What a pass reads of its parent -/

/-- The fields of the metadata that the store writes over the life of an object. -/
def writtenByStore : List String := ["resourceVersion", "generation", "deletionTimestamp"]

/-- The two objects differ at most in their status and in what the store writes. -/
structure SameParent (v w : Json) : Prop where
  object : v.isObject = w.isObject
  spec : v.get "spec" = w.get "spec"
  md : ∀ field, field ∉ writtenByStore → metaField field v = metaField field w

namespace SameParent
variable {v w : Json}

theorem refl (v : Json) : SameParent v v := ⟨rfl, rfl, fun _ _ => rfl⟩

section
variable (h : SameParent v w)
include h

theorem trans {x : Json} (h' : SameParent w x) : SameParent v x :=
  ⟨h.object.trans h'.object, h.spec.trans h'.spec, fun f hf => (h.md f hf).trans (h'.md f hf)⟩

theorem uid_eq : uid v = uid w := by rw [uid, metaStr, h.md "uid" (by decide), uid, metaStr]

theorem name_eq : name v = name w := by rw [name, metaStr, h.md "name" (by decide), name, metaStr]

theorem nsOf_eq : nsOf v = nsOf w := by
  rw [nsOf, metaStr, h.md "namespace" (by decide), nsOf, metaStr]

theorem childNamespace_eq (scope : Option String) :
    childNamespace v scope = childNamespace w scope := by
  rw [childNamespace, h.nsOf_eq, childNamespace]

theorem specField_eq (field : String) : specField field v = specField field w := by
  rw [specField, h.spec, specField]

theorem templateOf_eq : templateOf v = templateOf w := by
  rw [templateOf, h.specField_eq, templateOf]

theorem ownerRefFor_eq (apiVersion kind : String) :
    ownerRefFor v apiVersion kind = ownerRefFor w apiVersion kind := by
  rw [ownerRefFor, h.name_eq, h.uid_eq, ownerRefFor]

theorem podFromTemplate_eq (podName ns : String) (owner : OwnerReference) :
    podFromTemplate v podName ns owner = podFromTemplate w podName ns owner := by
  rw [podFromTemplate, h.templateOf_eq, podFromTemplate]

end
end SameParent

theorem atPath_cons (hv : v.isObject = true) (step : String) (path : List String) :
    SpecInt.atPath v (step :: path) = match v.get step with
      | some next => SpecInt.atPath next path
      | none => .absent := by
  obtain ⟨m, rfl⟩ := Json.isObject_iff.mp hv
  rfl

theorem isObject_of_uid {u : String} (h : uid v = some u) : v.isObject = true := by
  cases v with
  | obj m => rfl
  | _ => cases h

section
variable {w : Json} (h : SameParent v w) (hv : v.isObject = true) (path : List String)
  (absent : Int)
include h hv path absent

theorem SameParent.readInt_eq :
    readInt ⟨"spec" :: path, absent⟩ v = readInt ⟨"spec" :: path, absent⟩ w := by
  have hat : SpecInt.atPath v ("spec" :: path) = SpecInt.atPath w ("spec" :: path) := by
    rw [atPath_cons hv, atPath_cons (h.object ▸ hv), h.spec]
  simp only [readInt, DefaultedInt.read, intAt, hat]

theorem SameParent.readCount_eq :
    readCount ⟨"spec" :: path, absent⟩ v = readCount ⟨"spec" :: path, absent⟩ w := by
  rw [readCount, h.readInt_eq hv, readCount]

end
end Controllers
end Engenho
