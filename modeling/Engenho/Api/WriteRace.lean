import Engenho.Api.Proposal

/-!
# Writes at the same time

The loop of a write: read and plan, let the proposer stamp births, propose, and on a race plan
again. A write takes its steps one at a time, between them anything may happen to the store.
Planning touches nothing, so a read and the plan made from it are one step.

`WriteRace` runs any number of writes. It keeps the order in which they took effect, as a list of
`SerialOp`s; each names the entry its plan was made from. `SerialOp.apply` runs one of them alone,
in one go, and fails if the entry is another one.

* `Writing.step_ok`: one step of one write.
* `writes_serialize`: after any run, the order run alone from the first state gives the very store.
-/

namespace Engenho
open ResourceCatalog List Logged

/-- A write of a main object as the server received it, with its one clock read. -/
structure ApiWrite where
  handler : WriteHandler
  ns : Option String
  name : String
  request : WriteRequest
  now : Timestamp
  dryRun : Bool

/-- What a write settles before its first read. -/
structure WriteTarget where
  key : ResourceKey
  expected : Option Nat
deriving DecidableEq

/-- How often a write is planned. -/
def writeAttempts : Nat := 32

namespace ApiWrite

/-- The key and the revision of a write. -/
def target (env : Env) (w : ApiWrite) : Except ApiError WriteTarget := do
  let key ← w.handler.key env w.ns w.name
  let expected ← w.request.clientPrecondition env
  return ⟨key, expected⟩

/-- The plan, by what was read. -/
def plan (env : Env) (w : ApiWrite) (rules : WriteRules) (target : WriteTarget)
    (seen : Option (Json × VersionMeta)) : Except ApiError Planned :=
  w.handler.plan env rules target.key w.ns w.name w.request seen target.expected w.now

/-- An object as the wire returns it. -/
def typed (w : ApiWrite) (object : Json) : Json :=
  stampTypeMeta w.handler.toStoreBackedHandler object

def rvConflict (w : ApiWrite) (target : WriteTarget) : ApiError :=
  w.handler.rvConflict w.name target.expected

/-- The answer to a write whose object is gone when it is read back. -/
def notReadBack (w : ApiWrite) : ApiError :=
  .internal (w.handler.objectRef w.name ++ " was written but cannot be read back")

def deleteStatusSuccess (name kind : String) : Json :=
  .obj [("apiVersion", .str "v1"), ("details", .obj [("kind", .str kind), ("name", .str name)]),
    ("kind", .str "Status"), ("status", .str "Success")]

end ApiWrite

/-- An attempt that has its plan: how many are left after it, what it read, how it was ruled. -/
structure Attempt where
  target : WriteTarget
  left : Nat
  seen : Option (Json × VersionMeta)
  rules : WriteRules
  plan : WritePlan

/-- Where a write is. -/
inductive WriteStage where
  | reading (target : WriteTarget) (left : Nat)
  | planned (a : Attempt)
  | proposing (a : Attempt) (cmd : ResourceCommand)
  | readingBack (key : ResourceKey)
  | answered (result : Except ApiError Json)

/-- A call and where it stands. -/
structure Writing extends ApiWrite where
  stage : WriteStage

/-- What the world does at a step of a write: the rules of an attempt, the proposer's clock, the
fate of the proposal. -/
structure WriteTurn where
  rules : WriteRules
  stampedAt : Timestamp
  proposal : Turn

/-- What took effect, in order: a write that committed, a write that found nothing to change, a
proposal that raced, an operation of anyone else. -/
inductive SerialOp where
  | write (i : Nat) (seen : Option (Json × VersionMeta)) (rules : WriteRules) (term index : Nat)
  | kept (i : Nat) (seen : Option (Json × VersionMeta)) (rules : WriteRules)
  | raced (term index : Nat)
  | other (op : CatalogOp)

namespace SerialOp

/-- The operation is the effect of the write `i`. -/
def isOf (i : Nat) : SerialOp → Bool
  | .write j _ _ _ _ => i = j
  | .kept j _ _ => i = j
  | _ => false

/-- The plan of the write `i` from `seen`, if that is what the store holds. -/
def planAt (env : Env) (writes : List ApiWrite) (c : ResourceCatalog) (i : Nat)
    (seen : Option (Json × VersionMeta)) (rules : WriteRules) : Option (ResourceKey × Planned) := do
  let w ← writes[i]?
  let target ← (w.target env).toOption
  guard (c.getWithMeta target.key = seen)
  let planned ← (w.plan env rules target seen).toOption
  return (target.key, planned)

/-- The operation alone: a write reads, plans and commits in one go. -/
def apply (env : Env) (writes : List ApiWrite) (c : ResourceCatalog) :
    SerialOp → Option ResourceCatalog
  | .write i seen rules term index =>
    match planAt env writes c i seen rules with
    | some (key, .write p) => some (c.applyUnder env (p.command key) .v1 term index).1
    | _ => none
  | .kept i seen rules =>
    match planAt env writes c i seen rules with
    | some (_, .unchanged _) => some c
    | _ => none
  | .raced term index => some { c with lastAppliedTerm := term, lastAppliedIndex := index }
  | .other op => some (c.perform env op).1

end SerialOp

namespace Writing

variable (env : Env) (c : ResourceCatalog) (i : Nat)

def start (w : ApiWrite) : Writing where
  toApiWrite := w
  stage :=
    match w.target env with
    | .error e => .answered (.error e)
    | .ok target => .reading target writeAttempts

/-- Where the store's answer to a proposal leads. -/
def settle (w : Writing) (a : Attempt) : Except ApiError ApplyOutcome → WriteStage
  | .error e => .answered (.error e)
  | .ok outcome =>
    match outcome.op.committed with
    | .error e => .answered (.error e)
    | .ok .stored => .readingBack a.target.key
    | .ok .released => .answered (.ok (ApiWrite.deleteStatusSuccess w.name w.handler.kind))
    | .ok .raced =>
      if a.target.expected.isSome then .answered (.error (w.rvConflict a.target))
      else if w.request.requires = .absent then .answered (.error (w.handler.alreadyExists w.name))
      else .reading a.target a.left

/-- What a proposal did when it was applied. -/
def effect (a : Attempt) (cmd : ResourceCommand) (t : Turn) : List SerialOp :=
  match (c.applyUnder env cmd .v1 t.term t.index).2.op.committed with
  | .ok .stored => [.write i a.seen a.rules t.term t.index]
  | .ok .released => [.write i a.seen a.rules t.term t.index]
  | _ => [.raced t.term t.index]

/-- What a proposal did, whatever was answered. -/
def landing (a : Attempt) (cmd : ResourceCommand) (t : Turn) : List SerialOp :=
  if (c.unreadableTouchedBy cmd).isSome || t.failed.any fun f => !f.2 then []
  else effect env c i a cmd t

/-- One step of the write `i`: the store and the write after it, and what took effect. -/
def step (w : Writing) (t : WriteTurn) : ResourceCatalog × Writing × List SerialOp :=
  match w.stage with
  | .reading target 0 => (c, { w with stage := .answered (.error (w.rvConflict target)) }, [])
  | .reading target (left + 1) =>
    let seen := c.getWithMeta target.key
    match w.plan env t.rules target seen with
    | .error e => (c, { w with stage := .answered (.error e) }, [])
    | .ok (.unchanged stored) =>
      (c, { w with stage := .answered (.ok (w.typed stored)) }, [.kept i seen t.rules])
    | .ok (.write p) =>
      if w.dryRun then (c, { w with stage := .answered (.ok (w.typed p.candidate)) }, [])
      else (c, { w with stage := .planned ⟨target, left, seen, t.rules, p⟩ }, [])
  | .planned a =>
    let cmd := c.stampBirths t.stampedAt (a.plan.command a.target.key)
    (c, { w with stage := .proposing a cmd }, [])
  | .proposing a cmd =>
    let out := c.propose env cmd t.proposal
    (out.1, { w with stage := w.settle a out.2 }, landing env c i a cmd t.proposal)
  | .readingBack key =>
    let result := match c.get key with
      | some stored => .ok (w.typed stored)
      | none => .error w.notReadBack
    (c, { w with stage := .answered result }, [])
  | .answered _ => (c, w, [])

end Writing

/-- The store, the writes under way, and what took effect so far. -/
structure WriteRace where
  cat : ResourceCatalog
  calls : List Writing
  order : List SerialOp

/-- A write takes a step, or anyone else does something. -/
inductive WriteEvent where
  | turn (i : Nat) (t : WriteTurn)
  | other (op : CatalogOp)

namespace WriteRace

def start (env : Env) (cat : ResourceCatalog) (writes : List ApiWrite) : WriteRace :=
  ⟨cat, writes.map (Writing.start env), []⟩

/-- One step of one call. -/
def step (env : Env) (s : WriteRace) : WriteEvent → WriteRace
  | .turn i t =>
    match s.calls[i]? with
    | none => s
    | some w =>
      let out := w.step env s.cat i t
      ⟨out.1, s.calls.set i out.2.1, s.order ++ out.2.2⟩
  | .other op => ⟨(s.cat.perform env op).1, s.calls, s.order ++ [.other op]⟩

end WriteRace

/-! ## What a read of a reachable store says -/

/-- The resource version of a stored object is the revision it was last written at. -/
theorem Logged.after_resourceVersion (env : Env) (capacity : Nat) (ops : List CatalogOp)
    {key : ResourceKey} {v rv : Json} {m : VersionMeta}
    (h : (Logged.after env capacity ops).cat.getWithMeta key = some (v, m))
    (hrv : metaField "resourceVersion" v = some rv) : rv = .str (toString m.modRevision) := by
  have hmeta : ∀ {v : Json} {x : Json}, metaField "resourceVersion" v = some x →
      objectMeta v = true := by
    intro v x hx
    rw [metaField_eq] at hx
    obtain ⟨md, hmd, -⟩ := Option.bind_eq_some_iff.mp hx
    rw [objectMeta, hmd]
    rfl
  refine live_inv (P := fun _ v m => ∀ rv, metaField "resourceVersion" v = some rv →
    rv = .str (toString m.modRevision)) (fun hp => hp) ?_ env capacity ops h rv hrv
  intro rev prior v _ hv rv hrv
  rw [nextMeta_modRevision]
  cases hv with
  | write w =>
    rw [metaField_resourceVersion_stampRevision (hmeta hrv)] at hrv
    exact (Option.some.inj hrv).symm
  | terminating ts _ _ =>
    rw [metaField_resourceVersion_stamp (hmeta hrv)] at hrv
    exact (Option.some.inj hrv).symm

/-- The catalog of some run. -/
def Reached (env : Env) (capacity : Nat) (c : ResourceCatalog) : Prop :=
  ∃ ops, c = (Logged.after env capacity ops).cat

variable {c : ResourceCatalog} {env : Env}

theorem Reached.perform {capacity : Nat} (h : Reached env capacity c) (op : CatalogOp) :
    Reached env capacity (c.perform env op).1 := by
  obtain ⟨ops, rfl⟩ := h
  exact ⟨ops ++ [op], by rw [after_append]; rfl⟩

/-- The revision a client asked for is the one read. -/
def PreconditionMet (env : Env) (w : ApiWrite) (seen : Option (Json × VersionMeta)) : Prop :=
  ∀ n, w.request.clientPrecondition env = .ok (some n) →
    ∃ v m, seen = some (v, m) ∧ m.modRevision = n ∧
      ∀ rv, metaField "resourceVersion" v = some rv → rv = .str (toString n)

/-! ## One step of one write -/

/-- An attempt's plan is the plan of what it read, and what it read is pinned. -/
structure Attempt.Sound (env : Env) (w : ApiWrite) (c : ResourceCatalog) (a : Attempt) : Prop where
  target : w.target env = .ok a.target
  plan : w.plan env a.rules a.target a.seen = .ok (.write a.plan)
  seen : Seen a.target.key a.seen c
  version : ∀ v m rv, a.seen = some (v, m) → metaField "resourceVersion" v = some rv →
    rv = .str (toString m.modRevision)

variable {target : WriteTarget}

theorem ApiWrite.target_ok {w : ApiWrite} (h : w.target env = .ok target) :
    w.handler.key env w.ns w.name = .ok target.key ∧
      w.request.clientPrecondition env = .ok target.expected := by
  obtain ⟨key, hkey, h⟩ := Except.of_bind_ok h
  obtain ⟨expected, hexpected, h⟩ := Except.of_bind_ok h
  cases h
  exact ⟨hkey, hexpected⟩

namespace Attempt.Sound
variable {env : Env} {w : ApiWrite} {c : ResourceCatalog} {a : Attempt}

theorem perform (h : a.Sound env w c) (op : CatalogOp) : a.Sound env w (c.perform env op).1 :=
  { h with seen := h.seen.perform op }

theorem lifecycle (h : a.Sound env w c) : a.plan.lifecycle = .of a.seen :=
  (WriteHandler.plan_write h.plan).1

theorem preconditionMet (h : a.Sound env w c) : PreconditionMet env w a.seen := by
  intro n hn
  obtain ⟨hlife, hrev, -⟩ := WriteHandler.plan_write h.plan
  have hexp : a.target.expected = some n := by
    rw [(ApiWrite.target_ok h.target).2] at hn
    exact Except.ok.inj hn
  have hat := hrev n hexp
  rw [hlife] at hat
  cases hseen : a.seen with
  | none => rw [hseen] at hat; cases hat
  | some e =>
    rw [hseen] at hat
    obtain rfl : e.2.modRevision = n := Option.some.inj hat
    exact ⟨e.1, e.2, rfl, rfl, fun rv hrv => h.version e.1 e.2 rv hseen hrv⟩

end Attempt.Sound

namespace Writing

/-- What is known of a write that took effect `n` times, if `lost` are the errors that stood for the
lost answers to its proposals. Only such an error, or an object gone at the read back, hides an
effect. -/
def Sound (env : Env) (lost : ApiError → Prop) (c : ResourceCatalog) (n : Nat) (w : Writing) :
    Prop :=
  match w.stage with
  | .reading target _ => w.target env = .ok target ∧ n = 0
  | .planned a => a.Sound env w.toApiWrite c ∧ n = 0
  | .proposing a cmd =>
    a.Sound env w.toApiWrite c ∧ Proposed a.target.key a.plan a.seen c cmd ∧ n = 0
  | .readingBack _ => n = 1
  | .answered (.ok _) => n ≤ 1 ∧ (w.dryRun = false → n = 1)
  | .answered (.error e) => n ≤ 1 ∧ (n = 1 → e = w.notReadBack ∨ lost e)

variable {lost : ApiError → Prop}

theorem Sound.perform {n : Nat} {w : Writing} (h : w.Sound env lost c n) (op : CatalogOp) :
    w.Sound env lost (c.perform env op).1 n := by
  unfold Sound at h ⊢
  split at h
  · exact h
  · exact ⟨h.1.perform op, h.2⟩
  · exact ⟨h.1.perform op, h.2.1.perform op, h.2.2⟩
  · exact h
  · exact h
  · exact h

theorem Sound.le_one {n : Nat} {w : Writing} (h : w.Sound env lost c n) : n ≤ 1 := by
  unfold Sound at h
  split at h
  · omega
  · omega
  · omega
  · omega
  · exact h.1
  · exact h.1

/-- What a step of the write `i`, which took effect `n` times before, may do. -/
structure StepOk (env : Env) (lost : ApiError → Prop) (writes : List ApiWrite) (c : ResourceCatalog)
    (i n : Nat) (w : Writing) (out : ResourceCatalog × Writing × List SerialOp) : Prop where
  same : out.2.1.toApiWrite = w.toApiWrite
  moves : out.1 = c ∨ ∃ op, out.1 = (c.perform env op).1
  serial : out.2.2.foldlM (SerialOp.apply env writes) c = some out.1
  sound : out.2.1.Sound env lost out.1 (n + out.2.2.countP (SerialOp.isOf i))
  only : ∀ j, j ≠ i → out.2.2.countP (SerialOp.isOf j) = 0
  pinned : ∀ j seen rules term index, .write j seen rules term index ∈ out.2.2 →
    j = i ∧ PreconditionMet env w.toApiWrite seen

section
variable {env : Env} {lost : ApiError → Prop} {writes : List ApiWrite} {c : ResourceCatalog}
  {i n : Nat} {w : Writing}

/-- A step that leaves the store and has no effect. -/
theorem StepOk.silent {w' : Writing} (hsame : w'.toApiWrite = w.toApiWrite)
    (hs : w'.Sound env lost c n) :
    StepOk env lost writes c i n w (c, w', []) where
  same := hsame
  moves := .inl rfl
  serial := rfl
  sound := hs
  only _ _ := rfl
  pinned _ _ _ _ _ h := by cases h

theorem planAt_eq {rules : WriteRules} {planned : Planned} (hw : writes[i]? = some w.toApiWrite)
    (ht : w.target env = .ok target)
    (hp : w.plan env rules target (c.getWithMeta target.key) = .ok planned) :
    SerialOp.planAt env writes c i (c.getWithMeta target.key) rules = some (target.key,
      planned) := by
  simp [SerialOp.planAt, hw, ht, Except.toOption, hp]

variable {outcome : ApplyOutcome}

theorem settle_raced (w : Writing) (a : Attempt) (hop : outcome.op.committed = .ok .raced) :
    (∃ e, w.settle a (.ok outcome) = .answered (.error e)) ∨
      w.settle a (.ok outcome) = .reading a.target a.left := by
  simp only [settle, hop]
  split
  · exact .inl ⟨_, rfl⟩
  · split
    · exact .inl ⟨_, rfl⟩
    · exact .inr rfl

variable {a : Attempt}
variable {c' : ResourceCatalog} {cmd : ResourceCommand} {capacity : Nat}

theorem sound_settle_raced (ht : w.target env = .ok a.target)
    (hop : outcome.op.committed = .ok .raced) :
    ({ w with stage := w.settle a (.ok outcome) } : Writing).Sound env lost c' 0 := by
  rcases settle_raced w a hop with ⟨e, he⟩ | he
  · simp [he, Sound]
  · simpa [he, Sound] using ht

section
variable (hw : writes[i]? = some w.toApiWrite)
include hw
section
variable (ha : a.Sound env w.toApiWrite c) (hprop : Proposed a.target.key a.plan a.seen c cmd)
include ha hprop

/-- A proposal that was applied, with its answer or with that lost. -/
theorem applied_ok (hread : c.unreadableTouchedBy cmd = none)
    (t : Turn) {answer : Except ApiError ApplyOutcome} (hans : (∃ e, answer = .error e ∧ lost e) ∨
      answer = .ok (c.applyUnder env cmd .v1 t.term t.index).2) :
    StepOk env lost writes c i 0 w
      ((c.applyUnder env cmd .v1 t.term t.index).1, { w with stage := w.settle a answer },
        effect env c i a cmd t) := by
  have hmoves : ∃ op, (c.applyUnder env cmd .v1 t.term t.index).1 = (c.perform env op).1 :=
    ⟨.command cmd .v1 t.term t.index, rfl⟩
  obtain ⟨hop, hnone⟩ | ⟨hop, rfl, hfound⟩ :=
    hprop.raced_or_found env ha.lifecycle ha.seen hread .v1 t.term t.index
  · have heff : effect env c i a cmd t = [.raced t.term t.index] := by simp only [effect, hop]
    have hcat : (c.applyUnder env cmd .v1 t.term t.index).1 =
        { c with lastAppliedTerm := t.term, lastAppliedIndex := t.index } := by
      obtain ⟨-, -, hcat⟩ | ⟨first, rest, -, hsome, -⟩ :=
        c.applyUnder_cases env cmd .v1 t.term t.index
      · exact hcat
      · rw [hnone] at hsome
        cases hsome
    rw [heff]
    refine ⟨rfl, .inr hmoves, ?_, ?_, fun _ _ => rfl,
      fun j seen rules term index hm => by simp at hm⟩
    · rw [hcat]
      rfl
    · rcases hans with ⟨e, rfl, -⟩ | rfl
      · simp [settle, Sound, SerialOp.isOf]
      · exact sound_settle_raced ha.target hop
  · have heff : effect env c i a (a.plan.command a.target.key) t =
        [.write i a.seen a.rules t.term t.index] := by
      rcases hop with hop | hop <;> simp only [effect, hop]
    rw [heff]
    refine ⟨rfl, .inr hmoves, ?_, ?_, fun j hj => ?_, fun j seen rules term index hm => ?_⟩
    · have hplan : w.plan env a.rules a.target (c.getWithMeta a.target.key) =
          .ok (.write a.plan) := by
        rw [hfound]
        exact ha.plan
      have hat := planAt_eq hw ha.target hplan
      rw [hfound] at hat
      simp [SerialOp.apply, hat]
    · have hcount : [SerialOp.write i a.seen a.rules t.term t.index].countP
          (SerialOp.isOf i) = 1 := by
        simp [SerialOp.isOf]
      rw [hcount]
      rcases hans with ⟨e, rfl, he⟩ | rfl
      · simp [settle, Sound, he]
      · rcases hop with hop | hop <;> simp [settle, hop, Sound]
    · simp [SerialOp.isOf, hj]
    · simp only [mem_singleton] at hm
      obtain ⟨rfl, rfl, -⟩ := hm
      exact ⟨rfl, ha.preconditionMet⟩

/-- A proposal takes effect as its write run alone, or not at all. -/
theorem propose_ok (t : Turn)
    (hlost : ∀ text, t.failed = some (text, true) → lost (.storageError text)) :
    StepOk env lost writes c i 0 w
      ((c.propose env cmd t).1, { w with stage := w.settle a (c.propose env cmd t).2 },
        landing env c i a cmd t) := by
  cases hread : c.unreadableTouchedBy cmd with
  | some f =>
    simp only [propose, hread, landing, settle]
    exact .silent rfl (by simp [Sound])
  | none =>
    cases hfailed : t.failed with
    | none =>
      simp only [propose, hread, hfailed, landing, Option.isSome_none, Option.any_none,
        Bool.or_self, Bool.false_eq_true, if_false]
      exact applied_ok hw ha hprop hread t (.inr rfl)
    | some f =>
      obtain ⟨text, applied⟩ := f
      cases applied with
      | true =>
        simp only [propose, hread, hfailed, landing, Option.isSome_none, Option.any_some,
          Bool.not_true, Bool.or_self, Bool.false_eq_true, if_false, if_true]
        exact applied_ok hw ha hprop hread t (.inl ⟨_, rfl, hlost text hfailed⟩)
      | false =>
        simp only [propose, hread, hfailed, landing, Option.isSome_none, Option.any_some,
          Bool.not_false, Bool.or_true, Bool.false_eq_true, if_true, if_false, settle]
        exact .silent rfl (by simp [Sound])

end

theorem read_ok (hc : Reached env capacity c)
    (ht : w.target env = .ok target) (left : Nat) (rules : WriteRules) :
    StepOk env lost writes c i 0 w
      (match w.plan env rules target (c.getWithMeta target.key) with
      | .error e => (c, { w with stage := .answered (.error e) }, [])
      | .ok (.unchanged stored) =>
        (c, { w with stage := .answered (.ok (w.typed stored)) },
          [.kept i (c.getWithMeta target.key) rules])
      | .ok (.write p) =>
        if w.dryRun then (c, { w with stage := .answered (.ok (w.typed p.candidate)) }, [])
        else (c, { w with stage := .planned ⟨target, left, c.getWithMeta target.key, rules, p⟩ },
          [])) := by
  split
  · exact .silent rfl (by simp [Sound])
  · rename_i stored hplan
    refine ⟨rfl, .inl rfl, ?_, ?_, fun j hj => ?_, fun j seen rules term index hm => by simp at hm⟩
    · simp [SerialOp.apply, planAt_eq hw ht hplan]
    · simp [Sound, SerialOp.isOf]
    · simp [SerialOp.isOf, hj]
  · rename_i p hplan
    split
    · rename_i hdry
      exact .silent rfl (by simp [Sound, hdry])
    · obtain ⟨ops, rfl⟩ := hc
      refine .silent rfl ⟨⟨ht, hplan, Logged.seen env capacity ops target.key, ?_⟩, rfl⟩
      intro v m rv hseen hrv
      exact after_resourceVersion env capacity ops hseen hrv

theorem step_ok (hc : Reached env capacity c) (hs : w.Sound env lost c n) (t : WriteTurn)
    (hlost : ∀ text, t.proposal.failed = some (text, true) → lost (.storageError text)) :
    StepOk env lost writes c i n w (w.step env c i t) := by
  unfold step
  unfold Sound at hs
  split at hs
  · rename_i target left hstage
    obtain ⟨ht, rfl⟩ := hs
    rw [hstage]
    cases left with
    | zero => exact .silent rfl (by simp [Sound])
    | succ left => exact read_ok hw hc ht left t.rules
  · rename_i a hstage
    obtain ⟨ha, rfl⟩ := hs
    rw [hstage]
    exact .silent rfl ⟨ha, .stampBirths (ApiWrite.target_ok ha.target).1 ha.plan ha.seen
      t.stampedAt, rfl⟩
  · rename_i a cmd hstage
    obtain ⟨ha, hprop, rfl⟩ := hs
    rw [hstage]
    exact propose_ok hw ha hprop t.proposal hlost
  · rename_i key hstage
    subst hs
    rw [hstage]
    cases hget : c.get key with
    | some stored | none =>
      simp only [hget]
      exact .silent rfl (by simp [Sound])
  · rename_i v hstage
    rw [hstage]
    exact .silent rfl (by simpa [Sound, hstage] using hs)
  · rename_i e hstage
    rw [hstage]
    exact .silent rfl (by simpa [Sound, hstage] using hs)

end
end
end Writing

/-! ## Every run -/

namespace WriteRace

/-- The error stands for the answer to a proposal of the write `i` that was applied and whose answer
was lost, in one of the events. -/
def AnswerLost (events : List WriteEvent) (i : Nat) (e : ApiError) : Prop :=
  ∃ t text, .turn i t ∈ events ∧ t.proposal.failed = some (text, true) ∧ e = .storageError text

/-- The invariant of the race, over steps among the given events. -/
structure Sound (env : Env) (capacity : Nat) (first : ResourceCatalog) (writes : List ApiWrite)
    (events : List WriteEvent) (s : WriteRace) : Prop where
  reached : Reached env capacity s.cat
  serial : s.order.foldlM (SerialOp.apply env writes) first = some s.cat
  calls : s.calls.map Writing.toApiWrite = writes
  sound : ∀ i (w : Writing), s.calls[i]? = some w →
    w.Sound env (AnswerLost events i) s.cat (s.order.countP (SerialOp.isOf i))
  absent : ∀ i, s.calls[i]? = none → s.order.countP (SerialOp.isOf i) = 0
  pinned : ∀ i seen rules term index, .write i seen rules term index ∈ s.order →
    ∃ w, writes[i]? = some w ∧ PreconditionMet env w seen

variable {env : Env} {capacity : Nat} {first : ResourceCatalog} {writes : List ApiWrite}
  {events : List WriteEvent} {s : WriteRace}

theorem sound_start (hfirst : Reached env capacity first) :
    (start env first writes).Sound env capacity first writes events where
  reached := hfirst
  serial := rfl
  calls := by
    simp only [start, map_map]
    exact map_id'' (fun _ => rfl) writes
  sound i w hi := by
    obtain ⟨a, -, rfl⟩ := by simpa [start] using hi
    simp only [start]
    cases ht : a.target env with
    | error e | ok target => simp [Writing.start, Writing.Sound, ht]
  absent _ _ := rfl
  pinned _ _ _ _ _ h := by cases h

theorem Sound.other (h : s.Sound env capacity first writes events) (op : CatalogOp) :
    (s.step env (.other op)).Sound env capacity first writes events where
  reached := h.reached.perform op
  serial := by
    simp only [step, foldlM_append, h.serial]
    rfl
  calls := h.calls
  sound i w hi := by
    have hcount : (s.order ++ [SerialOp.other op]).countP (SerialOp.isOf i) =
        s.order.countP (SerialOp.isOf i) := by simp [SerialOp.isOf]
    simp only [step, hcount]
    exact (h.sound i w hi).perform op
  absent i hi := by simpa [step, SerialOp.isOf] using h.absent i hi
  pinned i seen rules term index hm := h.pinned i seen rules term index (by simpa [step] using hm)

theorem Sound.turn (h : s.Sound env capacity first writes events) {i : Nat} {t : WriteTurn}
    (ht : .turn i t ∈ events) :
    (s.step env (.turn i t)).Sound env capacity first writes events := by
  cases hi : s.calls[i]? with
  | none => simpa only [step, hi] using h
  | some w =>
    have hw : writes[i]? = some w.toApiWrite := by
      rw [← h.calls, List.getElem?_map, hi]
      rfl
    have hok := Writing.step_ok hw h.reached (h.sound i w hi) t fun text hf =>
      ⟨t, text, ht, hf, rfl⟩
    have hlt : i < s.calls.length := (List.getElem?_eq_some_iff.mp hi).1
    have hmoved : ∀ {I : ResourceCatalog → Prop}, (∀ op, I (s.cat.perform env op).1) → I s.cat →
        I (w.step env s.cat i t).1 := by
      intro I hperform hstay
      rcases hok.moves with he | ⟨op, he⟩
      · rwa [he]
      · rw [he]
        exact hperform op
    simp only [step, hi]
    refine ⟨hmoved h.reached.perform h.reached, ?_, ?_, fun j v hj => ?_, fun j hj => ?_,
      fun j seen rules term index hm => ?_⟩
    · rw [foldlM_append, h.serial]
      exact hok.serial
    · obtain ⟨hlt', hget⟩ := List.getElem?_eq_some_iff.mp hw
      rw [map_set, h.calls, hok.same, ← hget]
      exact set_getElem_self hlt'
    · rw [countP_append]
      by_cases hji : j = i
      · subst hji
        rw [List.getElem?_set_self hlt] at hj
        cases hj
        exact hok.sound
      · rw [List.getElem?_set_ne (Ne.symm hji)] at hj
        rw [hok.only j hji]
        exact hmoved (I := fun c => v.Sound env _ c _) (fun op => (h.sound j v hj).perform op)
          (h.sound j v hj)
    · have hji : j ≠ i := by
        rintro rfl
        simp [hlt] at hj
      rw [List.getElem?_set_ne (Ne.symm hji)] at hj
      rw [countP_append, hok.only j hji, h.absent j hj]
    · rcases mem_append.mp hm with hm | hm
      · exact h.pinned j seen rules term index hm
      · obtain ⟨rfl, hpre⟩ := hok.pinned j seen rules term index hm
        exact ⟨_, hw, hpre⟩

/-- From any state of the store, any writes, in any order of steps and with anything else happening
to the store in between: the store is what the effects in their order make of the first state, one
write at a time, each planned from the entry it replaced. Every write takes effect at most once, and
exactly once if it answers success and is no dry run. A write that answers an error took effect only
if the object was gone at its read back, or if the answer to its proposal was lost. A write that
commits was planned from the revision its body asked for. -/
theorem writes_serialize (env : Env) (capacity : Nat) (ops : List CatalogOp)
    (writes : List ApiWrite) (events : List WriteEvent) :
    let first := (Logged.after env capacity ops).cat
    let s := Run.exec (step env) (start env first writes) events
    s.order.foldlM (SerialOp.apply env writes) first = some s.cat ∧
    (∀ i, s.order.countP (SerialOp.isOf i) ≤ 1) ∧
    (∀ i (w : Writing) v, s.calls[i]? = some w → w.stage = .answered (.ok v) → w.dryRun = false →
      s.order.countP (SerialOp.isOf i) = 1) ∧
    (∀ i (w : Writing) e, s.calls[i]? = some w → w.stage = .answered (.error e) →
      s.order.countP (SerialOp.isOf i) = 1 → e = w.notReadBack ∨ AnswerLost events i e) ∧
    ∀ i seen rules term index, .write i seen rules term index ∈ s.order →
      ∃ w, writes[i]? = some w ∧ PreconditionMet env w seen := by
  intro first s
  have h : s.Sound env capacity first writes events := by
    refine Run.exec_inv_mem (fun s e he hs => ?_) (sound_start ⟨ops, rfl⟩)
    cases e with
    | turn i t => exact hs.turn he
    | other op => exact hs.other op
  refine ⟨h.serial, fun i => ?_, fun i w v hi hstage hdry => ?_,
    fun i w e hi hstage => ?_, h.pinned⟩
  · cases hi : s.calls[i]? with
    | none => rw [h.absent i hi]; exact Nat.zero_le 1
    | some w => exact (h.sound i w hi).le_one
  · have hs := h.sound i w hi
    rw [Writing.Sound, hstage] at hs
    exact hs.2 hdry
  · have hs := h.sound i w hi
    rw [Writing.Sound, hstage] at hs
    exact hs.2

/-! ## A commit that is not reported -/

/-- A replacement of the pod `web` with the given metadata. -/
def replaceWeb (md : JsonMap) : ApiWrite where
  handler := podWrites
  ns := some "default"
  name := "web"
  request := .replace (.obj [("metadata", .obj md)])
  now := someTime
  dryRun := false

def quietTurn (i index : Nat) : WriteEvent :=
  .turn i ⟨openRules, someTime, ⟨"t1", 1, index, none, none⟩⟩

/-- Whether a write that has its answer succeeded. -/
def succeeded (w : Writing) : Option Bool :=
  match w.stage with
  | .answered result => some result.toBool
  | _ => none

/-- The first replacement keeps the finalizer of a Terminating pod and commits revision 2; the
second, at revision 2, takes the finalizer, so that the pod is gone before the first reads it back.
The first answers an error. The second succeeds, and alone it would have been refused. -/
theorem commit_not_reported :
    let first := (Logged.after atomicEnv 4 [storeDying]).cat
    let keep := replaceWeb [("finalizers", .arr [.str "f"])]
    let release := replaceWeb [("resourceVersion", .str "2")]
    let s := Run.exec (step atomicEnv) (start atomicEnv first [keep, release])
      [quietTurn 0 2, quietTurn 0 2, quietTurn 0 2, quietTurn 1 3, quietTurn 1 3, quietTurn 1 3,
        quietTurn 0 4]
    s.calls.map succeeded = [some false, some true] ∧ s.cat.revision = 3 ∧ s.cat.get podKey = none ∧
    (first.get podKey).isSome = true ∧
    (release.plan atomicEnv openRules ⟨podKey, some 2⟩ (first.getWithMeta podKey)).toBool =
      false := by
  decide +kernel

end WriteRace
end Engenho
