import Engenho.Lib.UndoLog
import Engenho.Store.Runs

/-!
# Reads of the present and of the past

A read names how fresh its answer must be (`ReadConsistency`), and the catalog judges it against
its head and floor. The past is not stored: `rewind` starts from the live map and undoes every
retained change newer than the revision asked for, newest first, from the `prior` each change
carries.
-/

namespace Engenho
open OrdMap

/-- How fresh a read has to be. -/
inductive ReadConsistency where
  | latest
  | notOlderThan (rv : Nat)
  | exact (rv : Nat)
deriving DecidableEq, Repr

/-- Where a read is served from. -/
inductive ReadPoint where
  | head
  | past (rv : Nat)
deriving DecidableEq, Repr

/-- Why a read is refused. -/
inductive ReadRefused where
  | tooLarge (requested current : Nat)
  | expired (requested compacted : Nat)
  | secretUnreadable (fault : SealFault)
deriving DecidableEq

def ReadRefused.text : ReadRefused → String
  | .tooLarge requested current =>
    "Too large resource version: " ++ toString requested ++ ", current: " ++ toString current
  | .expired requested compacted =>
    "too old resource version: " ++ toString requested ++ " (" ++ toString compacted ++ ")"
  | .secretUnreadable fault => fault.text

/-- Where the read is served from, or why not. -/
def ReadConsistency.judge (rc : ReadConsistency) (head floor : Nat) :
    Except ReadRefused ReadPoint :=
  match rc with
  | .latest => .ok .head
  | .notOlderThan rv => if head < rv then .error (.tooLarge rv head) else .ok .head
  | .exact rv =>
    if head < rv then .error (.tooLarge rv head)
    else if rv < floor then .error (.expired rv floor)
    else if rv < head then .ok (.past rv)
    else .ok .head

/-! ## Pages -/

/-- A page and the revision it is of. -/
structure PageAtRevision where
  items : List (ResourceKey × ResourceValue)
  revision : Nat
  next : Option ResourceKey
  remaining : Nat
deriving DecidableEq

/-- One page of a run of entries; a limit of zero takes them all. -/
def pageOf (run : List (ResourceKey × ResourceValue)) (limit revision : Nat) : PageAtRevision :=
  if limit = 0 then ⟨run, revision, none, 0⟩
  else
    let items := run.take limit
    let remaining := (run.drop limit).length
    ⟨items, revision, if 0 < remaining then items.getLast?.map Prod.fst else none, remaining⟩

/-! ## The past -/

/-- An entry of a past state, live or undone. -/
inductive AsOf where
  | live (value : ResourceValue) (versionMeta : VersionMeta)
  | undone (value : ResourceValue) (change : Change)

def AsOf.value : AsOf → ResourceValue
  | .live value _ => value
  | .undone value _ => value

/-- Puts back what a change replaced. -/
def undoChange (selects : ResourceKey → Bool) (state : OrdMap ResourceKey AsOf) (ch : Change) :
    OrdMap ResourceKey AsOf :=
  if !selects ch.key then state
  else
    match ch.prior with
    | some value => state.insert ch.key (.undone value ch)
    | none => state.erase ch.key

/-- The entries before the newer changes. -/
def rewind (present : List (ResourceKey × (ResourceValue × VersionMeta))) (newer : List Change)
    (selects : ResourceKey → Bool) : OrdMap ResourceKey AsOf :=
  newer.reverse.foldl (undoChange selects)
    (.ofList (present.map fun e => (e.1, .live e.2.1 e.2.2)))

/-- How well the metadata of a past entry are known. -/
inductive MetaFidelity where
  | exact
  | modRevisionFloor
deriving DecidableEq, Repr

/-- An entry of a past state. -/
structure HistoricalEntry where
  value : ResourceValue
  versionMeta : VersionMeta
  fidelity : MetaFidelity
deriving DecidableEq

/-- An entry as it comes out of the rewind. An undone change gives the create revision only. -/
def HistoricalEntry.ofAsOf (floor : Nat) : AsOf → HistoricalEntry
  | .live value versionMeta => ⟨value, versionMeta, .exact⟩
  | .undone value change =>
    ⟨value, ⟨change.versionMeta.createRevision, floor, 1⟩, .modRevisionFloor⟩

/-- The newest retained change of a key at or before the revision gives its exact metadata. -/
def correctMeta (state : OrdMap ResourceKey HistoricalEntry) (ch : Change) :
    OrdMap ResourceKey HistoricalEntry :=
  match state.get ch.key with
  | some e => state.insert ch.key { e with versionMeta := ch.versionMeta, fidelity := .exact }
  | none => state

namespace ResourceCatalog

variable (c : ResourceCatalog)

variable (scope : ListScope) (after : Option ResourceKey) (limit : Nat) (key : ResourceKey)
  (rev : Nat) (rc : ReadConsistency)

/-- The state at a retained revision. -/
def stateAt : Except CompactedTooOld (OrdMap ResourceKey HistoricalEntry) := do
  let (through, after) ← c.history.split rev
  let state := (rewind c.resources.entries after fun _ => true).mapVal
    (HistoricalEntry.ofAsOf c.history.floor)
  return through.foldl correctMeta state

/-- An entry at a retained revision. -/
def getAt : Except CompactedTooOld (Option HistoricalEntry) :=
  (c.stateAt rev).map fun state => state.get key

/-- A page of the live state. -/
def listPageAtRevision : PageAtRevision :=
  pageOf ((scope.range c.resources after).map fun e => (e.1, e.2.1)) limit c.revision

/-- Where this catalog serves a read from. -/
def readPoint : Except ReadRefused ReadPoint :=
  rc.judge c.history.head c.history.floor

/-- The changes after `rv`, for a read. -/
def sinceRead (rv : Nat) : Except ReadRefused (List Change) :=
  match c.history.since rv with
  | .ok changes => .ok changes
  | .error e => .error (.expired e.requested e.compacted)

/-- A page at the revision asked for. -/
def readPage : Except ReadRefused PageAtRevision :=
  match (scope.range c.unreadable none).head? with
  | some (_, entry) => .error (.secretUnreadable entry.fault)
  | none => do
    match ← c.readPoint rc with
    | .head => return c.listPageAtRevision scope after limit
    | .past rev =>
      let past := rewind (scope.range c.resources none) (← c.sinceRead rev) scope.contains
      let run := past.entries.filter fun e => after.all fun cursor => cursor < e.1
      return pageOf (run.map fun e => (e.1, e.2.value)) limit rev

/-- An object at the revision asked for. -/
def readOne : Except ReadRefused (Option ResourceValue) :=
  match c.secretFault key with
  | some fault => .error (.secretUnreadable fault)
  | none => do
    match ← c.readPoint rc with
    | .head => return c.get key
    | .past rev =>
      let present := ((c.resources.get key).map fun e => (key, e)).toList
      let past := rewind present (← c.sinceRead rev) fun changed => changed = key
      return (past.get key).map AsOf.value

end ResourceCatalog

/-! ## What a rewind leaves -/

/-- The values of a live map. -/
def valuesOf (res : Resources) (key : ResourceKey) : Option ResourceValue :=
  (res.get key).map Prod.fst

variable {present : List (ResourceKey × (ResourceValue × VersionMeta))}

/-- An undone key has the prior of its first change; the others are live. -/
theorem rewind_get
    (hs : Assoc.Sorted present) (newer : List Change) (selects : ResourceKey → Bool)
    (key : ResourceKey) :
    (rewind present newer selects).get key =
      match if selects key then newer.find? (fun ch => ch.key = key) else none with
      | some ch => ch.prior.map fun v => .undone v ch
      | none => (present.lookup key).map fun e => .live e.1 e.2 := by
  unfold rewind
  rw [List.foldl_reverse]
  induction newer with
  | nil =>
    rw [List.foldr_nil, get_ofList (Assoc.Sorted.map (fun x => AsOf.live x.1 x.2) hs),
      Assoc.lookup_map (fun x : ResourceValue × VersionMeta => AsOf.live x.1 x.2)]
    cases selects key <;> rfl
  | cons ch newer ih =>
    rw [List.foldr_cons, undoChange]
    by_cases hk : key = ch.key
    · subst hk
      cases hsel : selects ch.key with
      | false => simpa [hsel] using ih
      | true => cases hp : ch.prior <;> simp [hp]
    · have hskip : (ch :: newer).find? (fun ch => ch.key = key) = newer.find? fun ch =>
          ch.key = key :=
        List.find?_cons_of_neg (by simpa [eq_comm] using hk)
      rw [hskip, ← ih]
      split
      · rfl
      · cases ch.prior with
        | some value => exact get_insert_ne _ hk _
        | none => exact get_erase_ne _ hk

/-- The code's rewind is the undo of the log of changes, on the keys it selects. -/
theorem rewind_value
    (hs : Assoc.Sorted present) (newer : List Change) (selects : ResourceKey → Bool)
    (key : ResourceKey) :
    ((rewind present newer selects).get key).map AsOf.value = if selects key then
        UndoLog.rewind Change.key Change.prior (fun k => (present.lookup k).map Prod.fst) newer key
      else (present.lookup key).map Prod.fst := by
  have hlive : ((present.lookup key).map fun e => AsOf.live e.1 e.2).map AsOf.value =
      (present.lookup key).map Prod.fst := by rw [Option.map_map]; rfl
  rw [rewind_get hs, UndoLog.rewind_apply]
  cases selects key with
  | false => exact hlive
  | true =>
    cases newer.find? fun ch => ch.key = key with
    | none => exact hlive
    | some ch => cases hp : ch.prior <;> simp [hp, AsOf.value]

variable (through : List Change) (state : OrdMap ResourceKey HistoricalEntry) (key : ResourceKey)

/-- The newest change of a key among those at or before the revision decides its metadata. -/
theorem correctMeta_get : (through.foldl correctMeta state).get key = (state.get key).map fun e =>
      match through.reverse.find? (fun ch => ch.key = key) with
      | some ch => { e with versionMeta := ch.versionMeta, fidelity := .exact }
      | none => e := by
  induction through using List.reverseRecOn with
  | nil => cases h : state.get key <;> simp [h]
  | append_singleton through ch ih =>
    rw [List.foldl_append, List.foldl_cons, List.foldl_nil, List.reverse_append,
      List.reverse_singleton, List.singleton_append, correctMeta]
    by_cases hk : ch.key = key
    · subst hk
      cases hs : state.get ch.key with
      | none => simp [ih, hs]
      | some e => cases hf : through.reverse.find? fun c => c.key = ch.key <;> simp [ih, hs, hf]
    · rw [List.find?_cons_of_neg (by simpa using hk), ← ih]
      split
      · exact get_insert_ne _ (Ne.symm hk) _
      · rfl

theorem correctMeta_value : ((through.foldl correctMeta state).get key).map HistoricalEntry.value =
      (state.get key).map HistoricalEntry.value := by
  rw [correctMeta_get, Option.map_map]
  refine congrArg (Option.map · _) (funext fun e => ?_)
  cases through.reverse.find? fun ch => ch.key = key <;> rfl

end Engenho
