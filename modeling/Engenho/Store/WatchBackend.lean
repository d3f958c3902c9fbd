import Engenho.Store.Runs

/-!
# The watch backend

A watcher is a bounded channel between the store and one consumer. The store's end is a handle in
the registry; it enqueues what the store commits and never waits: a full channel arms a terminal
`WatchGone.overflow` with the last revision enqueued, from which the consumer is to resume. The
consumer's end is the stream; it drains the channel and then reports the terminal, once.

Registering, committing and ticking all run under the catalog's lock, so the replay of the past and
the live tail meet without a gap. `Watcher` holds both ends of one channel. `WatchSystem` is the
store with every watcher it ever had, and `Session` adds what the consumer has been handed so far.
-/

namespace Engenho

/-- Why a watch ends. -/
inductive WatchGone where
  | compactedTooOld (requested compacted : Nat)
  | aheadOfStore (requested current : Nat)
  | overflow (capacity lastSeen : Nat)
deriving DecidableEq, Repr

/-- What the channel holds: a change whole, or a progress marker. -/
inductive ChangeSignal where
  | change (ch : Change)
  | bookmark (rev : Nat)
deriving DecidableEq

namespace ChangeSignal

def revision : ChangeSignal → Nat
  | .change ch => ch.revision
  | .bookmark rev => rev

def change? : ChangeSignal → Option Change
  | .change ch => some ch
  | .bookmark _ => none

end ChangeSignal

/-- The changes among some signals. -/
def changesOf (signals : List ChangeSignal) : List Change := signals.filterMap ChangeSignal.change?

/-- Times are in nanoseconds; a cadence of zero sends no bookmarks. -/
structure WatchOpts where
  from_ : Nat
  buffer : Nat
  bookmarkEvery : Nat
deriving DecidableEq, Repr

/-- The sending end of a watch. -/
structure WatcherHandle where
  boundary : Nat
  lastSeen : Nat
  capacity : Nat
  bookmarkEvery : Nat
  lastBookmarkAt : Nat
  lastBookmarkedRev : Option Nat
  overflowed : Bool
deriving DecidableEq, Repr

/-- The receiving end of a watch. -/
structure WatchStream where
  lastSeen : Nat
  terminalEmitted : Bool
  drainingForGone : Bool
deriving DecidableEq, Repr

/-- What a send came to. -/
inductive HandleSendOutcome where
  | sent
  | overflowed
  | closed
  | dead
deriving DecidableEq, Repr

def HandleSendOutcome.shouldReap : HandleSendOutcome → Bool
  | .sent => false
  | _ => true

/-- Why the channel refuses. -/
inductive TrySendError where
  | full
  | closed
deriving DecidableEq, Repr

/-- One channel with both its ends. `registered` says that the handle is in the registry, `dropped`
that the consumer has let go of the stream. -/
structure Watcher where
  handle : WatcherHandle
  registered : Bool
  queue : List ChangeSignal
  dropped : Bool
  gone : Option WatchGone
  stream : WatchStream
deriving DecidableEq

namespace Watcher

/-! ## The store's end -/

variable (w : Watcher)

/-- Sends into the bounded channel. -/
def trySend (signal : ChangeSignal) : Except TrySendError Watcher :=
  if w.dropped then .error .closed
  else if w.handle.capacity ≤ w.queue.length then .error .full
  else .ok { w with queue := w.queue ++ [signal] }

/-- Arms the terminal unless it is armed. -/
def arm (reason : WatchGone) : Watcher :=
  { w with gone := w.gone.orElse fun _ => some reason }

def see (rev : Nat) : Watcher :=
  { w with handle := { w.handle with lastSeen := max w.handle.lastSeen rev } }

/-- Sends, and ends the watch if the channel is full. -/
def tryEnqueue (signal : ChangeSignal) : Watcher × HandleSendOutcome :=
  if w.handle.overflowed then (w, .dead)
  else
    match w.trySend signal with
    | .ok w => (w.see signal.revision, .sent)
    | .error .full =>
      let w := w.arm (.overflow w.handle.capacity w.handle.lastSeen)
      ({ w with handle := { w.handle with overflowed := true } }, .overflowed)
    | .error .closed => (w, .closed)

/-- The replay, until something is not sent. -/
def feed (w : Watcher) : List Change → Watcher
  | [] => w
  | ch :: replay =>
    match w.tryEnqueue (.change ch) with
    | (w, .sent) => w.feed replay
    | (w, _) => w

/-- A new channel with its handle; the consumer has seen everything up to the resume point. -/
def fresh (boundary : Nat) (opts : WatchOpts) (now : Nat) : Watcher where
  handle := {
    boundary
    lastSeen := opts.from_
    capacity := max opts.buffer 1
    bookmarkEvery := opts.bookmarkEvery
    lastBookmarkAt := now
    lastBookmarkedRev := none
    overflowed := false }
  registered := true
  queue := []
  dropped := false
  gone := none
  stream := ⟨opts.from_, false, false⟩

/-- The replay goes into the channel before the handle is in the registry. -/
def registerShared (replay : List Change) (boundary : Nat) (opts : WatchOpts) (now : Nat) :
    Watcher :=
  (fresh boundary opts now).feed replay

/-- Opens a watch, with what it has missed. -/
def register (c : ResourceCatalog) (opts : WatchOpts) (now : Nat) : Except WatchGone Watcher :=
  if c.revision < opts.from_ then .error (.aheadOfStore opts.from_ c.revision)
  else
    match c.history.since opts.from_ with
    | .error e => .error (.compactedTooOld e.requested e.compacted)
    | .ok replay => .ok (registerShared replay c.revision opts now)

/-- What one committed change does to one watcher of the registry. -/
def fanShared (ch : Change) : Watcher :=
  if !w.registered || ch.revision ≤ w.handle.boundary then w
  else
    let (w, outcome) := w.tryEnqueue (.change ch)
    { w with registered := !outcome.shouldReap }

/-- A bookmark, when it is due. -/
def tickBookmark (current now : Nat) : Watcher :=
  if !w.registered then w
  else if w.handle.overflowed then { w with registered := false }
  else
    let due := w.handle.bookmarkEvery ≠ 0 && w.handle.bookmarkEvery ≤ now - w.handle.lastBookmarkAt
    if !due || w.handle.lastBookmarkedRev = some current then w
    else
      match w.trySend (.bookmark current) with
      | .ok w =>
        let w := w.see current
        { w with
          handle := { w.handle with lastBookmarkedRev := some current, lastBookmarkAt := now } }
      | .error .full => w
      | .error .closed => { w with registered := false }

/-! ## The consumer's end -/

/-- What a poll of the stream gives: nothing yet, the end, or a signal or terminal. -/
inductive Poll where
  | pending
  | ended
  | ready (item : Except WatchGone ChangeSignal)
deriving DecidableEq

def account (signal : ChangeSignal) : Watcher :=
  { w with stream := { w.stream with lastSeen := max w.stream.lastSeen signal.revision } }

/-- A signal off the channel. -/
def tryRecv : Option (ChangeSignal × Watcher) :=
  match w.queue with
  | [] => none
  | signal :: queue => some (signal, { w with queue })

def nextWhileDraining : Watcher × Except WatchGone ChangeSignal :=
  match w.tryRecv with
  | some (signal, w) => (w.account signal, .ok signal)
  | none =>
    ({ w with gone := none, stream := { w.stream with terminalEmitted := true } },
      .error (w.gone.getD (.overflow 0 w.stream.lastSeen)))

/-- The channel is empty: still open, closed, or over. -/
def closeOrGone : Watcher × Poll :=
  match w.gone with
  | some gone =>
    ({ w with gone := none, stream := { w.stream with terminalEmitted := true } },
      .ready (.error gone))
  | none => (w, .ended)

/-- One poll of `next_change`. A channel without a sender ends when it is drained. -/
def nextChange : Watcher × Poll :=
  if w.stream.terminalEmitted then (w, .ended)
  else if w.stream.drainingForGone || w.gone.isSome then
    let w := { w with stream := { w.stream with drainingForGone := true } }
    let (w, item) := w.nextWhileDraining
    (w, .ready item)
  else
    match w.tryRecv with
    | some (signal, w) => (w.account signal, .ready (.ok signal))
    | none => if w.registered then (w, .pending) else w.closeOrGone

end Watcher

/-! ## Watchers and the store -/

/-- A watcher with what its consumer was handed: the signals, and the terminal. -/
structure Session where
  from_ : Nat
  watcher : Watcher
  received : List ChangeSignal
  ended : Option WatchGone
deriving DecidableEq

namespace Session

variable (s : Session)

/-- The changes the stream has delivered. -/
def delivered : List Change := changesOf s.received

/-- Everything that went into the channel. -/
def signals : List ChangeSignal := s.received ++ s.watcher.queue

def opened (from_ : Nat) (watcher : Watcher) : Session := ⟨from_, watcher, [], none⟩

/-- Every change of a commit, in order. -/
def fan (chs : List Change) : Session :=
  { s with watcher := chs.foldl Watcher.fanShared s.watcher }

def tick (current now : Nat) : Session :=
  { s with watcher := s.watcher.tickBookmark current now }

/-- The consumer polls its stream, if it still has it. -/
def next : Session :=
  if s.watcher.dropped then s
  else
    let (watcher, poll) := s.watcher.nextChange
    match poll with
    | .ready (.ok signal) => { s with watcher, received := s.received ++ [signal] }
    | .ready (.error gone) => { s with watcher, ended := some gone }
    | .pending => { s with watcher }
    | .ended => { s with watcher }

def drop : Session := { s with watcher := { s.watcher with dropped := true } }
end Session

/-- A store and its watches. -/
structure WatchSystem where
  store : Logged
  sessions : List Session

/-- One event under the lock, or at one consumer. -/
inductive WatchStep where
  | commit (op : CatalogOp)
  | register (opts : WatchOpts) (now : Nat)
  | tick (now : Nat)
  | next (i : Nat)
  | drop (i : Nat)
deriving DecidableEq, Repr

namespace WatchSystem

def init (capacity : Nat) : WatchSystem := ⟨.init capacity, []⟩

/-- One step of the store and its watches. -/
def step (env : Env) (s : WatchSystem) : WatchStep → WatchSystem
  | .commit op =>
    ⟨s.store.step env op, s.sessions.map fun v => v.fan (s.store.cat.perform env op).2⟩
  | .register opts now =>
    match Watcher.register s.store.cat opts now with
    | .ok w => { s with sessions := s.sessions ++ [.opened opts.from_ w] }
    | .error _ => s
  | .tick now => { s with sessions := s.sessions.map fun v => v.tick s.store.cat.revision now }
  | .next i => { s with sessions := s.sessions.modify i Session.next }
  | .drop i => { s with sessions := s.sessions.modify i Session.drop }

/-- The system after a run from an empty store. -/
def after (env : Env) (capacity : Nat) (steps : List WatchStep) : WatchSystem :=
  Run.exec (step env) (init capacity) steps

end WatchSystem
end Engenho
