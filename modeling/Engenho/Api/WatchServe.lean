import Engenho.Store.WatchBackend
import Engenho.Api.ListPage

/-!
# Serving a watch

The router turns a store watch into lines for one client. The store has one watch for all kinds; the
router drops what is not of its handler's kind, not in the namespace, or not selected, and forwards
the rest as events. When the store stops serving the watch, `WatchProgress.after` says whether the
router goes on by itself or how the response ends.

`ListWatch` is the store with one such client: it lists, watches from the newest resourceVersion it
was sent, applies the events, and watches again when the response ends. Commits fall anywhere
between its steps.
-/

namespace Engenho

/-! ## Events -/

/-- The type of an event. -/
inductive WatchEventKind where
  | added
  | modified
  | deleted
  | bookmark
deriving DecidableEq, Repr

/-- Which images of its object a change has. -/
inductive ChangeShape where
  | created
  | updated
  | deleted
deriving DecidableEq, Repr

variable (rv : Nat) (ch : Change) (h : StoreBackedHandler)

/-- Created, updated or deleted. -/
def ChangeShape.of : ChangeShape :=
  match ch.kind, ch.prior with
  | .delete, _ => .deleted
  | .put, none => .created
  | .put, some _ => .updated

def ChangeShape.unfiltered : ChangeShape → WatchEventKind
  | .created => .added
  | .updated => .modified
  | .deleted => .deleted

/-- An event of a watch. -/
structure WatchEvent where
  kind : WatchEventKind
  object : Json
  key : ResourceKey
  resourceVersion : Nat
deriving DecidableEq

def watchEventFromChange : WatchEvent :=
  ⟨(ChangeShape.of ch).unfiltered, ch.value, ch.key, ch.revision⟩

def StoreBackedHandler.apiVersion : String :=
  if h.group = "" then h.version else h.group ++ "/" ++ h.version

/-- Adds the kind and version that an object does not declare itself. -/
def stampTypeMeta : Json → Json
  | .obj m =>
    let entry (k : String) (v : String) (m : JsonMap) : JsonMap :=
      if (m.lookup k).isSome then m else Assoc.put k (.str v) m
    .obj (entry "apiVersion" h.apiVersion (entry "kind" h.kind m))
  | v => v

/-- One line of the response. A client knows an object by the namespace and name of its metadata;
here the line has the key beside the object. -/
inductive WatchLine where
  | event (kind : WatchEventKind) (key : ResourceKey) (object : Json)
  | bookmark (rev : Nat) (initialEventsEnd : Bool)
  | error (code : Nat) (reason message : String) (retryAfterSeconds : Option Nat)
deriving DecidableEq

/-! ## How a watch starts -/

/-- Where a watch starts. -/
inductive ResumePoint where
  | mostRecent
  | at_ (rev : Nat)
deriving DecidableEq, Repr

/-- The resume point of a `resourceVersion` parameter that is a decimal number. -/
def resumePoint : ResumePoint := if rv = 0 then .mostRecent else .at_ rv

/-- What a watch sends before its first change. -/
inductive InitialEvents where
  | none
  | snapshot (endBookmark : Bool)
deriving DecidableEq, Repr

/-- A watch from "0" that names no `sendInitialEvents` begins with the present state. -/
def watchInitialEvents (allowWatchBookmarks : Bool) : InitialEvents :=
  if rv = 0 then .snapshot allowWatchBookmarks else .none

/-- Why a watch is not opened. -/
inductive WatchRefusal where
  | aheadOfStore (requested current : Nat)
  | compacted (requested compacted : Nat)
deriving DecidableEq, Repr

namespace WatchRefusal

def text : WatchRefusal → String
  | .aheadOfStore requested current =>
    "Too large resource version: " ++ toString requested ++ ", current: " ++ toString current
  | .compacted requested floor =>
    "too old resource version: " ++ toString requested ++ " (" ++ toString floor ++ ")"

def statusLine (r : WatchRefusal) : WatchLine := .error 410 "Expired" r.text none

def aheadOf (from_ : ResumePoint) (current : Nat) : Option WatchRefusal :=
  match from_ with
  | .at_ requested => if current < requested then some (.aheadOfStore requested current) else none
  | .mostRecent => none

/-- The refusal of a watch that ended at once. -/
def fromWatchGone (gone : WatchGone) : Except WatchGone WatchRefusal :=
  match gone with
  | .compactedTooOld requested floor => .ok (.compacted requested floor)
  | .aheadOfStore requested current =>
    match aheadOf (.at_ requested) current with
    | some refusal => .ok refusal
    | none => .error gone
  | .overflow _ _ => .error gone

end WatchRefusal

def WatchGone.text : WatchGone → String
  | .compactedTooOld requested compacted =>
    "requested revision " ++ toString requested ++ " compacted (compaction floor " ++
      toString compacted ++ ")"
  | .aheadOfStore requested current =>
    "requested revision " ++ toString requested ++ " is ahead of the store (current revision " ++
      toString current ++ ")"
  | .overflow capacity lastSeen =>
    "watcher overflowed its buffer (capacity " ++ toString capacity ++
      "); resume from last_seen " ++
      toString lastSeen

/-- What a watch request comes to. -/
inductive WatchStart where
  | streaming (from_ : Nat) (watcher : Watcher)
  | refused (refusal : WatchRefusal)

/-- What a client asks for, with the buffer and bookmark cadence of the server. -/
structure WatchRequest where
  handler : StoreBackedHandler
  ns : Option String
  selectors : Selectors
  bookmarks : Bool
  buffer : Nat
  bookmarkEvery : Nat
deriving DecidableEq, Repr

namespace WatchRequest

def scope (req : WatchRequest) : ListScope := req.handler.scope req.ns

def opts (req : WatchRequest) (from_ : Nat) : WatchOpts :=
  ⟨from_, req.buffer, if req.bookmarks then req.bookmarkEvery else 0⟩

/-- The handler's `watch_stream`. The revision it reads first only grows until the store registers
the watcher, so a resume point it lets through is not ahead of the store then either. It fails with
the text of a storage error, and only for a store that reports an overflow at registration. -/
def watchStream (req : WatchRequest) (c : ResourceCatalog) (from_ : ResumePoint) (now : Nat) :
    Except String WatchStart :=
  match WatchRefusal.aheadOf from_ c.revision with
  | some refusal => .ok (.refused refusal)
  | none =>
    let fromRev := match from_ with
      | .at_ rev => rev
      | .mostRecent => c.revision
    match Watcher.register c (req.opts fromRev) now with
    | .ok w => .ok (.streaming fromRev w)
    | .error gone =>
      match WatchRefusal.fromWatchGone gone with
      | .ok refusal => .ok (.refused refusal)
      | .error other => .error other.text

end WatchRequest

/-- The line of a store that could not open a watch at all. -/
def storageErrorLine (text : String) : WatchLine :=
  .error 500 "ServiceUnavailable" ("storage error: " ++ text) none

/-! ## How a watch ends -/

/-- How far a served watch is. -/
structure WatchProgress where
  start : Nat
  delivered : Nat
  openedAt : Nat
  bookmarks : Bool
deriving DecidableEq, Repr

/-- How a served watch ends. -/
inductive WatchEnd where
  | compacted (requested compacted : Nat)
  | progressed (resume : Nat) (bookmark : Bool)
  | noProgress (start : Nat)
  | refused (refusal : WatchRefusal)
deriving DecidableEq, Repr

/-- What the router does when the store stops serving a watch. -/
inductive AfterGone where
  | resume (at_ : Nat)
  | end_ (e : WatchEnd)
deriving DecidableEq, Repr

def noProgressRetryAfterSeconds : Nat := 1

/-- The last line of a watch. -/
def WatchEnd.finalLine : WatchEnd → Option WatchLine
  | .compacted requested floor => some (WatchRefusal.compacted requested floor).statusLine
  | .progressed resume bookmark => if bookmark then some (.bookmark resume false) else none
  | .noProgress start =>
    some (.error 429 "TooManyRequests"
      ("watch fell behind before anything after resource version " ++
      toString start ++ " was delivered; retry the watch from " ++ toString start)
      (some noProgressRetryAfterSeconds))
  | .refused refusal => some refusal.statusLine

namespace WatchProgress

def new (start : Nat) (bookmarks : Bool) : WatchProgress := ⟨start, start, start, bookmarks⟩

variable (p : WatchProgress)

def forwardsBookmark (rev : Nat) : Bool := p.bookmarks && p.start < rev

def deliver (rev : Nat) : WatchProgress := { p with delivered := max p.delivered rev }

def resumed (at_ : Nat) : WatchProgress := { p with openedAt := max p.openedAt at_ }

/-- Resume by itself, or end. -/
def after (gone : WatchGone) : AfterGone :=
  match gone with
  | .compactedTooOld requested floor => .end_ (.compacted requested floor)
  | .aheadOfStore _ _ =>
    match WatchRefusal.fromWatchGone gone with
    | .ok refusal => .end_ (.refused refusal)
    | .error _ => .end_ (.noProgress p.start)
  | .overflow _ lastSeen =>
    let resume := if p.bookmarks then max lastSeen p.delivered else p.delivered
    if p.start < resume then .end_ (.progressed resume p.bookmarks)
    else if p.openedAt < lastSeen then .resume lastSeen
    else .end_ (.noProgress p.start)

end WatchProgress

/-! ## The client -/

/-- `metadata.resourceVersion`, as a client reads it off an object. -/
def rvOf (object : Json) : Option Nat :=
  ((metaField "resourceVersion" object).bind Json.asStr).bind parseUsize

/-- The resourceVersion a line tells its client. -/
def WatchLine.rev : WatchLine → Nat
  | .event _ _ object => (rvOf object).getD 0
  | .bookmark rev _ => rev
  | .error _ _ _ _ => 0

/-- The view after a line. -/
def WatchLine.applyTo (view : OrdMap ResourceKey Json) : WatchLine → OrdMap ResourceKey Json
  | .event .added key object => view.insert key object
  | .event .modified key object => view.insert key object
  | .event .deleted key _ => view.erase key
  | _ => view

/-- What a client holds: its view, and the newest resourceVersion it was sent. The two counts are of
the store's log. `sent` says how much of it the client has been sent from its beginning, as events,
as filtered out, or in a list; `position` says how much the present stream is past. -/
structure WatchClient where
  view : OrdMap ResourceKey Json
  newest : Nat
  sent : Nat
  position : Nat

namespace WatchClient

variable (c : WatchClient)

/-- The client after a line. -/
def receive (line : WatchLine) : WatchClient :=
  { c with view := line.applyTo c.view, newest := max c.newest line.rev }

/-- The next change of the log went to the client or was filtered out. -/
def pass : WatchClient :=
  { c with sent := if c.position = c.sent then c.sent + 1 else c.sent, position := c.position + 1 }

/-- A stream opens behind the first `n` changes. -/
def resumeAt (n : Nat) : WatchClient := { c with position := n }

/-- The client was sent the state behind the first `n` changes. -/
def snapshotAt (n : Nat) : WatchClient := { c with sent := max c.sent n, position := n }
end WatchClient

/-- Where the response of the client's watch is: none is open; its initial events are read and the
stream is not open yet; streaming; or the router is about to open the store watch again. -/
inductive WatchConn where
  | closed
  | opening (from_ : ResumePoint) (prelude : Option (List WatchLine))
  | streaming (session : Session) (progress : WatchProgress)
  | reopening (at_ : Nat) (progress : WatchProgress)

/-- A store, a client, and its watch. -/
structure ListWatch where
  store : Logged
  client : Option WatchClient
  conn : WatchConn

/-- A step of the store, the router or the client. -/
inductive ListWatchStep where
  | commit (op : CatalogOp)
  | tick (now : Nat)
  | list
  | watch
  | serve (now : Nat)
  | close
deriving DecidableEq, Repr

namespace WatchRequest

variable (req : WatchRequest) (c : ResourceCatalog)

/-- The objects of a LIST with their keys. -/
def listed : Items :=
  ((c.listed req.scope).filter fun e => req.selectors.matches e.2).map fun e =>
    (e.1, stripTypeMeta e.2)

variable (rv : Nat) (client : WatchClient) (progress : WatchProgress) (ch : Change)

/-- The lines in front of a stream at `rv` that begins with the present state. -/
def prelude (endBookmark : Bool) : List WatchLine :=
  (req.listed c).map (fun e => WatchLine.event .added e.1 (stampTypeMeta req.handler e.2)) ++
    if endBookmark then [.bookmark rv true] else []

/-- The first part of the router's `watch_response`, up to the opening of the stream. -/
def start : Except ApiError WatchConn :=
  match watchInitialEvents rv req.bookmarks with
  | .none => .ok (.opening (resumePoint rv) none)
  | .snapshot endBookmark => do
    let (_, snapshotRv) ← req.handler.listAt c req.ns req.selectors
    match WatchRefusal.aheadOf (resumePoint rv) snapshotRv with
    -- the response is the refusal's line and nothing else
    | some _ => return .closed
    | none => return .opening (.at_ snapshotRv) (some (req.prelude c snapshotRv endBookmark))

/-- The filter of the loop. It asks about `value`: the image behind a write, the tombstone of a
delete. -/
def forwards : Bool :=
  let ev := watchEventFromChange ch
  gvkNsMatches ev.key req.scope && req.selectors.matches ev.object

/-- The loop's turn with an event. -/
def serveChange : WatchClient × WatchProgress :=
  let ev := watchEventFromChange ch
  if req.forwards ch then
    (client.pass.receive (.event ev.kind ev.key (stampTypeMeta req.handler ev.object)),
      progress.deliver ev.resourceVersion)
  else (client.pass, progress)

def serveBookmark (rev : Nat) : WatchClient × WatchProgress :=
  if progress.forwardsBookmark rev then (client.receive (.bookmark rev false), progress.deliver rev)
  else (client, progress)

end WatchRequest

/-- The changes of the log that a stream from `rev` starts behind. -/
def covered (log : List Change) (rev : Nat) : Nat := (Stamped.upTo Change.revision rev log).length

def WatchClient.receiveAll (c : WatchClient) (lines : List WatchLine) : WatchClient :=
  lines.foldl WatchClient.receive c

namespace WatchConn

/-- A commit reaches the store's end of the stream, if there is one. -/
def fan (conn : WatchConn) (chs : List Change) : WatchConn :=
  match conn with
  | .streaming session progress => .streaming (session.fan chs) progress
  | conn => conn

def tick (conn : WatchConn) (current now : Nat) : WatchConn :=
  match conn with
  | .streaming session progress => .streaming (session.tick current now) progress
  | conn => conn

end WatchConn

namespace ListWatch

def init (capacity : Nat) : ListWatch := ⟨.init capacity, none, .closed⟩

/-- One poll of the stream, with the loop's turn on what it gives. -/
def poll (req : WatchRequest) (client : WatchClient) (session : Session)
    (progress : WatchProgress) :
    WatchClient × WatchConn :=
  match session.watcher.nextChange.2 with
  | .pending => (client, .streaming session.next progress)
  | .ended => (client, .closed)
  | .ready (.ok (.change ch)) =>
    let (client, progress) := req.serveChange client progress ch
    (client, .streaming session.next progress)
  | .ready (.ok (.bookmark rev)) =>
    let (client, progress) := WatchRequest.serveBookmark client progress rev
    (client, .streaming session.next progress)
  | .ready (.error gone) =>
    match progress.after gone with
    | .resume at_ => (client, .reopening at_ progress)
    | .end_ e => (client.receiveAll e.finalLine.toList, .closed)

/-- What the server does next for the client. -/
def serve (req : WatchRequest) (store : Logged) (client : WatchClient) (conn : WatchConn)
    (now : Nat) :
    WatchClient × WatchConn :=
  match conn with
  | .closed => (client, .closed)
  | .opening from_ prelude =>
    match req.watchStream store.cat from_ now with
    | .ok (.streaming from_ w) =>
      let n := covered store.log from_
      let client := match prelude with
        | none => client.resumeAt n
        | some lines => (client.receiveAll lines).snapshotAt n
      (client, .streaming (.opened from_ w) (.new w.stream.lastSeen req.bookmarks))
    | .ok (.refused refusal) => (client.receive refusal.statusLine, .closed)
    | .error _ => (client, .closed)
  | .streaming session progress => poll req client session progress
  | .reopening at_ progress =>
    match req.watchStream store.cat (.at_ at_) now with
    | .ok (.streaming from_ w) =>
      (client.resumeAt (covered store.log from_),
        .streaming (.opened from_ w) (progress.resumed at_))
    | .ok (.refused refusal) => (client.receive refusal.statusLine, .closed)
    | .error e => (client.receive (storageErrorLine e), .closed)

/-- A client lists when it has no watch open, and watches from the newest resourceVersion it was
sent. `close` is the deadline of the request. -/
def step (env : Env) (req : WatchRequest) (s : ListWatch) : ListWatchStep → ListWatch
  | .commit op =>
    { s with store := s.store.step env op, conn := s.conn.fan (s.store.cat.perform env op).2 }
  | .tick now => { s with conn := s.conn.tick s.store.cat.revision now }
  | .list =>
    match s.conn, req.handler.listAt s.store.cat req.ns req.selectors with
    | .closed, .ok (_, rv) =>
      let n := s.store.log.length
      { s with client := some ⟨.ofList (req.listed s.store.cat), rv, n, n⟩ }
    | _, _ => s
  | .watch =>
    match s.conn, s.client with
    | .closed, some client =>
      match req.start s.store.cat client.newest with
      | .ok conn => { s with conn }
      | .error _ => s
    | _, _ => s
  | .serve now =>
    match s.client with
    | some client =>
      let (client, conn) := serve req s.store client s.conn now
      { s with client := some client, conn }
    | none => s
  | .close =>
    match s.conn with
    | .streaming _ _ => { s with conn := .closed }
    | _ => s

/-- The state after a run from an empty store. -/
def after (env : Env) (req : WatchRequest) (capacity : Nat) (steps : List ListWatchStep) :
    ListWatch :=
  Run.exec (step env req) (init capacity) steps

end ListWatch
end Engenho
