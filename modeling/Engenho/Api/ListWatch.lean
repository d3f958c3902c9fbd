import Engenho.Api.ClientView

/-!
# A client that lists and watches

A client that has been sent everything up to a revision `q` holds exactly the selected objects of
its scope in the store at `q`, along every run whose steps meet `ListWatch.Orderly`
(`ListWatch.view_exact`). Without the condition it is not so: the filter of the served watch asks
about the image behind a change, so an update that takes an object out of the selectors is filtered
out as a whole and the object stays in the view (`relabelled_stays`).

`WatchConn.Serves` says where the open response is in the log; every step of the store, the server
and the client keeps it.
-/

namespace Engenho
open Stamped Change Session WatchRequest WatchClient Watcher List
variable {req : WatchRequest} {log chs : List Change} {head head' : Nat} {c : WatchClient}
variable {rev : Nat} {cat : ResourceCatalog} {store : Logged} {conn : WatchConn}

theorem covered_append (h : ∀ ch ∈ chs, rev < ch.revision) :
    covered (log ++ chs) rev = covered log rev := by
  rw [covered, upTo_append, upTo_eq_nil h, append_nil, covered]

/-- Everything the client has not been sent is newer than what it was told. -/
def WatchClient.Behind (log : List Change) (c : WatchClient) : Prop :=
  ∀ ch ∈ log.drop c.position, c.newest < ch.revision

/-! ## A stream -/

/-- An open stream: where it is in the log, and that the client was told no more than it
enqueued. -/
structure Streams (log : List Change) (head : Nat) (c : WatchClient) (session : Session)
    (progress : WatchProgress) : Prop where
  follows : session.Follows log head
  resumable : session.Resumable log head
  notEnded : session.ended = none
  held : session.watcher.dropped = false
  position : c.position = covered log session.from_ + session.delivered.length
  newest_le : c.newest ≤ session.watcher.handle.lastSeen
  delivered_le : progress.delivered ≤ session.watcher.handle.lastSeen
  ahead : ∀ ch ∈ log.drop c.position, c.newest ≤ ch.revision

variable {now : Nat} {w : Watcher} {stream : WatchStream}
namespace Streams
variable {session : Session} {progress : WatchProgress}
section
variable (h : Streams log head c session progress)
include h

/-- A stream that is not live has overflowed and will say so. -/
theorem overflowed (hl : session.watcher.live = false) :
    ∃ cap last, session.watcher.gone = some (.overflow cap last) := by
  have ho : session.watcher.handle.overflowed = true := by
    rcases h.follows.kept h.held with hr | ho
    · simpa [live, hr, h.held] using hl
    · exact ho
  rcases h.follows.armed.mpr ho with hg | ht
  · obtain ⟨gone, hgone⟩ := Option.isSome_iff_exists.mp hg
    obtain ⟨cap, last, rfl⟩ := h.follows.overflow gone hgone
    exact ⟨cap, last, hgone⟩
  · have hend := h.follows.emitted ht
    rw [h.notEnded] at hend
    cases hend

theorem drop_position (ho : Ordered revision log) :
    log.drop c.position = (above revision session.from_ log).drop session.delivered.length := by
  rw [h.position, ← drop_drop, covered, ho.drop_upTo]

/-- What the client has not been sent: what is buffered, and behind it what came after an
overflow. -/
theorem rest (ho : Ordered revision log) :
    ∃ rest, log.drop c.position = changesOf session.watcher.queue ++ rest ∧
      (∀ ch ∈ rest, session.watcher.handle.lastSeen < ch.revision) ∧
      (session.watcher.live = true → rest = []) := by
  have hsignals : changesOf session.signals = session.delivered ++
      changesOf session.watcher.queue := by
    rw [signals, changesOf_append]
    rfl
  cases hl : session.watcher.live with
  | true =>
    refine ⟨[], ?_, by simp, fun _ => rfl⟩
    rw [h.drop_position ho, ← h.follows.complete hl, hsignals, drop_left, append_nil]
  | false =>
    obtain ⟨cap, last, hg⟩ := h.overflowed hl
    obtain ⟨rfl, -, hres⟩ := h.resumable.gone cap last hg
    refine ⟨above revision session.watcher.handle.lastSeen log, ?_,
      fun ch hch => (mem_above.mp hch).2, fun hlive => (by cases hlive)⟩
    rw [h.drop_position ho, ← hres, hsignals, append_assoc, drop_left]

theorem behind_of_queue (ho : Ordered revision log)
    (hq : ∀ ch ∈ changesOf session.watcher.queue, c.newest < ch.revision) : c.Behind log := by
  obtain ⟨rest, hdrop, hrest, -⟩ := h.rest ho
  intro ch hch
  rw [hdrop] at hch
  rcases mem_append.mp hch with hch | hch
  · exact hq ch hch
  · exact h.newest_le.trans_lt (hrest ch hch)

theorem commit (hc : Commits head head' chs) (hfit : session.FitsWhole chs) (hn : c.newest ≤ head)
    (hp : c.position ≤ log.length) : Streams (log ++ chs) head' c (session.fan chs) progress := by
  obtain ⟨hd, hseen⟩ := session.watcher.fan_keeps chs
  refine ⟨h.follows.fan hc, h.resumable.fan h.follows hc hfit, h.notEnded, hd.trans h.held, ?_,
    h.newest_le.trans hseen, h.delivered_le.trans hseen, ?_⟩
  · have hcov : covered (log ++ chs) session.from_ = covered log session.from_ :=
      covered_append fun ch hch => h.follows.from_le.2.trans_lt (hc.new ch hch)
    exact h.position.trans (congrArg (· + session.delivered.length) hcov.symm)
  · intro ch hch
    rw [drop_append_of_le_length hp] at hch
    rcases mem_append.mp hch with hch | hch
    · exact h.ahead ch hch
    · exact hn.trans (hc.new ch hch).le

theorem tick (hle : ∀ ch ∈ log, ch.revision ≤ head) (now : Nat) :
    Streams log head c (session.tick head now) progress := by
  have hkeeps : (session.watcher.tickBookmark head now).dropped = session.watcher.dropped ∧
      session.watcher.handle.lastSeen ≤
      (session.watcher.tickBookmark head now).handle.lastSeen := by
    obtain ⟨reg, he, -⟩ | ⟨-, lastRev, at_, he⟩ := tickBookmark_cases session.watcher head now
    · rw [he]
      exact ⟨rfl, le_rfl⟩
    · rw [he]
      exact ⟨rfl, le_max_left ..⟩
  exact ⟨h.follows.tick hle now, h.resumable.tick h.follows now, h.notEnded, hkeeps.1.trans h.held,
    h.position, h.newest_le.trans hkeeps.2, h.delivered_le.trans hkeeps.2, h.ahead⟩

end

theorem opened (hback : cat.history.Backs log) {opts : WatchOpts}
    (hw : register cat opts now = .ok w)
    (hcut : CutsBetween revision (max opts.buffer 1) (above revision opts.from_ log))
    (hpos : c.position = covered log opts.from_) (hn : c.newest ≤ opts.from_)
    (hd : progress.delivered ≤ opts.from_) :
    Streams log cat.revision c (.opened opts.from_ w) progress := by
  have hfollows := opened_follows hback hw
  have hfrom := hfollows.from_le.1
  refine ⟨hfollows, opened_resumable hback hw hcut, rfl, (register_stream hback hw).1, ?_,
    hn.trans hfrom, hd.trans hfrom, ?_⟩
  · rw [hpos]
    rfl
  · intro ch hch
    rw [hpos, covered, hback.ordered.drop_upTo] at hch
    exact hn.trans (mem_above.mp hch).2.le

/-! ### Polling -/

variable {queue : List ChangeSignal}

/-- The first change in the channel is the next of the log. -/
theorem getElem_position (h : Streams log head c session progress) (ho : Ordered revision log)
    {ch : Change} (hq : session.watcher.queue = .change ch :: queue) :
    log[c.position]? = some ch := by
  obtain ⟨rest, hdrop, -⟩ := h.rest ho
  have hfirst : (log.drop c.position)[0]? = some ch := by
    rw [hdrop, hq]
    rfl
  rwa [List.getElem?_drop, Nat.add_zero] at hfirst

/-- A signal off the channel, served to a client that is told nothing above it. -/
theorem served (h : Streams log head c session progress) {signal : ChangeSignal}
    (hq : session.watcher.queue = signal :: queue) (hnext : session.next = { session with
      watcher := { session.watcher with queue, stream }, received := session.received ++ [signal] })
    {c' : WatchClient} {progress' : WatchProgress}
    (hpos : c'.position = c.position + (changesOf [signal]).length)
      (hnew : c'.newest ≤ max c.newest signal.revision)
    (hdel : progress'.delivered ≤ max progress.delivered signal.revision)
    (hahead : ∀ ch ∈ log.drop c'.position, ch ∈ log.drop c.position ∧
      signal.revision ≤ ch.revision) :
    Streams log head c' session.next progress' := by
  have hseen : signal.revision ≤ session.watcher.handle.lastSeen := by
    refine h.follows.signal_le signal ?_
    rw [signals, hq]
    simp
  refine ⟨h.follows.next, h.resumable.next h.follows, ?_, ?_, ?_, ?_, ?_, fun ch hch => ?_⟩
  · rw [hnext]; exact h.notEnded
  · rw [hnext]; exact h.held
  · rw [hpos, h.position, hnext]
    simp [delivered, Nat.add_assoc]
  · rw [hnext]
    exact hnew.trans (max_le h.newest_le hseen)
  · rw [hnext]
    exact hdel.trans (max_le h.delivered_le hseen)
  · obtain ⟨hmem, hle⟩ := hahead ch hch
    exact hnew.trans (max_le (h.ahead ch hmem) hle)

theorem change (hr : Recorded req store)
    (h : Streams store.log store.cat.revision c session progress)
    (ht : c.Tracks req store.log store.cat.revision) {ch : Change}
    (hq : session.watcher.queue = .change ch :: queue) (hnext : session.next = { session with
      watcher := { session.watcher with queue, stream }, received :=
  session.received ++ [.change ch] }) :
    let out := req.serveChange c progress ch
    out.1.Tracks req store.log store.cat.revision ∧
      Streams store.log store.cat.revision out.1 session.next out.2 := by
  have ho := hr.backs.ordered
  have hget := h.getElem_position ho hq
  have hmem : ch ∈ store.log := mem_of_getElem? hget
  obtain ⟨htracks, hpos, hnew, hdel⟩ :=
    ht.serveChange hget (hr.backs.le_head ch hmem) (hr.rv_le ch hmem)
    (fun hf hk => hr.steady.carries hmem hf hk) progress
  refine ⟨htracks, h.served hq hnext hpos hnew hdel fun d hd => ?_⟩
  -- what follows in the log is not older than this change
  rw [hpos] at hd
  have hcons : store.log.drop c.position = ch :: store.log.drop (c.position + 1) := by
    rw [drop_eq_getElem?_toList_append, hget]
    rfl
  have hord : (ch :: store.log.drop (c.position + 1)).Pairwise fun a b =>
      a.revision ≤ b.revision := by
    rw [← hcons]
    exact List.Pairwise.sublist (drop_sublist ..) ho
  rw [hcons]
  exact ⟨.tail _ hd, (pairwise_cons.mp hord).1 d hd⟩

/-- A bookmark tells the client a revision that everything it was not sent is above. -/
theorem bookmark (h : Streams log head c session progress) (ho : Ordered revision log)
    (ht : c.Tracks req log head) (hq : session.watcher.queue = .bookmark rev :: queue)
    (hnext : session.next = { session with
      watcher := { session.watcher with queue, stream }, received :=
  session.received ++ [.bookmark rev] }) :
    let out := serveBookmark c progress rev
    out.1.Tracks req log head ∧ Streams log head out.1 session.next out.2 := by
  intro out
  have hsignals : session.signals = session.received ++ [.bookmark rev] ++ queue := by
    rw [signals, hq]
    simp
  obtain ⟨-, hle, hres⟩ := h.follows.marks session.received rev ⟨queue, hsignals.symm⟩
  have hdrop : log.drop c.position = above revision rev log := by
    rw [h.drop_position ho, ← hres]
    exact drop_left ..
  have hout : out.1 = { c with newest := out.1.newest } ∧ c.newest ≤ out.1.newest ∧
      out.1.newest ≤ max c.newest rev ∧ out.2.delivered ≤ max progress.delivered rev := by
    unfold out serveBookmark
    split
    · exact ⟨rfl, le_max_left .., le_rfl, le_rfl⟩
    · exact ⟨rfl, le_rfl, le_max_left .., le_max_left ..⟩
  obtain ⟨heq, hold, hnew, hdel⟩ := hout
  have hpos : out.1.position = c.position := by rw [heq]
  refine ⟨?_, h.served hq hnext hpos hnew hdel fun ch hch => ?_⟩
  · rw [heq]
    exact ht.told hold (hnew.trans (max_le ht.newest_le hle))
  · rw [hpos] at hch
    rw [hdrop] at hch ⊢
    exact ⟨hch, (mem_above.mp hch).2.le⟩

/-- When the overflow is reported, the client has been sent everything up to its `lastSeen`. -/
theorem drained (h : Streams log head c session progress) (ho : Ordered revision log)
    (hq : session.watcher.queue = []) {gone : WatchGone} (hg : session.watcher.gone = some gone) :
    ∃ cap last, gone = .overflow cap last ∧ last ≤ head ∧ c.newest ≤ last ∧
    progress.delivered ≤ last ∧
      c.position = covered log last := by
  obtain ⟨cap, last, rfl⟩ := h.follows.overflow gone hg
  obtain ⟨rfl, hle, hres⟩ := h.resumable.gone cap last hg
  refine ⟨cap, _, rfl, hle, h.newest_le, h.delivered_le, ?_⟩
  have hdelivered : changesOf session.signals = session.delivered := by
    rw [signals, hq, append_nil]
    rfl
  rw [hdelivered] at hres
  have hlen := congrArg List.length hres
  have hfrom := congrArg List.length (ho.upTo_append_above (r := session.from_))
  have hlast := congrArg List.length (ho.upTo_append_above (r := session.watcher.handle.lastSeen))
  rw [length_append] at hlen hfrom hlast
  rw [h.position, covered, covered]
  omega

end Streams

/-! ## Ends and starts -/

@[simp] theorem WatchClient.receive_error (c : WatchClient) (code : Nat) (reason message : String)
    (retry : Option Nat) : c.receive (.error code reason message retry) = c := by
  simp [WatchClient.receive, WatchLine.rev, WatchLine.applyTo]

theorem WatchEnd.finalLine_view (e : WatchEnd) {line : WatchLine} (h : line ∈ e.finalLine.toList)
    (view : OrdMap ResourceKey Json) : line.applyTo view = view := by
  cases e with
  | progressed resume bookmark =>
    cases bookmark with
    | true => rw [mem_singleton.mp h]; rfl
    | false => cases h
  | _ => rw [mem_singleton.mp h]; rfl

/-- What an overflow leads to: a resume at its `lastSeen`, or an end that tells the client nothing
above what it was sent or the store enqueued. -/
theorem WatchProgress.after_overflow (p : WatchProgress) (cap last : Nat) :
    p.after (.overflow cap last) = .resume last ∨
    ∃ e, p.after (.overflow cap last) = .end_ e ∧
      ∀ line ∈ e.finalLine.toList, line.rev ≤ max last p.delivered := by
  unfold WatchProgress.after
  simp only
  generalize hres : (if p.bookmarks then max last p.delivered else p.delivered) = resume
  have hle : resume ≤ max last p.delivered := by
    rw [← hres]
    split
    · exact le_rfl
    · exact le_max_right ..
  by_cases hstart : p.start < resume
  · rw [if_pos hstart]
    refine .inr ⟨_, rfl, fun line hline => ?_⟩
    cases hb : p.bookmarks with
    | false =>
      rw [hb] at hline
      cases hline
    | true =>
      rw [hb] at hline
      rw [mem_singleton.mp hline]
      exact hle
  · rw [if_neg hstart]
    by_cases hopened : p.openedAt < last
    · rw [if_pos hopened]
      exact .inl rfl
    · rw [if_neg hopened]
      refine .inr ⟨_, rfl, fun line hline => ?_⟩
      rw [mem_singleton.mp hline]
      exact Nat.zero_le _

theorem WatchRequest.watchStream_streaming {from_ : Nat}
    (h : req.watchStream cat (.at_ rev) now = .ok (.streaming from_ w)) :
    from_ = rev ∧ register cat (req.opts rev) now = .ok w := by
  unfold watchStream at h
  split at h
  · cases h
  simp only at h
  split at h
  · rename_i hw
    cases h
    exact ⟨rfl, hw⟩
  · split at h <;> cases h

/-! ## The open response -/

/-- The lines of the present state at `rv`, not sent yet. -/
structure Snapshot (req : WatchRequest) (log : List Change) (head : Nat)
    (c : WatchClient) (rv : Nat) (lines : List WatchLine) : Prop where
  rv_le : rv ≤ head
  untold : c.newest = 0
  sent_le : c.sent ≤ covered log rv
  view : (fun k => ((lines.foldl WatchLine.applyTo .empty).get k).map stripTypeMeta) =
    Keyed.replay (fun _ => none) (req.writes (upTo Change.revision rv log))
  rev_le : ∀ line ∈ lines, line.rev ≤ rv

/-- Where the response of the client's watch is in the log. -/
def WatchConn.Serves (req : WatchRequest) (log : List Change) (head : Nat) (c : WatchClient) :
    WatchConn → Prop
  | .closed => c.Behind log
  | .opening from_ none => from_ = .at_ c.newest ∧ c.Behind log
  | .opening from_ (some lines) => ∃ rv, from_ = .at_ rv ∧ Snapshot req log head c rv lines
  | .streaming session progress => Streams log head c session progress
  | .reopening at_ progress =>
    at_ ≤ head ∧ c.newest ≤ at_ ∧ progress.delivered ≤ at_ ∧ c.position = covered log at_

/-- A client at a revision that is not below what it was told is behind. -/
theorem WatchClient.behind_of_covered (ho : Ordered revision log) (hn : c.newest ≤ rev)
    (hpos : c.position = covered log rev) : c.Behind log := by
  intro ch hch
  rw [hpos, covered, ho.drop_upTo] at hch
  exact hn.trans_lt (mem_above.mp hch).2

/-- A client that is behind and watches from the newest resourceVersion is sent again what it was
sent above it, and loses nothing. -/
theorem WatchClient.Tracks.resumeAt (h : c.Tracks req log head) (ho : Ordered revision log)
    (hb : c.Behind log) : Tracks req log head (c.resumeAt (covered log c.newest)) := by
  have hle : covered log c.newest ≤ c.position := by
    have hsub : upTo revision c.newest log = upTo revision c.newest (log.take c.position) := by
      conv_lhs => rw [← take_append_drop c.position log]
      rw [upTo_append, upTo_eq_nil hb, append_nil]
    have hlen : (upTo revision c.newest (log.take c.position)).length ≤
        (log.take c.position).length :=
      length_filter_le ..
    rw [covered, hsub]
    exact hlen.trans (length_take_le ..)
  refine ⟨h.view, hle.trans h.position_le, h.sent_le, ?_, h.received, h.newest_le⟩
  intro ch hch hf
  have hmem : ch ∈ log.take c.sent := mem_of_mem_drop hch
  have habove : c.newest < ch.revision := by
    have hdrop : ch ∈ log.drop (covered log c.newest) := by
      have hsub : ((log.take c.sent).drop (covered log c.newest)).Sublist
          (log.drop (covered log c.newest)) :=
        (take_sublist ..).drop _
      exact hsub.subset hch
    rw [covered, ho.drop_upTo] at hdrop
    exact (mem_above.mp hdrop).2
  cases hk : ch.kind with
  | delete => rfl
  | put => exact absurd (h.received ch hmem hf hk) (not_le.mpr habove)

variable {rv : Nat}

/-- A client that is sent the present state at `rv` has been sent everything up to it. -/
theorem WatchClient.Tracks.snapshotAt {lines : List WatchLine} (h : c.Tracks req log head)
    (ho : Ordered revision log) (hpos : ∀ ch ∈ log, 0 < ch.revision)
    (hs : Snapshot req log head c rv lines)
    (htold : ∀ ch ∈ upTo revision rv log, req.forwards ch = true → ch.kind = .put →
      ∃ line ∈ lines, ch.revision ≤ line.rev) :
    Tracks req log head ((c.receiveAll lines).snapshotAt (covered log rv)) ∧
      (c.receiveAll lines).newest ≤ rv := by
  obtain ⟨-, hlines, hle⟩ := c.receiveAll_newest lines
  have hnew : (c.receiveAll lines).newest ≤ rv :=
    hle rv (by rw [hs.untold]; exact Nat.zero_le _) hs.rev_le
  have hsent : ((c.receiveAll lines).snapshotAt (covered log rv)).sent = covered log rv := by
    rw [c.receiveAll_eq lines]
    exact max_eq_right hs.sent_le
  have htake : log.take (covered log rv) = upTo revision rv log := ho.take_upTo
  refine ⟨⟨?_, ?_, ?_, ?_, ?_, hnew.trans hs.rv_le⟩, hnew⟩
  · rw [hsent, htake, ← hs.view]
    funext k
    rw [c.receiveAll_eq lines, h.view_empty hpos hs.untold]
    rfl
  · rw [hsent]
    exact le_rfl
  · rw [hsent]
    exact length_filter_le ..
  · rw [hsent]
    intro ch hch
    rw [WatchClient.snapshotAt, drop_eq_nil_of_le (length_take_le ..)] at hch
    cases hch
  · rw [hsent, htake]
    intro ch hch hf hk
    obtain ⟨line, hline, hrev⟩ := htold ch hch hf hk
    exact hrev.trans (hlines line hline)

/-- One poll of an open stream, with the loop's turn on what it gives. -/
theorem Streams.poll {session : Session} {progress : WatchProgress} (hr : Recorded req store)
    (h : Streams store.log store.cat.revision c session progress)
    (ht : c.Tracks req store.log store.cat.revision) :
    let out := ListWatch.poll req c session progress
    out.1.Tracks req store.log store.cat.revision ∧
      out.2.Serves req store.log store.cat.revision out.1 := by
  intro out
  have ho := hr.backs.ordered
  obtain (he | ⟨he, hend⟩) | ⟨signal, queue, stream, hq, -, -, he⟩ | ⟨gone, stream,
      hq, hg, -, he⟩ :=
    nextChange_cases h.follows.draining
  · have hnext : session.next = session := by simp [Session.next, he]
    have hout : out = (c, .streaming session progress) := by
      unfold out ListWatch.poll
      rw [he, hnext]
    rw [hout]
    exact ⟨ht, h⟩
  · -- a stream that has not said why it ends does not end
    exfalso
    have hlive : session.watcher.live = true := by
      by_contra hl
      obtain ⟨cap, last, hg⟩ := h.overflowed (by simpa using hl)
      rcases hend with hterm | ⟨-, hnone⟩
      · have hended := h.follows.emitted hterm
        rw [h.notEnded] at hended
        cases hended
      · rw [hnone] at hg
        cases hg
    simp only [live, Bool.and_eq_true, Bool.not_eq_true'] at hlive
    rcases hend with hterm | ⟨hreg, -⟩
    · have hover := h.follows.armed.mp (.inr hterm)
      rw [hlive.2] at hover
      cases hover
    · rw [hlive.1.1] at hreg
      cases hreg
  · have hnext : session.next = { session with
        watcher := { session.watcher with queue, stream }, received :=
          session.received ++ [signal] } := by
      simp [Session.next, h.held, he]
    cases signal with
    | change ch =>
      obtain ⟨htracks, hstreams⟩ := Streams.change hr h ht hq hnext
      have hout : out = ((req.serveChange c progress ch).1,
          .streaming session.next (req.serveChange c progress ch).2) := by
        unfold out ListWatch.poll
        rw [he]
      rw [hout]
      exact ⟨htracks, hstreams⟩
    | bookmark rev =>
      obtain ⟨htracks, hstreams⟩ := h.bookmark ho ht hq hnext
      have hout : out = ((serveBookmark c progress rev).1,
          .streaming session.next (serveBookmark c progress rev).2) := by
        unfold out ListWatch.poll
        rw [he]
      rw [hout]
      exact ⟨htracks, hstreams⟩
  · obtain ⟨cap, last, rfl, hle, hnew, hdel, hpos⟩ := h.drained ho hq hg
    rcases progress.after_overflow cap last with hres | ⟨e, hend, hrev⟩
    · have hout : out = (c, .reopening last progress) := by
        unfold out ListWatch.poll
        simp only [he, hres]
      rw [hout]
      exact ⟨ht, hle, hnew, hdel, hpos⟩
    · have hout : out = (c.receiveAll e.finalLine.toList, .closed) := by
        unfold out ListWatch.poll
        simp only [he, hend]
      rw [hout]
      obtain ⟨hold, -, hmax⟩ := c.receiveAll_newest e.finalLine.toList
      have htold : (c.receiveAll e.finalLine.toList).newest ≤ last :=
        hmax last hnew fun line hline => (hrev line hline).trans (max_le le_rfl hdel)
      have heq : c.receiveAll e.finalLine.toList =
          { c with newest := (c.receiveAll e.finalLine.toList).newest } := by
        have hview : e.finalLine.toList.foldl WatchLine.applyTo c.view = c.view :=
          List.foldlRecOn e.finalLine.toList WatchLine.applyTo
            (motive := fun view => view = c.view) rfl
            fun view hview line hline => (e.finalLine_view hline view).trans hview
        have := c.receiveAll_eq e.finalLine.toList
        rwa [hview] at this
      refine ⟨?_, ?_⟩
      · rw [heq]
        exact ht.told hold (htold.trans hle)
      · refine behind_of_covered ho htold ?_
        rw [heq]
        exact hpos

/-! ## Runs -/

/-- The replay of the past from `from_` does not fill the channel between two changes of one
revision. -/
def WatchRequest.ReplayFits (req : WatchRequest) (cat : ResourceCatalog) (from_ : Nat) : Prop :=
  match cat.history.since from_ with
  | .ok replay => CutsBetween Change.revision (max req.buffer 1) replay
  | .error _ => True

instance (req : WatchRequest) (cat : ResourceCatalog) (from_ : Nat) :
    Decidable (req.ReplayFits cat from_) :=
  match h : cat.history.since from_ with
  | .ok replay => decidable_of_iff (CutsBetween Change.revision (max req.buffer 1) replay)
      (by simp [WatchRequest.ReplayFits, h])
  | .error _ => .isTrue (by simp [WatchRequest.ReplayFits, h])

/-- A client told by `lines` knows a resourceVersion not below that of any selected write of
`chs`. -/
def WatchRequest.Announced (req : WatchRequest) (chs : List Change) (lines : List WatchLine) :
    Prop :=
  ∀ ch ∈ chs, req.forwards ch = true → ch.kind = .put → ∃ line ∈ lines, ch.revision ≤ line.rev

instance (req : WatchRequest) (chs : List Change) (lines : List WatchLine) :
    Decidable (req.Announced chs lines) :=
  inferInstanceAs (Decidable (∀ ch ∈ chs, req.forwards ch = true → ch.kind = .put →
    ∃ line ∈ lines, ch.revision ≤ line.rev))

theorem WatchRequest.ReplayFits.cuts (hb : store.cat.history.Backs store.log)
    (hf : req.ReplayFits store.cat rev) (hw : register store.cat (req.opts rev) now = .ok w) :
    CutsBetween revision (max req.buffer 1) (above revision rev store.log) := by
  obtain ⟨-, hfloor, -⟩ := register_ok hb hw
  have hsince : store.cat.history.since rev = .ok (above revision rev store.log) := hb.since hfloor
  unfold ReplayFits at hf
  rwa [hsince] at hf

namespace WatchConn

/-- The open stream takes the changes of a commit whole or not at all. -/
def FitsCommit (chs : List Change) : WatchConn → Prop
  | .streaming session _ => session.FitsWhole chs
  | _ => True

/-- A stream that opens takes whole revisions of the past, and the present state in front of it
tells the client how far it is. -/
def OpensWhole (req : WatchRequest) (store : Logged) : WatchConn → Prop
  | .opening (.at_ from_) none => req.ReplayFits store.cat from_
  | .opening (.at_ from_) (some lines) =>
    req.ReplayFits store.cat from_ ∧ req.Announced (upTo Change.revision from_ store.log) lines
  | .reopening at_ _ => req.ReplayFits store.cat at_
  | _ => True

/-- No change in the channel is as old as what the client was told. -/
def EndsWhole (c : WatchClient) : WatchConn → Prop
  | .streaming session _ => ∀ ch ∈ changesOf session.watcher.queue, c.newest < ch.revision
  | _ => True

instance (chs : List Change) : ∀ conn : WatchConn, Decidable (conn.FitsCommit chs)
  | .streaming session _ => inferInstanceAs (Decidable (session.watcher.live = true →
      CutsBetween Change.revision session.watcher.free chs))
  | .closed | .opening _ _ | .reopening _ _ => .isTrue trivial

instance (req : WatchRequest) (store : Logged) :
    ∀ conn : WatchConn, Decidable (conn.OpensWhole req store)
  | .opening (.at_ from_) none => inferInstanceAs (Decidable (req.ReplayFits store.cat from_))
  | .opening (.at_ from_) (some lines) => inferInstanceAs (Decidable
      (req.ReplayFits store.cat from_ ∧ req.Announced (upTo Change.revision from_ store.log) lines))
  | .reopening at_ _ => inferInstanceAs (Decidable (req.ReplayFits store.cat at_))
  | .closed | .opening .mostRecent _ | .streaming _ _ => .isTrue trivial

instance (c : WatchClient) : ∀ conn : WatchConn, Decidable (conn.EndsWhole c)
  | .streaming session _ => inferInstanceAs (Decidable
      (∀ ch ∈ changesOf session.watcher.queue, c.newest < ch.revision))
  | .closed | .opening _ _ | .reopening _ _ => .isTrue trivial

theorem Serves.commit (h : conn.Serves req log head c) (ht : c.Tracks req log head)
    (hc : Commits head head' chs) (hfit : conn.FitsCommit chs) :
    (conn.fan chs).Serves req (log ++ chs) head' c := by
  have hp := ht.position_le.trans ht.sent_le
  have behind : c.Behind log → c.Behind (log ++ chs) := by
    intro hb ch hch
    rw [drop_append_of_le_length hp] at hch
    rcases mem_append.mp hch with hch | hch
    · exact hb ch hch
    · exact ht.newest_le.trans_lt (hc.new ch hch)
  have covers : ∀ {rev : Nat}, rev ≤ head → covered (log ++ chs) rev = covered log rev :=
    fun hrev => covered_append fun ch hch => hrev.trans_lt (hc.new ch hch)
  cases conn with
  | closed => exact behind h
  | opening from_ prelude =>
    cases prelude with
    | none => exact ⟨h.1, behind h.2⟩
    | some lines =>
      obtain ⟨rv, hfrom, hs⟩ := h
      refine ⟨rv, hfrom, hs.rv_le.trans hc.le, hs.untold, ?_, ?_, hs.rev_le⟩
      · rw [covers hs.rv_le]
        exact hs.sent_le
      · have hnil : upTo revision rv chs = [] := upTo_eq_nil fun ch hch =>
          hs.rv_le.trans_lt (hc.new ch hch)
        rw [upTo_append, hnil, append_nil]
        exact hs.view
  | streaming session progress => exact Streams.commit h hc hfit ht.newest_le hp
  | reopening at_ progress =>
    obtain ⟨hat, hnew, hdel, hpos⟩ := h
    exact ⟨hat.trans hc.le, hnew, hdel, by rw [covers hat]; exact hpos⟩

theorem Serves.tick (h : conn.Serves req log head c) (hle : ∀ ch ∈ log, ch.revision ≤ head)
    (now : Nat) : (conn.tick head now).Serves req log head c := by
  cases conn with
  | streaming session progress => exact Streams.tick h hle now
  | _ => exact h

theorem Serves.serve (hr : Recorded req store) (h : conn.Serves req store.log store.cat.revision c)
    (ht : c.Tracks req store.log store.cat.revision) (hok : conn.OpensWhole req store) (now : Nat) :
    let out := ListWatch.serve req store c conn now
    out.1.Tracks req store.log store.cat.revision ∧
      out.2.Serves req store.log store.cat.revision out.1 := by
  intro out
  have ho := hr.backs.ordered
  cases conn with
  | closed => exact ⟨ht, h⟩
  | streaming session progress => exact Streams.poll hr h ht
  | opening from_ prelude =>
    cases prelude with
    | none =>
      obtain ⟨rfl, hb⟩ := h
      unfold out ListWatch.serve
      simp only
      split
      · rename_i from_ w hstream
        obtain ⟨rfl, hw⟩ := watchStream_streaming hstream
        have hlast := (register_stream hr.backs hw).2
        exact ⟨ht.resumeAt ho hb, Streams.opened hr.backs hw (hok.cuts hr.backs hw) rfl
          le_rfl hlast.le⟩
      · rw [WatchRefusal.statusLine, receive_error]
        exact ⟨ht, hb⟩
      · exact ⟨ht, hb⟩
    | some lines =>
      obtain ⟨rv, rfl, hs⟩ := h
      have hb : c.Behind store.log := by
        intro ch hch
        rw [hs.untold]
        exact hr.positive ch (mem_of_mem_drop hch)
      unfold out ListWatch.serve
      simp only
      split
      · rename_i from_ w hstream
        obtain ⟨rfl, hw⟩ := watchStream_streaming hstream
        have hlast := (register_stream hr.backs hw).2
        obtain ⟨htracks, hnew⟩ := ht.snapshotAt ho hr.positive hs hok.2
        exact ⟨htracks, Streams.opened hr.backs hw (hok.1.cuts hr.backs hw) rfl hnew hlast.le⟩
      · rw [WatchRefusal.statusLine, receive_error]
        exact ⟨ht, hb⟩
      · exact ⟨ht, hb⟩
  | reopening at_ progress =>
    obtain ⟨hat, hnew, hdel, hpos⟩ := h
    have hb : c.Behind store.log := behind_of_covered ho hnew hpos
    unfold out ListWatch.serve
    simp only
    split
    · rename_i from_ w hstream
      obtain ⟨rfl, hw⟩ := watchStream_streaming hstream
      have hsame : c.resumeAt (covered store.log from_) = c := by rw [WatchClient.resumeAt, ← hpos]
      rw [hsame]
      exact ⟨ht, Streams.opened hr.backs hw (hok.cuts hr.backs hw) hpos hnew hdel⟩
    · rw [WatchRefusal.statusLine, receive_error]
      exact ⟨ht, hb⟩
    · rw [storageErrorLine, receive_error]
      exact ⟨ht, hb⟩

end WatchConn

theorem WatchRequest.start_cases (h : req.start cat rv = .ok conn) :
    conn = .opening (.at_ rv) none ∨
    (rv = 0 ∧ conn = .opening (.at_ cat.revision)
      (some (req.prelude cat cat.revision req.bookmarks))) := by
  by_cases h0 : rv = 0
  · subst h0
    right
    unfold start at h
    cases hl : req.handler.listAt cat req.ns req.selectors with
    | error e =>
      simp only [hl] at h
      cases h
    | ok out =>
      obtain ⟨items, snapshotRv⟩ := out
      obtain rfl := listAt_revision hl
      simp only [hl] at h
      cases h
      exact ⟨rfl, rfl⟩
  · left
    unfold start at h
    simp only [watchInitialEvents, h0, resumePoint] at h
    cases h
    rfl

namespace ListWatch
variable {env : Env} {s : ListWatch}

/-- The client against the store, in every state of an orderly run. -/
structure Consistent (req : WatchRequest) (s : ListWatch) : Prop where
  recorded : Recorded req s.store
  idle : s.client = none → s.conn = .closed
  client : ∀ c, s.client = some c → c.Tracks req s.store.log s.store.cat.revision ∧
    s.conn.Serves req s.store.log s.store.cat.revision c

/-- What a step must meet. A commit takes no object out of the selectors by an update and gives
selected objects their resourceVersion; no channel fills up between two changes of one revision; the
present state in front of a stream tells the client how far it is; and the deadline does not cut a
revision in two. -/
def Orderly (env : Env) (req : WatchRequest) (s : ListWatch) : ListWatchStep → Prop
  | .commit op => req.SteadyFrom s.store.cat.resources (s.store.cat.perform env op).2 ∧
    s.conn.FitsCommit (s.store.cat.perform env op).2
  | .serve _ => s.conn.OpensWhole req s.store
  | .close => ∀ c ∈ s.client, s.conn.EndsWhole c
  | _ => True

instance (env : Env) (req : WatchRequest) (s : ListWatch) : ∀ a, Decidable (Orderly env req s a)
  | .commit op => inferInstanceAs (Decidable
      (req.SteadyFrom s.store.cat.resources (s.store.cat.perform env op).2 ∧
        s.conn.FitsCommit (s.store.cat.perform env op).2))
  | .serve _ => inferInstanceAs (Decidable (s.conn.OpensWhole req s.store))
  | .close => inferInstanceAs (Decidable (∀ c ∈ s.client, s.conn.EndsWhole c))
  | .tick _ | .list | .watch => .isTrue trivial

theorem Consistent.list (h : s.Consistent req) (hconn : s.conn = .closed) {items : List Json}
    (hl : req.handler.listAt s.store.cat req.ns req.selectors = .ok (items, rv)) :
    Consistent req { s with client := some ⟨.ofList (req.listed s.store.cat), rv,
      s.store.log.length, s.store.log.length⟩ } := by
  obtain rfl := listAt_revision hl
  refine ⟨h.recorded, fun hnone => (by cases hnone), fun c hc => ?_⟩
  cases hc
  refine ⟨⟨?_, le_rfl, le_rfl, ?_, ?_, le_rfl⟩, ?_⟩
  · rw [take_length, h.recorded.steady.replay_empty, ← h.recorded.resources]
    funext k
    exact shown_listed k
  · intro ch hch
    rw [take_length, drop_length] at hch
    cases hch
  · intro ch hch hf hk
    exact h.recorded.backs.le_head ch (mem_of_mem_take hch)
  · simp only [hconn, WatchConn.Serves, WatchClient.Behind, drop_length]
    intro ch hch
    cases hch

theorem Consistent.watch (h : s.Consistent req) (hconn : s.conn = .closed) (hc : s.client = some c)
    (hs : req.start s.store.cat c.newest = .ok conn) : Consistent req { s with conn } := by
  refine ⟨h.recorded, fun hnone => (by rw [hc] at hnone; cases hnone), fun c' hc' => ?_⟩
  obtain rfl : c = c' := Option.some.inj (hc.symm.trans hc')
  obtain ⟨ht, hserves⟩ := h.client c hc
  rw [hconn] at hserves
  refine ⟨ht, ?_⟩
  obtain rfl | ⟨h0, rfl⟩ := start_cases hs
  · exact ⟨rfl, hserves⟩
  -- the state at the head is what the whole log leads to
  have hall : upTo revision s.store.cat.revision s.store.log = s.store.log :=
    upTo_eq_self h.recorded.backs.le_head
  refine ⟨_, rfl, le_rfl, h0, ?_, ?_, fun line hline => prelude_rev_le h.recorded.bounded hline⟩
  · rw [covered, hall]
    exact ht.sent_le
  · rw [hall, h.recorded.steady.replay_empty, ← h.recorded.resources]
    funext k
    exact shown_prelude _ _ k

theorem Consistent.step (h : s.Consistent req) {a : ListWatchStep} (hok : Orderly env req s a) :
    (s.step env req a).Consistent req := by
  cases a with
  | commit op =>
    have hc := perform_commits env s.store.cat op
    refine ⟨h.recorded.step hok.1, fun hnone => ?_, fun c hcl => ?_⟩
    · simp only [ListWatch.step] at hnone ⊢
      rw [h.idle hnone]
      rfl
    · obtain ⟨ht, hserves⟩ := h.client c hcl
      exact ⟨ht.commit hc.le, hserves.commit ht hc hok.2⟩
  | tick now =>
    refine ⟨h.recorded, fun hnone => ?_, fun c hcl => ?_⟩
    · simp only [ListWatch.step] at hnone ⊢
      rw [h.idle hnone]
      rfl
    · obtain ⟨ht, hserves⟩ := h.client c hcl
      exact ⟨ht, hserves.tick h.recorded.backs.le_head now⟩
  | list =>
    unfold ListWatch.step
    simp only
    split
    · rename_i hconn hl
      exact h.list hconn hl
    · exact h
  | watch =>
    unfold ListWatch.step
    simp only
    split
    · rename_i client hconn hcl
      split
      · rename_i conn hs
        exact h.watch hconn hcl hs
      · exact h
    · exact h
  | serve now =>
    unfold ListWatch.step
    simp only
    split
    · rename_i client hcl
      obtain ⟨ht, hserves⟩ := h.client client hcl
      obtain ⟨ht', hserves'⟩ := hserves.serve h.recorded ht hok now
      refine ⟨h.recorded, fun hnone => (by cases hnone), fun c hc => ?_⟩
      cases hc
      exact ⟨ht', hserves'⟩
    · exact h
  | close =>
    unfold ListWatch.step
    simp only
    split
    · rename_i session progress hconn
      refine ⟨h.recorded, fun _ => rfl, fun c hcl => ?_⟩
      obtain ⟨ht, hserves⟩ := h.client c hcl
      rw [hconn] at hserves
      have hends := hok c hcl
      rw [hconn] at hends
      exact ⟨ht, Streams.behind_of_queue hserves h.recorded.backs.ordered hends⟩
    · exact h

theorem after_consistent (env : Env) (req : WatchRequest) (capacity : Nat)
    {steps : List ListWatchStep}
    (hok : Run.Along (step env req) (Orderly env req) (init capacity) steps) :
    (after env req capacity steps).Consistent req :=
  Run.Along.exec_inv (I := Consistent req) (fun _ _ hok h => h.step hok)
    ⟨Recorded.init req capacity, fun _ => rfl, fun c hc => (by cases hc)⟩ hok

/-- A step commits, or leaves the store. -/
theorem step_store (env : Env) (req : WatchRequest) (s : ListWatch) (a : ListWatchStep) :
    (∃ op, (s.step env req a).store = s.store.step env op) ∨
    (s.step env req a).store = s.store := by
  cases a with
  | commit op => exact .inl ⟨op, rfl⟩
  | tick now => exact .inr rfl
  | list => right; unfold ListWatch.step; simp only; split <;> rfl
  | watch =>
    right
    unfold ListWatch.step
    simp only
    split
    · split <;> rfl
    · rfl
  | serve now | close => right; unfold ListWatch.step; simp only; split <;> rfl

/-- A run adds to the log behind everything it holds. -/
theorem exec_log (env : Env) (req : WatchRequest) (s : ListWatch) (steps : List ListWatchStep) :
    let t := Run.exec (step env req) s steps
    ∃ more, t.store.log = s.store.log ++ more ∧ (∀ ch ∈ more, s.store.cat.revision < ch.revision) ∧
      s.store.cat.revision ≤ t.store.cat.revision := by
  refine Run.exec_rel (R := fun s t : ListWatch => ∃ more, t.store.log = s.store.log ++ more ∧
    (∀ ch ∈ more, s.store.cat.revision < ch.revision) ∧ s.store.cat.revision ≤ t.store.cat.revision)
    ?_ ?_ ?_ s steps
  · intro s
    exact ⟨[], by simp, by simp, le_rfl⟩
  · rintro a b c ⟨more, hlog, hnew, hle⟩ ⟨more', hlog', hnew', hle'⟩
    refine ⟨more ++ more', by rw [hlog', hlog, append_assoc], fun ch hch => ?_, hle.trans hle'⟩
    rcases mem_append.mp hch with hch | hch
    · exact hnew ch hch
    · exact hle.trans_lt (hnew' ch hch)
  · intro s a
    obtain ⟨op, he⟩ | he := step_store env req s a
    · rw [he]
      have hc := perform_commits env s.store.cat op
      exact ⟨_, rfl, hc.new, hc.le⟩
    · rw [he]
      exact ⟨[], by simp, by simp, le_rfl⟩

/-- Along every orderly run, a client that has been sent everything up to the revision of an earlier
state of the store holds exactly the selected objects of its scope in that state. It has been sent
everything up to the head when its stream is open and nothing is left in the channel. -/
theorem view_exact (env : Env) (req : WatchRequest) (capacity : Nat) (steps : List ListWatchStep)
    (hok : Run.Along (step env req) (Orderly env req) (init capacity) steps) :
    let s := after env req capacity steps
    ∀ c, s.client = some c → (∀ before rest, steps = before ++ rest →
        let past := (after env req capacity before).store
        c.sent = covered s.store.log past.cat.revision →
          ∀ k, c.shown k = req.storeView past.cat.resources k) ∧
      (∀ session progress, s.conn = .streaming session progress → session.watcher.live = true →
        session.watcher.queue = [] → c.sent = covered s.store.log s.store.cat.revision) := by
  intro s c hc
  have hcons := after_consistent env req capacity hok
  obtain ⟨ht, hserves⟩ := hcons.client c hc
  refine ⟨?_, ?_⟩
  · rintro before rest rfl past hsent k
    have hpast := (after_consistent env req capacity (Run.along_append.mp hok).1).recorded
    obtain ⟨more, hlog, hnew, -⟩ := exec_log env req (after env req capacity before) rest
    have hrun : s = Run.exec (step env req) (after env req capacity before) rest := Run.exec_append
    rw [← hrun] at hlog
    have htake : s.store.log.take c.sent = past.log := by
      rw [hsent, covered, hcons.recorded.backs.ordered.take_upTo, hlog, upTo_append,
        upTo_eq_nil hnew, List.append_nil]
      exact upTo_eq_self hpast.backs.le_head
    rw [congrFun ht.view k, htake, hpast.steady.replay_empty, ← hpast.resources]
  · intro session progress hconn hlive hq
    rw [hconn] at hserves
    obtain ⟨rest, hdrop, -, hnil⟩ := Streams.rest hserves hcons.recorded.backs.ordered
    rw [hnil hlive, hq] at hdrop
    have hlen := List.drop_eq_nil_iff.mp hdrop
    have hall : covered s.store.log s.store.cat.revision = s.store.log.length :=
      congrArg List.length (upTo_eq_self hcons.recorded.backs.le_head)
    rw [hall]
    exact le_antisymm ht.sent_le (hlen.trans ht.position_le)

/-! ## Two runs -/

open StoreBackedHandler (putLabelled)

/-- The pods of one namespace labelled `app=web`, watched without bookmarks through a buffer of
one. -/
def webPods : WatchRequest where
  handler := ⟨"", "v1", "Pod"⟩
  ns := some "default"
  selectors := ⟨[.equals "app" "web"], []⟩
  bookmarks := false
  buffer := 1
  bookmarkEvery := 0

def podNamed (name : String) : ResourceKey := ⟨"", "v1", "Pod", some "default", name⟩

/-- Two filtered creates overflow the buffer and the router resumes by itself; a selected create is
sent; the deadline passes, the client watches again, and a delete is sent. -/
def resumingRun : List ListWatchStep :=
  [.commit (putLabelled "a" "web"), .list, .watch, .serve 0, .commit (putLabelled "c" "db"),
    .commit (putLabelled "d" "db"), .serve 0, .serve 0, .serve 0, .serve 0,
    .commit (putLabelled "b" "web"),
    .serve 0, .close, .watch, .serve 0,
    .commit (.command (.delete (podNamed "a") none none) .v1 1 1), .serve 0]

theorem resumingRun_view :
    let s := after atomicEnv webPods 8 resumingRun
    ∃ c, s.client = some c ∧ c.newest = 4 ∧ c.view.entries.map (fun e => e.1.name) = ["b"] ∧
      c.sent = covered s.store.log s.store.cat.revision ∧
      ∀ k, c.shown k = webPods.storeView s.store.cat.resources k := by
  intro s
  have hc : s.client = some _ := rfl
  have hexact := view_exact atomicEnv webPods 8 resumingRun (by decide +kernel) _ hc
  have hsent : _ = covered s.store.log s.store.cat.revision := rfl
  exact ⟨_, hc, rfl, by decide +kernel, hsent,
    hexact.1 resumingRun [] (List.append_nil _).symm hsent⟩

/-- A selected pod is listed and then relabelled. The update is filtered out, because the object
behind it is not selected: the client has been sent everything and still holds the pod. -/
theorem relabelled_stays :
    let s := after atomicEnv webPods 8
      [.commit (putLabelled "a" "web"), .list, .watch, .serve 0, .commit (putLabelled "a" "db"),
        .serve 0]
    ∃ c, s.client = some c ∧ s.store.cat.revision = 2 ∧
      c.sent = covered s.store.log s.store.cat.revision ∧ (c.shown (podNamed "a")).isSome = true ∧
      webPods.storeView s.store.cat.resources (podNamed "a") = none := by
  refine ⟨_, rfl, ?_⟩
  decide +kernel

end ListWatch
end Engenho
