import Engenho.Store.WatchBackend

/-!
# What a watch delivers

* A stream delivers, in commit order, a part of the changes above its resume point that leaves out
  none before the last one delivered.
* A stream that ended on an overflow can be resumed at the overflow's `lastSeen` without a loss or a
  repetition (`Stamped.Resumes`), provided that no channel fills up between two changes of one
  revision: `lastSeen` is a revision, and the resumed stream starts behind all of it.

`Session.Follows` holds of every session of every run; `Session.Resumable` of the runs that meet the
condition (`WatchSystem.FillsBetween`).
-/

namespace Engenho
open Watcher Change HandleSendOutcome WatchHistory List Option Bool
variable {w : Watcher}
namespace Watcher

/-- The handle is in the registry, and what the store commits still goes into the channel. -/
def live (w : Watcher) : Bool := w.registered && !w.dropped && !w.handle.overflowed

/-- The free places of the channel. -/
def free (w : Watcher) : Nat := w.handle.capacity - w.queue.length

/-- A change that found a place. -/
def push (w : Watcher) (ch : Change) : Watcher :=
  see { w with queue := w.queue ++ [ChangeSignal.change ch] } ch.revision

def pushAll (w : Watcher) (chs : List Change) : Watcher := chs.foldl push w

/-- The channel was full. -/
def overflow (w : Watcher) : Watcher :=
  let w := w.arm (.overflow w.handle.capacity w.handle.lastSeen)
  { w with handle := { w.handle with overflowed := true } }

/-- The channel takes changes as far as it goes; with more of them it overflows, and the handle may
leave. -/
def filled (w : Watcher) (chs : List Change) (reg : Bool) : Watcher :=
  if chs.length ≤ w.free then w.pushAll
    chs else { (w.pushAll (chs.take w.free)).overflow with registered := reg }

/-! ## Enqueuing -/

theorem tryEnqueue_room (hd : w.dropped = false) (ho : w.handle.overflowed = false)
    (hf : 0 < w.free) (ch : Change) : w.tryEnqueue (.change ch) = (w.push ch, .sent) := by
  have hlt : ¬ w.handle.capacity ≤ w.queue.length := by unfold free at hf; omega
  simp [tryEnqueue, trySend, ho, hd, hlt, push, ChangeSignal.revision]

theorem tryEnqueue_full (hd : w.dropped = false) (ho : w.handle.overflowed = false)
    (hf : w.free = 0) (ch : Change) : w.tryEnqueue (.change ch) = (w.overflow, .overflowed) := by
  have hle : w.handle.capacity ≤ w.queue.length := by unfold free at hf; omega
  simp [tryEnqueue, trySend, ho, hd, hle, overflow]

@[simp] theorem push_dropped (w : Watcher) (ch : Change) : (w.push ch).dropped = w.dropped := rfl

@[simp] theorem push_overflowed (w : Watcher) (ch : Change) :
    (w.push ch).handle.overflowed = w.handle.overflowed := rfl

@[simp] theorem push_registered (w : Watcher) (ch : Change) :
    (w.push ch).registered = w.registered := rfl

theorem push_free (w : Watcher) (ch : Change) : (w.push ch).free = w.free - 1 := by
  simp only [free, push, see, length_append, length_singleton]
  omega

/-- The replay fills the channel as far as it goes. -/
theorem feed_eq (hd : w.dropped = false) (ho : w.handle.overflowed = false) (chs : List Change) :
    w.feed chs = w.filled chs w.registered := by
  induction chs generalizing w with
  | nil => simp [feed, filled, pushAll]
  | cons ch chs ih =>
    unfold feed
    by_cases hf : w.free = 0
    · rw [tryEnqueue_full hd ho hf]
      simp [filled, hf, pushAll, overflow, arm]
    · obtain ⟨n, hn⟩ := Nat.exists_eq_succ_of_ne_zero hf
      rw [tryEnqueue_room hd ho (by omega)]
      simp only
      rw [ih (w := w.push ch) hd ho, filled, push_free, filled, hn]
      simp [pushAll]

/-- Live changes fill the channel as far as it goes; a watcher that overflows leaves the
registry. -/
theorem fan_eq (hl : w.live = true) (chs : List Change)
    (hb : ∀ ch ∈ chs, w.handle.boundary < ch.revision) :
    chs.foldl fanShared w = w.filled chs false := by
  induction chs generalizing w with
  | nil => simp [filled, pushAll]
  | cons ch chs ih =>
    simp only [live, and_eq_true, not_eq_true'] at hl
    obtain ⟨⟨hr, hd⟩, ho⟩ := hl
    have hch : ¬ ch.revision ≤ w.handle.boundary := by have := hb ch (by simp); omega
    have gone : ∀ (u : Watcher) (l : List Change), u.registered = false →
        l.foldl fanShared u = u := by
      intro u l hu
      induction l with
      | nil => rfl
      | cons c l ihl => simpa [fanShared, hu] using ihl
    rw [foldl_cons]
    by_cases hf : w.free = 0
    · have hstep : w.fanShared ch = { w.overflow with registered := false } := by
        simp [fanShared, hr, hch, tryEnqueue_full hd ho hf, shouldReap]
      rw [hstep, gone _ _ rfl]
      simp [filled, hf, pushAll]
    · obtain ⟨n, hn⟩ := Nat.exists_eq_succ_of_ne_zero hf
      have hstep : w.fanShared ch = w.push ch := by
        simp only [fanShared, hr, hch, tryEnqueue_room hd ho (by omega : 0 < w.free),
          shouldReap, Bool.not_true, Bool.not_false, Bool.false_or, decide_false,
          false_eq_true, if_false]
        rw [← hr]
        rfl
      rw [hstep, ih (w := w.push ch) (by simp [live, hr, hd, ho]) (fun c hc => hb c (.tail _ hc)),
        filled, push_free, filled, hn]
      simp [pushAll]

/-- What the store commits does not reach a watcher that is not live. -/
theorem fan_dead (hl : w.live = false) (chs : List Change) :
    ∃ reg, chs.foldl fanShared w = { w with registered := reg } ∧
    (reg = true → w.registered = true) := by
  induction chs generalizing w with
  | nil => exact ⟨w.registered, rfl, id⟩
  | cons ch chs ih =>
    have hstep : ∃ reg, w.fanShared ch = { w with registered := reg } ∧
        (reg = true → w.registered = true) := by
      unfold fanShared
      split
      · exact ⟨w.registered, rfl, id⟩
      rename_i hc
      have hr : w.registered = true := by
        cases hreg : w.registered with
        | true => rfl
        | false => simp [hreg] at hc
      refine ⟨false, ?_, fun h => by cases h⟩
      cases ho : w.handle.overflowed with
      | true => simp [tryEnqueue, ho, shouldReap]
      | false =>
        have hd : w.dropped = true := by simpa [live, hr, ho] using hl
        simp [tryEnqueue, trySend, ho, hd, shouldReap]
    obtain ⟨reg, he, hreg⟩ := hstep
    rw [foldl_cons, he]
    have hl' : Watcher.live { w with registered := reg } = false := by
      cases hreg' : reg with
      | false => rfl
      | true =>
        have hr := hreg hreg'
        simpa [live, hr] using hl
    obtain ⟨reg', he', hreg''⟩ := ih hl'
    exact ⟨reg', he', fun h => hreg (hreg'' h)⟩

/-- A commit leaves the consumer's end alone, and the last revision enqueued does not go down. -/
theorem fan_keeps (w : Watcher) (chs : List Change) : (chs.foldl fanShared w).dropped = w.dropped ∧
      w.handle.lastSeen ≤ (chs.foldl fanShared w).handle.lastSeen := by
  have one : ∀ (w : Watcher) (ch : Change), (w.fanShared ch).dropped = w.dropped ∧
      w.handle.lastSeen ≤ (w.fanShared ch).handle.lastSeen := by
    intro w ch
    unfold fanShared tryEnqueue trySend
    by_cases hs : (!w.registered || ch.revision ≤ w.handle.boundary) = true
    · rw [if_pos hs]
      exact ⟨rfl, le_rfl⟩
    rw [if_neg hs]
    by_cases ho : w.handle.overflowed = true
    · simp [ho]
    by_cases hd : w.dropped = true
    · simp [ho, hd]
    · by_cases hc : w.handle.capacity ≤ w.queue.length
      · simp [ho, hd, hc, arm]
      · simp [ho, hd, hc, see]
  induction chs generalizing w with
  | nil => exact ⟨rfl, le_rfl⟩
  | cons ch chs ih =>
    obtain ⟨hd, hl⟩ := ih (w.fanShared ch)
    exact ⟨hd.trans (one w ch).1, (one w ch).2.trans hl⟩

/-! ## What a filled channel holds -/

theorem pushAll_eq (w : Watcher) (chs : List Change) : w.pushAll chs = { w with
      queue := w.queue ++ chs.map .change
      handle := { w.handle with lastSeen := (w.pushAll chs).handle.lastSeen } } := by
  induction chs generalizing w with
  | nil => simp [pushAll]
  | cons ch chs ih =>
    have := ih (w.push ch)
    simp only [pushAll, foldl_cons] at this ⊢
    rw [this]
    simp [push, see]

/-- The last revision enqueued: that of a change enqueued, or what it was. -/
theorem pushAll_lastSeen (w : Watcher) (chs : List Change) :
    w.handle.lastSeen ≤ (w.pushAll chs).handle.lastSeen ∧
      (∀ ch ∈ chs, ch.revision ≤ (w.pushAll chs).handle.lastSeen) ∧
      ((w.pushAll chs).handle.lastSeen = w.handle.lastSeen ∨
        ∃ ch ∈ chs, ch.revision = (w.pushAll chs).handle.lastSeen) := by
  induction chs generalizing w with
  | nil => exact ⟨le_rfl, by simp, .inl rfl⟩
  | cons ch chs ih =>
    obtain ⟨h1, h2, h3⟩ := ih (w.push ch)
    have hpush : (w.push ch).handle.lastSeen = max w.handle.lastSeen ch.revision := rfl
    simp only [pushAll, foldl_cons] at h1 h2 h3 ⊢
    refine ⟨by omega, fun c hc => ?_, ?_⟩
    · rcases mem_cons.mp hc with rfl | hc
      · omega
      · exact h2 c hc
    · rcases h3 with h3 | ⟨c, hc, he⟩
      · rcases le_total w.handle.lastSeen ch.revision with hle | hle
        · exact .inr ⟨ch, by simp, by omega⟩
        · exact .inl (by omega)
      · exact .inr ⟨c, mem_cons_of_mem _ hc, he⟩

end Watcher

/-! ## Signals -/

@[simp] theorem changesOf_append (a b : List ChangeSignal) :
    changesOf (a ++ b) = changesOf a ++ changesOf b := filterMap_append

@[simp] theorem changesOf_map (chs : List Change) : changesOf (chs.map .change) = chs := by
  rw [changesOf, filterMap_map]
  exact filterMap_some

@[simp] theorem changesOf_bookmark (rev : Nat) : changesOf [.bookmark rev] = [] := rfl

/-- Changes behind a list of signals add no bookmark to it. -/
theorem bookmark_of_append_changes {a l : List ChangeSignal} {b : Nat} (chs : List Change)
    (h : a ++ [.bookmark b] <+: l ++ chs.map .change) : a ++ [.bookmark b] <+: l := by
  induction chs using List.reverseRecOn with
  | nil => simpa using h
  | append_singleton chs ch ih =>
    rw [map_append, ← append_assoc, map_singleton, prefix_concat_iff] at h
    rcases h with h | h
    · have := (append_inj' h rfl).2
      cases this
    · exact ih h

namespace Session
open Stamped

/-- What holds of every session when `log` is committed, with `head` its last revision. -/
structure Follows (log : List Change) (head : Nat) (s : Session) : Prop where
  initial : changesOf s.signals <+: above Change.revision s.from_ log
  complete : s.watcher.live = true → changesOf s.signals = above Change.revision s.from_ log
  seen : s.watcher.live = true → s.watcher.handle.lastSeen ≤ head ∧
    ∀ ch ∈ log, ch.revision ≤ s.watcher.handle.lastSeen
  from_le : s.from_ ≤ s.watcher.handle.lastSeen ∧ s.from_ ≤ head
  boundary_le : s.watcher.handle.boundary ≤ head
  kept : s.watcher.dropped = false → s.watcher.registered = true ∨
    s.watcher.handle.overflowed = true
  armed : (s.watcher.gone.isSome = true ∨ s.watcher.stream.terminalEmitted = true) ↔
    s.watcher.handle.overflowed = true
  overflow : ∀ gone, s.watcher.gone = some gone → ∃ cap last, gone = .overflow cap last
  draining : s.watcher.stream.drainingForGone = true →
    s.watcher.gone.isSome = true ∨ s.watcher.stream.terminalEmitted = true
  emitted : s.watcher.stream.terminalEmitted = true → s.ended.isSome = true
  ended : s.ended.isSome = true → s.watcher.queue = [] ∧ s.watcher.handle.overflowed = true
  signal_le : ∀ signal ∈ s.signals, signal.revision ≤ s.watcher.handle.lastSeen
  marks : ∀ a b, a ++ [.bookmark b] <+: s.signals →
    s.from_ ≤ b ∧ b ≤ head ∧ Resumes Change.revision s.from_ b (changesOf a) log

/-- A terminal names a revision to resume at. -/
structure Resumable (log : List Change) (head : Nat) (s : Session) : Prop where
  gone : ∀ cap last, s.watcher.gone = some (.overflow cap last) →
    last = s.watcher.handle.lastSeen ∧ last ≤ head ∧
    Resumes Change.revision s.from_ last (changesOf s.signals) log
  ended : ∀ cap last, s.ended = some (.overflow cap last) →
    last ≤ head ∧ Resumes Change.revision s.from_ last (changesOf s.signals) log

variable {log chs : List Change} {head head' : Nat} {s : Session}

theorem Follows.gone_none (h : s.Follows log head) (hl : s.watcher.live = true) :
    s.watcher.gone = none := by
  cases hg : s.watcher.gone with
  | none => rfl
  | some g =>
    have ho := h.armed.mp (.inl (by simp [hg]))
    simp [Watcher.live, ho] at hl

theorem Follows.ended_none (h : s.Follows log head) (hl : s.watcher.live = true) :
    s.ended = none := by
  cases he : s.ended with
  | none => rfl
  | some g =>
    have ho := (h.ended (by simp [he])).2
    simp [Watcher.live, ho] at hl

/-! ### Commits -/

/-- The changes of a commit, behind everything committed before. -/
structure Commits (head head' : Nat) (chs : List Change) : Prop where
  le : head ≤ head'
  new : ∀ ch ∈ chs, head < ch.revision
  revision : ∀ ch ∈ chs, ch.revision = head'

theorem Follows.marks_commit (h : s.Follows log head) (hc : Commits head head' chs)
    {a : List ChangeSignal} {b : Nat} (hm : a ++ [.bookmark b] <+: s.signals) :
    s.from_ ≤ b ∧ b ≤ head' ∧ Resumes revision s.from_ b (changesOf a) (log ++ chs) := by
  obtain ⟨hf, hb, hr⟩ := h.marks a b hm
  refine ⟨hf, hb.trans hc.le, hr.append (fun ch hch => ?_) fun ch hch => ?_⟩
  · exact hb.trans_lt (hc.new ch hch)
  · exact h.from_le.2.trans_lt (hc.new ch hch)

/-- What is enqueued is not above the last revision seen. -/
theorem Follows.signal_le_push (h : s.Follows log head) {l : List Change} {seen : Nat}
    (hmono : s.watcher.handle.lastSeen ≤ seen) (hcov : ∀ ch ∈ l, ch.revision ≤ seen) :
    ∀ signal ∈ s.received ++ (s.watcher.queue ++ l.map .change), signal.revision ≤ seen := by
  intro signal hmem
  rw [← append_assoc] at hmem
  rcases mem_append.mp hmem with hold | hnew
  · exact (h.signal_le signal hold).trans hmono
  · obtain ⟨ch, hch, rfl⟩ := mem_map.mp hnew
    exact hcov ch hch

/-- A live channel follows what is put behind the log. -/
theorem Follows.filled (h : s.Follows log head) (hl : s.watcher.live = true) (hle : head ≤ head')
    (hfrom : ∀ ch ∈ chs, s.from_ < ch.revision) (hhead : ∀ ch ∈ chs, ch.revision ≤ head')
    (hmarks : ∀ a b, a ++ [.bookmark b] <+: s.signals →
      s.from_ ≤ b ∧ b ≤ head' ∧ Resumes revision s.from_ b (changesOf a) (log ++ chs)) (reg :
      Bool) :
    Follows (log ++ chs) head' { s with watcher := s.watcher.filled chs reg } := by
  have habove : above revision s.from_ (log ++ chs) = above revision s.from_ log ++ chs := by
    rw [above_append, above_eq_self hfrom]
  have hseen := h.seen hl
  have hended : s.ended = none := h.ended_none hl
  unfold Watcher.filled
  split
  · obtain ⟨hmono, hcov, hlast⟩ := s.watcher.pushAll_lastSeen chs
    rw [pushAll_eq]
    refine ⟨?_, ?_, ?_, ⟨h.from_le.1.trans hmono, h.from_le.2.trans hle⟩, h.boundary_le.trans hle,
      h.kept, h.armed, h.overflow, h.draining, h.emitted, ?_, h.signal_le_push hmono hcov, ?_⟩
    · simp only [signals, habove, ← h.complete hl]
      simp
    · simp only [signals, habove, ← h.complete hl]
      simp
    · intro _
      refine ⟨?_, fun ch hch => ?_⟩
      · rcases hlast with he | ⟨ch, hch, he⟩
        · simp only [he]; exact hseen.1.trans hle
        · simp only [← he]; exact hhead ch hch
      · rcases mem_append.mp hch with hch | hch
        · exact (hseen.2 ch hch).trans hmono
        · exact hcov ch hch
    · intro he
      rw [hended] at he
      cases he
    · intro a b hm
      refine hmarks a b (bookmark_of_append_changes chs ?_)
      simpa [signals, append_assoc] using hm
  · obtain ⟨hmono, hcov, hlast⟩ := s.watcher.pushAll_lastSeen (chs.take s.watcher.free)
    rw [pushAll_eq]
    have harm : (Watcher.overflow { s.watcher with
        queue := s.watcher.queue ++ (chs.take s.watcher.free).map .change
        handle := { s.watcher.handle with
          lastSeen := (s.watcher.pushAll (chs.take s.watcher.free)).handle.lastSeen }
            }).gone.isSome = true := by
      simp [Watcher.overflow, Watcher.arm]
    refine ⟨?_, ?_, ?_, ⟨h.from_le.1.trans hmono, h.from_le.2.trans hle⟩, h.boundary_le.trans hle,
      fun _ => .inr rfl, ⟨fun _ => rfl, fun _ => .inl harm⟩, ?_, fun _ => .inl harm, h.emitted, ?_,
      h.signal_le_push hmono hcov, ?_⟩
    · simp only [signals, Watcher.overflow, Watcher.arm, changesOf_append,
        changesOf_map, habove, ← h.complete hl, ← append_assoc]
      exact (prefix_append_right_inj _).mpr (List.take_prefix ..)
    · intro hlive
      simp [Watcher.live, Watcher.overflow] at hlive
    · intro hlive
      simp [Watcher.live, Watcher.overflow] at hlive
    · intro gone hg
      simp only [Watcher.overflow, Watcher.arm, h.gone_none hl, orElse_none,
        Option.some.injEq] at hg
      exact ⟨_, _, hg.symm⟩
    · intro he
      rw [hended] at he
      cases he
    · intro a b hm
      refine hmarks a b (bookmark_of_append_changes (chs.take s.watcher.free) ?_)
      simpa [signals, Watcher.overflow, Watcher.arm, append_assoc] using hm

theorem Follows.fan (h : s.Follows log head) (hc : Commits head head' chs) :
    (s.fan chs).Follows (log ++ chs) head' := by
  have hfrom : ∀ ch ∈ chs, s.from_ < ch.revision :=
    fun ch hch => h.from_le.2.trans_lt (hc.new ch hch)
  unfold Session.fan
  cases hl : s.watcher.live with
  | false =>
    obtain ⟨reg, he, hreg⟩ := fan_dead hl chs
    have hdead : ¬Watcher.live { s.watcher with registered := reg } = true := by
      cases hr : reg with
      | false => simp [Watcher.live]
      | true => simpa [Watcher.live, hreg hr] using hl
    rw [he]
    refine ⟨?_, fun hlive => absurd hlive hdead, fun hlive => absurd hlive hdead,
      ⟨h.from_le.1, h.from_le.2.trans hc.le⟩, h.boundary_le.trans hc.le, ?_, h.armed,
      h.overflow, h.draining, h.emitted, h.ended, h.signal_le, fun a b hm => h.marks_commit hc hm⟩
    · rw [above_append]
      exact h.initial.trans (prefix_append ..)
    · -- a handle that leaves the registry here has overflowed
      intro hdrop
      simp only at hdrop
      rcases h.kept hdrop with hreg' | hover
      · right
        simpa [Watcher.live, hreg', hdrop] using hl
      · exact .inr hover
  | true =>
    rw [fan_eq hl chs fun ch hch => h.boundary_le.trans_lt (hc.new ch hch)]
    exact h.filled hl hc.le hfrom (fun ch hch => (hc.revision ch hch).le)
      (fun a b => h.marks_commit hc) false

/-- The changes of one revision go into a live channel whole or not at all. -/
def FitsWhole (s : Session) (chs : List Change) : Prop :=
  s.watcher.live = true → CutsBetween Change.revision s.watcher.free chs

theorem Resumable.commit (hr : s.Resumable log head) (h : s.Follows log head)
    (hc : Commits head head' chs) : s.Resumable (log ++ chs) head' := by
  have more : ∀ last, last ≤ head ∧ Resumes revision s.from_ last (changesOf s.signals) log →
      last ≤ head' ∧ Resumes revision s.from_ last (changesOf s.signals) (log ++ chs) := by
    rintro last ⟨hle, hres⟩
    refine ⟨hle.trans hc.le, hres.append (fun ch hch => ?_) fun ch hch => ?_⟩
    · exact hle.trans_lt (hc.new ch hch)
    · exact h.from_le.2.trans_lt (hc.new ch hch)
  exact ⟨fun cap last hg => ⟨(hr.gone cap last hg).1, more last (hr.gone cap last hg).2⟩,
    fun cap last he => more last (hr.ended cap last he)⟩

/-- A channel that fills up between two revisions can be resumed at the last one that went in. -/
theorem Follows.resumable_filled (h : s.Follows log head) (hl : s.watcher.live = true)
    (hle : head ≤ head')
    (hfrom : ∀ ch ∈ chs, s.from_ < ch.revision) (hhead : ∀ ch ∈ chs, ch.revision ≤ head')
    (hnew : ∀ ch ∈ chs, s.watcher.handle.lastSeen < ch.revision) (ho : Ordered revision chs)
    (hcut : CutsBetween revision s.watcher.free chs) (reg : Bool) :
    Resumable (log ++ chs) head' { s with watcher := s.watcher.filled chs reg } := by
  have hgone := h.gone_none hl
  have hended := h.ended_none hl
  have hseen := h.seen hl
  unfold Watcher.filled
  split
  · rw [pushAll_eq]
    exact ⟨fun _ _ hg => by simp [hgone] at hg, fun _ _ he => by simp [hended] at he⟩
  obtain ⟨hmono, hcov, hlast⟩ := s.watcher.pushAll_lastSeen (chs.take s.watcher.free)
  rw [pushAll_eq]
  generalize (s.watcher.pushAll (chs.take s.watcher.free)).handle.lastSeen =
    last at hmono hcov hlast
  have hsplit := take_append_drop s.watcher.free chs
  have hdrop : ∀ ch ∈ chs.drop s.watcher.free, last < ch.revision := by
    intro ch hch
    rcases hlast with he | ⟨c, hc, rfl⟩
    · exact he ▸ hnew ch (mem_of_mem_drop hch)
    · rw [← hsplit] at ho
      exact lt_of_le_of_ne ((pairwise_append.mp ho).2.2 c hc ch hch) (hcut c hc ch hch)
  have hres : Resumes revision s.from_ last
      (changesOf s.signals ++ chs.take s.watcher.free) (log ++ chs) := by
    have hold : above revision last log = [] := above_eq_nil fun ch hch =>
      (hseen.2 ch hch).trans hmono
    have hrest : above revision last chs = chs.drop s.watcher.free := by
      conv_lhs => rw [← hsplit, above_append, above_eq_nil hcov, above_eq_self hdrop]
      rfl
    rw [Resumes, above_append, above_append, hold, hrest, above_eq_self hfrom,
      h.complete hl, nil_append, append_assoc, hsplit]
  refine ⟨fun cap last' hg => ?_, fun _ _ he => by simp [hended] at he⟩
  simp only [Watcher.overflow, Watcher.arm, hgone, orElse_none, Option.some.injEq,
    WatchGone.overflow.injEq] at hg
  obtain ⟨-, rfl⟩ := hg
  refine ⟨rfl, ?_, ?_⟩
  · rcases hlast with he | ⟨c, hc, rfl⟩
    · exact he ▸ hseen.1.trans hle
    · exact hhead c (mem_of_mem_take hc)
  · simpa [signals, Watcher.overflow, Watcher.arm, -map_take] using hres

theorem Resumable.fan (hr : s.Resumable log head) (h : s.Follows log head)
    (hc : Commits head head' chs) (hfit : s.FitsWhole chs) :
    (s.fan chs).Resumable (log ++ chs) head' := by
  unfold Session.fan
  cases hl : s.watcher.live with
  | false =>
    obtain ⟨reg, he, -⟩ := fan_dead hl chs
    obtain ⟨hg, hd⟩ := hr.commit h hc
    rw [he]
    exact ⟨hg, hd⟩
  | true =>
    rw [fan_eq hl chs fun ch hch => h.boundary_le.trans_lt (hc.new ch hch)]
    exact h.resumable_filled hl hc.le (fun ch hch => h.from_le.2.trans_lt (hc.new ch hch))
      (fun ch hch => (hc.revision ch hch).le) (fun ch hch => (h.seen hl).1.trans_lt (hc.new ch hch))
      (ordered_of_const hc.revision) (hfit hl) false

/-! ### Registration -/

variable {c : ResourceCatalog} {opts : WatchOpts} {now : Nat}

/-- The inversion lemma of a registration: the resume point is in the retained history, and the
channel holds as much of what is above it as fits. -/
theorem register_ok (hback : c.history.Backs log) (h : Watcher.register c opts now = .ok w) :
    opts.from_ ≤ c.revision ∧ c.history.floor ≤ opts.from_ ∧
      w = (Watcher.fresh c.revision opts now).feed (above revision opts.from_ log) := by
  unfold Watcher.register at h
  split at h
  · cases h
  have hfloor : c.history.floor ≤ opts.from_ := by
    by_contra hlt
    rw [since, split, if_pos (by omega)] at h
    cases h
  rw [hback.since hfloor] at h
  cases h
  exact ⟨by omega, hfloor, rfl⟩

/-- The consumer of a new channel has seen what it asked to start behind. -/
theorem register_stream (hback : c.history.Backs log) (h : Watcher.register c opts now = .ok w) :
    w.dropped = false ∧ w.stream.lastSeen = opts.from_ := by
  obtain ⟨-, -, rfl⟩ := register_ok hback h
  rw [feed_eq rfl rfl, Watcher.filled]
  split
  · rw [pushAll_eq]
    exact ⟨rfl, rfl⟩
  · rw [pushAll_eq]
    exact ⟨rfl, rfl⟩

theorem register_accepts (hback : c.history.Backs log) (now : Nat)
    (hfloor : c.history.floor ≤ opts.from_)
    (hle : opts.from_ ≤ c.revision) : ∃ w, Watcher.register c opts now = .ok w := by
  unfold Watcher.register
  rw [if_neg (by omega), hback.since hfloor]
  exact ⟨_, rfl⟩

/-- A channel before its replay follows the log up to its resume point. -/
theorem fresh_follows (log : List Change) (hfrom : opts.from_ ≤ c.revision) (now : Nat) :
    (opened opts.from_ (Watcher.fresh c.revision opts now)).Follows
      (upTo revision opts.from_ log) c.revision := by
  have hup : ∀ ch ∈ upTo revision opts.from_ log, ch.revision ≤ opts.from_ := by
    intro ch hch
    simpa using (mem_filter.mp hch).2
  refine ⟨List.nil_prefix, fun _ => (above_eq_nil hup).symm, fun _ => ⟨hfrom, hup⟩,
    ⟨le_rfl, hfrom⟩, le_rfl,
    fun _ => .inl rfl, ?_, nofun, nofun, nofun, nofun, nofun, fun a b hm => ?_⟩
  · simp [opened, Watcher.fresh]
  · simp [opened, signals, Watcher.fresh] at hm

theorem opened_follows (hback : c.history.Backs log) (h : Watcher.register c opts now = .ok w) :
    (opened opts.from_ w).Follows log c.revision := by
  obtain ⟨hfrom, -, rfl⟩ := register_ok hback h
  rw [feed_eq rfl rfl]
  have hfilled := (fresh_follows log hfrom now).filled rfl le_rfl
    (fun ch hch => (mem_above.mp hch).2) (fun ch hch => hback.le_head ch (mem_above.mp hch).1)
    (fun a b hm => by simp [opened, signals, Watcher.fresh] at hm) true
  exact (congrArg (Follows · _ _) hback.ordered.upTo_append_above).mp hfilled

/-- A replay that overflows between two revisions can be resumed. -/
theorem opened_resumable (hback : c.history.Backs log) (h : Watcher.register c opts now = .ok w)
    (hcut : CutsBetween revision (max opts.buffer 1) (above revision opts.from_ log)) :
    (opened opts.from_ w).Resumable log c.revision := by
  obtain ⟨hfrom, -, rfl⟩ := register_ok hback h
  have hnew : ∀ ch ∈ above revision opts.from_ log, opts.from_ < ch.revision :=
    fun ch hch => (mem_above.mp hch).2
  rw [feed_eq rfl rfl]
  have hfilled := (fresh_follows log hfrom now).resumable_filled rfl le_rfl hnew
    (fun ch hch => hback.le_head ch (mem_above.mp hch).1) hnew hback.ordered.above
    (by simpa [opened, Watcher.free, Watcher.fresh] using hcut) true
  exact (congrArg (Resumable · _ _) hback.ordered.upTo_append_above).mp hfilled

/-! ### Bookmarks -/

/-- The inversion lemma of a tick: at most the handle leaves the registry or a bookmark goes into a
live channel. -/
theorem tickBookmark_cases (w : Watcher) (current now : Nat) :
    (∃ reg, w.tickBookmark current now = { w with registered := reg } ∧
      (reg = true → w.registered = true) ∧ (w.live = true → reg = true)) ∨
    (w.live = true ∧ ∃ lastRev at_, w.tickBookmark current now = { w with
      queue := w.queue ++ [.bookmark current]
      handle := { w.handle with
        lastSeen := max w.handle.lastSeen current, lastBookmarkedRev := lastRev, lastBookmarkAt :=
          at_ } }) := by
  have stays : w.live = true → w.registered = true := by
    intro h
    simp only [Watcher.live, and_eq_true] at h
    exact h.1.1
  have leaves : w.live = false → (false = true → w.registered = true) ∧
      (w.live = true → false = true) := by
    intro h
    exact ⟨fun hf => (by cases hf), fun hl => (by rw [h] at hl; cases hl)⟩
  unfold Watcher.tickBookmark
  split
  · exact .inl ⟨w.registered, rfl, id, stays⟩
  rename_i hr
  split
  · rename_i ho
    exact .inl ⟨false, rfl, leaves (by simp [Watcher.live, ho])⟩
  rename_i ho
  simp only
  split
  · exact .inl ⟨w.registered, rfl, id, stays⟩
  unfold Watcher.trySend
  by_cases hd : w.dropped
  · rw [if_pos hd]
    exact .inl ⟨false, rfl, leaves (by simp [Watcher.live, hd])⟩
  · rw [if_neg hd]
    by_cases hfull : w.handle.capacity ≤ w.queue.length
    · rw [if_pos hfull]
      exact .inl ⟨w.registered, rfl, id, stays⟩
    · rw [if_neg hfull]
      refine .inr ⟨?_, some current, now, rfl⟩
      simpa [Watcher.live, ho, hd] using hr

theorem Follows.tick (h : s.Follows log head) (hle : ∀ ch ∈ log, ch.revision ≤ head) (now : Nat) :
    (s.tick head now).Follows log head := by
  unfold Session.tick
  obtain ⟨reg, he, hreg, hstays⟩ | ⟨hl, lastRev, at_, he⟩ := tickBookmark_cases s.watcher head now
  · rw [he]
    have hlive : Watcher.live { s.watcher with registered := reg } = true →
        s.watcher.live = true := by
      intro hl
      simp only [Watcher.live, and_eq_true] at hl ⊢
      exact ⟨⟨hreg hl.1.1, hl.1.2⟩, hl.2⟩
    refine ⟨h.initial, fun hl => h.complete (hlive hl), fun hl => h.seen (hlive hl), h.from_le,
      h.boundary_le, fun hd => ?_, h.armed, h.overflow, h.draining, h.emitted, h.ended,
      h.signal_le, h.marks⟩
    rcases h.kept hd with hr | ho
    · cases ho : s.watcher.handle.overflowed with
      | true => exact .inr rfl
      | false => exact .inl (hstays (by simpa [Watcher.live, hr, ho] using hd))
    · exact .inr ho
  · rw [he]
    have hseen := h.seen hl
    have hsame : changesOf (s.received ++ (s.watcher.queue ++ [.bookmark head])) =
        changesOf s.signals := by
      simp [signals]
    refine ⟨?_, ?_, ?_, ⟨h.from_le.1.trans (le_max_left ..), h.from_le.2⟩, h.boundary_le,
      h.kept, h.armed, h.overflow, h.draining, h.emitted, ?_, ?_, ?_⟩
    · simp only [signals, hsame]
      exact h.initial
    · intro _
      simp only [signals, hsame]
      exact h.complete hl
    · intro _
      exact ⟨max_le hseen.1 le_rfl, fun ch hch => (hseen.2 ch hch).trans (le_max_left ..)⟩
    · intro hend
      simp [h.ended_none hl] at hend
    · intro signal hmem
      simp only [signals, ← append_assoc] at hmem
      rcases mem_append.mp hmem with hold | hnew
      · exact (h.signal_le signal hold).trans (le_max_left ..)
      · rw [mem_singleton.mp hnew]
        exact le_max_right ..
    · intro a b hm
      simp only [signals, ← append_assoc] at hm
      rcases prefix_concat_iff.mp hm with heq | hold
      · -- the new bookmark: everything up to the head went in before it
        obtain ⟨rfl, hb⟩ := append_inj' heq rfl
        cases hb
        refine ⟨h.from_le.2, le_rfl, ?_⟩
        unfold Resumes
        rw [above_eq_nil hle, append_nil]
        exact h.complete hl
      · exact h.marks a b hold

theorem Resumable.tick (hr : s.Resumable log head) (h : s.Follows log head) (now : Nat) :
    (s.tick head now).Resumable log head := by
  unfold Session.tick
  obtain ⟨reg, he, -⟩ | ⟨hl, lastRev, at_, he⟩ := tickBookmark_cases s.watcher head now
  · rw [he]
    exact ⟨hr.gone, hr.ended⟩
  · rw [he]
    refine ⟨fun cap last hg => ?_, fun cap last hend => ?_⟩
    · simp [h.gone_none hl] at hg
    · simp [h.ended_none hl] at hend

/-! ### The consumer -/

/-- The inversion lemma of a poll: nothing, a signal off the channel, or the terminal behind the
last signal. -/
theorem nextChange_cases
    (hdrain : w.stream.drainingForGone = true → w.gone.isSome = true ∨
      w.stream.terminalEmitted = true) :
    (w.nextChange = (w, .pending) ∨ (w.nextChange = (w, .ended) ∧
      (w.stream.terminalEmitted = true ∨ w.registered = false ∧ w.gone = none))) ∨
    (∃ signal queue stream, w.queue = signal :: queue ∧
      stream.terminalEmitted = w.stream.terminalEmitted ∧
      (stream.drainingForGone = true → w.stream.drainingForGone = true ∨ w.gone.isSome = true) ∧
      w.nextChange = ({ w with queue, stream }, .ready (.ok signal))) ∨
    (∃ gone stream, w.queue = [] ∧ w.gone = some gone ∧ stream.terminalEmitted = true ∧
      w.nextChange = ({ w with gone := none, stream }, .ready (.error gone))) := by
  unfold Watcher.nextChange
  cases hterm : w.stream.terminalEmitted with
  | true => exact .inl (.inr ⟨rfl, .inl rfl⟩)
  | false =>
    by_cases hdr : w.stream.drainingForGone || w.gone.isSome
    · rw [if_pos hdr]
      have hgone : w.gone.isSome = true := by
        rcases or_eq_true_iff.mp hdr with hd | hg
        · exact (hdrain hd).resolve_right (by simp [hterm])
        · exact hg
      obtain ⟨gone, hg⟩ := isSome_iff_exists.mp hgone
      cases hq : w.queue with
      | nil =>
        refine .inr (.inr ⟨gone, ⟨w.stream.lastSeen, true, true⟩, rfl, hg, rfl, ?_⟩)
        simp [Watcher.nextWhileDraining, Watcher.tryRecv, hg]
      | cons signal queue =>
        refine .inr (.inl ⟨signal, queue, ⟨max w.stream.lastSeen signal.revision, false, true⟩,
          rfl, rfl, fun _ => .inr hgone, ?_⟩)
        simp [Watcher.nextWhileDraining, Watcher.tryRecv, Watcher.account, hterm]
    · rw [if_neg hdr]
      simp only [not_eq_true, or_eq_false_iff] at hdr
      have hg : w.gone = none := by simpa using hdr.2
      cases hq : w.queue with
      | nil =>
        left
        simp only [Watcher.tryRecv, hq]
        by_cases hreg : w.registered
        · rw [if_pos hreg]
          exact .inl rfl
        · rw [if_neg hreg]
          right
          refine ⟨?_, .inr ⟨by simpa using hreg, hg⟩⟩
          simp [Watcher.closeOrGone, hg]
      | cons signal queue =>
        refine .inr (.inl ⟨signal, queue, ⟨max w.stream.lastSeen signal.revision, false, false⟩,
          rfl, rfl, fun hd => (by cases hd), ?_⟩)
        simp [Watcher.tryRecv, Watcher.account, hq, hterm, hdr.1]

theorem next_cases (h : s.Follows log head) : s.next = s ∨
    (∃ signal queue stream, s.watcher.queue = signal :: queue ∧
      stream.terminalEmitted = s.watcher.stream.terminalEmitted ∧
      (stream.drainingForGone = true → s.watcher.stream.drainingForGone = true ∨
        s.watcher.gone.isSome = true) ∧
      s.next = { s with
        watcher := { s.watcher with queue, stream }, received := s.received ++ [signal] }) ∨
    (∃ gone stream, s.watcher.queue = [] ∧ s.watcher.gone = some gone ∧
      stream.terminalEmitted = true ∧
      s.next =
        { s with watcher := { s.watcher with gone := none, stream }, ended := some gone }) := by
  unfold Session.next
  split
  · exact .inl rfl
  obtain (he | ⟨he, -⟩) | ⟨signal, queue, stream, hq, hterm, hdr, he⟩ |
    ⟨gone, stream, hq, hg, hterm, he⟩ := nextChange_cases h.draining
  · exact .inl (by simp [he])
  · exact .inl (by simp [he])
  · exact .inr (.inl ⟨signal, queue, stream, hq, hterm, hdr, by simp [he]⟩)
  · exact .inr (.inr ⟨gone, stream, hq, hg, hterm, by simp [he]⟩)

theorem Follows.next (h : s.Follows log head) : s.next.Follows log head := by
  obtain he | ⟨signal, queue, stream, hq, hterm, hdrain, he⟩ | ⟨gone, stream, hq, hg, hterm, he⟩ :=
    next_cases h
  · rw [he]; exact h
  · rw [he]
    have hsame : (s.received ++ [signal]) ++ queue = s.signals := by simp [signals, hq]
    refine ⟨?_, ?_, h.seen, h.from_le, h.boundary_le, h.kept, ?_, h.overflow, ?_, ?_, ?_, ?_, ?_⟩
    · simp only [signals, hsame]; exact h.initial
    · simp only [signals, hsame]; exact h.complete
    · simp only [hterm]; exact h.armed
    · intro hd
      simp only [hterm]
      rcases hdrain hd with hd | hg
      · exact h.draining hd
      · exact .inl hg
    · simp only [hterm]; exact h.emitted
    · intro hend
      have := (h.ended hend).1
      rw [hq] at this
      cases this
    · simp only [signals, hsame]; exact h.signal_le
    · simp only [signals, hsame]; exact h.marks
  · rw [he]
    have ho := h.armed.mp (.inl (by simp [hg]))
    exact ⟨h.initial, h.complete, h.seen, h.from_le, h.boundary_le, h.kept,
      ⟨fun _ => ho, fun _ => .inr hterm⟩, fun _ hnone => (by cases hnone), fun _ => .inr hterm,
      fun _ => rfl, fun _ => ⟨hq, ho⟩,
      h.signal_le, h.marks⟩

theorem Resumable.next (hr : s.Resumable log head) (h : s.Follows log head) :
    s.next.Resumable log head := by
  obtain he | ⟨signal, queue, stream, hq, -, -, he⟩ | ⟨gone, stream, hq, hg, -, he⟩ := next_cases h
  · rw [he]; exact hr
  · rw [he]
    have hsame : (s.received ++ [signal]) ++ queue = s.signals := by simp [signals, hq]
    refine ⟨?_, ?_⟩
    · simp only [signals, hsame]; exact hr.gone
    · simp only [signals, hsame]; exact hr.ended
  · rw [he]
    refine ⟨fun _ _ hnone => (by cases hnone), fun cap last hend => ?_⟩
    simp only [Option.some.injEq] at hend
    subst hend
    exact (hr.gone cap last hg).2

theorem Follows.drop (h : s.Follows log head) : s.drop.Follows log head := by
  refine ⟨h.initial, fun hl => ?_, fun hl => ?_, h.from_le, h.boundary_le, fun hd => ?_, h.armed,
    h.overflow, h.draining, h.emitted, h.ended, h.signal_le, h.marks⟩
  · simp [Session.drop, Watcher.live] at hl
  · simp [Session.drop, Watcher.live] at hl
  · cases hd

theorem Resumable.drop (hr : s.Resumable log head) : s.drop.Resumable log head :=
  ⟨hr.gone, hr.ended⟩
end Session

/-! ## Runs -/

open Stamped

/-- What an operation commits comes behind everything committed before, at one revision. -/
theorem perform_commits (env : Env) (c : ResourceCatalog) (op : CatalogOp) :
    Session.Commits c.revision (c.perform env op).1.revision (c.perform env op).2 := by
  obtain ⟨_, _, he⟩ | ⟨first, rest, _, _, hw, he⟩ | ⟨target, he⟩ := perform_cases env c op
  · rw [he]
    exact ⟨le_rfl, by simp, by simp⟩
  · rw [he]
    refine ⟨by simp [ResourceCatalog.revision], fun ch hch => ?_, fun ch hch => ?_⟩
    · have := hw.revision ch hch
      omega
    · simpa [ResourceCatalog.revision] using hw.revision ch hch
  · rw [he]
    exact ⟨by simp [ResourceCatalog.revision, ResourceCatalog.compact], by simp, by simp⟩

namespace WatchSystem
variable {env : Env} {s : WatchSystem}

structure Follows (s : WatchSystem) : Prop where
  backs : s.store.cat.history.Backs s.store.log
  sessions : ∀ v ∈ s.sessions, v.Follows s.store.log s.store.cat.revision

theorem mem_modify {i : Nat} {f : Session → Session} {l : List Session} {v : Session}
    (h : v ∈ l.modify i f) : v ∈ l ∨ ∃ u ∈ l, v = f u := by
  obtain ⟨j, hj, rfl⟩ := mem_iff_getElem.mp h
  rw [getElem_modify]
  split
  · exact .inr ⟨_, getElem_mem _, rfl⟩
  · exact .inl (getElem_mem _)

theorem Follows.step (h : s.Follows) (a : WatchStep) : (s.step env a).Follows := by
  cases a with
  | commit op =>
    refine ⟨(Logged.step_backs h.backs op).1, fun v hv => ?_⟩
    obtain ⟨u, hu, rfl⟩ := mem_map.mp hv
    exact (h.sessions u hu).fan (perform_commits env s.store.cat op)
  | register opts now =>
    unfold WatchSystem.step
    simp only
    split
    · rename_i w hw
      refine ⟨h.backs, fun v hv => ?_⟩
      rcases mem_append.mp hv with hv | hv
      · exact h.sessions v hv
      · rw [mem_singleton.mp hv]
        exact Session.opened_follows h.backs hw
    · exact h
  | tick now =>
    refine ⟨h.backs, fun v hv => ?_⟩
    obtain ⟨u, hu, rfl⟩ := mem_map.mp hv
    exact (h.sessions u hu).tick h.backs.le_head now
  | next i =>
    refine ⟨h.backs, fun v hv => ?_⟩
    rcases mem_modify hv with hv | ⟨u, hu, rfl⟩
    · exact h.sessions v hv
    · exact (h.sessions u hu).next
  | drop i =>
    refine ⟨h.backs, fun v hv => ?_⟩
    rcases mem_modify hv with hv | ⟨u, hu, rfl⟩
    · exact h.sessions v hv
    · exact (h.sessions u hu).drop

theorem after_follows (env : Env) (capacity : Nat) (steps : List WatchStep) :
    (after env capacity steps).Follows :=
  Run.exec_inv (I := Follows) (fun _ a h => h.step a)
    ⟨backs_new .., fun v hv => (by cases hv)⟩ steps

/-- No channel fills up between two changes of one revision, neither with what is committed nor with
the replay of the past. -/
def FillsBetween (env : Env) (s : WatchSystem) : WatchStep → Prop
  | .commit op => ∀ v ∈ s.sessions, v.FitsWhole (s.store.cat.perform env op).2
  | .register opts _ =>
    match s.store.cat.history.since opts.from_ with
    | .ok replay => CutsBetween Change.revision (max opts.buffer 1) replay
    | .error _ => True
  | _ => True

instance (env : Env) (s : WatchSystem) : ∀ a, Decidable (FillsBetween env s a)
  | .commit op => inferInstanceAs (Decidable (∀ v ∈ s.sessions,
      v.watcher.live = true →
        CutsBetween Change.revision v.watcher.free (s.store.cat.perform env op).2))
  | .register opts _ =>
    match h : s.store.cat.history.since opts.from_ with
    | .ok replay => decidable_of_iff (CutsBetween Change.revision (max opts.buffer 1) replay)
        (by simp [FillsBetween, h])
    | .error _ => .isTrue (by simp [FillsBetween, h])
  | .tick _ | .next _ | .drop _ => .isTrue trivial

theorem resumable_step (h : s.Follows)
    (hr : ∀ v ∈ s.sessions, v.Resumable s.store.log s.store.cat.revision)
    (a : WatchStep) (hok : FillsBetween env s a) : ∀ v ∈ (s.step env a).sessions,
      v.Resumable (s.step env a).store.log (s.step env a).store.cat.revision := by
  cases a with
  | commit op =>
    intro v hv
    obtain ⟨u, hu, rfl⟩ := mem_map.mp hv
    exact (hr u hu).fan (h.sessions u hu) (perform_commits env s.store.cat op) (hok u hu)
  | register opts now =>
    unfold WatchSystem.step
    simp only
    split
    · rename_i w hw
      intro v hv
      rcases mem_append.mp hv with hv | hv
      · exact hr v hv
      rw [mem_singleton.mp hv]
      obtain ⟨-, hfloor, -⟩ := Session.register_ok h.backs hw
      have hcut : CutsBetween revision (max opts.buffer 1)
          (above revision opts.from_ s.store.log) := by
        simpa [FillsBetween, h.backs.since hfloor] using hok
      exact Session.opened_resumable h.backs hw hcut
    · exact hr
  | tick now =>
    intro v hv
    obtain ⟨u, hu, rfl⟩ := mem_map.mp hv
    exact (hr u hu).tick (h.sessions u hu) now
  | next i =>
    intro v hv
    rcases mem_modify hv with hv | ⟨u, hu, rfl⟩
    · exact hr v hv
    · exact (hr u hu).next (h.sessions u hu)
  | drop i =>
    intro v hv
    rcases mem_modify hv with hv | ⟨u, hu, rfl⟩
    · exact hr v hv
    · exact (hr u hu).drop

theorem after_resumable (env : Env) (capacity : Nat) {steps : List WatchStep}
    (hok : Run.Along (step env) (FillsBetween env) (init capacity) steps) :
    ∀ v ∈ (after env capacity steps).sessions,
      v.Resumable (after env capacity steps).store.log
      (after env capacity steps).store.cat.revision :=
  (Run.Along.exec_inv
    (I := fun s : WatchSystem => s.Follows ∧ ∀ v ∈ s.sessions,
      v.Resumable s.store.log s.store.cat.revision)
    (fun _ a hok h => ⟨h.1.step a, resumable_step h.1 h.2 a hok⟩)
    ⟨⟨backs_new .., fun v hv => (by cases hv)⟩, fun v hv => (by cases hv)⟩ hok).2

/-- In every run, what a stream has delivered is an initial part of the changes above its resume
point, in commit order. If no channel fills up in the middle of a revision, a stream that ended on
an overflow can be resumed where the overflow says: the resume point is accepted while the history
holds it, the changes above it are exactly those that were not delivered, and a stream registered
there and the first one together deliver every change above the first resume point once. -/
theorem delivery_resumes (env : Env) (capacity : Nat) (steps : List WatchStep) :
    let s := after env capacity steps
    (∀ v ∈ s.sessions, v.delivered <+: above Change.revision v.from_ s.store.log) ∧
    (Run.Along (step env) (FillsBetween env) (init capacity) steps →
      ∀ v ∈ s.sessions, ∀ cap last, v.ended = some (.overflow cap last) →
        (s.store.cat.history.floor ≤ last →
          ∀ buffer every now, ∃ w, Watcher.register s.store.cat ⟨last, buffer, every⟩ now = .ok w) ∧
        v.delivered ++ above Change.revision last s.store.log =
          above Change.revision v.from_ s.store.log ∧
        ∀ u ∈ s.sessions, u.from_ = last →
          v.delivered ++ u.delivered <+: above Change.revision v.from_ s.store.log ∧
          (u.watcher.live = true → u.watcher.queue = [] →
            v.delivered ++ u.delivered = above Change.revision v.from_ s.store.log)) := by
  intro s
  have hfol := after_follows env capacity steps
  have initial : ∀ v ∈ s.sessions, v.delivered <+: above Change.revision v.from_ s.store.log := by
    intro v hv
    refine List.IsPrefix.trans ?_ (hfol.sessions v hv).initial
    rw [Session.signals, changesOf_append]
    exact List.prefix_append ..
  refine ⟨initial, fun hok v hv cap last hend => ?_⟩
  obtain ⟨hle, hres⟩ := (after_resumable env capacity hok v hv).ended cap last hend
  have hempty := ((hfol.sessions v hv).ended (by simp [hend])).1
  have hall : v.delivered ++ above Change.revision last s.store.log =
      above Change.revision v.from_ s.store.log := by
    have : v.signals = v.received := by simp [Session.signals, hempty]
    rw [this] at hres
    exact hres
  refine ⟨fun hfloor buffer every now => Session.register_accepts hfol.backs now hfloor hle, hall,
    fun u hu hfrom => ⟨?_, fun hlive hdrained => ?_⟩⟩
  · rw [← hall, List.prefix_append_right_inj, ← hfrom]
    exact initial u hu
  · have hu' : u.delivered = above Change.revision last s.store.log := by
      rw [← hfrom, ← (hfol.sessions u hu).complete hlive, Session.signals, hdrained,
        List.append_nil]
      rfl
    rw [hu', hall]

end WatchSystem

/-! ## Two runs -/

/-- Pods created one by one, each at a revision of its own. -/
def createPod (name : String) : WatchStep :=
  .commit (.command (.put ⟨"", "v1", "Pod", some "default",
    name⟩ (podBody [("name", .str name)]) none)
    .v1 1 1)

/-- Two pods created by one transaction, at one revision. -/
def createTwoPods : WatchStep :=
  .commit (.command (.txn [] [
    .put ⟨"", "v1", "Pod", some "default", "a"⟩ (podBody [("name", .str "a")]),
    .put ⟨"", "v1", "Pod", some "default", "b"⟩ (podBody [("name", .str "b")])] []) .v1 1 1)

/-- A buffer of one, two creates, and a resume. -/
def overflowBetween : List WatchStep :=
  [.register ⟨0, 1, 0⟩ 0, createPod "a", createPod "b", .next 0, .next 0,
    .register ⟨1, 1, 0⟩ 0, .next 1]

/-- The names of the pods a session delivered. -/
def Session.names (s : Session) : List String := s.delivered.map fun ch => ch.key.name

theorem overflowBetween_resumes :
    let s := WatchSystem.after atomicEnv 8 overflowBetween
    ∃ v ∈ s.sessions, ∃ u ∈ s.sessions, v.ended = some (.overflow 1 1) ∧ u.from_ = 1 ∧
      v.names = ["a"] ∧ u.names = ["b"] ∧
      v.delivered ++ u.delivered = Stamped.above Change.revision v.from_ s.store.log := by
  intro s
  have hv : s.sessions[0]? = some _ := rfl
  have hu : s.sessions[1]? = some _ := rfl
  have hvmem := List.mem_of_getElem? hv
  have humem := List.mem_of_getElem? hu
  have h := (WatchSystem.delivery_resumes atomicEnv 8 overflowBetween).2 (by decide +kernel)
    _ hvmem 1 1 rfl
  exact ⟨_, hvmem, _, humem, rfl, rfl, by decide +kernel, by decide +kernel,
    (h.2.2 _ humem rfl).2 rfl rfl⟩

/-- A buffer of one, and two changes at one revision: the first is delivered, the second overflows,
and the resume point is behind both. The resumed stream has nothing to deliver. -/
theorem overflow_inside_loses :
    let s := WatchSystem.after atomicEnv 8
      [.register ⟨0, 1, 0⟩ 0, createTwoPods, .next 0, .next 0, .register ⟨1, 1, 0⟩ 0, .next 1]
    s.sessions.map (fun v => (v.from_, v.ended, v.names, v.watcher.live, v.watcher.queue)) =
        [(0, some (.overflow 1 1), ["a"], false, []), (1, none, [], true, [])] ∧
      s.store.cat.history.floor ≤ 1 ∧
      (Stamped.above Change.revision 0 s.store.log).map (fun ch => ch.key.name) = ["a", "b"] := by
  decide +kernel

end Engenho
