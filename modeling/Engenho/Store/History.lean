import Engenho.Lib.Stamped
import Engenho.Store.Resource

/-!
# Revisions, changes and the retained history

The store numbers its commits: every real mutation gets the next revision (a `Nat`; the source
counts in 64 bits), and one `Change` per key it touched. `WatchHistory` keeps the newest changes in
a ring, with the revision of the last one to leave as its floor.

* `WatchHistory.commit`: one revision, whole; then the oldest whole revisions leave until the ring
  fits its capacity.
* `WatchHistory.compact`: the floor rises to the target, at most to the head.
* `WatchHistory.Backs`: the promise of the ring against the log of everything ever committed. Both
  operations keep it (`Backs.commit`, `Backs.compact`).
-/

namespace Engenho
open Stamped List Nat

/-- When an entry was created and changed, and how often. -/
structure VersionMeta where
  createRevision : Nat
  modRevision : Nat
  version : Nat
deriving DecidableEq, Repr

namespace VersionMeta

/-- The metadata of a new entry. -/
def createdAt (rev : Nat) : VersionMeta := ⟨rev, rev, 1⟩

/-- The metadata after another write. -/
def bumpedAt (m : VersionMeta) (rev : Nat) : VersionMeta := ⟨m.createRevision, rev, m.version + 1⟩
end VersionMeta

/-- A write, or a delete. -/
inductive ChangeKind where
  | put
  | delete
deriving DecidableEq, Repr

/-- One change of one key, as history keeps it. -/
structure Change where
  revision : Nat
  key : ResourceKey
  kind : ChangeKind
  value : ResourceValue
  prior : Option ResourceValue
  versionMeta : VersionMeta
deriving DecidableEq, Repr

/-- The revision asked for is no longer kept. -/
structure CompactedTooOld where
  requested : Nat
  compacted : Nat
deriving DecidableEq, Repr

def CompactedTooOld.text (e : CompactedTooOld) : String :=
  "requested revision " ++ toString e.requested ++
    " has been compacted (the compaction floor is " ++
    toString e.compacted ++ ": resume from it or later)"

/-- The ring of retained changes, oldest first. -/
structure WatchHistory where
  ring : List Change
  floor : Nat
  head : Nat
  capacity : Nat
  capacity_pos : 0 < capacity
deriving DecidableEq

namespace WatchHistory

/-- No change is kept yet. -/
def new (capacity : Nat) (h : 0 < capacity) : WatchHistory := ⟨[], 0, 0, capacity, h⟩

variable (h : WatchHistory)

def nextRevision : Nat := h.head + 1

/-- The retained changes up to `rv` and those after it. -/
def split (rv : Nat) : Except CompactedTooOld (List Change × List Change) :=
  if rv < h.floor then .error ⟨rv, h.floor⟩
  else .ok (h.ring.takeWhile (·.revision ≤ rv), h.ring.dropWhile (·.revision ≤ rv))

/-- The changes after a revision. -/
def since (rv : Nat) : Except CompactedTooOld (List Change) :=
  (h.split rv).map Prod.snd

/-- Drops the oldest revision whole. -/
def evictOldestRevision : WatchHistory :=
  match h.ring.head? with
  | none => h
  | some oldest =>
    { h with
      ring := h.ring.dropWhile (·.revision ≤ oldest.revision)
      floor := oldest.revision }

/-- The loop of `commit`. Every round drops a change, so the ring's length is enough fuel
(`length_evictLoop`). -/
def evictLoop : Nat → WatchHistory → WatchHistory
  | 0, h => h
  | fuel + 1, h => if h.capacity < h.ring.length then evictLoop fuel h.evictOldestRevision else h

variable (target : Nat) (first : Change) (rest : List Change)

/-- Keeps the changes of a commit, and evicts. -/
def commit : WatchHistory :=
  let ring := h.ring ++ first :: rest
  evictLoop ring.length { h with ring, head := h.nextRevision }

/-- Drops what is at or below a revision. -/
def compact : WatchHistory :=
  let target := min target h.head
  if h.floor < target then
    { h with ring := h.ring.dropWhile (·.revision ≤ target), floor := target }
  else h

/-! ## What each operation leaves alone -/

@[simp] theorem evictOldestRevision_head : h.evictOldestRevision.head = h.head := by
  unfold evictOldestRevision; split <;> rfl

@[simp] theorem evictOldestRevision_capacity : h.evictOldestRevision.capacity = h.capacity := by
  unfold evictOldestRevision; split <;> rfl

@[simp] theorem evictLoop_head (n : Nat) (h : WatchHistory) : (evictLoop n h).head = h.head := by
  induction n generalizing h with
  | zero => rfl
  | succ n ih => unfold evictLoop; split <;> simp [ih]

@[simp] theorem evictLoop_capacity (n : Nat) (h : WatchHistory) :
    (evictLoop n h).capacity = h.capacity := by
  induction n generalizing h with
  | zero => rfl
  | succ n ih => unfold evictLoop; split <;> simp [ih]

@[simp] theorem commit_head : (h.commit first rest).head = h.head + 1 := by
  simp [commit, nextRevision]

@[simp] theorem commit_capacity : (h.commit first rest).capacity = h.capacity := by simp [commit]

@[simp] theorem compact_head : (h.compact target).head = h.head := by
  simp only [compact]; split <;> rfl

@[simp] theorem compact_capacity : (h.compact target).capacity = h.capacity := by
  simp only [compact]; split <;> rfl

theorem length_evictOldestRevision (hne : h.ring ≠ []) :
    h.evictOldestRevision.ring.length < h.ring.length := by
  obtain ⟨c, l, hr⟩ := exists_cons_of_ne_nil hne
  simp only [evictOldestRevision, hr, List.head?_cons]
  rw [dropWhile_cons_of_pos (by simp)]
  have := (dropWhile_sublist (l := l) fun d : Change => d.revision ≤ c.revision).length_le
  simp only [length_cons]
  omega

theorem length_evictLoop {n : Nat} {h : WatchHistory} (hn : h.ring.length ≤ n) :
    (evictLoop n h).ring.length ≤ (evictLoop n h).capacity := by
  induction n generalizing h with
  | zero => simp [evictLoop, le_zero.mp hn]
  | succ n ih =>
    unfold evictLoop
    split
    · rename_i hc
      have hne : h.ring ≠ [] := by
        rintro he
        simp [he] at hc
      exact ih (le_of_lt_succ ((length_evictOldestRevision h hne).trans_le hn))
    · rename_i hc
      exact not_lt.mp hc

/-! ## The promise of the ring -/

/-- The ring against `log`, everything ever committed: the ring is exactly what the floor leaves of
it, and every revision up to the head is in the log. -/
structure Backs (h : WatchHistory) (log : List Change) : Prop where
  ordered : Stamped.Ordered Change.revision log
  le_head : ∀ c ∈ log, c.revision ≤ h.head
  dense : ∀ r, 0 < r → r ≤ h.head → ∃ c ∈ log, c.revision = r
  ring : h.ring = Stamped.above Change.revision h.floor log
  floor_le : h.floor ≤ h.head
  fits : h.ring.length ≤ h.capacity

theorem backs_new (capacity : Nat) (hc : 0 < capacity) : (new capacity hc).Backs [] where
  ordered := List.Pairwise.nil
  le_head := by simp
  dense := fun r hr hr' => absurd (hr.trans_le hr') (lt_irrefl _)
  ring := rfl
  floor_le := le_rfl
  fits := zero_le _

section
variable {h : WatchHistory} {log : List Change}

/-- Evicting raises the floor to the oldest retained revision and drops exactly that revision. -/
theorem ring_evictOldestRevision (ho : Ordered Change.revision log)
    (hle : ∀ c ∈ log, c.revision ≤ h.head)
    (hr : h.ring = above Change.revision h.floor log) (hf : h.floor ≤ h.head) :
    let h' := h.evictOldestRevision
    h'.ring = above Change.revision h'.floor log ∧ h.floor ≤ h'.floor ∧ h'.floor ≤ h'.head := by
  unfold evictOldestRevision
  split
  · exact ⟨hr, le_rfl, hf⟩
  rename_i c hc
  have hmem : c ∈ above Change.revision h.floor log := hr ▸ mem_of_head? hc
  obtain ⟨hlog, hfloor⟩ := mem_above.mp hmem
  refine ⟨?_, hfloor.le, hle c hlog⟩
  simp only [hr]
  rw [ho.above.dropWhile_eq_above, above_above hfloor.le]

theorem ring_evictLoop (n : Nat) (ho : Ordered Change.revision log)
    (hle : ∀ c ∈ log, c.revision ≤ h.head)
    (hr : h.ring = above Change.revision h.floor log) (hf : h.floor ≤ h.head) :
    let h' := evictLoop n h
    h'.ring = above Change.revision h'.floor log ∧ h.floor ≤ h'.floor ∧ h'.floor ≤ h'.head := by
  induction n generalizing h with
  | zero => exact ⟨hr, le_rfl, hf⟩
  | succ n ih =>
    unfold evictLoop
    split
    · obtain ⟨hr', hf', hh'⟩ := ring_evictOldestRevision ho hle hr hf
      obtain ⟨h₁, h₂, h₃⟩ := ih (by simpa using hle) hr' hh'
      exact ⟨h₁, hf'.trans h₂, h₃⟩
    · exact ⟨hr, le_rfl, hf⟩

/-- A commit whose changes carry the next revision keeps the promise, and never lowers the floor. -/
theorem Backs.commit (hb : h.Backs log) {first : Change} {rest : List Change}
    (hrev : ∀ c ∈ first :: rest, c.revision = h.nextRevision) :
    (h.commit first rest).Backs (log ++ first :: rest) ∧ h.floor ≤ (h.commit first rest).floor := by
  have ho : Ordered Change.revision (log ++ first :: rest) := by
    refine hb.ordered.append (ordered_of_const hrev) fun c hc d hd => ?_
    rw [hrev d hd]
    exact le_succ_of_le (hb.le_head c hc)
  have hle : ∀ c ∈ log ++ first :: rest, c.revision ≤ h.nextRevision := fun c hc => by
    rcases mem_append.mp hc with hc | hc
    · exact le_succ_of_le (hb.le_head c hc)
    · exact (hrev c hc).le
  have hring : h.ring ++ first :: rest = above Change.revision h.floor (log ++ first :: rest) := by
    rw [above_append, ← hb.ring, above_eq_self (l := first :: rest)]
    intro c hc
    rw [hrev c hc]
    exact lt_succ_of_le hb.floor_le
  obtain ⟨h₁, h₂, h₃⟩ := ring_evictLoop (h.ring ++ first :: rest).length
    (h := { h with ring := h.ring ++ first :: rest, head := h.nextRevision }) ho hle hring
    (le_succ_of_le hb.floor_le)
  refine ⟨⟨ho, by simpa [nextRevision] using hle, fun r hr hr' => ?_, h₁, h₃,
    length_evictLoop le_rfl⟩, h₂⟩
  rw [commit_head] at hr'
  rcases lt_or_ge h.head r with hlt | hge
  · exact ⟨first, by simp, by rw [hrev first (by simp)]; simp only [nextRevision]; omega⟩
  · obtain ⟨c, hc, hcr⟩ := hb.dense r hr hge
    exact ⟨c, mem_append_left _ hc, hcr⟩

theorem Backs.compact (hb : h.Backs log) (target : Nat) :
    (h.compact target).Backs log ∧ h.floor ≤ (h.compact target).floor := by
  simp only [WatchHistory.compact]
  split
  · rename_i hlt
    have hring : h.ring.dropWhile (·.revision ≤ min target h.head) =
        above Change.revision (min target h.head) log := by
      rw [hb.ring, hb.ordered.above.dropWhile_eq_above, above_above hlt.le]
    refine ⟨⟨hb.ordered, hb.le_head, hb.dense, hring, min_le_right .., ?_⟩, hlt.le⟩
    exact (dropWhile_sublist _).length_le.trans hb.fits
  · exact ⟨hb, le_rfl⟩

/-- Splitting at a revision the floor admits splits the log above the floor there. -/
theorem Backs.split (hb : h.Backs log) {rv : Nat} (hrv : h.floor ≤ rv) :
    h.split rv = .ok (upTo Change.revision rv h.ring, above Change.revision rv log) := by
  have ho : Ordered Change.revision h.ring := hb.ring ▸ hb.ordered.above
  rw [WatchHistory.split, if_neg (not_lt.mpr hrv), ho.takeWhile_eq_upTo, ho.dropWhile_eq_above]
  rw [hb.ring, above_above hrv]

/-- What is committed after the log is what lies above its head. -/
theorem Backs.above_newer (hb : h.Backs log) {chs : List Change}
    (hnew : ∀ ch ∈ chs, h.head < ch.revision) :
    above Change.revision h.head (log ++ chs) = chs := by
  rw [above_append, above_eq_nil hb.le_head, above_eq_self hnew, nil_append]

theorem Backs.since (hb : h.Backs log) {rv : Nat} (hrv : h.floor ≤ rv) :
    h.since rv = .ok (above Change.revision rv log) := by
  rw [WatchHistory.since, hb.split hrv]
  rfl

end
end WatchHistory
end Engenho
