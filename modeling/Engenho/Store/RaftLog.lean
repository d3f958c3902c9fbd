import Engenho.Lib.OrdMap
import Engenho.Lib.Run

/-!
# The stored Raft log

The log partition of the durable store and its purge marker, with the writes of each call in the
order in which they become durable. A call may be cut after any of them; what is left is what the
store reopens.

`Disk.Whole` says that the log has no hole. A truncate or a purge that is cut between two removals
leaves one (`cut_truncate_leaves_hole`); the log stays whole along every run whose calls meet
`Keeps`, which for truncates and purges is exact (`log_stays_whole`).
-/

namespace Engenho
open OrdMap List

/-- The name of an entry: who proposed it, and where it stands. -/
structure LogId where
  term : Nat
  node : Nat
  index : Nat
deriving DecidableEq, Repr

/-- An entry on disk. -/
structure StoredEntry (α : Type) where
  logId : LogId
  payload : α
deriving DecidableEq, Repr

namespace RaftLog
variable {α : Type}

/-! ## The partition -/

/-- What is on disk: entries, and the last one purged. -/
structure Disk (α : Type) where
  log : OrdMap Nat (StoredEntry α)
  lastPurged : Option LogId

/-- A write to the disk. -/
inductive Write (α : Type) where
  | insert (idx : Nat) (entry : StoredEntry α)
  | remove (idx : Nat)
  | putLastPurged (logId : LogId)

/-- A call of the log store. -/
inductive Call (α : Type) where
  | append (entries : List (StoredEntry α))
  | truncate (logId : LogId)
  | purge (logId : LogId)

/-- What the store reports of its log. -/
structure LogState where
  lastPurged : Option LogId
  last : Option LogId

namespace Disk

def empty : Disk α := ⟨.empty, none⟩

def write (d : Disk α) : Write α → Disk α
  | .insert idx entry => { d with log := d.log.insert idx entry }
  | .remove idx => { d with log := d.log.erase idx }
  | .putLastPurged logId => { d with lastPurged := some logId }

def keys (d : Disk α) : List Nat := d.log.entries.map Prod.fst

/-- The entry under the highest key is the last one; of an empty log it is the purged one. -/
def getLogState (d : Disk α) : LogState :=
  ⟨d.lastPurged, (d.log.entries.getLast?.map fun e => e.2.logId).or d.lastPurged⟩

end Disk

/-- The durable writes of a call, in order. Keys are collected in ascending order. -/
def Call.writes (d : Disk α) : Call α → List (Write α)
  | .append entries => entries.map fun e => .insert e.logId.index e
  | .truncate logId => (d.keys.filter fun i => logId.index ≤ i).map .remove
  | .purge logId => (d.keys.filter fun i => i ≤ logId.index).map .remove ++ [.putLastPurged logId]

/-- A call of which the first writes became durable, all of them if there are no more. -/
def Disk.cut (d : Disk α) (call : Call α × Nat) : Disk α :=
  ((call.1.writes d).take call.2).foldl Disk.write d

/-- The first index behind a position. -/
def next : Option LogId → Nat
  | none => 0
  | some logId => logId.index + 1

/-- The entries that are there are those behind the purged one up to the last one. -/
def Disk.Whole (d : Disk α) : Prop :=
  ∀ i, i ∈ d.keys ↔ next d.getLogState.lastPurged ≤ i ∧ i < next d.getLogState.last

/-- The entries continue the log; a truncate is not cut after some of its removals; a purge is not
cut after some of its removals, unless nothing is left, and does not go back. -/
def Keeps (d : Disk α) : Call α × Nat → Prop
  | (.append entries, _) =>
    entries.map (fun e => e.logId.index) = List.range' (next d.getLogState.last) entries.length
  | (.truncate logId, done) => done = 0 ∨ (d.keys.filter fun i => logId.index ≤ i).length ≤ done
  | (.purge logId, done) =>
    done = 0 ∨ if done ≤ (d.keys.filter fun i => i ≤ logId.index).length then d.keys.length ≤ done
      else d.keys = [] ∨ next d.lastPurged ≤ logId.index + 1

instance (d : Disk α) : DecidablePred (Keeps d)
  | (.append _, _) => inferInstanceAs (Decidable (_ = _))
  | (.truncate _, _) => inferInstanceAs (Decidable (_ ∨ _))
  | (.purge _, _) => inferInstanceAs (Decidable (_ ∨ ite _ _ _))

/-! ## Keys -/

variable {d : Disk α} {i a b : Nat} {id : LogId} {done : Nat}

/-- Every entry is under its own index. -/
def Keyed (d : Disk α) : Prop := ∀ e ∈ d.log.entries, e.2.logId.index = e.1

theorem pairwise_keys (d : Disk α) : d.keys.Pairwise (· < ·) := pairwise_map.mpr d.log.sorted

theorem mem_keys : i ∈ d.keys ↔ ∃ e, d.log.get i = some e := by simp [Disk.keys, mem_entries]

/-- The keys are those from `a` up to `b`. -/
def Spans (d : Disk α) (a b : Nat) : Prop := ∀ i, i ∈ d.keys ↔ a ≤ i ∧ i < b

theorem whole_iff (hk : Keyed d) : d.Whole ↔ ∃ b, Spans d (next d.lastPurged) b := by
  refine ⟨fun h => ⟨_, h⟩, fun ⟨b, h⟩ i => (h i).trans ?_⟩
  cases hl : d.log.entries.getLast? with
  | none =>
    have hnone : ¬ (next d.lastPurged ≤ i ∧ i < b) := fun hi => by
      simpa [Disk.keys, List.getLast?_eq_none_iff.mp hl] using (h i).mpr hi
    simp only [Disk.getLogState, hl, Option.map_none, Option.none_or]
    omega
  | some e =>
    -- the last key is the highest one of the interval
    have hmem : e ∈ d.log.entries := mem_of_getLast? hl
    have hin := (h e.1).mp (mem_map_of_mem hmem)
    have hmax : ∀ j ∈ d.keys, j ≤ e.1 := by
      obtain ⟨pre, hpre⟩ := List.getLast?_eq_some_iff.mp hl
      have hs := pairwise_keys d
      simp only [Disk.keys, hpre, map_append, pairwise_append] at hs ⊢
      intro j hj
      rcases mem_append.mp hj with hj | hj
      · exact (hs.2.2 j hj e.1 (.head _)).le
      · exact (mem_singleton.mp hj).le
    have hb : b ≤ e.1 + 1 := by
      by_contra hlt
      exact absurd (hmax (b - 1) ((h _).mpr (by omega))) (by omega)
    simp only [Disk.getLogState, hl, Option.map_some, Option.some_or, next, hk e hmem]
    omega

theorem Spans.keys (h : Spans d a b) : d.keys = List.range' a (b - a) :=
  (pairwise_keys d).eq_of_mem_iff pairwise_lt_range' fun i => by
    rw [h i, mem_range'_1]
    omega

theorem Spans.atLeast (h : Spans d a b) (lo : Nat) :
    (d.keys.filter fun i => lo ≤ i) = List.range' (max a lo) (b - max a lo) :=
  ((pairwise_keys d).filter _).eq_of_mem_iff pairwise_lt_range' fun i => by
    rw [mem_filter, h i, mem_range'_1, decide_eq_true_eq]
    omega

theorem Spans.atMost (h : Spans d a b) (hi : Nat) :
    (d.keys.filter fun i => i ≤ hi) = List.range' a (min b (hi + 1) - a) :=
  ((pairwise_keys d).filter _).eq_of_mem_iff pairwise_lt_range' fun i => by
    rw [mem_filter, h i, mem_range'_1, decide_eq_true_eq]
    omega

/-! ## Writes -/

theorem foldl_remove (ks : List Nat) (d : Disk α) :
    let d' := (ks.map Write.remove).foldl Disk.write d
    d'.lastPurged = d.lastPurged ∧ ∀ i, d'.log.get i = if i ∈ ks then none else d.log.get i := by
  induction ks generalizing d with
  | nil => exact ⟨rfl, fun i => rfl⟩
  | cons k ks ih =>
    obtain ⟨hp, hg⟩ := ih (d.write (.remove k))
    refine ⟨hp, fun i => (hg i).trans ?_⟩
    by_cases hi : i ∈ ks
    · simp [hi]
    · simp [hi, Disk.write, get_erase]

theorem foldl_insert (es : List (StoredEntry α)) (d : Disk α) :
    let d' := (es.map fun e => Write.insert e.logId.index e).foldl Disk.write d
    d'.lastPurged = d.lastPurged ∧ ∀ i, i ∈ d'.keys ↔ i ∈ d.keys ∨ i ∈ es.map fun e =>
      e.logId.index := by
  induction es generalizing d with
  | nil => simp
  | cons e es ih =>
    obtain ⟨hp, hk⟩ := ih (d.write (.insert e.logId.index e))
    refine ⟨hp, fun i => (hk i).trans ?_⟩
    rw [map_cons, mem_cons, ← or_assoc]
    refine or_congr_left ?_
    simp only [mem_keys, Disk.write, get_insert]
    by_cases hi : i = e.logId.index <;> simp [hi]

theorem Keyed.write (h : Keyed d) {w : Write α}
    (hw : ∀ idx e, w = .insert idx e → e.logId.index = idx) : Keyed (d.write w) := by
  intro e he
  obtain ⟨k, v⟩ := e
  rw [mem_entries] at he
  cases w with
  | insert idx entry =>
    simp only [Disk.write, get_insert] at he
    split at he
    · obtain rfl := Option.some.inj he
      rw [hw idx entry rfl, ‹k = idx›]
    · exact h (k, v) (d.log.mem_entries.mpr he)
  | remove idx =>
    simp only [Disk.write, get_erase] at he
    split at he
    · cases he
    · exact h (k, v) (d.log.mem_entries.mpr he)
  | putLastPurged logId => exact h (k, v) (d.log.mem_entries.mpr he)

theorem Keyed.cut (h : Keyed d) (call : Call α × Nat) : Keyed (d.cut call) := by
  refine List.foldlRecOn _ Disk.write (motive := Keyed) h fun d' hd w hw =>
    hd.write fun idx e he => ?_
  have hmem := mem_of_mem_take hw
  obtain ⟨c, n⟩ := call
  subst he
  cases c with
  | append entries =>
    obtain ⟨e', -, he'⟩ := mem_map.mp hmem
    cases he'
    rfl
  | _ => simp [Call.writes] at hmem

/-! ## Calls -/

theorem mem_take_range' (a m n i : Nat) :
    i ∈ (List.range' a m).take n ↔ a ≤ i ∧ i < a + min n m := by
  induction n generalizing a m with
  | zero => simp
  | succ n ih =>
    cases m with
    | zero => simp
    | succ m =>
      rw [List.range'_succ, take_succ_cons, mem_cons, ih]
      omega

theorem mem_keys_removed (ks : List Nat) :
    i ∈ ((ks.map Write.remove).foldl Disk.write d).keys ↔ i ∈ d.keys ∧ i ∉ ks := by
  rw [mem_keys, (foldl_remove ks d).2 i, mem_keys]
  by_cases hi : i ∈ ks <;> simp [hi]

theorem cut_truncate : d.cut (.truncate id, done) =
      (((d.keys.filter fun i => id.index ≤ i).take done).map Write.remove).foldl Disk.write d := by
  rw [map_take]
  rfl

theorem cut_purge :
    let removed := (((d.keys.filter fun i => i ≤ id.index).take done).map Write.remove).foldl
      Disk.write d
    d.cut (.purge id, done) = if done ≤ (d.keys.filter fun i => i ≤ id.index).length then removed
      else { removed with lastPurged := some id } := by
  intro removed
  rw [Disk.cut, Call.writes, take_append, foldl_append, ← map_take, length_map]
  split
  · rw [Nat.sub_eq_zero_of_le ‹_›]
    rfl
  · have hall : [Write.putLastPurged (α := α) id].take
      (done - (d.keys.filter fun i => i ≤ id.index).length) =
        [.putLastPurged id] := take_of_length_le (by rw [length_singleton]; omega)
    rw [hall]
    rfl

theorem truncate_iff (hk : Keyed d) (h : d.Whole) :
    (d.cut (.truncate id, done)).Whole ↔ Keeps d (.truncate id, done) := by
  obtain ⟨b, hs⟩ := (whole_iff hk).mp h
  rw [whole_iff (hk.cut _), cut_truncate, (foldl_remove ..).1]
  simp only [Keeps, Spans, mem_keys_removed, hs _, hs.atLeast, mem_take_range', length_range']
  constructor
  · rintro ⟨b', hb⟩
    -- a key that is gone, with one behind it that is there
    have hgone := hb (max (next d.lastPurged) id.index)
    have hthere := hb (max (next d.lastPurged) id.index + done)
    omega
  · rintro (rfl | hall)
    · exact ⟨b, fun i => by omega⟩
    · exact ⟨min b (max (next d.lastPurged) id.index), fun i => by omega⟩

theorem purge_iff (hk : Keyed d) (h : d.Whole) :
    (d.cut (.purge id, done)).Whole ↔ Keeps d (.purge id, done) := by
  obtain ⟨b, hs⟩ := (whole_iff hk).mp h
  have hnil : d.keys = [] ↔ b ≤ next d.lastPurged := by
    rw [hs.keys, List.range'_eq_nil_iff]
    omega
  have hlen : d.keys.length = b - next d.lastPurged := by rw [hs.keys, length_range']
  rw [whole_iff (hk.cut _), cut_purge]
  simp only [Keeps, hnil, hs.atMost, length_range']
  by_cases hcut : done ≤ min b (id.index + 1) - next d.lastPurged
  · simp only [if_pos hcut, Spans, mem_keys_removed, hs _, mem_take_range', (foldl_remove ..).1]
    constructor
    · rintro ⟨b', hb⟩
      have hgone := hb (next d.lastPurged)
      have hthere := hb (next d.lastPurged + done)
      omega
    · rintro (rfl | hall)
      · exact ⟨b, fun i => by omega⟩
      · exact ⟨0, fun i => by omega⟩
  · have hkeys : ∀ ks : List Nat, Disk.keys
        { (ks.map Write.remove).foldl Disk.write d with lastPurged := some id } =
          ((ks.map Write.remove).foldl Disk.write d).keys := fun _ => rfl
    simp only [if_neg hcut, Spans, hkeys, mem_keys_removed, hs _, mem_take_range']
    constructor
    · rintro ⟨b', hb⟩
      have hfirst := hb (id.index + 1)
      have hold := hb (next d.lastPurged)
      have hnext : next (some id) = id.index + 1 := rfl
      omega
    · have hnext : next (some id) = id.index + 1 := rfl
      rintro (hzero | hempty | hle)
      · omega
      · exact ⟨0, fun i => by omega⟩
      · exact ⟨b, fun i => by omega⟩

theorem next_le (h : d.Whole) : next d.lastPurged ≤ next d.getLogState.last := by
  cases hl : d.log.entries.getLast? with
  | none => simp [Disk.getLogState, hl]
  | some e =>
    have hin := (h e.1).mp (mem_map_of_mem (mem_of_getLast? hl))
    exact (hin.1.trans_lt hin.2).le

theorem append_whole (hk : Keyed d) (h : d.Whole) {entries : List (StoredEntry α)}
    (hok : Keeps d (.append entries, done)) : (d.cut (.append entries, done)).Whole := by
  obtain ⟨hp, hmem⟩ := foldl_insert (entries.take done) d
  have hle : next d.getLogState.lastPurged ≤ next d.getLogState.last := next_le h
  have hcut : d.cut (.append entries, done) =
      ((entries.take done).map fun e => Write.insert e.logId.index e).foldl Disk.write d := by
    rw [map_take]
    rfl
  refine (whole_iff (hk.cut _)).mpr ⟨next d.getLogState.last + min done entries.length, fun i => ?_⟩
  have hidx : i ∈ (entries.take done).map (fun e => e.logId.index) ↔
      next d.getLogState.last ≤ i ∧ i < next d.getLogState.last + min done entries.length := by
    rw [map_take, hok, mem_take_range']
  rw [hcut, hp, hmem, h i, hidx]
  change _ ↔ next d.getLogState.lastPurged ≤ i ∧ _
  omega

/-- Along every run in which each call meets `Keeps` the stored log is whole. After such a run a
truncate or a purge that is cut anywhere leaves it whole exactly if it meets `Keeps`. -/
theorem log_stays_whole (calls : List (Call α × Nat))
    (h : Run.Along Disk.cut Keeps Disk.empty calls) : (Run.exec Disk.cut Disk.empty calls).Whole ∧
      ∀ id done, ((Run.exec Disk.cut Disk.empty (calls ++ [(.truncate id, done)])).Whole ↔
          Keeps (Run.exec Disk.cut Disk.empty calls) (.truncate id, done)) ∧
        ((Run.exec Disk.cut Disk.empty (calls ++ [(.purge id, done)])).Whole ↔
          Keeps (Run.exec Disk.cut Disk.empty calls) (.purge id, done)) := by
  have hinv : Keyed (Run.exec Disk.cut Disk.empty calls) ∧
      (Run.exec Disk.cut Disk.empty calls).Whole := by
    refine Run.Along.exec_inv (I := fun d => Keyed d ∧ d.Whole)
      (fun d call hok hd => ⟨hd.1.cut call, ?_⟩) ?_ h
    · obtain ⟨c, done⟩ := call
      cases c with
      | append entries => exact append_whole hd.1 hd.2 hok
      | truncate id => exact (truncate_iff hd.1 hd.2).mpr hok
      | purge id => exact (purge_iff hd.1 hd.2).mpr hok
    · exact ⟨fun _ he => (List.not_mem_nil he).elim,
        fun i => by simp [Disk.keys, Disk.empty, OrdMap.empty, Disk.getLogState, next]⟩
  refine ⟨hinv.2, fun id done => ?_⟩
  simp only [Run.exec_append]
  exact ⟨truncate_iff hinv.1 hinv.2, purge_iff hinv.1 hinv.2⟩

/-! ## Calls that are cut -/

def entryAt (index : Nat) : StoredEntry Unit := ⟨⟨1, 1, index⟩, ()⟩

def three : Call Unit × Nat := (.append [entryAt 0, entryAt 1, entryAt 2], 3)

theorem log_stays_whole_purged :
    (Run.exec Disk.cut Disk.empty [three, (.truncate ⟨1, 1, 2⟩, 1), (.purge ⟨1, 1, 0⟩, 2)]).keys =
    [1] ∧
      (Run.exec Disk.cut Disk.empty [three, (.truncate ⟨1, 1, 2⟩, 1),
        (.purge ⟨1, 1, 0⟩, 2)]).Whole :=
  ⟨by decide, (log_stays_whole _ (by decide)).1⟩

/-- Two entries of three are truncated and the store stops after the first removal: the last entry
is there and the one before it is not. A purge of two that stops there leaves the first entry
missing. -/
theorem cut_truncate_leaves_hole :
    ¬ (Run.exec Disk.cut Disk.empty [three, (.truncate ⟨1, 1, 1⟩, 1)]).Whole ∧
      ¬ (Run.exec Disk.cut Disk.empty [three, (.purge ⟨1, 1, 1⟩, 1)]).Whole :=
  ⟨fun h => absurd ((h 1).mpr (by decide)) (by decide),
    fun h => absurd ((h 0).mpr (by decide)) (by decide)⟩

end RaftLog
end Engenho
