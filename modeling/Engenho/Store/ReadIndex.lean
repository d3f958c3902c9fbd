import Mathlib.Data.List.Infix
import Mathlib.Logic.Function.Basic
import Engenho.Lib.Run

/-!
# Reads at `Latest` on the replicas of a cluster

The replicas apply prefixes of one committed log, and a write is acknowledged by a leader that has
applied it. A read at `Latest` is served from the head of the replica that gets it. Before that it
is fenced: the replica asks for the read index and applies up to it. `Cluster.fence` skips this
where the membership that the replica knows of has one voter at most, which is also what a learner
of a single voter sees (`learner_reads_stale`).
-/

namespace Engenho.Mesh
open List
variable {α : Type}

/-- How far a read has come. -/
inductive Stage (α : Type) where
  /-- `get_read_log_id` was called when so many entries were committed. -/
  | asked (committed : Nat)
  /-- `wait_for_raft_applied`. -/
  | waiting (index : Nat)
  | fenced
  | refused
  | served (state : List α)
deriving DecidableEq

/-- A read at `Latest`, with the writes that were acknowledged before it started. -/
structure LatestRead (α : Type) where
  node : Nat
  acked : List Nat
  stage : Stage α
deriving DecidableEq

/-- The committed log, and how much of it each replica has applied; the voters of the membership
each replica knows of; the acknowledged writes, by index, with the leader that acknowledged them. -/
structure Cluster (α : Type) where
  log : List α
  applied : Nat → Nat
  voters : Nat → List Nat
  acked : List (Nat × Nat)
  reads : List (LatestRead α)

/-- A step of the cluster. -/
inductive Event (α : Type) where
  | commit (entry : α)
  | apply (node : Nat)
  | membership (node : Nat) (voters : List Nat)
  /-- `client_write` returns on the leader `node`. -/
  | acknowledge (node index : Nat)
  | read (node : Nat)
  /-- A read goes on, with the read index it is given; `none` is a refusal or the end of the
  wait. -/
  | resume (read : Nat) (answer : Option Nat)

namespace Cluster

def init : Cluster α := ⟨[], fun _ => 0, fun _ => [], [], []⟩

/-- How many voters a node knows of. -/
def voterCount (c : Cluster α) (node : Nat) : Nat := (c.voters node).length

/-- `fence`, up to the call of `get_read_log_id`. -/
def fence (c : Cluster α) (node : Nat) : Stage α :=
  if c.voterCount node ≤ 1 then .fenced else .asked c.log.length

/-- The rest of `read_index`, and the read of the catalog. -/
def resume (c : Cluster α) (answer : Option Nat) (r : LatestRead α) : LatestRead α :=
  match r.stage, answer with
  | .asked _, none => { r with stage := .refused }
  -- the read index is at or above all that was committed before the call
  | .asked committed, some index =>
    if committed ≤ index then { r with stage := .waiting index } else r
  | .waiting index, answer =>
    if index ≤ c.applied r.node then { r with stage := .fenced }
    else if answer.isNone then { r with stage := .refused } else r
  | .fenced, _ => { r with stage := .served (c.log.take (c.applied r.node)) }
  | .refused, _ | .served _, _ => r

/-- One step of the cluster. -/
def step (c : Cluster α) : Event α → Cluster α
  | .commit entry => { c with log := c.log ++ [entry] }
  | .apply node =>
    { c with applied := Function.update c.applied node (min (c.applied node + 1) c.log.length) }
  | .membership node voters => { c with voters := Function.update c.voters node voters }
  | .acknowledge node index =>
    if index < c.applied node then { c with acked := (index, node) :: c.acked } else c
  | .read node => { c with reads := c.reads ++ [⟨node, c.acked.map Prod.fst, c.fence node⟩] }
  | .resume read answer => { c with reads := c.reads.modify read (c.resume answer) }

/-- A replica that gets a read knows of more than one voter, or has itself acknowledged every write
so far. -/
def readsAtHome (c : Cluster α) : Event α → Bool
  | .read node => decide (1 < c.voterCount node) || c.acked.all fun a => a.2 = node
  | _ => true

/-- What a read at its stage rests on. -/
def Covers (c : Cluster α) (r : LatestRead α) : Prop :=
  match r.stage with
  | .asked committed => ∀ i ∈ r.acked, i < committed
  | .waiting index => ∀ i ∈ r.acked, i < index
  | .fenced => ∀ i ∈ r.acked, i < c.applied r.node
  | .refused => True
  | .served state => state <+: c.log ∧ ∀ i ∈ r.acked, i < state.length

/-- What every step of the cluster keeps. -/
structure Sound (c : Cluster α) : Prop where
  applied : ∀ node, c.applied node ≤ c.log.length
  acked : ∀ a ∈ c.acked, a.1 < c.applied a.2
  reads : ∀ r ∈ c.reads, c.Covers r

variable {c c' : Cluster α} {r : LatestRead α}

theorem Covers.mono (h : c.Covers r) (hlog : c.log <+: c'.log)
    (happlied : ∀ node, c.applied node ≤ c'.applied node) : c'.Covers r := by
  unfold Covers at h ⊢
  split at h
  · exact h
  · exact h
  · exact fun i hi => (h i hi).trans_le (happlied _)
  · trivial
  · exact ⟨h.1.trans hlog, h.2⟩

theorem Sound.covers_resume (h : c.Sound) (hr : c.Covers r) (answer : Option Nat) :
    c.Covers (c.resume answer r) := by
  unfold resume
  split
  · trivial
  · rename_i committed index hstage
    split
    · rename_i hle
      simp only [Covers, hstage] at hr
      exact fun i hi => (hr i hi).trans_le hle
    · exact hr
  · rename_i index hstage
    split
    · rename_i hle
      simp only [Covers, hstage] at hr
      exact fun i hi => (hr i hi).trans_le hle
    · split
      · trivial
      · exact hr
  · rename_i hstage
    simp only [Covers, hstage] at hr
    refine ⟨List.take_prefix .., fun i hi => ?_⟩
    rw [length_take, Nat.min_eq_left (h.applied r.node)]
    exact hr i hi
  · exact hr
  · exact hr

theorem Sound.covers_read (h : c.Sound) {node : Nat} (hhome : c.readsAtHome (.read node) = true) :
    c.Covers ⟨node, c.acked.map Prod.fst, c.fence node⟩ := by
  have hacked : ∀ i ∈ c.acked.map Prod.fst, ∃ n, (i, n) ∈ c.acked := by simp
  unfold fence
  split
  · rename_i hone
    have hself : ∀ a ∈ c.acked, a.2 = node := by simpa [readsAtHome, hone.not_gt] using hhome
    intro i hi
    obtain ⟨n, hn⟩ := hacked i hi
    have hlt := h.acked _ hn
    rwa [hself _ hn] at hlt
  · intro i hi
    obtain ⟨n, hn⟩ := hacked i hi
    exact (h.acked _ hn).trans_le (h.applied n)

theorem Sound.step (h : c.Sound) {e : Event α} (hhome : c.readsAtHome e = true) :
    (c.step e).Sound := by
  cases e with
  | commit entry =>
    have hlog : c.log <+: c.log ++ [entry] := prefix_append ..
    exact ⟨fun node => (h.applied node).trans hlog.length_le, h.acked,
      fun r hr => (h.reads r hr).mono hlog fun _ => le_rfl⟩
  | apply node =>
    have hle : ∀ n, c.applied n ≤ (c.step (.apply node)).applied n := by
      intro n
      by_cases hn : n = node
      · subst hn
        have := h.applied n
        simp only [Cluster.step, Function.update_self]
        omega
      · simp [Cluster.step, hn]
    refine ⟨fun n => ?_, fun a ha => (h.acked a ha).trans_le (hle _),
      fun r hr => (h.reads r hr).mono (prefix_refl _) hle⟩
    by_cases hn : n = node
    · subst hn
      simp only [Cluster.step, Function.update_self]
      exact Nat.min_le_right ..
    · simpa [Cluster.step, hn] using h.applied n
  | membership node voters => exact ⟨h.applied, h.acked, h.reads⟩
  | acknowledge node index =>
    simp only [Cluster.step]
    split
    · rename_i hlt
      exact ⟨h.applied, forall_mem_cons.mpr ⟨hlt, h.acked⟩, h.reads⟩
    · exact h
  | read node =>
    refine ⟨h.applied, h.acked, fun r hr => ?_⟩
    rcases mem_append.mp hr with hr | hr
    · exact h.reads r hr
    · obtain rfl := mem_singleton.mp hr
      exact h.covers_read hhome
  | resume read answer =>
    refine ⟨h.applied, h.acked, fun r hr => ?_⟩
    obtain ⟨j, hj⟩ := mem_iff_getElem?.mp hr
    simp only [Cluster.step, List.getElem?_modify] at hj
    obtain ⟨r', hr', rfl⟩ := Option.map_eq_some_iff.mp hj
    have hcovers := h.reads r' (mem_of_getElem? hr')
    split
    · exact h.covers_resume hcovers answer
    · exact hcovers

/-- A read that is served has the state after a prefix of the log with every write that was
acknowledged before it started. -/
theorem latest_linearizable (events : List (Event α))
    (h : Run.Along step (fun c e => c.readsAtHome e = true) init events) :
    ∀ r ∈ (Run.exec step init events).reads, ∀ state, r.stage = .served state →
      state <+: (Run.exec step init events).log ∧ ∀ i ∈ r.acked, i < state.length := by
  have hinit : (init : Cluster α).Sound := ⟨fun _ => le_rfl, by simp [init], by simp [init]⟩
  have hsound := Run.Along.exec_inv (I := Sound) (fun c e hhome hc => hc.step hhome) hinit h
  intro r hr state hstage
  have hcovers := hsound.reads r hr
  rwa [Covers, hstage] at hcovers

/-- Three voters: the second gets a read after a write that the first acknowledged. -/
def voterRun : List (Event String) :=
  [.membership 1 [1, 2, 3], .membership 2 [1, 2, 3], .commit "w", .apply 1,
    .acknowledge 1 0, .read 2, .resume 0 (some 1), .apply 2, .resume 0 none, .resume 0 none]

theorem latest_linearizable_voters :
    (Run.exec step init voterRun).reads = [⟨2, [0], .served ["w"]⟩] ∧
      ∀ r ∈ (Run.exec step init voterRun).reads, ∀ state, r.stage = .served state →
        state <+: (Run.exec step init voterRun).log ∧ ∀ i ∈ r.acked, i < state.length :=
  ⟨by decide, latest_linearizable voterRun (by decide)⟩

/-- A learner of a single voter gets a read after a write that the voter acknowledged. It does not
ask. -/
theorem learner_reads_stale :
    (Run.exec step init [.membership 1 [1], .membership 2 [1], .commit "w", .apply 1,
      .acknowledge 1 0, .read 2,
      .resume 0 none]).reads = [⟨2, [0], .served []⟩] := by
  decide

end Cluster
end Engenho.Mesh
