import Engenho.Lib.Totals
import Engenho.Scheduler.Tick
import Engenho.Store.Listing
import Engenho.Store.Runs

/-!
# A tick does not overcommit

The ledger is opened once and every bind of the tick is charged to it. `Within` says what the pass
keeps: the ledger backs what was held before plus what the tick has bound, and that sum does not
pass the allocatable of the node unless it was past it before (`Pass.step_within`, `tick_within`).

What is bound is then what the stored pods hold: a bind adds to the sum over the stored pods no more
than it was charged (`commit_heldOn`), as the binding patch leaves the requests alone.
-/

namespace Engenho
open NodeLedger List
namespace Scheduler

/-! ## Reading the catalog -/

/-- The reads of a tick that meets no other writer: all of one catalog. -/
def Reads.ofCatalog (c : ResourceCatalog) (ns : Option String) (age : Nat → String → Option Nat)
    (now : String) : Reads where
  pods := c.listed (podScope ns)
  nodes := (c.listed nodeScope).map Prod.snd
  allPods := c.listed (podScope none)
  lease := c.get
  age := age
  now := now

/-- The store after a write of the tick. -/
def commit (env : Env) (c : ResourceCatalog) (w : PlannedWrite × LogSlot) : ResourceCatalog :=
  (c.applyUnder env w.1.command w.2.semantics w.2.term w.2.index).1

/-- The catalog after the first writes of a tick: as many as there are slots. -/
def commitAll (env : Env) (c : ResourceCatalog) (writes : List PlannedWrite)
    (slots : List LogSlot) : ResourceCatalog :=
  (writes.zip slots).foldl (commit env) c

variable (name : String) (writes : List PlannedWrite) (d : Dimension)

/-- What the stored pods hold on a node. -/
def heldOn (c : ResourceCatalog) (d : Dimension) : Int :=
  NodeLedger.heldSum name ((c.listed (podScope none)).map Prod.snd) d

/-! ## The pass -/

/-- What a write puts on a node. -/
def PlannedWrite.charge (w : PlannedWrite) : Int :=
  match w.write with
  | .bind nodeName => if name = nodeName then (podRequests w.pod).milli d else 0
  | .markUnschedulable _ => 0

theorem PlannedWrite.charge_nonneg (w : PlannedWrite) : 0 ≤ w.charge name d := by
  unfold charge
  split
  · split
    · exact podRequests_nonneg _ d
    · exact le_refl 0
  · exact le_refl 0

def chargeSum : Int :=
  (writes.map (PlannedWrite.charge name d)).sum

theorem chargeSum_concat (w : PlannedWrite) (d : Dimension) :
    chargeSum name (writes ++ [w]) d = chargeSum name writes d + w.charge name d := by
  simp [chargeSum]

theorem chargeSum_nonneg : 0 ≤ chargeSum name writes d :=
  sum_nonneg fun x hx => by
    obtain ⟨w, -, rfl⟩ := mem_map.mp hx
    exact w.charge_nonneg name d

/-- What the pass keeps about a node with `alloc` to give and `held` on it before the tick. -/
structure Within {σ : Type} (name : String) (alloc held : Dimension → Int) (p : Pass σ) : Prop where
  backed : p.ledger.Backed name alloc fun d => held d + chargeSum name p.writes d
  within : ∀ d, held d + chargeSum name p.writes d ≤ max (alloc d) (held d)
  idle : ∀ d, alloc d < held d → ∀ w ∈ p.writes, w.charge name d = 0

variable {key : ResourceKey}
variable {w : PlannedWrite} {c : ResourceCatalog}
section
variable {σ : Type} {name : String} {alloc held : Dimension → Int} {p p' : Pass σ}

/-- A write that charges the node nothing, with a ledger that still backs the sum. -/
theorem Within.concat_zero (h : Within name alloc held p) (hw : p'.writes = p.writes ++ [w])
    (hz : ∀ d, w.charge name d = 0)
    (hl : p'.ledger.Backed name alloc fun d => held d + chargeSum name p.writes d) :
    Within name alloc held p' where
  backed := by simpa only [hw, chargeSum_concat, hz, add_zero] using hl
  within d := by
    rw [hw, chargeSum_concat, hz, add_zero]
    exact h.within d
  idle d hd w' hw' := by
    rw [hw] at hw'
    rcases mem_append.mp hw' with hw' | hw'
    · exact h.idle d hd w' hw'
    · rw [mem_singleton.mp hw']
      exact hz d

/-- A bind to the node itself, of a pod that fits. -/
theorem Within.concat_bind (h : Within name alloc held p) {pod : Json}
    (hfits : p.ledger.fits name (podRequests pod) = true)
    (hl : p'.ledger = p.ledger.debit name (podRequests pod))
    (hw : p'.writes = p.writes ++ [⟨key, pod, .bind name⟩]) : Within name alloc held p' := by
  have hcharge : ∀ d, (⟨key, pod, .bind name⟩ : PlannedWrite).charge name d =
      (podRequests pod).milli d :=
    fun d => if_pos rfl
  have hreq := podRequests_nonneg pod
  refine ⟨?_, fun d => ?_, fun d hd w hwm => ?_⟩
  · have := h.backed.debit name (podRequests pod)
    rw [hl]
    simpa only [hw, chargeSum_concat, hcharge, chargeOn, if_true, max_eq_left (hreq _),
      add_assoc] using this
  · rw [hw, chargeSum_concat, hcharge]
    have hin := h.within d
    rcases h.backed.fits_le hfits d with hz | hle <;> omega
  · rw [hw] at hwm
    rcases mem_append.mp hwm with hwm | hwm
    · exact h.idle d hd w hwm
    · rw [mem_singleton.mp hwm, hcharge]
      have := hreq d
      have := chargeSum_nonneg name p.writes d
      rcases h.backed.fits_le hfits d with hz | hle <;> omega

theorem Stepped.within {pod : Json} (hs : Stepped p key pod p') (h : Within name alloc held p) :
    Within name alloc held p' := by
  cases hs with
  | skip hl hw =>
    refine ⟨?_, ?_, ?_⟩
    · rw [hl, hw]; exact h.backed
    · rw [hw]; exact h.within
    · rw [hw]; exact h.idle
  | mark condition hpend hl hw => exact h.concat_zero hw (fun _ => rfl) (hl ▸ h.backed)
  | bind nodeName hpend hname hfits hl hw =>
    by_cases hn : name = nodeName
    · subst hn
      exact h.concat_bind hfits hl hw
    · refine h.concat_zero hw (fun _ => if_neg hn) ?_
      have := h.backed.debit nodeName (podRequests pod)
      simpa only [hl, chargeOn, if_neg hn, add_zero] using this

end

section
variable {σ : Type} (strategy : SchedulingStrategy σ)
variable {alloc : Dimension → Int} {name : String}
variable (observed : List ObservedNode)

theorem foldl_step_within {held : Dimension → Int} (pods : Items) {p : Pass σ}
    (h : Within name alloc held p) :
    Within name alloc held (pods.foldl (Pass.step strategy observed) p) := by
  induction pods generalizing p with
  | nil => exact h
  | cons e pods ih => exact ih ((p.step_cases strategy observed e.1 e.2).within h)

theorem tick_within (s : σ) (r : Reads)
    (halloc : ∀ n ∈ r.nodes, nodeNameOf n = some name → nodeAllocatable n = alloc) :
    Within name alloc (heldSum name (r.allPods.map Prod.snd)) (tick strategy s r) := by
  refine foldl_step_within strategy _ _ ⟨?_, fun d => ?_, fun d _ w hw => nomatch hw⟩
  · have := seed_backed (r.allPods.map Prod.snd) halloc
    simpa [Reads.start, chargeSum] using this
  · simp [Reads.start, chargeSum]

/-- What a write was decided on: a pod without a node, and a name to bind it to. -/
def PlannedWrite.Grounded (w : PlannedWrite) : Prop :=
  isPending w.pod = true ∧ ∀ nodeName, w.write = .bind nodeName → nodeName ≠ ""

/-- The writes are for listed pods, each at most once, in the order of the list. -/
theorem foldl_step_sublist (pods : Items) (p : Pass σ) :
    ∃ ws, (pods.foldl (Pass.step strategy observed) p).writes = p.writes ++ ws ∧
      (ws.map fun w => (w.key, w.pod)).Sublist pods ∧ ∀ w ∈ ws, w.Grounded := by
  induction pods generalizing p with
  | nil => exact ⟨[], (append_nil _).symm, List.Sublist.slnil, nofun⟩
  | cons e pods ih =>
    obtain ⟨key, pod⟩ := e
    obtain ⟨ws, hws, hsub, hpend⟩ := ih (p.step strategy observed (key, pod))
    rw [foldl_cons, hws]
    have hone : ∀ w : PodWrite, (⟨key, pod, w⟩ : PlannedWrite).Grounded →
        (p.step strategy observed (key, pod)).writes = p.writes ++ [⟨key, pod, w⟩] →
        ∃ ws', (p.step strategy observed (key, pod)).writes ++ ws = p.writes ++ ws' ∧
          (ws'.map fun w => (w.key, w.pod)).Sublist ((key, pod) :: pods) ∧ ∀ w ∈ ws', w.Grounded :=
      fun w hg hw => ⟨⟨key, pod, w⟩ :: ws, by rw [hw, append_assoc, singleton_append],
        hsub.cons_cons (key, pod), forall_mem_cons.mpr ⟨hg, hpend⟩⟩
    cases p.step_cases strategy observed key pod with
    | skip hl hw => exact ⟨ws, by rw [hw], hsub.cons _, hpend⟩
    | mark condition hp hl hw =>
      exact hone (.markUnschedulable condition) ⟨hp, fun _ hn => nomatch hn⟩ hw
    | bind nodeName hp hname hfits hl hw =>
      exact hone (.bind nodeName) ⟨hp, fun n hn => PodWrite.bind.inj hn ▸ hname⟩ hw

theorem tick_writes (s : σ) (r : Reads) :
    ((tick strategy s r).writes.map fun w => (w.key, w.pod)).Sublist r.pods ∧
      ∀ w ∈ (tick strategy s r).writes, w.Grounded := by
  obtain ⟨ws, hws, hsub, hpend⟩ := foldl_step_sublist strategy r.observe r.pods (r.start s)
  have : (tick strategy s r).writes = ws := hws
  rw [this]
  exact ⟨hsub, hpend⟩

end

/-! ## What a committed write adds -/

/-- The measure behind `heldOn`: what an entry holds, if it is a pod. -/
def entryHeld (name : String) (d : Dimension) (k : ResourceKey) (e : ResourceValue × VersionMeta) :
    Int :=
  if (podScope none).contains k then NodeLedger.held name e.1 d else 0

theorem heldOn_eq_total (name : String) (c : ResourceCatalog) (d : Dimension) :
    heldOn name c d = c.resources.total (entryHeld name d) := by
  have hsum : ∀ l : List (ResourceKey × (ResourceValue × VersionMeta)),
      ((l.filter fun e => (podScope none).contains e.1).map fun e => held name e.2.1 d).sum =
        (l.map fun e => entryHeld name d e.1 e.2).sum := by
    intro l
    induction l with
    | nil => rfl
    | cons e l ih =>
      by_cases hk : (podScope none).contains e.1 = true
      · simp [hk, ih, entryHeld]
      · simp [hk, ih, entryHeld]
  unfold heldOn heldSum ResourceCatalog.listed ResourceCatalog.entriesAfter OrdMap.total
  rw [ListScope.range_eq_filter, ← hsum]
  simp [Function.comp_def]

variable (v : Json) (env : Env)

/-- The patch of a bind sets the node and leaves the rest of the spec. -/
theorem specField_bind (nodeName : String) (rev : Nat) (g : Int) (key : String) :
    specField key (stampRevision (mergeRfc7396 v (PodWrite.bind nodeName).patch) rev g) =
      if key = "nodeName" then some (.str nodeName) else specField key v := by
  unfold specField PodWrite.patch
  rw [get_stampRevision _ _ _ (by decide), get_mergeRfc7396_single_self _ rfl, Option.bind_some]
  by_cases hk : key = "nodeName"
  · rw [hk, get_mergeRfc7396_single_self _ rfl]
    rfl
  · rw [if_neg hk, get_mergeRfc7396_single_ne _ _ hk]
    cases v.get "spec" <;> rfl

theorem boundNodeOf_bind {nodeName : String} (h : nodeName ≠ "") (rev : Nat) (g : Int) :
    boundNodeOf (stampRevision (mergeRfc7396 v (PodWrite.bind nodeName).patch) rev g) =
      some nodeName := by
  have := specField_bind v nodeName rev g "nodeName"
  unfold specField at this
  unfold boundNodeOf
  rw [this]
  simp [Json.asStr, h]

theorem podRequests_bind (nodeName : String) (rev : Nat) (g : Int) :
    podRequests (stampRevision (mergeRfc7396 v (PodWrite.bind nodeName).patch) rev g) =
      podRequests v := by
  refine podRequests_congr fun key hkey => ?_
  have hne : key ≠ "nodeName" := fun h => by
    rw [h] at hkey
    exact absurd hkey (by decide)
  have := specField_bind v nodeName rev g key
  rwa [if_neg hne] at this

theorem boundNodeOf_mark (condition : Json) (rev : Nat) (g : Int) :
    boundNodeOf (stampRevision (mergeRfc7396 v (PodWrite.markUnschedulable condition).patch)
      rev g) =
      boundNodeOf v := by
  unfold boundNodeOf PodWrite.patch
  rw [get_stampRevision _ _ _ (by decide), get_mergeRfc7396_single_ne _ _ (by decide)]

/-- The stored pod holds no more than the write was charged for. -/
theorem held_written {v : Json} (hv : boundNodeOf v = none) {w : PodWrite}
    (hw : ∀ nodeName, w = .bind nodeName → nodeName ≠ "") (name : String) (key : ResourceKey)
    (rev : Nat)
    (g : Int) (d : Dimension) : held name (stampRevision (mergeRfc7396 v w.patch) rev g) d ≤
      (⟨key, v, w⟩ : PlannedWrite).charge name d := by
  cases w with
  | bind nodeName =>
    unfold held PlannedWrite.charge
    rw [boundNodeOf_bind v (hw nodeName rfl), podRequests_bind]
    by_cases hn : name = nodeName
    · simp only
      split
      · exact le_refl _
      · exact podRequests_nonneg v d
    · rw [if_neg fun hc => hn (Option.some.inj hc.1).symm]
      simp only [if_neg hn, le_refl]
  | markUnschedulable condition =>
    rw [held_of_unbound (by rw [boundNodeOf_mark, hv])]
    exact le_refl 0

theorem eq_of_get {v w : Json} {m : VersionMeta} (h : c.get key = some w)
    (hl : c.resources.get key = some (v, m)) : v = w := by
  unfold ResourceCatalog.get at h
  rw [hl] at h
  exact Option.some.inj h

theorem commit_heldOn (slot : LogSlot) (hlive : c.get w.key = some w.pod) (hw : w.Grounded)
    (name : String) (d : Dimension) :
    heldOn name (commit env c (w, slot)) d ≤ heldOn name c d + w.charge name d := by
  have hcharge := w.charge_nonneg name d
  have hunbound := (isPending_iff _).mp hw.1
  have hzero : ∀ m, entryHeld name d w.key (w.pod, m) = 0 := fun m => by
    unfold entryHeld
    rw [held_of_unbound hunbound]
    exact ite_self 0
  rw [heldOn_eq_total, heldOn_eq_total]
  have hcases := mergePatch_cases env c w.key w.write.patch none slot.semantics slot.term slot.index
  unfold commit PlannedWrite.command
  generalize (c.applyUnder env (.patch w.key w.write.patch .merge none none)
    slot.semantics slot.term
    slot.index).1.resources = res at hcases
  cases hcases with
  | same => omega
  | @stored v m g hl hpre =>
    obtain rfl := eq_of_get hlive hl
    have hnew : entryHeld name d w.key
        (stampRevision (mergeRfc7396 w.pod w.write.patch) (c.revision + 1) g,
          m.bumpedAt (c.revision + 1)) ≤
          w.charge name d := by
      unfold entryHeld
      split
      · exact held_written hunbound hw.2 name w.key _ _ d
      · exact hcharge
    rw [OrdMap.total_insert hl, hzero]
    omega
  | @released v m hl hpre hrel =>
    obtain rfl := eq_of_get hlive hl
    rw [OrdMap.total_erase hl, hzero]
    omega

theorem commit_get_ne (c : ResourceCatalog) (w : PlannedWrite × LogSlot) {k : ResourceKey}
    (h : k ≠ w.1.key) : (commit env c w).get k = c.get k := by
  unfold ResourceCatalog.get
  rw [commit, c.applyUnder_get_ne env _ _ _ _
    (by simpa [PlannedWrite.command, ResourceCommand.keys] using h)]

/-- All writes of a tick: the keys differ, so each still finds its pod as it was listed. -/
theorem commitAll_heldOn (name : String) (d : Dimension) (writes : List PlannedWrite) :
    ∀ (slots : List LogSlot) (c : ResourceCatalog), (writes.map PlannedWrite.key).Nodup →
      (∀ w ∈ writes, c.get w.key = some w.pod ∧ w.Grounded) →
      heldOn name (commitAll env c writes slots) d ≤ heldOn name c d + chargeSum name writes d := by
  induction writes with
  | nil =>
    intro slots c _ _
    simp [commitAll, chargeSum]
  | cons w ws ih =>
    intro slots c hkeys hws
    have hnonneg := chargeSum_nonneg name (w :: ws) d
    cases slots with
    | nil =>
      show heldOn name c d ≤ _
      omega
    | cons slot slots =>
      obtain ⟨hfirst, hrest⟩ := nodup_cons.mp hkeys
      obtain ⟨⟨hlive, hw⟩, hws⟩ := forall_mem_cons.mp hws
      have hstep := commit_heldOn env slot hlive hw name d
      have htail := ih slots (commit env c (w, slot)) hrest fun w' hw' => by
        refine ⟨?_, (hws w' hw').2⟩
        rw [commit_get_ne env c (w, slot) fun h => hfirst (mem_map.mpr ⟨w', hw', h⟩)]
        exact (hws w' hw').1
      have hsum : chargeSum name (w :: ws) d = w.charge name d + chargeSum name ws d := by
        simp [chargeSum]
      show heldOn name (commitAll env (commit env c (w, slot)) ws slots) d ≤ _
      omega

/-! ## The tick -/

theorem tick_writes_live {σ : Type} (strategy : SchedulingStrategy σ) (s : σ) (c : ResourceCatalog)
    (ns : Option String) (age : Nat → String → Option Nat) (now : String) :
    ((tick strategy s (.ofCatalog c ns age now)).writes.map PlannedWrite.key).Nodup ∧
      ∀ w ∈ (tick strategy s (.ofCatalog c ns age now)).writes, c.get w.key = some w.pod ∧
      w.Grounded := by
  obtain ⟨hsub, hg⟩ := tick_writes strategy s (.ofCatalog c ns age now)
  refine ⟨?_, fun w hw => ⟨?_, hg w hw⟩⟩
  · have := (hsub.map Prod.fst).nodup (c.listed_keys_nodup (podScope ns))
    simpa [Function.comp_def] using this
  · exact ResourceCatalog.get_of_mem_listed (hsub.subset (mem_map.mpr ⟨w, hw, rfl⟩))

/-- After a tick that no other writer meets, in whole or cut short after any of its writes: what is
held on a node is within its allocatable or what was held before, a node within its allocatable
stays there, and a dimension past it gets only pods that ask for nothing of it. The last premise
says that the name stands for one node: the ledger and the pods know a node by its name. -/
theorem tick_never_overcommits {σ : Type} (env : Env) (strategy : SchedulingStrategy σ) (s : σ)
    (c : ResourceCatalog) (ns : Option String) (age : Nat → String → Option Nat) (now : String)
    (slots : List LogSlot) (node : Json) (name : String) (hname : nodeNameOf node = some name)
    (hone : ∀ n ∈ (Reads.ofCatalog c ns age now).nodes, nodeNameOf n = nodeNameOf node →
      nodeAllocatable n = nodeAllocatable node) (d : Dimension) :
    let writes := (tick strategy s (.ofCatalog c ns age now)).writes
    let after := commitAll env c writes slots
    heldOn name after d ≤ max (nodeAllocatable node d) (heldOn name c d) ∧
      (heldOn name c d ≤ nodeAllocatable node d → heldOn name after d ≤ nodeAllocatable node d) ∧
      (nodeAllocatable node d < heldOn name c d → ∀ w ∈ writes, w.write = .bind name →
        (podRequests w.pod).milli d = 0) := by
  intro writes after
  have hin := tick_within strategy s (.ofCatalog c ns age now)
    fun n hn hnn => hone n hn (hnn.trans hname.symm)
  obtain ⟨hkeys, hlive⟩ := tick_writes_live strategy s c ns age now
  have hafter := commitAll_heldOn env name d writes slots c hkeys hlive
  have hle : heldOn name after d ≤ max (nodeAllocatable node d) (heldOn name c d) :=
    hafter.trans (hin.within d)
  refine ⟨hle, fun hfit => ?_, fun hover w hw hbind => ?_⟩
  · rwa [max_eq_left hfit] at hle
  · have := hin.idle d hover w hw
    simpa only [PlannedWrite.charge, hbind, if_true] using this

/-- A node with two cores. -/
def twoCores : Json :=
  .obj [("metadata", .obj [("name", .str "n1")]),
    ("status", .obj [("allocatable", .obj [("cpu", .str "2"), ("memory", .str "1Gi")])])]

/-- A pod that asks for one and a half cores. -/
def bigPod (name : String) : Json :=
  .obj [("metadata", .obj [("name", .str name)]),
    ("spec", .obj [("containers", .arr [.obj [("resources",
      .obj [("requests", .obj [("cpu", .str "1500m")])])]])])]

/-- The node, its Lease, and two pods that do not fit on it together. -/
def crowded : ResourceCatalog :=
  { ResourceCatalog.withHistoryCapacity 1 with
    resources := .ofList [
      (leaseKey "n1", (.obj [("spec", .obj [("renewTime", .str "t")])], .createdAt 1)),
      (⟨"", "v1", "Node", none, "n1"⟩, (twoCores, .createdAt 1)),
      (⟨"", "v1", "Pod", some "default", "a"⟩, (bigPod "a", .createdAt 1)),
      (⟨"", "v1", "Pod", some "default", "b"⟩, (bigPod "b", .createdAt 1))] }

/-- The tick on it, both of its writes committed. -/
def crowdedAfter : ResourceCatalog :=
  commitAll atomicEnv crowded
    (tick roundRobin 0 (.ofCatalog crowded none (fun _ _ => some 0) "t")).writes
    [⟨.v1, 1, 1⟩, ⟨.v1, 1, 2⟩]

/-- One pod is bound and the other is marked. -/
theorem tick_never_overcommits_crowded :
    heldOn "n1" crowdedAfter .cpu = 1500 ∧
    heldOn "n1" crowdedAfter .cpu ≤ nodeAllocatable twoCores .cpu := by
  have hnodes : (Reads.ofCatalog crowded none (fun _ _ => some 0) "t").nodes = [twoCores] := by
    decide +kernel
  refine ⟨by decide +kernel, ?_⟩
  refine (tick_never_overcommits atomicEnv roundRobin 0 crowded none (fun _ _ => some 0) "t"
    [⟨.v1, 1, 1⟩, ⟨.v1, 1, 2⟩] twoCores "n1" (by decide +kernel) ?_ .cpu).2.1 (by decide +kernel)
  rw [hnodes]
  exact List.forall_mem_singleton.mpr fun _ => rfl

end Scheduler
end Engenho
