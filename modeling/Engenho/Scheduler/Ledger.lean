import Engenho.Scheduler.Fit
import Engenho.Store.Catalog

/-!
# The capacity ledger

One signed balance per node name: allocatable minus the requests of every bound pod that still holds
capacity. `seed` opens the books, `debit` charges a pod bound during the pass, `fits` reads them.

`NodeLedger.Backed` ties a balance to the sum it stands for. Subtraction saturates, so a balance
need not be allocatable minus what was charged; but a positive balance is never more than that, and
only a positive balance fits a request. Seeding backs the sum of the bound pods (`seed_backed`), a
debit backs the sum with the charge added (`Backed.debit`), and what fits stays within allocatable
(`Backed.fits_le`).
-/

namespace Engenho
open List Option OrdMap

/-! ## Who holds capacity -/

/-- The phase of a pod. -/
inductive PodPhase where
  | pending
  | running
  | succeeded
  | failed
  | unknown
deriving DecidableEq, Repr

namespace PodPhase

def ofName : String → Option PodPhase
  | "Pending" => some .pending
  | "Running" => some .running
  | "Succeeded" => some .succeeded
  | "Failed" => some .failed
  | "Unknown" => some .unknown
  | _ => none

/-- The derived reader takes the name, or an object with the name as its only key and null under
it. -/
def deserialize : Json → Option PodPhase
  | .str s => ofName s
  | .obj [(name, .null)] => ofName name
  | _ => none

end PodPhase

/-- Whether a pod holds what it asked for. -/
inductive CapacityHold where
  | live
  | unobserved
  | released
deriving DecidableEq, Repr

def CapacityHold.holds : CapacityHold → Bool
  | .live | .unobserved => true
  | .released => false

/-- By its phase. -/
def holdsCapacity (pod : Json) : CapacityHold :=
  match ((pod.get "status").bind (Json.get "phase")).bind PodPhase.deserialize with
  | some .succeeded | some .failed => .released
  | some .pending | some .running => .live
  | some .unknown | none => .unobserved

def nodeNameOf (node : Json) : Option String := (metaField "name" node).bind Json.asStr

/-- The node a pod is bound to: a non-empty `spec.nodeName`. -/
def boundNodeOf (pod : Json) : Option String :=
  (((pod.get "spec").bind (Json.get "nodeName")).bind Json.asStr).filter fun s => !s.isEmpty

/-! ## The books -/

/-- The signed balance of a node. Negative: overcommitted. -/
abbrev Balance := Dimension → Int

namespace Balance

def opening (allocatable : NodeResources) : Balance := allocatable

/-- Takes the requests off a balance. -/
def charge (b : Balance) (req : PodRequests) : Balance := fun d =>
  Machine.saturate 128 (b d - max (req.milli d) 0)

def free (b : Balance) : NodeResources := fun d => max (b d) 0
end Balance

/-- What is left on each node. -/
structure NodeLedger where
  balances : OrdMap String Balance

namespace NodeLedger

/-- Charges a node. -/
def debit (l : NodeLedger) (node : String) (req : PodRequests) : NodeLedger :=
  match l.balances.get node with
  | some b => ⟨l.balances.insert node (b.charge req)⟩
  | none => l

/-- Charges a pod that is bound and holds capacity. -/
def charged (l : NodeLedger) (pod : Json) : NodeLedger :=
  match boundNodeOf pod with
  | some node => if (holdsCapacity pod).holds then l.debit node (podRequests pod) else l
  | none => l

def opened (nodes : List Json) : NodeLedger :=
  ⟨.ofList (nodes.filterMap fun n =>
    (nodeNameOf n).map fun name => (name, Balance.opening (nodeAllocatable n)))⟩

/-- The ledger of the stored pods. -/
def seed (nodes pods : List Json) : NodeLedger := pods.foldl charged (opened nodes)

def free (l : NodeLedger) (node : String) : Option NodeResources :=
  (l.balances.get node).map Balance.free

/-- The node has room for the pod. -/
def fits (l : NodeLedger) (node : String) (req : PodRequests) : Bool :=
  (l.free node).any fun free => Engenho.fits free req

/-! ## What a balance stands for -/

/-- The balance of `name`, where it is positive, is at most `alloc` minus `used`. -/
def Backed (l : NodeLedger) (name : String) (alloc used : Dimension → Int) : Prop :=
  ∀ b, l.balances.get name = some b → ∀ d, 0 < b d → b d ≤ alloc d - used d

variable {l : NodeLedger} {name : String} {alloc used : Dimension → Int}

theorem get_debit (l : NodeLedger) (node name : String) (req : PodRequests) :
    (l.debit node req).balances.get name =
      if name = node then (l.balances.get name).map fun b =>
      b.charge req else l.balances.get name := by
  unfold debit
  by_cases hn : name = node
  · subst hn
    rw [if_pos rfl]
    cases hb : l.balances.get name with
    | none => rw [hb, map_none]
    | some b => rw [get_insert, if_pos rfl, map_some]
  · rw [if_neg hn]
    split
    · exact get_insert_ne _ hn _
    · rfl

/-- The charge of a request to `name`: nothing when another node is debited. -/
def chargeOn (name node : String) (req : PodRequests) (d : Dimension) : Int :=
  if name = node then max (req.milli d) 0 else 0

theorem Backed.debit (h : l.Backed name alloc used) (node : String) (req : PodRequests) :
    (l.debit node req).Backed name alloc fun d => used d + chargeOn name node req d := by
  intro b' hb' d hpos
  rw [get_debit] at hb'
  show b' d ≤ alloc d - (used d + if name = node then max (req.milli d) 0 else 0)
  by_cases hn : name = node
  · rw [if_pos hn] at hb' ⊢
    obtain ⟨b, hb, rfl⟩ := map_eq_some_iff.mp hb'
    -- a positive balance was not raised by saturation, so the one before was positive too
    have hle : b.charge req d ≤ b d - max (req.milli d) 0 := Machine.saturate_le_of_pos hpos
    have := h b hb d (by omega)
    omega
  · rw [if_neg hn] at hb' ⊢
    have := h b' hb' d hpos
    omega

/-- What fits is nothing, or leaves the sum within what is allocatable. -/
theorem Backed.fits_le (h : l.Backed name alloc used) {req : PodRequests}
    (hfit : l.fits name req = true)
    (d : Dimension) : req.milli d ≤ 0 ∨ used d + req.milli d ≤ alloc d := by
  unfold fits free at hfit
  cases hb : l.balances.get name with
  | none => rw [hb] at hfit; cases hfit
  | some b =>
    rw [hb] at hfit
    have hd : req.milli d ≤ max (b d) 0 := Engenho.fits_le hfit d
    by_cases hpos : 0 < b d
    · have := h b hb d hpos
      omega
    · omega

/-! ## Opening the books -/

/-- What a pod holds on `name`. -/
def held (name : String) (pod : Json) (d : Dimension) : Int :=
  if boundNodeOf pod = some name ∧
    (holdsCapacity pod).holds = true then (podRequests pod).milli d else 0

theorem held_of_unbound {pod : Json} (h : boundNodeOf pod = none) (name : String) (d : Dimension) :
    held name pod d = 0 :=
  if_neg fun hc => by rw [h] at hc; cases hc.1

/-- What a list of pods holds on `name`. -/
def heldSum (name : String) (pods : List Json) (d : Dimension) : Int :=
  (pods.map fun pod => held name pod d).sum

theorem Backed.charged (h : l.Backed name alloc used) (pod : Json) :
    (l.charged pod).Backed name alloc fun d => used d + held name pod d := by
  unfold NodeLedger.charged
  cases hb : boundNodeOf pod with
  | none => simpa only [held_of_unbound hb, add_zero] using h
  | some node =>
    by_cases hh : (holdsCapacity pod).holds = true
    · simp only [if_pos hh]
      have := h.debit node (podRequests pod)
      have heq : ∀ d, chargeOn name node (podRequests pod) d = held name pod d := by
        intro d
        unfold chargeOn held
        rw [hb]
        by_cases hn : name = node
        · rw [if_pos hn, if_pos ⟨congrArg some hn.symm, hh⟩, max_eq_left (podRequests_nonneg pod d)]
        · rw [if_neg hn, if_neg fun hc => hn (Option.some.inj hc.1).symm]
      simpa only [heq] using this
    · have hz : ∀ d, held name pod d = 0 := fun d => if_neg fun hc => hh hc.2
      simpa only [if_neg hh, hz, add_zero] using h

theorem Backed.foldl_charged (pods : List Json) : ∀ {l : NodeLedger} {used : Dimension → Int},
    l.Backed name alloc used →
    (pods.foldl NodeLedger.charged l).Backed name alloc fun d => used d + heldSum name pods d := by
  induction pods with
  | nil =>
    intro l used h
    simpa only [heldSum, map_nil, sum_nil, add_zero, foldl_nil] using h
  | cons pod pods ih =>
    intro l used h
    have := ih (h.charged pod)
    simpa only [heldSum, map_cons, sum_cons, add_assoc, foldl_cons] using this

/-- An opening balance is the allocatable of a node of that name. -/
theorem get_opened {nodes : List Json} {b : Balance}
    (h : (opened nodes).balances.get name = some b) :
    ∃ n ∈ nodes, nodeNameOf n = some name ∧ b = nodeAllocatable n := by
  rcases mem_of_get_foldl_insert _ h with hm | hm
  · obtain ⟨n, hn, he⟩ := mem_filterMap.mp hm
    obtain ⟨name', hname, heq⟩ := map_eq_some_iff.mp he
    cases heq
    exact ⟨n, hn, hname, rfl⟩
  · cases hm

theorem seed_backed {nodes : List Json} (pods : List Json)
    (halloc : ∀ n ∈ nodes, nodeNameOf n = some name → nodeAllocatable n = alloc) :
    (seed nodes pods).Backed name alloc (heldSum name pods) := by
  have hopen : (opened nodes).Backed name alloc fun _ => 0 := by
    intro b hb d _
    obtain ⟨n, hn, hname, rfl⟩ := get_opened hb
    rw [halloc n hn hname, sub_zero]
  have := hopen.foldl_charged pods
  simp only [zero_add] at this
  exact this

end NodeLedger
end Engenho
