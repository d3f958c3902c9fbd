import Mathlib.Algebra.Order.BigOperators.Group.List
import Engenho.Scheduler.Quantity

/-!
# Requests and capacity

What a pod asks for and what a node has, per dimension, read from untyped JSON. A request that
cannot be read contributes nothing and latches `malformed`; a capacity that cannot be read is zero.

A request never credits a node: `podRequests_nonneg`.
-/

namespace Engenho

/-- A dimension of capacity. The source writes each field out. -/
inductive Dimension where
  | cpu
  | mem
deriving DecidableEq, Repr

def Dimension.key : Dimension → String
  | .cpu => "cpu"
  | .mem => "memory"

/-- An amount of each dimension: `NodeResources`, `Pair` and the ledger's `Balance` of the
source. -/
abbrev NodeResources := Dimension → Int

/-- What a pod asks for. -/
structure PodRequests where
  milli : Dimension → Int
  unparseable : Bool

/-! ## Nodes -/

def quantityMilli (map : Option Json) (key : String) : Option Int :=
  ((map.bind (Json.get key)).bind Json.asStr).bind Quantity.milliOf

/-- A dimension that `allocatable` does not name is read from `capacity`. -/
def nodeAllocatable (node : Json) : NodeResources := fun d =>
  let status := node.get "status"
  let allocatable := status.bind (Json.get "allocatable")
  let capacity := status.bind (Json.get "capacity")
  ((quantityMilli allocatable d.key).or (quantityMilli capacity d.key)).getD 0

/-! ## Pods -/

namespace Pair

/-- The sum, within the word. -/
def plus (a b : NodeResources) : NodeResources := fun d => Machine.saturate 128 (a d + b d)

def maxEach (a b : NodeResources) : NodeResources := fun d => max (a d) (b d)

def zero : NodeResources := fun _ => 0
end Pair

/-- An init container, or a sidecar. -/
inductive InitRole where
  | plain
  | sidecar
deriving DecidableEq, Repr

/-- The reader of a pod's requests: whether a value so far could not be read. -/
structure RequestReader where
  malformed : Bool
deriving DecidableEq, Repr

namespace RequestReader

def quantity (r : RequestReader) (v : Json) : Int × RequestReader :=
  let parsed := match v with
    | .str s => Quantity.milliOf s
    | .num (.int i) => Quantity.milliOf (toString i)
    | .num (.float text) => Quantity.milliOf text
    | _ => none
  match parsed with
  | some milli => if 0 ≤ milli then (milli, r) else (0, ⟨true⟩)
  | none => (0, ⟨true⟩)

/-- An entry of a resource list; an absent entry is zero. -/
def entry (r : RequestReader) (list : Option Json) (d : Dimension) : Int × RequestReader :=
  match list.bind (Json.get d.key) with
  | some v => r.quantity v
  | none => (0, r)

/-- What a resource list asks for. -/
def list (r : RequestReader) (list : Option Json) : NodeResources × RequestReader :=
  let (cpu, r) := r.entry list .cpu
  let (mem, r) := r.entry list .mem
  (fun | .cpu => cpu | .mem => mem, r)

def container (r : RequestReader) (c : Json) : NodeResources × RequestReader :=
  r.list ((c.get "resources").bind (Json.get "requests"))

/-- Reads the role. -/
def initRole (r : RequestReader) (c : Json) : InitRole × RequestReader :=
  match c.get "restartPolicy" with
  | none | some .null => (.plain, r)
  | some (.str "Always") => (.sidecar, r)
  | some _ => (.sidecar, ⟨true⟩)

variable (r : RequestReader)

theorem quantity_nonneg (v : Json) : 0 ≤ (r.quantity v).1 := by
  unfold quantity
  extract_lets parsed
  cases parsed with
  | none => exact le_refl 0
  | some milli =>
    by_cases h : 0 ≤ milli
    · simpa only [if_pos h] using h
    · simp only [if_neg h, le_refl]

theorem entry_nonneg (list : Option Json) (d : Dimension) : 0 ≤ (r.entry list d).1 := by
  unfold entry
  split
  · exact r.quantity_nonneg _
  · exact le_refl 0

theorem list_nonneg (list : Option Json) (d : Dimension) : 0 ≤ (r.list list).1 d := by
  cases d
  · exact r.entry_nonneg list .cpu
  · exact entry_nonneg _ list .mem

/-! What is read does not depend on what could not be read before. -/

variable (r' : RequestReader)

theorem quantity_fst (v : Json) : (r.quantity v).1 = (r'.quantity v).1 := by
  unfold quantity
  extract_lets parsed
  cases parsed with
  | none => rfl
  | some milli => by_cases h : 0 ≤ milli <;> simp [h]

theorem entry_fst (list : Option Json) (d : Dimension) :
    (r.entry list d).1 = (r'.entry list d).1 := by
  unfold entry
  split
  · exact quantity_fst r r' _
  · rfl

theorem list_fst (list : Option Json) : (r.list list).1 = (r'.list list).1 := by
  funext d
  cases d
  · exact entry_fst r r' list .cpu
  · exact entry_fst _ _ list .mem

theorem initRole_fst (c : Json) : (r.initRole c).1 = (r'.initRole c).1 := by
  unfold initRole
  split <;> rfl

end RequestReader

/-- The reading of the init containers: the app total with the sidecars so far, the sidecars so far,
and the largest use seen. -/
structure InitWalk where
  total : NodeResources
  sidecars : NodeResources
  initPeak : NodeResources

/-- One init container. -/
def InitWalk.step (s : InitWalk × RequestReader) (c : Json) : InitWalk × RequestReader :=
  let (w, r) := s
  let (own, r) := r.container c
  let (role, r) := r.initRole c
  match role with
  | .sidecar =>
    let sidecars := Pair.plus w.sidecars own
    (⟨Pair.plus w.total own, sidecars, Pair.maxEach w.initPeak sidecars⟩, r)
  | .plain => (⟨w.total, w.sidecars, Pair.maxEach w.initPeak (Pair.plus own w.sidecars)⟩, r)

def containersTotal (r : RequestReader) (containers : List Json) : NodeResources × RequestReader :=
  containers.foldl
    (fun s c => let (own, r) := s.2.container c; (Pair.plus s.1 own, r)) (Pair.zero, r)

/-- The pod's own `resources.requests` replace the aggregate in the dimensions they name. -/
def podLevel (r : RequestReader) (requests : Option Json) (effective : NodeResources) :
    NodeResources × RequestReader :=
  let read (r : RequestReader) (d : Dimension) : Int × RequestReader :=
    match requests.bind (Json.get d.key) with
    | some v => r.quantity v
    | none => (effective d, r)
  let (cpu, r) := read r .cpu
  let (mem, r) := read r .mem
  (fun | .cpu => cpu | .mem => mem, r)

/-- The requests of a pod whose spec has the fields `spec`. -/
def podRequestsOf (spec : String → Option Json) : PodRequests :=
  let listed (key : String) : List Json := ((spec key).bind Json.asArray).getD []
  let (total, r) := containersTotal ⟨false⟩ (listed "containers")
  let (w, r) := (listed "initContainers").foldl InitWalk.step (⟨total, Pair.zero, Pair.zero⟩, r)
  let effective := Pair.maxEach w.total w.initPeak
  let (effective, r) := podLevel r ((spec "resources").bind (Json.get "requests")) effective
  let (overhead, r) := r.list (spec "overhead")
  ⟨Pair.plus effective overhead, r.malformed⟩

def podRequests (pod : Json) : PodRequests :=
  podRequestsOf fun key => (pod.get "spec").bind (Json.get key)

/-- The fields of the spec that the requests are read from. -/
def requestFields : List String := ["containers", "initContainers", "resources", "overhead"]

theorem podRequests_congr {pod pod' : Json} (h : ∀ key ∈ requestFields,
      (pod.get "spec").bind (Json.get key) = (pod'.get "spec").bind (Json.get key)) :
    podRequests pod = podRequests pod' := by
  unfold podRequests podRequestsOf
  simp only [h "containers" (by decide), h "initContainers" (by decide), h "resources" (by decide),
    h "overhead" (by decide)]

/-! ## The peak -/

section
open List RequestReader Machine

def request (c : Json) : NodeResources := (container ⟨false⟩ c).1

def isSidecar (c : Json) : Bool := (initRole ⟨false⟩ c).1 = .sidecar

/-- The containers that run together, phase by phase: each init container with the sidecars started
before it, at last the app containers with all sidecars. -/
def phases (apps before : List Json) : List Json → List (List Json)
  | [] => [before ++ apps]
  | c :: inits =>
    (before ++ [c]) :: phases apps (if isSidecar c then before ++ [c] else before) inits

variable (d : Dimension)

/-- What the running containers ask for. -/
def use (running : List Json) : Int := (running.map fun c => request c d).sum

/-- The most that is asked for at once. -/
def peak (apps before inits : List Json) : Int :=
  ((phases apps before inits).map (use d)).foldr max 0

variable (spec : String → Option Json)

def arrayAt (key : String) : List Json := ((spec key).bind Json.asArray).getD []

/-- What the containers use at most, or what the pod itself asks for. -/
def aggregate : Int :=
  match ((spec "resources").bind (Json.get "requests")).bind (Json.get d.key) with
  | some v => (quantity ⟨false⟩ v).1
  | none => peak d (arrayAt spec "containers") [] (arrayAt spec "initContainers")

def overhead : Int := (list ⟨false⟩ (spec "overhead")).1 d

variable {d} {r : RequestReader} {apps cs : List Json} {s : InitWalk × RequestReader}

theorem request_nonneg (c : Json) : 0 ≤ request c d := list_nonneg _ _ d

theorem use_nonneg (cs : List Json) : 0 ≤ use d cs :=
  List.sum_nonneg (forall_mem_map.mpr fun c _ => request_nonneg c)

@[simp]
theorem use_append (cs cs' : List Json) : use d (cs ++ cs') = use d cs + use d cs' := by simp [use]

@[simp]
theorem use_singleton (c : Json) : use d [c] = request c d := by simp [use]

theorem peak_nonneg (apps before inits : List Json) : 0 ≤ peak d apps before inits := by
  cases inits <;> exact le_max_of_le_left (use_nonneg _)

theorem containersTotal_eq : (containersTotal r cs).1 d = saturate 128 (use d cs) := by
  suffices h : ∀ (s : NodeResources × RequestReader) (x : Int), 0 ≤ x → s.1 d = saturate 128 x →
      (cs.foldl (fun s c => let (own, r) := s.2.container c; (Pair.plus s.1 own, r)) s).1 d =
        saturate 128 (x + use d cs) by
    simpa [containersTotal] using h (Pair.zero, r) 0 le_rfl rfl
  induction cs with
  | nil => exact fun s x _ hs => by simpa [use] using hs
  | cons c cs ih =>
    intro s x hx hs
    have hc := request_nonneg (d := d) c
    rw [foldl_cons, ih _ (x + request c d) (add_nonneg hx hc),
      add_assoc, ← use_singleton c, ← use_append]
    · rfl
    · rw [← saturate_add hx hc, ← hs]
      exact congrArg (fun own => Pair.plus s.1 own d) (list_fst _ _ _)

theorem InitWalk.step_fst (c : Json) : (step s c).1 =
    if isSidecar c then ⟨Pair.plus s.1.total (request c), Pair.plus s.1.sidecars (request c),
      Pair.maxEach s.1.initPeak (Pair.plus s.1.sidecars (request c))⟩
    else ⟨s.1.total, s.1.sidecars,
      Pair.maxEach s.1.initPeak (Pair.plus (request c) s.1.sidecars)⟩ := by
  obtain ⟨w, r⟩ := s
  have hown : request c = (r.container c).1 := list_fst _ _ _
  rw [isSidecar, initRole_fst ⟨false⟩ (r.container c).2 c, hown]
  simp only [step]
  cases ((r.container c).2.initRole c).1 <;> rfl

/-- The walk carries the use of the sidecars so far, with the app containers and without them. -/
theorem InitWalk.foldl_peak (inits before : List Json) {p : Int} (hp : 0 ≤ p)
    (htotal : s.1.total d = saturate 128 (use d (before ++ apps)))
    (hsidecars : s.1.sidecars d = saturate 128 (use d before))
    (hpeak : s.1.initPeak d = saturate 128 p) :
    max ((inits.foldl step s).1.total d) ((inits.foldl step s).1.initPeak d) =
      saturate 128 (max p (peak d apps before inits)) := by
  induction inits generalizing before p s with
  | nil =>
    rw [foldl_nil, htotal, hpeak, ← saturate_max, max_comm]
    exact congrArg (fun x => saturate 128 (max p x)) (max_eq_left (use_nonneg _)).symm
  | cons c inits ih =>
    have hc := request_nonneg (d := d) c
    have hb := use_nonneg (d := d) before
    have hduring : Pair.plus s.1.sidecars (request c) d = saturate 128 (use d (before ++ [c])) := by
      rw [Pair.plus, hsidecars, saturate_add hb hc, use_append, use_singleton]
    have hpeaks : max (s.1.initPeak d) (Pair.plus s.1.sidecars (request c) d) =
        saturate 128 (max p (use d (before ++ [c]))) := by rw [hpeak, hduring, saturate_max]
    have hcons : peak d apps before (c :: inits) = max (use d (before ++ [c]))
      (peak d apps (if isSidecar c then before ++ [c] else before) inits) := rfl
    rw [hcons, ← max_assoc]
    by_cases h : isSidecar c
    · rw [if_pos h]
      refine ih _ (le_max_of_le_left hp) ?_ ?_ ?_
      · rw [step_fst, if_pos h]
        show saturate 128 (s.1.total d + request c d) = _
        rw [htotal, saturate_add (use_nonneg _) hc]
        simp only [use_append, use_singleton, add_right_comm]
      · rw [step_fst, if_pos h]
        exact hduring
      · rw [step_fst, if_pos h, ← hpeaks]
        rfl
    · rw [if_neg h]
      refine ih _ (le_max_of_le_left hp) ?_ ?_ ?_
      · rw [step_fst, if_neg h, htotal]
      · rw [step_fst, if_neg h, hsidecars]
      · rw [step_fst, if_neg h, ← hpeaks]
        exact congrArg (fun x => max _ (saturate 128 x)) (add_comm ..)

theorem podLevel_fst (requests : Option Json) (effective : NodeResources) :
    (podLevel r requests effective).1 d = match requests.bind (Json.get d.key) with
      | some v => (quantity ⟨false⟩ v).1
      | none => effective d := by
  unfold podLevel
  extract_lets read
  have hread (r : RequestReader)
    (d : Dimension) : (read r d).1 = match requests.bind (Json.get d.key) with
      | some v => (quantity ⟨false⟩ v).1
      | none => effective d := by
    simp only [read]
    split
    · exact quantity_fst _ _ _
    · rfl
  cases d
  · exact hread _ .cpu
  · exact hread _ .mem

theorem aggregate_nonneg (spec : String → Option Json) : 0 ≤ aggregate d spec := by
  unfold aggregate
  split
  · exact quantity_nonneg _ _
  · exact peak_nonneg _ _ _

theorem podRequestsOf_eq (spec : String → Option Json) :
    (podRequestsOf spec).milli d = saturate 128 (aggregate d spec + overhead d spec) := by
  have hov : 0 ≤ overhead d spec := list_nonneg _ _ d
  refine (congrArg₂ (fun x y => saturate 128 (x + y)) (podLevel_fst _ _)
    (congrFun (list_fst _ ⟨false⟩ _) d)).trans ?_
  unfold aggregate
  split
  · rfl
  · refine Eq.trans ?_ (saturate_add (peak_nonneg _ _ _) hov)
    refine congrArg (fun x => saturate 128 (x + overhead d spec)) ?_
    rw [← max_eq_right (peak_nonneg _ _ _)]
    exact InitWalk.foldl_peak (arrayAt spec "initContainers") [] le_rfl containersTotal_eq rfl rfl

/-! A container that asks for more, or one more container, takes nothing away. -/

section
variable {apps' : List Json}

theorem use_mono (h : SublistForall₂ (fun c c' => request c ≤ request c') apps apps') :
    use d apps ≤ use d apps' := by
  induction h with
  | nil => exact use_nonneg _
  | cons hc _ ih => exact add_le_add (hc d) ih
  | cons_right _ ih => exact ih.trans (le_add_of_nonneg_left (request_nonneg _))

theorem le_peak (inits before : List Json) : use d (before ++ apps) ≤ peak d apps before inits := by
  induction inits generalizing before with
  | nil => exact le_max_left _ _
  | cons c inits ih =>
    refine le_max_of_le_right ((ih _).trans' ?_)
    rw [use_append, use_append]
    refine Int.add_le_add_right ?_ _
    split
    · simpa using request_nonneg c
    · exact le_rfl

theorem peak_mono (happs : use d apps ≤ use d apps') {before before' inits inits' : List Json}
    (h : SublistForall₂ (fun c c' => request c ≤ request c' ∧
      isSidecar c = isSidecar c') inits inits')
    (hbefore : use d before ≤ use d before') :
    peak d apps before inits ≤ peak d apps' before' inits' := by
  induction h generalizing before before' with
  | nil =>
    refine max_le ((le_peak _ _).trans' ?_) (peak_nonneg _ _ _)
    simpa using add_le_add hbefore happs
  | cons hc _ ih =>
    have hboth := add_le_add hbefore (hc.1 d)
    refine max_le_max (by simpa using hboth) (ih ?_)
    rw [hc.2]
    split
    · simpa using hboth
    · exact hbefore
  | @cons_right c _ _ _ ih =>
    refine le_max_of_le_right (ih (hbefore.trans ?_))
    split
    · simpa using request_nonneg c
    · exact le_rfl

end

def podSpec (pod : Json) (key : String) : Option Json := (pod.get "spec").bind (Json.get key)

/-- A pod asks for its peak use and its overhead, as far as the word holds them. Containers that ask
for more, and more containers, never make it ask for less. -/
theorem podRequests_peak (pod : Json) (d : Dimension) :
    (podRequests pod).milli d = saturate 128
    (aggregate d (podSpec pod) + overhead d (podSpec pod)) ∧
      ∀ pod', SublistForall₂ (fun c c' => request c ≤ request c')
          (arrayAt (podSpec pod) "containers") (arrayAt (podSpec pod') "containers") →
        SublistForall₂ (fun c c' => request c ≤ request c' ∧ isSidecar c = isSidecar c')
          (arrayAt (podSpec pod) "initContainers") (arrayAt (podSpec pod') "initContainers") →
        podSpec pod "resources" = podSpec pod' "resources" →
        podSpec pod "overhead" = podSpec pod' "overhead" →
        (podRequests pod).milli d ≤ (podRequests pod').milli d := by
  have heq := fun pod => podRequestsOf_eq (d := d) (podSpec pod)
  refine ⟨heq pod, fun pod' happs hinits hrequests hoverhead => ?_⟩
  refine (heq pod).trans_le ((saturate_mono ?_).trans_eq (heq pod').symm)
  rw [overhead, hoverhead, aggregate, aggregate, hrequests]
  refine add_le_add_left ?_ _
  split
  · exact le_rfl
  · exact peak_mono (use_mono happs) hinits le_rfl

/-- Containers that each ask for all the memory a word can hold. -/
def hugePod (n : Nat) : Json :=
  .obj [("spec", .obj [("containers", .arr (replicate n (.obj [("resources", .obj [("requests",
    .obj [("memory", .str "170141183460469231731687303715884105")])])])))])]

theorem podRequests_peak_second :
    (podRequests (hugePod 1)).milli .mem ≤ (podRequests (hugePod 2)).milli .mem :=
  (podRequests_peak (hugePod 1) .mem).2 _ (.cons le_rfl .nil) .nil rfl rfl

/-- The sum of two of them is cut off. -/
theorem podRequests_cut : (podRequests (hugePod 2)).milli .mem ≠
    peak .mem (arrayAt (podSpec (hugePod 2)) "containers") [] [] := by
  decide +kernel

theorem podRequests_nonneg (pod : Json) (d : Dimension) : 0 ≤ (podRequests pod).milli d := by
  rw [podRequests, podRequestsOf_eq]
  exact saturate_nonneg (add_nonneg (aggregate_nonneg _) (list_nonneg _ _ d))

end

/-! ## The fit of one pod -/

/-- There is room for the pod. -/
def fits (free : NodeResources) (req : PodRequests) : Bool :=
  !req.unparseable && req.milli .cpu ≤ free .cpu && req.milli .mem ≤ free .mem

theorem fits_le {free : NodeResources} {req : PodRequests} (h : fits free req = true)
    (d : Dimension) :
    req.milli d ≤ free d := by
  simp only [fits, Bool.and_eq_true, decide_eq_true_eq] at h
  cases d
  · exact h.1.2
  · exact h.2

end Engenho
