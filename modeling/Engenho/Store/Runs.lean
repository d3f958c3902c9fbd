import Engenho.Store.Effects

/-!
# Runs of the catalog

A run applies commands (under either semantics) and compactions to an empty catalog of any history
capacity. `Logged` pairs the catalog with the log of every change committed so far, which the
catalog itself forgets as its ring fills.

* `Logged.exec_backs`: after every run the ring backs its floor (`WatchHistory.Backs`).
* `oneRevisionPerChange`: what each command does to the revision, the map and the ring.
-/

namespace Engenho
open ResourceCatalog OrdMap

/-- One operation on the catalog. -/
inductive CatalogOp where
  | command (cmd : ResourceCommand) (semantics : ApplySemantics) (term index : Nat)
  | compact (target : Nat)
deriving DecidableEq, Repr

variable (env : Env) (c : ResourceCatalog) (op : CatalogOp)

/-- The catalog after an operation, and the changes the operation committed. -/
def ResourceCatalog.perform : CatalogOp → ResourceCatalog × List Change
  | .command cmd sem term index =>
    let out := c.applyUnder env cmd sem term index
    (out.1, out.2.changes)
  | .compact target => (c.compact target, [])

/-- The inversion lemma of an operation: nothing but the log position moved, or one revision was
committed, or the floor may have risen. -/
theorem perform_cases : (∃ term index, c.perform env op =
      ({ c with lastAppliedTerm := term, lastAppliedIndex := index }, [])) ∨
    (∃ first rest term index, Writes (c.revision + 1) c.resources (first :: rest) ∧
      c.perform env op =
        ({ c with
            resources := applyChanges c.resources (first :: rest)
            history := c.history.commit first rest
            lastAppliedTerm := term
            lastAppliedIndex := index }, first :: rest)) ∨
    (∃ target, c.perform env op = (c.compact target, [])) := by
  cases op with
  | command cmd sem term index =>
    simp only [perform]
    obtain ⟨hchs, -, hcat⟩ | ⟨first, rest, hchs, -, hw, hcat⟩ :=
      c.applyUnder_cases env cmd sem term index
    · exact .inl ⟨term, index, by rw [hchs, hcat]⟩
    · exact .inr (.inl ⟨first, rest, term, index, hw, by rw [hchs, hcat]⟩)
  | compact target => exact .inr (.inr ⟨target, rfl⟩)

/-- What an operation commits is what it did to the map, at the next revision. -/
theorem perform_writes : Writes (c.revision + 1) c.resources (c.perform env op).2 ∧
      (c.perform env op).1.resources = applyChanges c.resources (c.perform env op).2 := by
  obtain ⟨_, _, he⟩ | ⟨first, rest, _, _, hw, he⟩ | ⟨target, he⟩ := perform_cases env c op
  · rw [he]; exact ⟨.nil, rfl⟩
  · rw [he]; exact ⟨hw, rfl⟩
  · rw [he]; exact ⟨.nil, rfl⟩

theorem perform_revision :
    (c.perform env op).1.revision = c.revision ∨
    (c.perform env op).1.revision = c.revision + 1 := by
  obtain ⟨_, _, he⟩ | ⟨first, rest, _, _, -, he⟩ | ⟨target, he⟩ := perform_cases env c op
  · rw [he]; exact .inl rfl
  · rw [he]; exact .inr (by simp [revision])
  · rw [he]; exact .inl (by simp [revision, compact])

/-- The keys an operation names. -/
def CatalogOp.keys : CatalogOp → List ResourceKey
  | .command cmd _ _ _ => cmd.keys
  | .compact _ => []

theorem perform_get_ne {k : ResourceKey}
    (h : k ∉ op.keys) : (c.perform env op).1.resources.get k = c.resources.get k := by
  cases op with
  | command cmd sem term index => exact c.applyUnder_get_ne env cmd sem term index h
  | compact target => rfl

/-- A catalog with everything it ever committed. -/
structure Logged where
  cat : ResourceCatalog
  log : List Change

namespace Logged

def init (capacity : Nat) : Logged := ⟨.withHistoryCapacity capacity, []⟩

/-- An operation, its changes added to the log. -/
def step (env : Env) (s : Logged) (op : CatalogOp) : Logged :=
  let out := s.cat.perform env op
  ⟨out.1, s.log ++ out.2⟩

/-- The state after a run from the empty catalog. -/
def after (env : Env) (capacity : Nat) (ops : List CatalogOp) : Logged :=
  Run.exec (step env) (init capacity) ops

variable {env : Env}

/-- The ring backs its floor, and no operation lowers the floor. -/
theorem step_backs {s : Logged} (h : s.cat.history.Backs s.log) (op : CatalogOp) :
    (s.step env op).cat.history.Backs (s.step env op).log ∧
      s.cat.history.floor ≤ (s.step env op).cat.history.floor := by
  obtain ⟨_, _, he⟩ | ⟨first, rest, _, _, hw, he⟩ | ⟨target, he⟩ := perform_cases env s.cat op
  · rw [step, he, List.append_nil]; exact ⟨h, le_rfl⟩
  · rw [step, he]; exact h.commit hw.revision
  · rw [step, he, List.append_nil]; exact h.compact target

theorem exec_backs (env : Env) (capacity : Nat) (ops : List CatalogOp) :
    (after env capacity ops).cat.history.Backs (after env capacity ops).log :=
  Run.exec_inv (I := fun s : Logged => s.cat.history.Backs s.log)
    (fun _ op h => (step_backs h op).1) (WatchHistory.backs_new ..) ops

theorem step_head (s : Logged) (op : CatalogOp) :
    s.cat.revision ≤ (s.step env op).cat.revision := by
  have := perform_revision env s.cat op
  simp only [step]
  omega

variable {key : ResourceKey} {m : VersionMeta}

/-- What is kept by every write of a change in `Q` after `s` holds after every run from `s` that
commits only such changes. -/
theorem writes_inv {I : Nat → Resources → List Change → Prop} {Q : Change → Prop} {s : Logged}
    (hmono : ∀ {rev res log}, I rev res log → I (rev + 1) res log)
    (hwrite : ∀ {rev res log ch}, s.cat.revision < rev → Q ch → I rev res log →
      KeyWrite rev res ch →
      I rev (ch.applyTo res) (log ++ [ch])) (h : I s.cat.revision s.cat.resources s.log) {ops :
      List CatalogOp}
    (hops : Run.Along (step env) (fun t op => ∀ ch ∈ (t.cat.perform env op).2, Q ch) s ops) :
    let t := Run.exec (step env) s ops
    I t.cat.revision t.cat.resources t.log := by
  have hwrites : ∀ {rev : Nat} {res : Resources} {log chs : List Change}, s.cat.revision < rev →
      (∀ ch ∈ chs, Q ch) → I rev res log → Writes rev res chs →
      I rev (applyChanges res chs) (log ++ chs) := by
    intro rev res log chs hlt hq hI hw
    induction hw generalizing log with
    | nil => simpa using hI
    | cons hch _ ih =>
      obtain ⟨hfirst, hrest⟩ := List.forall_mem_cons.mp hq
      simpa using ih hrest (hwrite hlt hfirst hI hch)
  refine (hops.exec_inv (I := fun t => s.cat.revision ≤ t.cat.revision ∧
    I t.cat.revision t.cat.resources t.log) (fun t op hq ⟨hle, hI⟩ =>
      ⟨hle.trans (step_head t op), ?_⟩)
    ⟨le_rfl, h⟩).2
  obtain ⟨_, _, he⟩ | ⟨first, rest, _, _, hw, he⟩ | ⟨target, he⟩ := perform_cases env t.cat op
  · rw [step, he, List.append_nil]; exact hI
  · rw [he] at hq
    simpa [step, he, revision] using hwrites (Nat.lt_succ_of_le hle) hq (hmono hI) hw
  · simpa [step, he, compact, revision] using hI

/-- What every write establishes of the entry it stores, given it of the entry before, holds of
every live entry of every run. -/
theorem live_inv {P : Nat → Json → VersionMeta → Prop}
    (hmono : ∀ {rev v m}, P rev v m → P (rev + 1) v m)
    (hput : ∀ {rev : Nat} {prior : Option (Json × VersionMeta)} {v : Json},
      (∀ old m, prior = some (old, m) → P rev old m) → StampedValue (prior.map Prod.fst) rev v →
      P rev v (nextMeta (prior.map Prod.snd) rev)) (env : Env) (capacity : Nat) (ops :
      List CatalogOp)
    {v : Json} (h : (after env capacity ops).cat.resources.get key = some (v, m)) :
    P (after env capacity ops).cat.revision v m := by
  refine writes_inv (I := fun rev res _ => ∀ key v m, res.get key = some (v, m) → P rev v m)
    (fun hI key v m hk => hmono (hI key v m hk)) (fun {_ _ _ ch} _ _ hI hw key v m hk => ?_)
    (s := init capacity) (Q := fun _ => True) (fun key v m hk => by cases hk)
    (Run.along_of_forall (fun _ _ _ _ => trivial) _ ops) key v m h
  by_cases hne : key = ch.key
  · cases hw with
    | delete | release => simp [Change.applyTo, hne] at hk
    | put hv =>
      rw [Change.applyTo, hne, get_insert_self] at hk
      cases hk
      exact hput (fun old m hold => hI _ old m hold) hv
  · rw [Change.get_applyTo_ne _ _ hne] at hk
    exact hI key v m hk

theorem modRevision_le (env : Env) (capacity : Nat) (ops : List CatalogOp) {v : Json}
    (h : (after env capacity ops).cat.resources.get key = some (v, m)) :
    m.modRevision ≤ (after env capacity ops).cat.revision := by
  refine live_inv (P := fun rev _ m => m.modRevision ≤ rev) (fun h => Nat.le_succ_of_le h) ?_ env
    capacity ops h
  intro rev prior v _ _
  cases prior <;> exact le_rfl

end Logged

def podKey : ResourceKey := ⟨"", "v1", "Pod", some "default", "web"⟩

/-- A pod with the given metadata fields and an empty spec. -/
def podBody (md : JsonMap) : Json := .obj [("metadata", .obj md), ("spec", .obj [])]

/-! ## One revision per change -/

/-- The changes of the revisions `floor + 1 ..= head`, in commit order. -/
def retainedRevisions (log : List Change) (floor head : Nat) : List Change :=
  log.filter fun ch => floor < ch.revision && ch.revision ≤ head

theorem WatchHistory.Backs.ring_eq {h : WatchHistory} {log : List Change} (hb : h.Backs log) :
    h.ring = retainedRevisions log h.floor h.head := by
  rw [hb.ring]
  refine List.filter_congr fun ch hch => ?_
  simp [hb.le_head ch hch]

/-- What a command must do to `c`: commit its changes as one new revision, or leave everything. -/
structure OneRevision (c : ResourceCatalog) (out : ResourceCatalog × ApplyOutcome) : Prop where
  unchanged : out.2.change = none → out.2.changes = [] ∧ out.1.resources = c.resources ∧
    out.1.unreadable = c.unreadable ∧ out.1.history = c.history
  committed : out.2.change ≠ none → out.1.revision = c.revision + 1 ∧
    (∀ ch ∈ out.2.changes, ch.revision = out.1.revision) ∧
    out.1.resources = applyChanges c.resources out.2.changes

theorem ResourceCatalog.applyUnder_oneRevision (env : Env) (c : ResourceCatalog)
    (cmd : ResourceCommand) (sem : ApplySemantics) (term index : Nat) :
    OneRevision c (c.applyUnder env cmd sem term index) := by
  obtain ⟨hchs, hn, hcat⟩ | ⟨first, rest, hchs, hs, hw, hcat⟩ :=
    c.applyUnder_cases env cmd sem term index
  · refine ⟨fun _ => ?_, fun h => absurd hn h⟩
    rw [hcat]
    exact ⟨hchs, rfl, rfl, rfl⟩
  · refine ⟨fun h => ?_, fun _ => ?_⟩
    · rw [hs] at h; cases h
    · rw [hchs, hcat]
      refine ⟨by simp [revision], fun ch hch => ?_, rfl⟩
      simp [revision, hw.revision ch hch]

/-- In every state of every run: each command commits at most one revision, whole, and the retained
ring is exactly the changes of the revisions above the floor. -/
theorem oneRevisionPerChange (env : Env) (capacity : Nat) (ops : List CatalogOp) :
    let s := Logged.after env capacity ops
    let h := s.cat.history
    (∀ cmd sem term index, OneRevision s.cat (s.cat.applyUnder env cmd sem term index)) ∧
    h.ring = retainedRevisions s.log h.floor h.head ∧
    h.floor ≤ h.head ∧
    (∀ op, h.floor ≤ (s.step env op).cat.history.floor ∧
      h.head ≤ (s.step env op).cat.history.head) ∧
    (h.ring.length ≤ max capacity 1 ∨ ∃ r, ∀ ch ∈ h.ring, ch.revision = r) := by
  intro s h
  have hb : h.Backs s.log := Logged.exec_backs env capacity ops
  have hcap : h.capacity = max capacity 1 :=
    Run.exec_inv (I := fun s : Logged => s.cat.history.capacity = max capacity 1)
      (fun s op hs => by
        obtain ⟨_, _, he⟩ | ⟨_, _, _, _, -, he⟩ | ⟨target, he⟩ := perform_cases env s.cat op
        · rw [Logged.step, he]; exact hs
        · rw [Logged.step, he]; simpa using hs
        · rw [Logged.step, he]; simpa [ResourceCatalog.compact] using hs) rfl ops
  refine ⟨fun cmd sem term index => s.cat.applyUnder_oneRevision env cmd sem term index, hb.ring_eq,
    hb.floor_le, fun op => ⟨(Logged.step_backs hb op).2, Logged.step_head s op⟩, .inl ?_⟩
  rw [← hcap]
  exact hb.fits

end Engenho
