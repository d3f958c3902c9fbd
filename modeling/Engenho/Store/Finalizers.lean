import Engenho.Store.Runs

/-!
# The finalizer gate

An object with finalizers is not removed by a delete, which only stamps it Terminating; the write
that takes the last finalizer of a Terminating object removes it.

* `WriteEnd.held` and `DeleteEnd.held`: what a write and a delete leave of an object with
  finalizers.
* `finalizers_gate`: in every reachable catalog, how an object with finalizers can leave the store,
  what a delete changes of it, and that no update leaves a Terminating object without finalizers.
-/

namespace Engenho
open OrdMap ResourceCatalog

/-! ## Objects with finalizers -/

variable {out : Resources × ApplyOutcome} {image : Option Json} {ts : Option String}
  {expected : Option Nat}
  {rev : Nat} {m : VersionMeta} {v : Json} {res : Resources} {key : ResourceKey}

theorem WriteEnd.removed (h : WriteEnd expected rev res key image out)
    (hlive : (res.get key).isSome = true) (hgone : out.1.get key = none) :
    ∃ post, image = some post ∧ finalizersReleased post = true := by
  cases h with
  | same =>
    rw [hgone] at hlive
    cases hlive
  | stored =>
    rw [get_insert_self] at hgone
    cases hgone
  | released post v m himage _ _ hrel => exact ⟨post, himage, hrel⟩

theorem WriteEnd.held {post : Json}
    (h : WriteEnd expected rev res key (some post) out) (hlive : res.get key = some (v, m))
    (hheld : hasFinalizers v = true) (hpost : hasFinalizers post = true) :
    ∃ v' m', out.1.get key = some (v', m') ∧ hasFinalizers v' = true := by
  cases h with
  | same => exact ⟨v, m, hlive, hheld⟩
  | stored _ _ himage =>
    cases himage
    exact ⟨_, _, get_insert_self .., hpost⟩
  | released _ _ _ himage _ _ hrel =>
    cases himage
    simp [finalizersReleased, hpost] at hrel

theorem hasFinalizers_terminating (live : Json) (ts : String) (rev : Nat) :
    hasFinalizers (stampResourceVersion (stampDeletionTimestamp live ts) rev) =
      hasFinalizers live := by
  simp only [hasFinalizers, stampResourceVersion, stampDeletionTimestamp]
  rw [metaField_put_ne _ _ _ _ (by decide), metaField_put_ne _ _ _ _ (by decide)]

theorem DeleteEnd.held (h : DeleteEnd rev res key ts out)
    (hlive : res.get key = some (v, m)) (hheld : hasFinalizers v = true) :
    ∃ v' m', out.1.get key = some (v', m') ∧ hasFinalizers v' = true := by
  cases h with
  | same => exact ⟨v, m, hlive, hheld⟩
  | removed live _ hlive' hfree =>
    rw [hlive] at hlive'
    cases hlive'
    rw [hheld] at hfree
    cases hfree
  | stamped live _ stamp hlive' hheld' =>
    refine ⟨_, _, get_insert_self .., ?_⟩
    rw [hasFinalizers_terminating, hheld']

section
variable (env : Env) {rev : Nat} {res : Resources} {key : ResourceKey} {v : Json} {m : VersionMeta}

/-- An operation of a transaction keeps an object with finalizers, or is a put that takes them
away. -/
theorem applyTxnOp_held (hlive : res.get key = some (v, m)) (hheld : hasFinalizers v = true)
    (op : TxnOp) :
    (∃ v' m', (applyTxnOp env rev res op).1.get key = some (v', m') ∧ hasFinalizers v' = true) ∨
    ∃ value, op = .put key value ∧ hasFinalizers (putImage env res key value rev) = false ∧
      ((applyTxnOp env rev res op).1.get key = none →
        finalizersReleased (putImage env res key value rev) = true) := by
  cases op with
  | delete k ts =>
    left
    by_cases hk : key = k
    · subst hk
      exact (applyDelete_end res key none ts rev).held hlive hheld
    · exact ⟨v, m, ((applyDelete_write res k none ts rev).get_ne hk).trans hlive, hheld⟩
  | put k value =>
    have hstep := applyPut_end env res k value none .commit rev
    by_cases hk : key = k
    · subst hk
      cases hfin : hasFinalizers (putImage env res key value rev) with
      | false =>
        right
        refine ⟨value, rfl, hfin, fun hgone => ?_⟩
        obtain ⟨post, himage, hrel⟩ := hstep.removed (by rw [hlive]; rfl) hgone
        cases himage
        exact hrel
      | true =>
        left
        exact hstep.held hlive hheld hfin
    · left
      exact ⟨v, m, ((applyPut_write env res k value none .commit rev).get_ne hk).trans hlive, hheld⟩

/-- A transaction that removes an object with finalizers has a put that takes them away. -/
theorem applyTxnOps_removed {ops : List TxnOp} (hlive : res.get key = some (v, m))
    (hheld : hasFinalizers v = true) (hgone : (applyTxnOps env rev res ops).1.get key = none) :
    ∃ pre value rest, ops = pre ++ .put key value :: rest ∧
      hasFinalizers (putImage env (applyTxnOps env rev res pre).1 key value rev) = false := by
  induction ops generalizing res v m with
  | nil =>
    rw [applyTxnOps, hlive] at hgone
    cases hgone
  | cons op ops ih =>
    rcases applyTxnOp_held env hlive hheld op with ⟨v', m', hlive', hheld'⟩ | ⟨value, rfl, hfree, -⟩
    · obtain ⟨pre, value, rest, rfl, hfree⟩ := ih hlive' hheld' hgone
      exact ⟨op :: pre, value, rest, rfl, hfree⟩
    · exact ⟨[], value, ops, rfl, hfree⟩

end

/-- The command takes the finalizers of the object at `key` away: by a write whose image is
Terminating and has none, or by a put of a transaction whose image has none. -/
inductive Releases (env : Env) (res : Resources) (rev : Nat) (key : ResourceKey) :
    ResourceCommand → Prop
  | write (cmd : ResourceCommand) (post : Json) (hkeys : cmd.keys = [key])
      (himage : cmd.image env res rev = some post) (hrel : finalizersReleased post = true) :
      Releases env res rev key cmd
  | txn (compares : List TxnCompare) (success failure pre rest : List TxnOp) (value : ResourceValue)
      (hbranch : takenBranch res compares success failure = pre ++ .put key value :: rest)
      (hfree : hasFinalizers (putImage env (applyTxnOps env rev res pre).1 key value rev) = false) :
      Releases env res rev key (.txn compares success failure)

variable (env : Env)

theorem applyTxn_resources (res : Resources) (compares : List TxnCompare)
    (success failure : List TxnOp) (rev : Nat) : (applyTxn env res compares success failure rev).1 =
      (applyTxnOps env rev res (takenBranch res compares success failure)).1 :=
  (applyTxn_eq env res compares success failure rev).1

theorem dispatch_removed {res : Resources} (cmd : ResourceCommand) (on : OnIdentical) (rev : Nat)
    {key : ResourceKey} (hlive : res.get key = some (v, m)) (hheld : hasFinalizers v = true)
    (hgone : (dispatch env res cmd on rev).1.get key = none) : Releases env res rev key cmd := by
  have hkey : key ∈ cmd.keys := by
    by_contra hne
    rw [dispatch_get_ne env res cmd on rev hne, hlive] at hgone
    cases hgone
  have hsome : (res.get key).isSome = true := by rw [hlive]; rfl
  cases cmd with
  | put k value expected =>
    obtain rfl : key = k := by simpa [ResourceCommand.keys] using hkey
    obtain ⟨post, himage, hrel⟩ :=
      (applyPut_end env res key value expected on rev).removed hsome hgone
    exact .write _ post rfl himage hrel
  | patch k body type am expected =>
    obtain rfl : key = k := by simpa [ResourceCommand.keys] using hkey
    obtain ⟨post, himage, hrel⟩ :=
      (applyPatch_end env res key body type am expected on rev).removed hsome hgone
    exact .write _ post rfl himage hrel
  | delete k expected ts =>
    obtain rfl : key = k := by simpa [ResourceCommand.keys] using hkey
    obtain ⟨v', m', hlive', -⟩ := (applyDelete_end res key expected ts rev).held hlive hheld
    rw [dispatch, hlive'] at hgone
    cases hgone
  | txn compares success failure =>
    rw [dispatch, applyTxn_resources] at hgone
    obtain ⟨pre, value, rest, hbranch, hfree⟩ := applyTxnOps_removed env hlive hheld hgone
    exact .txn compares success failure pre rest value hbranch hfree

/-! ## Deletes -/

/-- The object without some fields of its metadata. -/
def withoutMeta (names : List String) : Json → Json :=
  updateMetadata fun md => md.filter fun e => decide (e.1 ∉ names)

theorem withoutMeta_put {names : List String} {k : String} (hk : k ∈ names) (x v : Json) :
    withoutMeta names (updateMetadata (Assoc.put k x) v) = withoutMeta names v := by
  rw [withoutMeta, updateMetadata_comp]
  congr 1
  funext md
  exact Assoc.filter_put_of_neg (p := fun k' => decide (k' ∉ names)) (by simpa using hk) x md

section
variable {res : Resources} {key : ResourceKey} (hlive : res.get key = some (v, m))
  (hheld : hasFinalizers v = true)
include hlive hheld

theorem applyDelete_held (expected : Option Nat) (ts : Option String) (rev : Nat) :
    (∃ op, applyDelete res key expected ts rev = (res, .noChange op)) ∨
    ∃ stamp, ts = some stamp ∧ deletionTimestampOf v = none ∧
    (applyDelete res key expected ts rev).1 =
        res.insert key (stampResourceVersion (stampDeletionTimestamp v stamp) rev,
          m.bumpedAt rev) := by
  have hend := applyDelete_end res key expected ts rev
  generalize applyDelete res key expected ts rev = out at hend ⊢
  cases hend with
  | same op => exact .inl ⟨op, rfl⟩
  | removed live _ hlive' hfree =>
    rw [hlive] at hlive'
    cases hlive'
    rw [hheld] at hfree
    cases hfree
  | stamped live _ stamp hlive' _ hts hnew =>
    rw [hlive] at hlive'
    cases hlive'
    exact .inr ⟨stamp, hts, hnew, rfl⟩

/-- Whether a delete of a Terminating object with finalizers is refused or not, it changes
nothing. -/
theorem applyDelete_terminating (hterm : (deletionTimestampOf v).isSome = true)
    (expected : Option Nat) (ts : Option String) (rev : Nat) :
    ∃ op, applyDelete res key expected ts rev = (res, .noChange op) := by
  rcases applyDelete_held hlive hheld expected ts rev with h | ⟨stamp, -, hnone, -⟩
  · exact h
  · rw [hnone] at hterm
    cases hterm

end

theorem deletionTimestampOf_terminating (hheld : hasFinalizers v = true) {stamp : String}
    (hne : stamp ≠ "") (rev : Nat) :
    (deletionTimestampOf (stampResourceVersion (stampDeletionTimestamp v stamp) rev)).isSome =
    true := by
  have hbase : (metaBase v).isSome = true := by
    cases hb : metaBase v with
    | some md => rfl
    | none =>
      rw [hasFinalizers, metaField_of_metaBase, hb] at hheld
      cases hheld
  have hstamp : metaField "deletionTimestamp"
    (stampResourceVersion (stampDeletionTimestamp v stamp) rev) =
      some (.str stamp) := by
    rw [stampResourceVersion, metaField_put_ne _ _ _ _ (by decide)]
    exact metaField_put_self _ _ _ (by rw [objectMeta_updateMetadata, hbase])
  have hnonempty : stamp.isEmpty = false := by simpa using hne
  simp [deletionTimestampOf, hstamp, Json.asStr, hnonempty]

namespace ResourceCatalog

variable (c : ResourceCatalog)

/-- The catalog at another log position. -/
def atLog (term index : Nat) : ResourceCatalog :=
  { c with lastAppliedTerm := term, lastAppliedIndex := index }

/-- A command whose mutation changes nothing moves only the log position. -/
theorem applyUnder_noChange (cmd : ResourceCommand) (sem : ApplySemantics)
    (term index : Nat) (h : c.unreadableTouchedBy cmd = none →
      ∃ op, dispatch env c.resources cmd (.under sem) c.history.nextRevision = (c.resources,
        .noChange op)) :
    (c.applyUnder env cmd sem term index).1 = c.atLog term index := by
  unfold applyUnder
  split
  · rfl
  · rename_i hun
    obtain ⟨op, hop⟩ := h hun
    simp only [hop]
    rfl

/-- A delete of an object with finalizers changes nothing, wherever the log stands, or stamps the
object. -/
theorem applyUnder_delete_held {key : ResourceKey}
    (hlive : c.resources.get key = some (v, m)) (hheld : hasFinalizers v = true)
    (expected : Option Nat) (ts : Option String) : (∀ term₀ index₀ sem term index,
      ((c.atLog term₀ index₀).applyUnder env (.delete key expected ts) sem term index).1 =
        c.atLog term index) ∨
    ∃ stamp, ts = some stamp ∧ deletionTimestampOf v = none ∧ ∀ sem term index,
      (c.applyUnder env (.delete key expected ts) sem term index).1.resources =
        c.resources.insert key
        (stampResourceVersion (stampDeletionTimestamp v stamp) c.history.nextRevision,
          m.bumpedAt c.history.nextRevision) := by
  cases hun : c.unreadableTouchedBy (.delete key expected ts) with
  | some kf =>
    refine .inl fun term₀ index₀ sem term index => ?_
    refine (c.atLog term₀ index₀).applyUnder_noChange env _ sem term index fun hnone => ?_
    cases hun.symm.trans hnone
  | none =>
    rcases applyDelete_held hlive hheld expected ts c.history.nextRevision with
      ⟨op, hop⟩ | ⟨stamp, hts, hnone, hstamped⟩
    · refine .inl fun term₀ index₀ sem term index => ?_
      exact (c.atLog term₀ index₀).applyUnder_noChange env _ sem term index fun _ => ⟨op, hop⟩
    · refine .inr ⟨stamp, hts, hnone, fun sem term index => ?_⟩
      simp only [applyUnder, hun]
      exact hstamped

/-- A delete of an object with finalizers changes at most its deletion timestamp and resource
version; a delete of a Terminating one changes nothing, and neither does a delete done twice. -/
theorem delete_held (env : Env) (c : ResourceCatalog) {key : ResourceKey}
    (hlive : c.resources.get key = some (v, m)) (hheld : hasFinalizers v = true)
    (expected : Option Nat) (ts : Option String) (sem : ApplySemantics) (term index : Nat) :
    let d := (c.applyUnder env (.delete key expected ts) sem term index).1
    (∃ v' m', d.resources.get key = some (v', m') ∧
      withoutMeta ["deletionTimestamp", "resourceVersion"] v' =
        withoutMeta ["deletionTimestamp", "resourceVersion"] v) ∧
    ((deletionTimestampOf v).isSome = true → d = c.atLog term index) ∧
    (ts ≠ some "" → ∀ (sem' : ApplySemantics) (term' index' : Nat),
      (d.applyUnder env (.delete key expected ts) sem' term' index').1 = d.atLog term' index') := by
  intro d
  rcases c.applyUnder_delete_held env hlive hheld expected ts with hsame | ⟨stamp, rfl,
    hnone, hstamped⟩
  · have hd : d = c.atLog term index := hsame c.lastAppliedTerm c.lastAppliedIndex sem term index
    refine ⟨⟨v, m, by rw [hd]; exact hlive, rfl⟩, fun _ => hd, fun _ sem' term' index' => ?_⟩
    rw [hd]
    exact hsame term index sem' term' index'
  · have hlive' := get_insert_self c.resources key
      (stampResourceVersion (stampDeletionTimestamp v stamp) c.history.nextRevision,
        m.bumpedAt c.history.nextRevision)
    rw [← hstamped sem term index] at hlive'
    refine ⟨⟨_, _, hlive', ?_⟩, fun hterm => ?_, fun hne sem' term' index' => ?_⟩
    · rw [stampResourceVersion, withoutMeta_put (by decide), stampDeletionTimestamp,
        withoutMeta_put (by decide)]
    · rw [hnone] at hterm
      cases hterm
    · have hstamp : stamp ≠ "" := fun he => hne (by rw [he])
      refine d.applyUnder_noChange env _ sem' term' index' fun _ => ?_
      exact applyDelete_terminating hlive' (by rw [hasFinalizers_terminating, hheld])
        (deletionTimestampOf_terminating hheld hstamp _) expected (some stamp)
        d.history.nextRevision

end ResourceCatalog

/-! ## Objects stored by an update -/

/-- No entry that was stored over another is Terminating without finalizers. -/
def UpdatesHeld (res : Resources) : Prop :=
  ∀ key v m, res.get key = some (v, m) → 1 < m.version → finalizersReleased v = false

theorem UpdatesHeld.insert {res : Resources} (h : UpdatesHeld res) {key : ResourceKey}
    (hv : 1 < m.version → finalizersReleased v = false) : UpdatesHeld (res.insert key (v, m)) := by
  intro k w m' hk
  by_cases he : k = key
  · subst he
    rw [get_insert_self] at hk
    cases hk
    exact hv
  · rw [get_insert_ne _ he] at hk
    exact h k w m' hk

theorem UpdatesHeld.erase {res : Resources} (h : UpdatesHeld res) (key : ResourceKey) :
    UpdatesHeld (res.erase key) := by
  intro k w m hk
  by_cases he : k = key
  · subst he
    rw [get_erase_self] at hk
    cases hk
  · rw [get_erase_ne _ he] at hk
    exact h k w m hk

theorem WriteEnd.updatesHeld (h : WriteEnd expected rev res key image out)
    (hres : UpdatesHeld res) : UpdatesHeld out.1 := by
  cases h with
  | same => exact hres
  | released => exact hres.erase key
  | stored post op himage _ hkept =>
    refine hres.insert fun hversion => ?_
    cases hlive : res.get key with
    | none =>
      rw [hlive] at hversion
      exact absurd hversion (lt_irrefl 1)
    | some e => exact hkept (by rw [hlive]; rfl)

theorem DeleteEnd.updatesHeld (h : DeleteEnd rev res key ts out)
    (hres : UpdatesHeld res) : UpdatesHeld out.1 := by
  cases h with
  | same => exact hres
  | removed => exact hres.erase key
  | stamped live m stamp hlive hheld =>
    refine hres.insert fun _ => ?_
    simp [finalizersReleased, hasFinalizers_terminating, hheld]

theorem dispatch_updatesHeld (hres : UpdatesHeld res) (cmd : ResourceCommand)
    (on : OnIdentical) (rev : Nat) : UpdatesHeld (dispatch env res cmd on rev).1 := by
  cases cmd with
  | put key value expected =>
    exact (applyPut_end env res key value expected on rev).updatesHeld hres
  | patch key body type am expected =>
    exact (applyPatch_end env res key body type am expected on rev).updatesHeld hres
  | delete key expected ts => exact (applyDelete_end res key expected ts rev).updatesHeld hres
  | txn compares success failure =>
    rw [dispatch, applyTxn_resources]
    generalize takenBranch res compares success failure = ops
    induction ops generalizing res with
    | nil => exact hres
    | cons op ops ih =>
      refine ih ?_
      cases op with
      | put key value => exact (applyPut_end env res key value none .commit rev).updatesHeld hres
      | delete key ts => exact (applyDelete_end res key none ts rev).updatesHeld hres

theorem Logged.exec_updatesHeld (capacity : Nat) (ops : List CatalogOp) :
    UpdatesHeld (Logged.after env capacity ops).cat.resources := by
  refine Run.exec_inv (I := fun s : Logged => UpdatesHeld s.cat.resources) (fun s op hs => ?_)
    (s := Logged.init capacity) (fun key v m hk => by cases hk) ops
  cases op with
  | compact target => exact hs
  | command cmd sem term index =>
    simp only [Logged.step, perform, applyUnder]
    split
    · exact hs
    · exact dispatch_updatesHeld env hs cmd _ _

/-! ## The gate -/

/-- In every reachable catalog: an object with finalizers leaves the store only by a command that
takes them away, and an operation that removes one is a put whose image is Terminating without them.
A delete keeps it, and a second delete changes nothing. No update leaves a Terminating object
without finalizers. -/
theorem finalizers_gate (env : Env) (capacity : Nat) (ops : List CatalogOp) :
    let c := (Logged.after env capacity ops).cat
    let rev := c.revision + 1
    (∀ cmd sem term index key v m, c.resources.get key = some (v, m) → hasFinalizers v = true →
      (c.applyUnder env cmd sem term index).1.resources.get key = none →
      Releases env c.resources rev key cmd) ∧
    (∀ compares success failure pre op rest key v m,
      takenBranch c.resources compares success failure = pre ++ op :: rest →
      let before := (applyTxnOps env rev c.resources pre).1
      before.get key = some (v, m) → hasFinalizers v = true →
      (applyTxnOp env rev before op).1.get key = none →
      ∃ value, op = .put key value ∧
        finalizersReleased (putImage env before key value rev) = true) ∧
    (∀ key expected ts sem term index v m, c.resources.get key = some (v, m) →
      hasFinalizers v = true →
      let d := (c.applyUnder env (.delete key expected ts) sem term index).1
      (∃ v' m', d.resources.get key = some (v', m') ∧
        withoutMeta ["deletionTimestamp", "resourceVersion"] v' =
          withoutMeta ["deletionTimestamp", "resourceVersion"] v) ∧
      ((deletionTimestampOf v).isSome = true → d = c.atLog term index) ∧
      (ts ≠ some "" → ∀ (sem' : ApplySemantics) (term' index' : Nat),
        (d.applyUnder env (.delete key expected ts) sem' term' index').1 = d.atLog term' index')) ∧
    (∀ key v m, c.resources.get key = some (v, m) → 1 < m.version →
      finalizersReleased v = false) := by
  intro c rev
  refine ⟨?_, ?_, ?_, Logged.exec_updatesHeld env capacity ops⟩
  · intro cmd sem term index key v m hlive hheld hgone
    unfold ResourceCatalog.applyUnder at hgone
    split at hgone
    · rw [hlive] at hgone
      cases hgone
    · exact dispatch_removed env cmd (.under sem) rev hlive hheld hgone
  · intro compares success failure pre op rest key v m _ before hlive hheld hgone
    rcases applyTxnOp_held env hlive hheld op with ⟨v', m', hlive', -⟩ | ⟨value, hop, -, hrel⟩
    · rw [hlive'] at hgone
      cases hgone
    · exact ⟨value, hop, hrel hgone⟩
  · intro key expected ts sem term index v m hlive hheld
    exact c.delete_held env hlive hheld expected ts sem term index

/-- A pod that a finalizer holds. -/
def heldPod : Json := podBody [("finalizers", .arr [.str "example/hold"])]

def putHeld : CatalogOp := .command (.put podKey heldPod none) .v1 1 1

/-- A transaction that puts the object without its finalizers and then deletes it removes it, though
no image was Terminating; and a delete with an empty timestamp changes the object again when
repeated. -/
theorem finalizers_bypassed : (let c := (Logged.after atomicEnv 8 [putHeld]).cat
     (c.resources.get podKey).any (fun e => hasFinalizers e.1) = true ∧
     (c.applyUnder atomicEnv (.txn [] [.put podKey (podBody []), .delete podKey none] []) .v1 1
       2).1.resources.get
        podKey = none ∧
     deletionTimestampOf (putImage atomicEnv c.resources podKey (podBody []) 2) = none) ∧
    (let c := (Logged.after atomicEnv 8
        [putHeld, .command (.delete podKey none (some "")) .v1 1 2]).cat
     (c.applyUnder atomicEnv (.delete podKey none (some "")) .v1 1 3).1.revision =
       c.revision + 1) := by
  decide +kernel

theorem heldPod_gate :
    let c := (Logged.after atomicEnv 8 [putHeld]).cat
    ∃ v m, c.resources.get podKey = some (v, m) ∧ hasFinalizers v = true ∧
      (c.applyUnder atomicEnv (.delete podKey none (some "now")) .v1 1 2).1.resources.get podKey ≠
      none ∧
      ∃ v' m', (c.applyUnder atomicEnv (.delete podKey none (some "now")) .v1 1 2).1.resources.get
        podKey =
          some (v', m') ∧
        withoutMeta ["deletionTimestamp", "resourceVersion"] v' =
          withoutMeta ["deletionTimestamp", "resourceVersion"] v := by
  intro c
  have hlive : c.resources.get podKey = some (_, _) := rfl
  exact ⟨_, _, hlive, by decide +kernel, by decide +kernel,
    ((finalizers_gate atomicEnv 8 [putHeld]).2.2.1 podKey none
    (some "now") .v1 1 2 _ _ hlive (by decide +kernel)).1⟩

end Engenho
