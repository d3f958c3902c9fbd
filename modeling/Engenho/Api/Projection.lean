import Engenho.Api.WatchServe
import Engenho.Store.Past

/-!
# Watches with a selector

A watch with a selector is a view of the objects that pass it. `project` asks the selector about
both images of a change, and the two verdicts decide the event that the view is sent.

The prior image of a finalizer release is the object that the releasing write would have stored, not
the one that was live. If that write also moves the object into or out of the selector, the verdict
on it is not the verdict on what the view holds.

* `projectedView_exact`: in a run without such a write the projected changes lead from the view at
  any retained revision to the view of the head.
* `released_stays_in_view`: with one, an object that is gone stays in the view.
-/

namespace Engenho
open List Option Function

/-- What a watch sends of a change. -/
inductive Projection where
  | added
  | modified
  | deleted
deriving DecidableEq, Repr

/-- By whether the object passes before and after. -/
def Projection.of (shape : ChangeShape) (passesBefore passesAfter : Bool) : Option Projection :=
  let before := passesBefore && shape ≠ .created
  let after := passesAfter && shape ≠ .deleted
  match before, after with
  | false, true => some .added
  | true, true => some .modified
  | true, false => some .deleted
  | false, false => none

def Projection.eventKind : Projection → WatchEventKind
  | .added => .added
  | .modified => .modified
  | .deleted => .deleted

/-- The event of a change, under a filter. -/
def project (ch : Change) (passes : Json → Bool) : Option WatchEvent :=
  let shape := ChangeShape.of ch
  let passesBefore := ch.prior.any passes
  let passesAfter := shape ≠ .deleted && passes ch.value
  (Projection.of shape passesBefore passesAfter).bind fun projection =>
    let object := match projection with
      | .added | .modified => some ch.value
      -- the object as the watch last saw it, at the revision of the change
      | .deleted => ch.prior.map fun prior => stampResourceVersion prior ch.revision
    object.map fun object => ⟨projection.eventKind, object, ch.key, ch.revision⟩

/-! ## Views -/

/-- What a client of the watch holds. -/
abbrev View := ResourceKey → Option Json

namespace View

/-- The stored objects that pass. -/
def of (passes : Json → Bool) (res : Resources) : View := fun k => (valuesOf res k).filter passes

/-- The view after an event. -/
def apply (view : View) (ev : WatchEvent) : View :=
  match ev.kind with
  | .added | .modified => Function.update view ev.key (some ev.object)
  | .deleted => Function.update view ev.key none
  | .bookmark => view

/-- The event is one for this view: ADDED is for a key outside it, the others are for a key in
it. -/
def Due (view : View) (ev : WatchEvent) : Prop :=
  match ev.kind with
  | .added => view ev.key = none
  | .modified | .deleted => (view ev.key).isSome = true
  | .bookmark => True

/-- The projected changes, all of them due, make `last` of the view. -/
def Leads (passes : Json → Bool) (last : View) : View → List Change → Prop
  | view, [] => view = last
  | view, ch :: chs =>
    match project ch passes with
    | none => Leads passes last view chs
    | some ev => view.Due ev ∧ Leads passes last (view.apply ev) chs

end View

variable {passes : Json → Bool} {res : Resources} {ch : Change} {chs : List Change}
  {key : ResourceKey}
open View

theorem View.Leads.trans {view mid last : View} {chs' : List Change} (h : Leads passes mid view chs)
    (h' : Leads passes last mid chs') : Leads passes last view (chs ++ chs') := by
  induction chs generalizing view with
  | nil =>
    rw [show view = mid from h]
    exact h'
  | cons ch chs ih =>
    rw [cons_append]
    unfold Leads at h ⊢
    split at h
    · exact ih h
    · exact ⟨h.1, ih h.2⟩

/-- A change moves the view at its own key. -/
theorem of_applyTo (passes : Json → Bool) (res : Resources) (ch : Change) :
    View.of passes (ch.applyTo res) = Function.update (View.of passes res) ch.key
      (if ch.kind = .put then (some ch.value).filter passes else none) := by
  funext k
  by_cases hk : k = ch.key
  · subst hk
    rw [View.of, valuesOf, Change.applyTo]
    cases hkind : ch.kind <;> simp
  · rw [update_of_ne hk, View.of, View.of, valuesOf, valuesOf, Change.get_applyTo_ne _ _ hk]

/-- The image of a change that passes, if it leaves one. -/
def Change.passing (passes : Json → Bool) (ch : Change) : Option Json :=
  if ch.kind = .put then (some ch.value).filter passes else none

theorem project_eq (ch : Change) (passes : Json → Bool) :
    project ch passes = match ch.prior.filter passes, ch.passing passes with
      | none, some v => some ⟨.added, v, ch.key, ch.revision⟩
      | some _, some v => some ⟨.modified, v, ch.key, ch.revision⟩
      | some prior, none =>
        some ⟨.deleted, stampResourceVersion prior ch.revision, ch.key, ch.revision⟩
      | none, none => none := by
  obtain ⟨revision, key, kind, value, prior, versionMeta⟩ := ch
  unfold project
  cases kind with
  | delete =>
    cases prior with
    | none => rfl
    | some p =>
      cases hp : passes p <;> simp [Change.passing, Projection.of, ChangeShape.of, filter_some, hp,
        Projection.eventKind]
  | put =>
    cases prior with
    | none =>
      cases hv : passes value <;> simp [Change.passing, Projection.of, ChangeShape.of, filter_some,
        hv, Projection.eventKind]
    | some p =>
      cases hp : passes p <;> cases hv : passes value <;>
        simp [Change.passing, Projection.of, ChangeShape.of, filter_some, hp, hv,
          Projection.eventKind]

/-- The event of a change whose prior gets the verdict of the live object is due, and brings the
view to the state after the change. -/
theorem View.Leads.cons {last : View}
    (hprior : ch.prior.any passes = (valuesOf res ch.key).any passes)
    (h : Leads passes last (View.of passes (ch.applyTo res)) chs) :
    Leads passes last (View.of passes res) (ch :: chs) := by
  have hview : (View.of passes res ch.key).isSome = (ch.prior.filter passes).isSome := by
    have hsome : ∀ o : Option Json, (o.filter passes).isSome = o.any passes := by
      intro o
      cases o with
      | none => rfl
      | some v => cases hv : passes v <;> simp
    rw [hsome, View.of, hsome, hprior]
  rw [of_applyTo, ← Change.passing] at h
  unfold Leads
  rw [project_eq]
  revert h hview
  cases ch.prior.filter passes with
  | none =>
    intro h hview
    have hnone : View.of passes res ch.key = none := by simpa using hview
    cases hafter : ch.passing passes with
    | none =>
      rw [hafter, ← hnone, update_eq_self] at h
      exact h
    | some v =>
      rw [hafter] at h
      exact ⟨hnone, h⟩
  | some prior =>
    intro h hview
    cases hafter : ch.passing passes with
    | none | some v =>
      rw [hafter] at h
      exact ⟨hview, h⟩

/-! ## Runs -/

/-- A write with this image does not, in releasing the object, move it into or out of the
selector. -/
def keepsSide (passes : Json → Bool) (res : Resources) (key : ResourceKey) (image : Option Json) :
    Bool :=
  image.all fun post => (res.get key).all fun live =>
    !finalizersReleased post || passes post = passes live.1

section
variable (env : Env) (passes : Json → Bool)

def txnKeepsSide (rev : Nat) (res : Resources) : List TxnOp → Bool
  | [] => true
  | op :: ops =>
    (match op with
      | .put key value => keepsSide passes res key (some (putImage env res key value rev))
      | .delete _ _ => true) &&
    txnKeepsSide rev (applyTxnOp env rev res op).1 ops

def CatalogOp.keepsSide (c : ResourceCatalog) : CatalogOp → Bool
  | .command (.txn compares success failure) _ _ _ =>
    txnKeepsSide env passes (c.revision + 1) c.resources
      (takenBranch c.resources compares success failure)
  | .command cmd _ _ _ =>
    cmd.keys.all fun key => Engenho.keepsSide passes c.resources key
      (cmd.image env c.resources (c.revision + 1))
  | .compact _ => true

end

theorem WriteEnd.verdict {expected : Option Nat} {rev : Nat} {image : Option Json}
    {out : Resources × ApplyOutcome} (h : WriteEnd expected rev res key image out)
    (hkeeps : keepsSide passes res key image = true) (hch : out.2.change = some ch) :
    ch.prior.any passes = (valuesOf res ch.key).any passes := by
  obtain ⟨post, rfl, -, ⟨rfl, -⟩ | ⟨v, m, rfl, hlive, hrel⟩⟩ := h.of_change hch
  · rfl
  · simpa [keepsSide, hlive, hrel, valuesOf] using hkeeps

theorem txn_leads (env : Env) {rev : Nat} {ops : List TxnOp}
    (h : txnKeepsSide env passes rev res ops = true) :
    Leads passes (View.of passes (applyChanges res (applyTxnOps env rev res ops).2))
      (View.of passes res) (applyTxnOps env rev res ops).2 := by
  induction ops generalizing res with
  | nil => rfl
  | cons op ops ih =>
    simp only [txnKeepsSide, Bool.and_eq_true] at h
    obtain ⟨hop, hops⟩ := h
    have hrest := ih hops
    obtain ⟨-, ⟨hn, hres⟩ | ⟨ch, hs, -, -, hres⟩⟩ := applyTxnOp_write env rev res op
    · simpa only [applyTxnOps, hn, hres, toList_none, nil_append] using hrest
    · rw [hres] at hrest
      simp only [applyTxnOps, hs, hres]
      refine Leads.cons ?_ hrest
      cases op with
      | put key value => exact (applyPut_end env ..).verdict hop hs
      | delete key ts => rw [applyDelete_prior hs]

/-- The changes of an operation lead from the view before it to the view after it. -/
theorem perform_leads (env : Env) {c : ResourceCatalog} {op : CatalogOp}
    (h : op.keepsSide env passes c = true) :
    Leads passes (View.of passes (c.perform env op).1.resources) (View.of passes c.resources)
      (c.perform env op).2 := by
  rw [(perform_writes env c op).2]
  have single : ∀ {key : ResourceKey} {out : Resources × ApplyOutcome},
      OneWrite (c.revision + 1) c.resources key out →
      (∀ ch, out.2.change = some ch →
        ch.prior.any passes = (valuesOf c.resources ch.key).any passes) →
      Leads passes (View.of passes (applyChanges c.resources out.2.changes))
        (View.of passes c.resources)
        out.2.changes := by
    intro key out hone hp
    obtain ⟨hn, -⟩ | ⟨ch, hs, hch, -⟩ := hone.changes
    · rw [hn]
      rfl
    · rw [hch]
      exact Leads.cons (hp ch hs) rfl
  cases op with
  | compact target => rfl
  | command cmd sem term index =>
    simp only [ResourceCatalog.perform, ResourceCatalog.applyUnder]
    split
    · rfl
    simp only [ResourceCatalog.dispatch]
    cases cmd with
    | put key value expected =>
      have hkeeps := all_eq_true.mp h key (.head _)
      exact single (applyPut_write env ..) fun ch hch => (applyPut_end env ..).verdict hkeeps hch
    | patch key patch type am expected =>
      have hkeeps := all_eq_true.mp h key (.head _)
      exact single (applyPatch_write env ..) fun ch hch =>
        (applyPatch_end env ..).verdict hkeeps hch
    | delete key expected ts =>
      exact single (applyDelete_write ..) fun ch hch => by rw [applyDelete_prior hch]
    | txn compares success failure =>
      simp only [(applyTxn_eq env c.resources compares success failure _).2.1]
      exact txn_leads env h

/-- `t` is later than `s`: what it adds to the log is newer than `s` and leads from view to view. -/
structure Led (passes : Json → Bool) (s t : Logged) (chs : List Change) : Prop where
  revision : s.cat.revision ≤ t.cat.revision
  log : t.log = s.log ++ chs
  newer : ∀ ch ∈ chs, s.cat.revision < ch.revision
  leads : Leads passes (View.of passes t.cat.resources) (View.of passes s.cat.resources) chs

theorem Led.step {env : Env} {s t : Logged} {op : CatalogOp} (h : Led passes s t chs)
    (hop : op.keepsSide env passes t.cat = true) :
    Led passes s (t.step env op) (chs ++ (t.cat.perform env op).2) where
  revision := h.revision.trans (Logged.step_head t op)
  log := by
    simp only [Logged.step]
    rw [h.log, append_assoc]
  newer := by
    intro ch hch
    rcases mem_append.mp hch with hch | hch
    · exact h.newer ch hch
    · have := (perform_writes env t.cat op).1.revision ch hch
      have := h.revision
      omega
  leads := h.leads.trans (perform_leads env hop)

/-- In a run in which no write that releases an object moves it into or out of the selector, the
projected changes after any retained revision lead from the view at that revision to the view of the
head. -/
theorem projectedView_exact (env : Env) (capacity : Nat) (passes : Json → Bool)
    (ops : List CatalogOp)
    (hops : Run.Along (Logged.step env) (fun s op => op.keepsSide env passes s.cat = true)
      (Logged.init capacity) ops) (r : Nat)
    (hfloor : (Logged.after env capacity ops).cat.compactedRevision ≤ r)
    (hhead : r ≤ (Logged.after env capacity ops).cat.revision) :
    ∃ past chs, Logged.commitPoint env capacity ops r = some past ∧
      (Logged.after env capacity ops).cat.history.since r = .ok chs ∧
      View.Leads passes (View.of passes (Logged.after env capacity ops).cat.resources)
        (View.of passes past.cat.resources) chs := by
  obtain ⟨pre, post, rfl, hcp, rfl⟩ := Logged.commitPoint_spec capacity ops hhead
  have hs := Logged.exec_backs env capacity pre
  have ht := Logged.exec_backs env capacity (pre ++ post)
  have hpost := (Run.along_append.mp hops).2
  simp only [Logged.after, Run.exec_append] at hs ht hfloor hcp ⊢
  generalize Run.exec (Logged.step env) (Logged.init capacity) pre = past at *
  obtain ⟨chs, hled⟩ := hpost.exec_inv (I := fun t => ∃ chs, Led passes past t chs)
    (fun _ _ hop h => h.elim fun _ h => ⟨_, h.step hop⟩) ⟨[], le_rfl,
      (List.append_nil _).symm, by simp, rfl⟩
  refine ⟨past, chs, hcp, ?_, hled.leads⟩
  rw [ht.since hfloor, hled.log]
  exact congrArg Except.ok (hs.above_newer hled.newer)

/-- The pods that the selector `app=web` passes. -/
def webSelected (v : Json) : Bool :=
  (metaField "labels" v).bind (Json.get "app") = some (.str "web")

/-- A pod with a finalizer is created and deleted; the next put clears the finalizer, with these
labels. -/
def relabelledRelease (labels : JsonMap) : List CatalogOp := [
  .command (.put podKey (podBody [("finalizers", .arr [.str "example/hold"]),
    ("labels", .obj [("app", .str "web")])]) none) .v1 1 1,
  .command (.delete podKey none (some "2026-01-01T00:00:00Z")) .v1 1 2,
  .command (.put podKey (podBody [("deletionTimestamp", .str "2026-01-01T00:00:00Z"),
    ("labels", .obj labels)]) none) .v1 1 3]

theorem projectedView_exact_kept :
    let ops := relabelledRelease [("app", .str "web"), ("tier", .str "front")]
    ∃ past chs, Logged.commitPoint atomicEnv 8 ops 1 = some past ∧
      (Logged.after atomicEnv 8 ops).cat.history.since 1 = .ok chs ∧
      View.Leads webSelected (View.of webSelected (Logged.after atomicEnv 8 ops).cat.resources)
        (View.of webSelected past.cat.resources) chs :=
  projectedView_exact atomicEnv 8 webSelected _ (by decide) 1 (by decide) (by decide)

/-- The put that clears the finalizer also takes the label away. No event tells the view that the
pod is gone. -/
theorem released_stays_in_view :
    let ops := relabelledRelease []
    ∃ past chs, Logged.commitPoint atomicEnv 8 ops 2 = some past ∧
      (Logged.after atomicEnv 8 ops).cat.history.since 2 = .ok chs ∧
      (View.of webSelected past.cat.resources podKey).isSome = true ∧
      chs.map (project · webSelected) = [none] ∧
      View.of webSelected (Logged.after atomicEnv 8 ops).cat.resources podKey = none :=
  ⟨_, _, rfl, rfl, by decide, by decide, by decide⟩

end Engenho
