import Mathlib.Data.List.Infix
import Engenho.Store.Read

/-!
# Historical reads are exact where no release is recorded

A rewind restores the past as long as the first change of each key in the window carries the true
prior. Every mutation records it but one: `finalizerReleaseRemoval` records the object that the
write *would have stored* (`KeyWrite.release`). A later change of the same key in one transaction
does no harm, since its prior is overwritten by the undo of the earlier one.

* `CatalogOp.releases`: the operation, as given and from the state before it, takes the release
  branch on a key it has not changed before.
* `readsExactly_of_releaseFree`: in a run without such an operation every read at every retained
  revision is exactly the map that was live when that revision was committed.
* `release_misreads`: one release, and the read before it is wrong.
-/

namespace Engenho
open Assoc HistoricalEntry List Option Stamped

/-! ## Operations that release -/

/-- The put is over a live entry, meets its precondition, and leaves the object Terminating without
finalizers. -/
def putReleases (res : Resources) (key : ResourceKey) (value : ResourceValue)
    (expected : Option Nat) : Bool :=
  (res.get key).isSome && checkPrecondition expected ((res.get key).map Prod.snd) &&
    finalizersReleased value

section
variable (env : Env)

/-- The same of a patch, on the object the patch makes of the live one. -/
def patchReleases (res : Resources) (key : ResourceKey) (patch : ResourceValue) (type : PatchType)
    (am : Option ApplyMeta) (expected : Option Nat) : Bool :=
  match res.get key with
  | none => false
  | some (v, m) =>
    checkPrecondition expected (some m) &&
      if type = .apply then
        match am with
        | none => false
        | some am =>
          match applySsa env (Gvk.ofKey key) (some v) patch am.manager am.force am.time with
          | .ok out => finalizersReleased out.merged
          | .error _ => false
      else
        match PatchBody.fromRaw env type patch with
        | .error _ => false
        | .ok body =>
          match applyPatchBody env (Gvk.ofKey key) type v body with
          | .ok merged => finalizersReleased merged
          | .error _ => false

/-- Some put of the branch releases a key that no operation before it changed. -/
def txnReleases (rev : Nat) (res : Resources) (touched : List ResourceKey) : List TxnOp → Bool
  | [] => false
  | op :: ops =>
    (match op with
      | .put key value => key ∉ touched && putReleases res key value none
      | .delete _ _ => false) ||
    txnReleases rev (applyTxnOp env rev res op).1
      ((applyTxnOp env rev res op).2.change.toList.map Change.key ++ touched) ops

def CatalogOp.releases (c : ResourceCatalog) : CatalogOp → Bool
  | .command (.put key value expected) _ _ _ => putReleases c.resources key value expected
  | .command (.patch key patch type am expected) _ _ _ =>
    patchReleases env c.resources key patch type am expected
  | .command (.delete _ _ _) _ _ _ => false
  | .command (.txn compares success failure) _ _ _ =>
    txnReleases env (c.revision + 1) c.resources []
      (if compares.all (evalCompare c.resources) then success else failure)
  | .compact _ => false

end

/-! ## Priors of the changes -/

variable {ch : Change} {res : Resources} {chs : List Change} {k : ResourceKey} {s : Logged}
variable {rev r : Nat} {key : ResourceKey} {op : CatalogOp} {t : Logged}

theorem KeyWrite.prior_put (h : KeyWrite rev res ch) (hk : ch.kind = .put) :
    ch.prior = valuesOf res ch.key := by
  cases h with
  | put => rfl
  | delete | release => cases hk

section
variable (env : Env) {res : Resources} {key : ResourceKey} {expected : Option Nat}
  {on : OnIdentical} {rev : Nat} {ch : Change}

theorem putReleases_of_delete {value : ResourceValue}
    (h : (applyPut env res key value expected on rev).2.change = some ch) (hk : ch.kind = .delete) :
    putReleases res key value expected = true := by
  obtain ⟨post, himage, hpre, ⟨rfl, -⟩ | ⟨v, m, rfl, hlive, hrel⟩⟩ :=
    (applyPut_end env res key value expected on rev).of_change h
  · cases hk
  · cases himage
    rw [putImage, finalizersReleased_stampRevision, finalizersReleased_stampIdentity] at hrel
    rw [putReleases, hpre, hrel, hlive]
    rfl

theorem patchReleases_of_delete {patch : ResourceValue} {type : PatchType} {am : Option ApplyMeta}
    (h : (applyPatch env res key patch type am expected on rev).2.change = some ch)
    (hk : ch.kind = .delete) : patchReleases env res key patch type am expected = true := by
  obtain ⟨post, himage, hpre, ⟨rfl, -⟩ | ⟨v, m, rfl, hlive, hrel⟩⟩ :=
    (applyPatch_end env res key patch type am expected on rev).of_change h
  · cases hk
  rw [hlive, map_some] at hpre
  simp only [ResourceCommand.image] at himage
  split at himage
  · rename_i htype
    obtain ⟨am, rfl, himage⟩ := bind_eq_some_iff.mp himage
    obtain ⟨out, hout, candidate, rfl, rfl⟩ := applyImage_eq_some himage
    rw [finalizersReleased_stampRevision, finalizersReleased_stampIdentity] at hrel
    rw [hlive, map_some] at hout
    simp [patchReleases, hlive, hpre, htype, hout, hrel]
  · rename_i htype
    obtain ⟨v', m', body, merged, hlive', hbody, hmerged, rfl⟩ := patchImage_eq_some himage
    cases hlive.symm.trans hlive'
    rw [finalizersReleased_stampRevision] at hrel
    simp [patchReleases, hlive, hpre, htype, hbody, hmerged, hrel]

end

theorem applyDelete_prior {expected : Option Nat} {ts : Option String}
    (h : (applyDelete res key expected ts rev).2.change = some ch) :
    ch.prior = valuesOf res ch.key := by
  have hend := applyDelete_end res key expected ts rev
  generalize applyDelete res key expected ts rev = out at hend h
  cases hend with
  | same => cases h
  | removed live m hlive =>
    cases h
    simp [valuesOf, hlive]
  | stamped live m stamp hlive =>
    cases h
    simp [valuesOf, hlive]

/-- The changes of a mutation against the map before it. -/
abbrev PriorsTrue (res : Resources) (chs : List Change) : Prop :=
  UndoLog.PriorsTrue Change.key Change.prior (valuesOf res) chs

theorem priorsTrue_singleton (h : ch.prior = valuesOf res ch.key) : PriorsTrue res [ch] := by
  intro k e he
  have hmem := mem_of_find?_eq_some he
  have hkey : e.key = k := by simpa using List.find?_some he
  rw [mem_singleton] at hmem
  subst hmem
  rw [h, hkey]

/-- A list of changes leaves the keys it does not name alone. -/
theorem get_applyChanges_of_find (h : chs.find? (fun ch => ch.key = k) = none) :
    (applyChanges res chs).get k = res.get k := by
  induction chs generalizing res with
  | nil => rfl
  | cons ch chs ih =>
    rw [List.find?_cons] at h
    split at h
    · cases h
    · rename_i hne
      rw [applyChanges_cons, ih h, Change.get_applyTo_ne]
      simpa [eq_comm] using hne

theorem applyTxnOps_priors (env : Env) {touched : List ResourceKey} {ops : List TxnOp}
    (h : txnReleases env rev res touched ops = false) (hk : k ∉ touched)
    (hch : (applyTxnOps env rev res ops).2.find? (fun ch => ch.key = k) = some ch) :
    ch.prior = valuesOf res k := by
  induction ops generalizing res touched with
  | nil => cases hch
  | cons op ops ih =>
    simp only [txnReleases, Bool.or_eq_false_iff] at h
    obtain ⟨hop, hops⟩ := h
    obtain ⟨-, ⟨hn, hres⟩ | ⟨ch₀, hs, hkey, hw, hres⟩⟩ := applyTxnOp_write env rev res op
    · simp only [applyTxnOps, hn, hres] at hch
      rw [hn, hres] at hops
      exact ih hops hk hch
    simp only [applyTxnOps, hs, hres, toList_some, singleton_append, List.find?_cons] at hch
    rw [hs, hres] at hops
    split at hch
    · -- the first change of `k`: its operation does not release, since `k` is untouched
      rename_i hk₀
      cases hch
      have hk₀ : ch.key = k := by simpa using hk₀
      subst hk₀
      cases op with
      | put key value =>
        cases hkind : ch.kind with
        | put => exact hw.prior_put hkind
        | delete =>
          have hr := putReleases_of_delete env hs hkind
          have hkey : ch.key = key := hkey
          rw [hkey] at hk
          simp [hk, hr] at hop
      | delete key ts => exact applyDelete_prior hs
    · rename_i hk₀
      have hk₀ : k ≠ ch₀.key := by simpa [eq_comm] using hk₀
      have := ih hops (by simp [hk, hk₀]) hch
      rw [this, valuesOf, valuesOf, Change.get_applyTo_ne _ _ hk₀]

/-- An operation that takes no release branch records true priors. -/
theorem perform_priors (env : Env) {c : ResourceCatalog} (h : op.releases env c = false) :
    PriorsTrue c.resources (c.perform env op).2 := by
  have single : ∀ {key : ResourceKey} {out : Resources × ApplyOutcome},
      OneWrite (c.revision + 1) c.resources key out →
      (∀ ch, out.2.change = some ch → ch.kind = .put ∨ ch.prior = valuesOf c.resources ch.key) →
      PriorsTrue c.resources out.2.changes := by
    intro key out hone hp
    obtain ⟨hn, -⟩ | ⟨ch, hs, hch, -, hw, -⟩ := hone.changes
    · rw [hn]
      intro k e he; cases he
    · rw [hch]
      refine priorsTrue_singleton ?_
      rcases hp ch hs with hk | hk
      · exact hw.prior_put hk
      · exact hk
  have kinds : ∀ ch : Change, ¬ ch.kind = .delete → ch.kind = .put := fun ch h => by
    cases hk : ch.kind with
    | put => rfl
    | delete => exact absurd hk h
  cases op with
  | compact target => intro k e he; cases he
  | command cmd sem term index =>
    simp only [ResourceCatalog.perform, ResourceCatalog.applyUnder]
    split
    · intro k e he; cases he
    simp only [ResourceCatalog.dispatch]
    cases cmd with
    | put key value expected =>
      refine single (applyPut_write env ..) fun ch hch => .inl (kinds ch fun hk => ?_)
      have : putReleases c.resources key value expected = true := putReleases_of_delete env hch hk
      simp [CatalogOp.releases, this] at h
    | patch key patch type am expected =>
      refine single (applyPatch_write env ..) fun ch hch => .inl (kinds ch fun hk => ?_)
      have : patchReleases env c.resources key patch type am expected = true :=
        patchReleases_of_delete env hch hk
      simp [CatalogOp.releases, this] at h
    | delete key expected ts =>
      exact single (applyDelete_write ..) fun ch hch => .inr (applyDelete_prior hch)
    | txn compares success failure =>
      intro k e he
      simp only [(applyTxn_eq env c.resources compares success failure _).2.1] at he
      exact applyTxnOps_priors env h (not_mem_nil) he

/-! ## From one state of a run to a later one -/

namespace Logged
variable {env : Env}

/-- `t` is `s` after the changes `chs`, all of them newer and with true first priors. -/
structure Since (s t : Logged) (chs : List Change) : Prop where
  log : t.log = s.log ++ chs
  resources : t.cat.resources = applyChanges s.cat.resources chs
  priors : PriorsTrue s.cat.resources chs
  newer : ∀ ch ∈ chs, s.cat.revision < ch.revision
  revision : s.cat.revision ≤ t.cat.revision

theorem Since.refl (s : Logged) : Since s s [] where
  log := (append_nil _).symm
  resources := rfl
  priors := fun _ _ he => nomatch he
  newer := by simp
  revision := le_rfl

theorem Since.values_of_find (h : Since s t chs) (hk : chs.find? (fun ch => ch.key = k) = none) :
    valuesOf t.cat.resources k = valuesOf s.cat.resources k := by
  rw [valuesOf, h.resources, get_applyChanges_of_find hk, valuesOf]

theorem Since.step (h : Since s t chs) (hop : op.releases env t.cat = false) :
    Since s (t.step env op) (chs ++ (t.cat.perform env op).2) := by
  obtain ⟨hw, hres⟩ := perform_writes env t.cat op
  refine ⟨?_, ?_, ?_, fun ch hch => ?_, h.revision.trans (step_head t op)⟩
  · simp only [Logged.step]
    rw [h.log, append_assoc]
  · simp only [Logged.step]
    rw [hres, h.resources, applyChanges, applyChanges, applyChanges, foldl_append]
  · exact h.priors.append (perform_priors env hop) fun k hk => h.values_of_find hk
  · rcases mem_append.mp hch with hch | hch
    · exact h.newer ch hch
    · have := hw.revision ch hch
      have := h.revision
      omega

theorem exec_since {ops : List CatalogOp}
    (h : Run.Along (Logged.step env) (fun s op => op.releases env s.cat = false) s ops) :
    ∃ chs, Since s (Run.exec (Logged.step env) s ops) chs :=
  h.exec_inv (I := fun t => ∃ chs, Since s t chs) (fun _ _ hop ⟨_, hs⟩ => ⟨_, hs.step hop⟩)
    ⟨[], .refl s⟩

theorem exec_unreadable (env : Env) (capacity : Nat) (ops : List CatalogOp) :
    (after env capacity ops).cat.unreadable = .empty :=
  Run.exec_inv (I := fun s : Logged => s.cat.unreadable = .empty)
    (fun s op h => by
      obtain ⟨_, _, he⟩ | ⟨_, _, _, _, -, he⟩ | ⟨_, he⟩ := perform_cases env s.cat op <;>
        rw [Logged.step, he] <;> exact h) rfl ops

/-- The first state of the run with revision `r`: where `r` was committed. -/
def commitPoint (env : Env) (capacity : Nat) (ops : List CatalogOp) (r : Nat) : Option Logged :=
  (ops.inits.map (after env capacity)).find? fun s => s.cat.revision = r

variable (capacity : Nat)

theorem exists_split_at (ops : List CatalogOp) (hr : r ≤ (after env capacity ops).cat.revision) :
    ∃ pre post, ops = pre ++ post ∧ (after env capacity pre).cat.revision = r := by
  induction ops using List.reverseRecOn with
  | nil => exact ⟨[], [], rfl, (Nat.le_zero.mp hr).symm⟩
  | append_singleton ops op ih =>
    rcases Nat.lt_or_ge (after env capacity ops).cat.revision r with hlt | hge
    · refine ⟨ops ++ [op], [], (append_nil _).symm, ?_⟩
      have hstep : after env capacity (ops ++ [op]) = (after env capacity ops).step env op := by
        simp [after]
      rw [hstep] at hr ⊢
      have := perform_revision env (after env capacity ops).cat op
      simp only [Logged.step] at hr ⊢
      omega
    · obtain ⟨pre, post, rfl, hpre⟩ := ih hge
      exact ⟨pre, post ++ [op], by simp, hpre⟩

/-- Every revision up to the head was committed by some prefix of the run. -/
theorem commitPoint_spec (ops : List CatalogOp) (hr : r ≤ (after env capacity ops).cat.revision) :
    ∃ pre post, ops = pre ++ post ∧ commitPoint env capacity ops r = some (after env capacity pre) ∧
      (after env capacity pre).cat.revision = r := by
  cases hf : commitPoint env capacity ops r with
  | none =>
    obtain ⟨pre, post, rfl, hpre⟩ := exists_split_at capacity ops hr
    have := List.find?_eq_none.mp hf (after env capacity pre)
      (mem_map_of_mem ((mem_inits _ _).mpr (prefix_append pre post)))
    simp [hpre] at this
  | some s =>
    obtain ⟨pre, hpre, rfl⟩ := mem_map.mp (mem_of_find?_eq_some hf)
    obtain ⟨post, rfl⟩ := (mem_inits _ _).mp hpre
    exact ⟨pre, post, rfl, rfl, by simpa using List.find?_some hf⟩

end Logged

/-! ## Exact reads -/

/-- Every read of `c` at `r` is exactly the map `past`: the same keys, the same values. -/
structure ReadsExactly (c : ResourceCatalog) (r : Nat) (past : Resources) : Prop where
  stateAt : ∃ state, c.stateAt r = .ok state ∧
    ∀ key, (state.get key).map HistoricalEntry.value = valuesOf past key
  readPage : ∀ scope, ∃ page, c.readPage scope none 0 (.exact r) = .ok page ∧
    page.items = (past.entries.filter fun e => scope.contains e.1).map fun e => (e.1, e.2.1)
  readOne : ∀ key, c.readOne key (.exact r) = .ok (valuesOf past key)

/-- Undoing the changes since `s` restores its values, whatever the base holds elsewhere. -/
theorem Logged.Since.rewind (h : Logged.Since s t chs) {base : ResourceKey → Option ResourceValue}
    (hbase : base key = valuesOf t.cat.resources key) :
    UndoLog.rewind Change.key Change.prior base chs key = valuesOf s.cat.resources key := by
  rw [UndoLog.rewind_apply]
  cases hf : chs.find? (fun ch => ch.key = key) with
  | some ch => exact h.priors key ch hf
  | none => rw [hbase]; exact h.values_of_find hf

/-- The entries of a scope, by key order and lookups. -/
theorem scope_items_eq {l : List (ResourceKey × AsOf)} (hl : Sorted l) {past : Resources}
    {scope : ListScope}
    (h : ∀ key, (l.lookup key).map AsOf.value = if scope.contains key then valuesOf past
      key else none) :
    l.map (fun e => (e.1, e.2.value)) =
      (past.entries.filter fun e => scope.contains e.1).map fun e => (e.1, e.2.1) := by
  refine Sorted.ext (hl.map _) ((past.sorted.filter _).map _) fun key => ?_
  rw [lookup_map, h, lookup_map (fun x : ResourceValue × VersionMeta => x.1),
    lookup_filter scope.contains]
  split <;> rfl

section
variable {s t : Logged} {chs : List Change}

/-- The window of changes that a read at the revision of `s` undoes. -/
theorem Logged.Since.above (h : Logged.Since s t chs) (hs : s.cat.history.Backs s.log) :
    Stamped.above Change.revision s.cat.revision t.log = chs := by
  rw [h.log]
  exact hs.above_newer h.newer

theorem Logged.Since.stateAt (h : Logged.Since s t chs) (hs : s.cat.history.Backs s.log)
    (ht : t.cat.history.Backs t.log) (hf : t.cat.history.floor ≤ s.cat.revision) :
    ∃ state, t.cat.stateAt s.cat.revision = .ok state ∧
      ∀ key, (state.get key).map value = valuesOf s.cat.resources key := by
  have hval : ∀ floor asOf, (ofAsOf floor asOf).value = asOf.value := by
    intro floor asOf; cases asOf <;> rfl
  rw [ResourceCatalog.stateAt, ht.split hf, h.above hs]
  refine ⟨_, rfl, fun key => ?_⟩
  rw [correctMeta_value, OrdMap.get_mapVal, Option.map_map]
  have : value ∘ ofAsOf t.cat.history.floor = AsOf.value := funext fun asOf => hval _ asOf
  rw [this, rewind_value t.cat.resources.sorted]
  exact h.rewind rfl

/-- At the head there is nothing to undo. -/
theorem Logged.Since.resources_of_head (h : Logged.Since s t chs) (ht : t.cat.history.Backs t.log)
    (hr : s.cat.revision = t.cat.revision) : t.cat.resources = s.cat.resources := by
  have hnil : chs = [] := by
    refine eq_nil_iff_forall_not_mem.mpr fun ch hch => ?_
    have h₁ := h.newer ch hch
    have h₂ : ch.revision ≤ t.cat.revision := ht.le_head ch (h.log ▸ mem_append_right _ hch)
    omega
  rw [h.resources, hnil]
  rfl

theorem judge_exact {head floor : Nat} (hf : floor ≤ r) (hr : r ≤ head) :
    (ReadConsistency.exact r).judge head floor = .ok (if r = head then .head else .past r) := by
  simp only [ReadConsistency.judge]
  rw [if_neg (not_lt.mpr hr), if_neg (not_lt.mpr hf)]
  by_cases h : r = head
  · simp [h]
  · rw [if_pos (lt_of_le_of_ne hr h), if_neg h]

section
variable (h : Logged.Since s t chs) (hs : s.cat.history.Backs s.log)
  (ht : t.cat.history.Backs t.log)
  (hu : t.cat.unreadable = .empty) (hf : t.cat.history.floor ≤ s.cat.revision)
include h hs ht hu hf

theorem Logged.Since.readOne (key : ResourceKey) :
    t.cat.readOne key (.exact s.cat.revision) = .ok (valuesOf s.cat.resources key) := by
  have hfault : t.cat.secretFault key = none := by rw [ResourceCatalog.secretFault, hu]; rfl
  have hpoint : t.cat.readPoint (.exact s.cat.revision) = _ := judge_exact hf h.revision
  simp only [ResourceCatalog.readOne, hfault]
  rw [hpoint]
  split
  · rename_i hhead
    have := h.resources_of_head ht hhead
    rw [ResourceCatalog.get, this]
    rfl
  · simp only [bind, Except.bind, pure, Except.pure, ResourceCatalog.sinceRead,
      ht.since hf, h.above hs]
    have hsorted : Sorted ((t.cat.resources.get key).map fun e => (key, e)).toList := by
      cases t.cat.resources.get key <;> simp [Sorted]
    rw [rewind_value hsorted, if_pos (by simp), h.rewind]
    rw [valuesOf]
    cases t.cat.resources.get key <;> simp

theorem Logged.Since.readPage (scope : ListScope) :
    ∃ page, t.cat.readPage scope none 0 (.exact s.cat.revision) = .ok page ∧ page.items =
        (s.cat.resources.entries.filter fun e => scope.contains e.1).map fun e => (e.1, e.2.1) := by
  have hrange : ∀ {α : Type} (m : OrdMap ResourceKey α),
      scope.range m none = m.entries.filter fun e => scope.contains e.1 := fun m => by
    rw [ListScope.range_eq_filter]; simp
  have hnone : (scope.range t.cat.unreadable none).head? = none := by rw [hu]; rfl
  have hpoint : t.cat.readPoint (.exact s.cat.revision) = _ := judge_exact hf h.revision
  simp only [ResourceCatalog.readPage, hnone]
  rw [hpoint]
  split
  · rename_i hhead
    refine ⟨_, rfl, ?_⟩
    simp only [ResourceCatalog.listPageAtRevision, pageOf, ↓reduceIte]
    rw [h.resources_of_head ht hhead, hrange]
  · simp only [bind, Except.bind, ResourceCatalog.sinceRead, ht.since hf, h.above hs]
    refine ⟨_, rfl, ?_⟩
    simp only [all_none, filter_true]
    refine scope_items_eq (OrdMap.sorted _) fun key => ?_
    have hsorted : Sorted (scope.range t.cat.resources none) := by
      rw [hrange]; exact t.cat.resources.sorted.filter _
    rw [← OrdMap.get, rewind_value hsorted, hrange, lookup_filter scope.contains]
    split
    · rename_i hc
      refine h.rewind ?_
      rw [lookup_filter scope.contains, if_pos hc]
      rfl
    · rfl

end
end

/-- In a run whose operations take no release branch on a key they have not changed before, every
read at every retained revision is exactly the map that was live when it was committed. -/
theorem readsExactly_of_releaseFree (env : Env) (capacity : Nat) (ops : List CatalogOp)
    (hops : Run.Along (Logged.step env) (fun s op => op.releases env s.cat = false)
      (Logged.init capacity) ops) (r : Nat)
    (hfloor : (Logged.after env capacity ops).cat.compactedRevision ≤ r)
    (hhead : r ≤ (Logged.after env capacity ops).cat.revision) :
    ∃ past, Logged.commitPoint env capacity ops r = some past ∧
      ReadsExactly (Logged.after env capacity ops).cat r past.cat.resources := by
  obtain ⟨pre, post, rfl, hcp, rfl⟩ := Logged.commitPoint_spec capacity ops hhead
  refine ⟨_, hcp, ?_⟩
  have hpost := (Run.along_append.mp hops).2
  obtain ⟨chs, hsince⟩ := Logged.exec_since hpost
  have hs := Logged.exec_backs env capacity pre
  have ht := Logged.exec_backs env capacity (pre ++ post)
  have hu := Logged.exec_unreadable env capacity (pre ++ post)
  simp only [Logged.after, Run.exec_append] at ht hu hfloor ⊢
  exact ⟨hsince.stateAt hs ht hfloor, hsince.readPage hs ht hu hfloor,
    hsince.readOne hs ht hu hfloor⟩

/-! ## Concrete runs -/

/-- A pod is created, changed, and deleted at once, since nothing holds it. -/
def plainRun : List CatalogOp := [
  .command (.put podKey (podBody []) none) .v1 1 1,
  .command (.patch podKey (.obj [("spec", .obj [("nodeName", .str "a")])]) .merge none none)
    .v1 1 2,
  .command (.delete podKey none (some "2026-01-01T00:00:00Z")) .v1 1 3]

theorem plainRun_readsExactly : ∃ past, Logged.commitPoint atomicEnv 8 plainRun 2 = some past ∧
      ReadsExactly (Logged.after atomicEnv 8 plainRun).cat 2 past.cat.resources :=
  readsExactly_of_releaseFree atomicEnv 8 plainRun (by decide) 2 (by decide) (by decide)

/-- A pod with a finalizer is created and deleted; the next put clears the finalizer. -/
def releaseRun : List CatalogOp := [
  .command (.put podKey (podBody [("finalizers", .arr [.str "example/hold"])]) none) .v1 1 1,
  .command (.delete podKey none (some "2026-01-01T00:00:00Z")) .v1 1 2,
  .command (.put podKey (podBody [("deletionTimestamp", .str "2026-01-01T00:00:00Z")]) none)
    .v1 1 3]

/-- The put that clears the finalizer releases the pod, and the read of the revision before it
answers with the object that put would have stored. -/
theorem release_misreads : (Logged.after atomicEnv 8 releaseRun).cat.compactedRevision ≤ 2 ∧
    2 ≤ (Logged.after atomicEnv 8 releaseRun).cat.revision ∧
    ∀ past, Logged.commitPoint atomicEnv 8 releaseRun 2 = some past →
      ¬ ReadsExactly (Logged.after atomicEnv 8 releaseRun).cat 2 past.cat.resources := by
  refine ⟨by decide, by decide, fun past hpast h => ?_⟩
  have hread := h.readOne podKey
  cases hpast
  revert hread
  decide

end Engenho
