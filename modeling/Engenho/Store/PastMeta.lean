import Engenho.Store.Past

/-!
# The metadata of the past

`stateAt` gives each entry of the past version metadata and says how good they are. What it calls
exact is what the store held; where only the floor is known, the create revision is true and the
last modification is no later than the floor (`stateAt_meta`). Unlike the values, this does not
depend on the release branch: a recorded release has the metadata of the live entry.
-/

namespace Engenho
open List Option Stamped Logged

/-- The create revision of the entry at a key. -/
def bornAt (res : Resources) (key : ResourceKey) : Option Nat :=
  (res.get key).map (·.2.createRevision)

/-- The create revision of the entry that the change replaced or removed. -/
def Change.createdBefore (ch : Change) : Option Nat :=
  ch.prior.map fun _ => ch.versionMeta.createRevision

variable {rev : Nat} {res : Resources} {log chs : List Change} {ch : Change} {s : Logged}
  {key : ResourceKey} {v : Json} {m : VersionMeta}

theorem KeyWrite.createdBefore (h : KeyWrite rev res ch) :
    ch.createdBefore = bornAt res ch.key := by
  cases h with
  | @put key => cases hl : res.get key <;> simp [Change.createdBefore, bornAt, hl]; rfl
  | delete hlive | release hlive => simp [Change.createdBefore, bornAt, hlive]

/-- The newest change of a live key wrote its metadata. -/
def LastWrite (res : Resources) (log : List Change) : Prop :=
  ∀ key v m, res.get key = some (v, m) →
    ∃ ch, log.reverse.find? (fun ch => ch.key = key) = some ch ∧
    ch.versionMeta = m ∧ ch.revision = m.modRevision

theorem LastWrite.write (h : LastWrite res log) (hw : KeyWrite rev res ch) :
    LastWrite (ch.applyTo res) (log ++ [ch]) := by
  intro key v m hk
  rw [reverse_append, reverse_singleton, singleton_append]
  by_cases hne : key = ch.key
  · refine ⟨ch, find?_cons_of_pos (by simp [hne]), ?_⟩
    cases hw with
    | delete | release => simp [Change.applyTo, hne] at hk
    | @put k =>
      rw [Change.applyTo, hne, OrdMap.get_insert_self] at hk
      cases hk
      cases res.get k <;> exact ⟨rfl, rfl⟩
  · rw [Change.get_applyTo_ne _ _ hne] at hk
    rw [find?_cons_of_neg (by simpa [eq_comm] using hne)]
    exact h key v m hk

/-- The log since `s`: its changes are newer, the first one of each key tells when the entry of `s`
was created, and a key without one has the entry of `s`. -/
structure Unwound (s : Logged) (res : Resources) (log chs : List Change) : Prop where
  log : log = s.log ++ chs
  newer : ∀ ch ∈ chs, s.cat.revision < ch.revision
  created : UndoLog.PriorsTrue Change.key Change.createdBefore (bornAt s.cat.resources) chs
  kept : ∀ k, chs.find? (fun ch => ch.key = k) = none → res.get k = s.cat.resources.get k

theorem Unwound.write (h : Unwound s res log chs) (hlt : s.cat.revision < rev)
    (hw : KeyWrite rev res ch) :
    Unwound s (ch.applyTo res) (log ++ [ch]) (chs ++ [ch]) where
  log := by rw [h.log, append_assoc]
  newer := forall_mem_append.mpr ⟨h.newer, by simpa [hw.revision] using hlt⟩
  created := by
    refine h.created.append (t := bornAt res) (fun k e he => ?_) fun k hk => ?_
    · cases mem_singleton.mp (mem_of_find?_eq_some he)
      rw [hw.createdBefore, show ch.key = k by simpa using List.find?_some he]
    · rw [bornAt, h.kept k hk, bornAt]
  kept k hk := by
    rw [find?_append, or_eq_none_iff] at hk
    rw [Change.get_applyTo_ne _ _ (by simpa [eq_comm] using hk.2), h.kept k hk.1]

/-- What the retained changes up to `s` know of a live entry. -/
theorem LastWrite.retained (h : LastWrite s.cat.resources s.log) (hs : s.cat.history.Backs s.log)
    (floor : Nat) (hlive : s.cat.resources.get key = some (v, m)) :
    match (above Change.revision floor s.log).reverse.find? (fun ch => ch.key = key) with
    | some ch => ch.versionMeta = m
    | none => m.modRevision ≤ floor := by
  obtain ⟨ch, hlast, hmeta, hrev⟩ := h key v m hlive
  rw [← hs.ordered.upTo_append_above (r := floor), reverse_append, find?_append] at hlast
  cases hf : (above Change.revision floor s.log).reverse.find? fun ch => ch.key = key with
  | some ch' =>
    rw [hf] at hlast
    cases hlast
    exact hmeta
  | none =>
    rw [hf, none_or] at hlast
    have hmem := mem_reverse.mp (mem_of_find?_eq_some hlast)
    simp only [upTo, mem_filter, decide_eq_true_eq] at hmem
    exact hrev ▸ hmem.2

/-- Before the retained changes are looked at, an entry has its own metadata or those of the
floor. -/
theorem Unwound.first (h : Unwound s res log chs) {floor : Nat} {e : HistoricalEntry}
    (he : Option.map (.ofAsOf floor) (match chs.find? (fun ch : Change => ch.key = key) with
      | some ch => ch.prior.map fun v => AsOf.undone v ch
      | none => (res.get key).map fun e => .live e.1 e.2) = some e) :
    ∃ v m, s.cat.resources.get key = some (v, m) ∧ (e.fidelity = .exact ∧ e.versionMeta = m ∨
      e.fidelity = .modRevisionFloor ∧ e.versionMeta.createRevision = m.createRevision ∧
        e.versionMeta.modRevision = floor) := by
  obtain ⟨asOf, hasOf, rfl⟩ := map_eq_some_iff.mp he
  cases hf : chs.find? fun ch => ch.key = key with
  | none =>
    rw [hf] at hasOf
    obtain ⟨⟨v, m⟩, hlive, rfl⟩ := map_eq_some_iff.mp hasOf
    exact ⟨v, m, (h.kept key hf).symm.trans hlive, .inl ⟨rfl, rfl⟩⟩
  | some ch =>
    rw [hf] at hasOf
    obtain ⟨v, hprior, rfl⟩ := map_eq_some_iff.mp hasOf
    have hcreated := h.created key ch hf
    rw [Change.createdBefore, hprior] at hcreated
    obtain ⟨⟨v, m⟩, hlive, hm⟩ := map_eq_some_iff.mp hcreated.symm
    exact ⟨v, m, hlive, .inr ⟨rfl, hm.symm, rfl⟩⟩

/-- An entry of the state at a retained revision is one that the store held when it was committed.
Metadata called exact are those it had; else the create revision is, and the last modification was
not after the one reported. A key that was modified above the floor is exact. -/
theorem stateAt_meta (env : Env) (capacity : Nat) (ops : List CatalogOp) (r : Nat)
    (hfloor : (after env capacity ops).cat.compactedRevision ≤ r)
    (hhead : r ≤ (after env capacity ops).cat.revision) :
    ∃ past state, commitPoint env capacity ops r = some past ∧
      (after env capacity ops).cat.stateAt r = .ok state ∧
      ∀ key e, state.get key = some e → ∃ v m, past.cat.resources.get key = some (v, m) ∧
        (e.fidelity = .exact → e.versionMeta = m) ∧
        (e.fidelity = .modRevisionFloor → e.versionMeta.createRevision = m.createRevision ∧
          m.modRevision ≤ e.versionMeta.modRevision) ∧
        ((∃ ch ∈ (after env capacity ops).log, ch.key = key ∧
          (after env capacity ops).cat.compactedRevision < ch.revision ∧ ch.revision ≤ r) →
          e.fidelity = .exact) := by
  obtain ⟨pre, post, rfl, hcp, rfl⟩ := commitPoint_spec capacity ops hhead
  have hs := exec_backs env capacity pre
  have ht := exec_backs env capacity (pre ++ post)
  have hany : ∀ s ops, Run.Along (step env) (fun t op => ∀ ch ∈ (t.cat.perform env op).2,
      True) s ops :=
    Run.along_of_forall fun _ _ _ _ => trivial
  have hlast : LastWrite (after env capacity pre).cat.resources (after env capacity pre).log :=
    writes_inv (I := fun _ => LastWrite) id (fun _ _ h => h.write) (fun _ _ _ hk => by cases hk)
      (hany _ pre)
  obtain ⟨chs, h⟩ : ∃ chs, Unwound (after env capacity pre)
    (after env capacity (pre ++ post)).cat.resources
      (after env capacity (pre ++ post)).log chs := by
    rw [show Logged.after env capacity (pre ++ post) = _ from Run.exec_append ..]
    exact writes_inv (I := fun _ res log => ∃ chs, Unwound _ res log chs) id
      (fun hlt _ h hw => h.elim fun _ h => ⟨_, h.write hlt hw⟩) ⟨[], by simp, by simp,
        fun _ _ h => (by cases h), fun _ _ => rfl⟩ (hany _ post)
  generalize after env capacity (pre ++ post) = t at *
  generalize after env capacity pre = s at *
  have hthrough : upTo Change.revision s.cat.revision t.cat.history.ring =
      above Change.revision t.cat.history.floor s.log := by
    rw [ht.ring, h.log, above_append, upTo_append, upTo_eq_self, upTo_eq_nil, append_nil]
    · exact fun ch hch => h.newer ch (mem_of_mem_filter hch)
    · exact fun ch hch => hs.le_head ch (mem_of_mem_filter hch)
  have hafter : above Change.revision s.cat.revision t.log = chs := h.log ▸ hs.above_newer h.newer
  refine ⟨s, _, hcp, by rw [ResourceCatalog.stateAt, ht.split hfloor, hthrough, hafter]; rfl,
    fun key e he => ?_⟩
  rw [correctMeta_get, OrdMap.get_mapVal, rewind_get t.cat.resources.sorted, if_pos rfl] at he
  obtain ⟨e, hfirst, rfl⟩ := map_eq_some_iff.mp he
  obtain ⟨v, m, hlive, hfirst⟩ := h.first hfirst
  refine ⟨v, m, hlive, ?_⟩
  have hretained := hlast.retained hs t.cat.history.floor hlive
  cases hf : (above Change.revision t.cat.history.floor s.log).reverse.find? fun ch =>
    ch.key = key with
  | some ch =>
    rw [hf] at hretained
    exact ⟨fun _ => hretained, by simp, fun _ => rfl⟩
  | none =>
    rw [hf] at hretained
    dsimp only at hretained ⊢
    obtain ⟨hexact, hmeta⟩ | ⟨hfid, hcreate, hmod⟩ := hfirst
    · rw [hexact]
      exact ⟨fun _ => hmeta, by simp, fun _ => rfl⟩
    · rw [hfid]
      refine ⟨by simp, fun _ => ⟨hcreate, hretained.trans_eq hmod.symm⟩, ?_⟩
      rintro ⟨ch, hch, hk, hlo, hhi⟩
      rw [h.log, mem_append] at hch
      have hold := hch.resolve_right fun hnew => (h.newer ch hnew).not_ge hhi
      exact absurd hk (by
        simpa using find?_eq_none.mp hf ch
          (mem_reverse.mpr (mem_filter.mpr ⟨hold, decide_eq_true hlo⟩)))

def twicePut : List CatalogOp :=
  [.command (.put podKey (podBody []) none) .v1 1 1,
    .command (.put podKey (podBody [("labels", .obj [])]) none) .v1 1 2]

/-- The state at the first of two puts gives the pod the metadata of that put, as the store held
them. -/
theorem stateAt_meta_first : ∃ past state e, commitPoint atomicEnv 4 twicePut 1 = some past ∧
    (after atomicEnv 4 twicePut).cat.stateAt 1 = .ok state ∧ state.get podKey = some e ∧
    e.fidelity = .exact ∧ e.versionMeta = .createdAt 1 ∧
    (past.cat.resources.get podKey).map Prod.snd = some e.versionMeta := by
  obtain ⟨past, state, hpast, hstate, h⟩ :=
    stateAt_meta atomicEnv 4 twicePut 1 (by decide) (by decide)
  have hread := hstate
  cases hstate
  obtain ⟨v, m, hlive, hexact, -⟩ := h podKey _ rfl
  exact ⟨past, _, _, hpast, hread, rfl, rfl, rfl, by rw [hlive, hexact rfl]; rfl⟩

end Engenho
