import Engenho.Store.Runs

/-!
# Version metadata tells the truth

The log of a run says, for every key, which changes belong to the object that is live now and which
to objects that are gone (`livesOf`). Against that, `Truthful` states what the live entry's version
metadata and its stamped fields must say:

* `version` counts the puts since the create, and `createRevision`, `modRevision` are the revisions
  of the first and the last of them;
* `resourceVersion` is `modRevision` in decimal;
* `generation` is one more than the number of those puts that changed `spec`;
* an object created after another one was deleted has a `createRevision` no smaller than any
  `modRevision` of the old one. It is equal only inside one transaction, which commits all its
  changes at one revision.

One step keeps it (`VersionsOk.write`), so every run whose stored objects have object metadata does
(`versionsTruthful`).
-/

namespace Engenho
open VersionMeta ResourceCatalog List OrdMap

/-- The changes of one key: `past` belongs to objects that are gone, `life` holds the puts of the
live one. -/
structure Lives where
  past : List Change
  life : List Change

def Lives.add (l : Lives) (ch : Change) : Lives :=
  match ch.kind with
  | .put => ⟨l.past, l.life ++ [ch]⟩
  | .delete => ⟨l.past ++ l.life ++ [ch], []⟩

/-- The lives of the object at a key. -/
def livesOf (log : List Change) (key : ResourceKey) : Lives :=
  (log.filter fun ch => ch.key = key).foldl Lives.add ⟨[], []⟩

/-- How many of the puts after the first stored another `spec` than the one before. -/
def specChanges : List Change → Nat
  | a :: b :: rest => (if specOf a.value = specOf b.value then 0 else 1) + specChanges (b :: rest)
  | _ => 0

/-- The live entry `(v, m)` against the changes of its key. -/
structure Truthful (lives : Lives) (v : Json) (m : VersionMeta) : Prop where
  created : lives.life.head?.map Change.revision = some m.createRevision
  modified : lives.life.getLast?.map Change.revision = some m.modRevision
  value : lives.life.getLast?.map Change.value = some v
  version : m.version = lives.life.length
  le : m.createRevision ≤ m.modRevision
  resourceVersion : metaField "resourceVersion" v = some (.str (toString m.modRevision))
  generation : metaField "generation" v = some (.num (.int (1 + specChanges lives.life)))
  recreated : ∀ ch ∈ lives.past, ch.versionMeta.modRevision ≤ m.createRevision ∧
    (ch.revision ≠ m.createRevision → ch.versionMeta.modRevision < m.createRevision)

/-! ## Lives and counts -/

theorem livesOf_append_same (log : List Change) (ch : Change) :
    livesOf (log ++ [ch]) ch.key = (livesOf log ch.key).add ch := by
  simp [livesOf]

variable {key : ResourceKey} {log : List Change} {res : Resources} {rev : Nat} {m : VersionMeta}

theorem livesOf_append_ne (log : List Change) (ch : Change) (h : key ≠ ch.key) :
    livesOf (log ++ [ch]) key = livesOf log key := by
  have : ¬ ch.key = key := fun he => h he.symm
  simp [livesOf, this]

theorem specChanges_append {l : List Change} {a ch : Change} (h : l.getLast? = some a) :
    specChanges (l ++ [ch]) =
      specChanges l + if specOf a.value = specOf ch.value then 0 else 1 := by
  induction l with
  | nil => cases h
  | cons b l ih =>
    cases l with
    | nil =>
      obtain rfl : b = a := by simpa using h
      simp only [singleton_append, specChanges]
      omega
    | cons c l =>
      have := ih (by rwa [List.getLast?_cons_cons] at h)
      simp only [cons_append, specChanges] at this ⊢
      omega

/-- Everything in `past` and `life` is a change of the log. -/
theorem mem_livesOf {ch : Change} (h : ch ∈ (livesOf log key).past ∨ ch ∈ (livesOf log key).life) :
    ch ∈ log := by
  induction log using List.reverseRecOn with
  | nil => simp [livesOf] at h
  | append_singleton log c ih =>
    by_cases hk : key = c.key
    · subst hk
      rw [livesOf_append_same] at h
      simp only [Lives.add] at h
      have : (ch ∈ (livesOf log c.key).past ∨ ch ∈ (livesOf log c.key).life) ∨ ch = c := by
        cases hc : c.kind <;> simp [hc] at h <;> tauto
      rcases this with h | rfl
      · exact mem_append_left _ (ih h)
      · simp
    · rw [livesOf_append_ne log c hk] at h
      exact mem_append_left _ (ih h)

/-! ## One step -/

/-- The version metadata of every live entry is truthful, and no revision is beyond `rev`. -/
structure VersionsOk (rev : Nat) (res : Resources) (log : List Change) : Prop where
  le_rev : ∀ ch ∈ log, ch.revision ≤ rev ∧ ch.versionMeta.modRevision ≤ ch.revision
  dead : ∀ key, res.get key = none → (livesOf log key).life = []
  live : ∀ key v m, res.get key = some (v, m) → Truthful (livesOf log key) v m

theorem VersionsOk.mono {rev' : Nat} (h : VersionsOk rev res log) (hle : rev ≤ rev') :
    VersionsOk rev' res log :=
  ⟨fun ch hch => ⟨(h.le_rev ch hch).1.trans hle, (h.le_rev ch hch).2⟩, h.dead, h.live⟩

/-- A live entry was last modified by some change of the log. -/
theorem VersionsOk.modRevision_le (h : VersionsOk rev res log) {v : Json}
    (hlive : res.get key = some (v, m)) : m.modRevision ≤ rev := by
  obtain ⟨ch, hlast, hrev⟩ := Option.map_eq_some_iff.mp (h.live key v m hlive).modified
  have hmem : ch ∈ log := mem_livesOf (.inr (mem_of_getLast? hlast))
  have := (h.le_rev ch hmem).1
  omega

section
variable {rev : Nat} {res : Resources} {log : List Change} {key : ResourceKey} {v : Json}

theorem Truthful.create (h : VersionsOk rev res log) (hnone : res.get key = none)
    (hv : StampedValue none rev v) (hmeta : objectMeta v = true) :
    Truthful ((livesOf log key).add ⟨rev, key, .put, v, none, .createdAt rev⟩) v
    (.createdAt rev) := by
  have hlife := h.dead key hnone
  cases hv with
  | terminating ts hprior => cases hprior
  | write w =>
    refine ⟨?_, ?_, ?_, ?_, le_rfl, ?_, ?_, fun ch hch => ?_⟩
    · simp [Lives.add, hlife, createdAt]
    · simp [Lives.add, createdAt]
    · simp [Lives.add]
    · simp [Lives.add, hlife, createdAt]
    · exact metaField_resourceVersion_stampRevision hmeta
    · rw [metaField_generation_stamp hmeta]
      simp [Lives.add, hlife, specChanges, computeGenerationOnPut]
    · -- the old object's changes are in the log, so none is beyond `rev`
      obtain ⟨h₁, h₂⟩ := h.le_rev ch (mem_livesOf (.inl hch))
      exact ⟨h₂.trans h₁, fun hne => lt_of_le_of_lt h₂ (lt_of_le_of_ne h₁ hne)⟩

/-- The generation of a write over a truthful entry. -/
theorem Truthful.generation_write {lives : Lives} {old w : Json} (h : Truthful lives old m) :
    computeGenerationOnPut (some old) w =
      1 + (specChanges lives.life + if specOf old = specOf w then 0 else 1 : Nat) := by
  have hgen : generationOf old = 1 + specChanges lives.life := by
    simp [generationOf, h.generation, Json.asInt]
  simp only [computeGenerationOnPut]
  split <;> push_cast <;> omega

theorem Truthful.update (h : VersionsOk rev res log) {old : Json}
    (hlive : res.get key = some (old, m))
    (hv : StampedValue (some old) rev v) (hmeta : objectMeta v = true) :
    Truthful ((livesOf log key).add ⟨rev, key, .put, v, some old, m.bumpedAt rev⟩) v
      (m.bumpedAt rev) := by
  have ht := h.live key old m hlive
  have hle := h.modRevision_le hlive
  obtain ⟨a, ha, hval⟩ := Option.map_eq_some_iff.mp ht.value
  have hcount : ∀ c : Change, specChanges ((livesOf log key).life ++ [c]) =
      specChanges (livesOf log key).life + if specOf old = specOf c.value then 0 else 1 := by
    intro c
    rw [specChanges_append ha, hval]
  have hhead : ∀ c : Change, ((livesOf log key).life ++ [c]).head? =
      (livesOf log key).life.head? := by
    intro c
    cases hl : (livesOf log key).life with
    | nil => rw [hl] at ha; cases ha
    | cons => rfl
  refine ⟨?_, ?_, ?_, ?_, ht.le.trans hle, ?_, ?_, ht.recreated⟩
  · simp only [Lives.add, hhead]; exact ht.created
  · simp [Lives.add, bumpedAt]
  · simp [Lives.add]
  · simp [Lives.add, bumpedAt, ht.version]
  · cases hv with
    | write w => exact metaField_resourceVersion_stampRevision hmeta
    | terminating ts hprior => exact metaField_resourceVersion_stamp hmeta
  · simp only [Lives.add, hcount]
    cases hv with
    | write w => rw [metaField_generation_stamp hmeta, ht.generation_write, specOf_stampRevision]
    | terminating ts hprior =>
      cases hprior
      have hspec : specOf (stampResourceVersion (stampDeletionTimestamp old ts) rev) =
          specOf old := by
        rw [specOf, stampResourceVersion, get_updateMetadata _ _ (by decide),
          stampDeletionTimestamp, get_updateMetadata _ _ (by decide), specOf]
      rw [hspec, stampResourceVersion, metaField_put_ne _ _ _ _ (by decide), stampDeletionTimestamp,
        metaField_put_ne _ _ _ _ (by decide), ht.generation]
      simp

end

theorem VersionsOk.write {ch : Change} (h : VersionsOk rev res log) (hw : KeyWrite rev res ch)
    (hmeta : ch.kind = .put → objectMeta ch.value = true) :
    VersionsOk rev (ch.applyTo res) (log ++ [ch]) := by
  have hrev : ch.revision ≤ rev ∧ ch.versionMeta.modRevision ≤ ch.revision := by
    cases hw with
    | put => exact ⟨le_rfl, by unfold nextMeta; split <;> exact le_rfl⟩
    | delete hlive | release hlive => exact ⟨le_rfl, h.modRevision_le hlive⟩
  have hle : ∀ c ∈ log ++ [ch], c.revision ≤ rev ∧ c.versionMeta.modRevision ≤ c.revision := by
    intro c hc
    rcases mem_append.mp hc with hc | hc
    · exact h.le_rev c hc
    · rw [mem_singleton.mp hc]; exact hrev
  -- a removal empties the life of its key
  have removal : ch.kind = .delete → VersionsOk rev (ch.applyTo res) (log ++ [ch]) := by
    intro hk
    have hres : ch.applyTo res = res.erase ch.key := by simp [Change.applyTo, hk]
    rw [hres]
    refine ⟨hle, fun k hn => ?_, fun k w n hk' => ?_⟩
    · by_cases he : k = ch.key
      · subst he
        rw [livesOf_append_same]
        simp [Lives.add, hk]
      · rw [livesOf_append_ne _ _ he]
        rw [get_erase_ne _ he] at hn
        exact h.dead k hn
    · have he : k ≠ ch.key := by rintro rfl; simp at hk'
      rw [livesOf_append_ne _ _ he]
      rw [get_erase_ne _ he] at hk'
      exact h.live k w n hk'
  cases hw with
  | delete hlive | release hlive => exact removal rfl
  | put hv =>
    rename_i key v
    simp only [Change.applyTo]
    refine ⟨hle, fun k hn => ?_, fun k w n hk' => ?_⟩
    · have he : k ≠ key := by rintro rfl; simp at hn
      rw [livesOf_append_ne _ _ he]
      rw [get_insert_ne _ he] at hn
      exact h.dead k hn
    · by_cases he : k = key
      · subst he
        rw [get_insert_self] at hk'
        cases hk'
        rw [livesOf_append_same _ ⟨rev, k, .put, _, _, _⟩]
        cases hold : res.get k with
        | none =>
          rw [hold] at hv
          exact Truthful.create h hold hv (hmeta rfl)
        | some e =>
          rw [hold] at hv
          exact Truthful.update h hold hv (hmeta rfl)
      · rw [livesOf_append_ne _ _ he]
        rw [get_insert_ne _ he] at hk'
        exact h.live k w n hk'

/-! ## Every run -/

/-- The operation stores only objects whose metadata is an object. -/
def StoresMetadata (env : Env) (s : Logged) (op : CatalogOp) : Prop :=
  ∀ ch ∈ (s.cat.perform env op).2, ch.kind = .put → objectMeta ch.value = true

instance (env : Env) (s : Logged) (op : CatalogOp) : Decidable (StoresMetadata env s op) :=
  inferInstanceAs (Decidable (∀ ch ∈ (s.cat.perform env op).2, _))

/-- In every state of every run that stores objects with object metadata, every live entry is
truthful and modified no later than the head. -/
theorem versionsTruthful (env : Env) (capacity : Nat) (ops : List CatalogOp)
    (hops : Run.Along (Logged.step env) (StoresMetadata env) (Logged.init capacity) ops)
    (key : ResourceKey) (v : Json) (m : VersionMeta)
    (hlive : (Logged.after env capacity ops).cat.resources.get key = some (v, m)) :
    Truthful (livesOf (Logged.after env capacity ops).log key) v m ∧
      m.modRevision ≤ (Logged.after env capacity ops).cat.revision := by
  have hinit : VersionsOk 0 OrdMap.empty [] :=
    ⟨by simp, fun _ _ => rfl, fun key v m h => by simp at h⟩
  have h := Logged.writes_inv (s := .init capacity) (I := VersionsOk)
    (fun h => h.mono (Nat.le_succ _))
    (fun _ hq h hw => h.write hw hq) hinit hops
  exact ⟨h.live key v m hlive, h.modRevision_le hlive⟩

/-- A pod is created, then gets another spec. -/
def respecRun : List CatalogOp := [
  .command (.put podKey (podBody []) none) .v1 1 1,
  .command (.patch podKey (.obj [("spec", .obj [("nodeName", .str "a")])]) .merge none none)
    .v1 1 2]

theorem respecRun_truthful :
    ∃ v m, (Logged.after atomicEnv 8 respecRun).cat.resources.get podKey = some (v, m) ∧
      Truthful (livesOf (Logged.after atomicEnv 8 respecRun).log podKey) v m ∧
        m.modRevision ≤ (Logged.after atomicEnv 8 respecRun).cat.revision :=
  ⟨_, _, rfl, versionsTruthful atomicEnv 8 respecRun (by decide) podKey _ _ rfl⟩

/-- One transaction creates a pod, deletes it and creates it again. -/
def recreateRun : List CatalogOp := [
  .command (.txn [] [.put podKey (podBody []), .delete podKey none, .put podKey (podBody [])] [])
    .v1 1 1]

/-- Inside one transaction the new object is created at the very revision the old one was last
modified at. -/
theorem recreateRun_not_strict :
    Run.Along (Logged.step atomicEnv) (StoresMetadata atomicEnv) (Logged.init 8) recreateRun ∧
    ∃ v m, (Logged.after atomicEnv 8 recreateRun).cat.resources.get podKey = some (v, m) ∧
      ¬ ∀ ch ∈ (livesOf (Logged.after atomicEnv 8 recreateRun).log podKey).past,
        ch.versionMeta.modRevision < m.createRevision :=
  ⟨by decide, _, _, rfl, by decide⟩

end Engenho
