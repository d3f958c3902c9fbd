import Engenho.Store.Runs
import Engenho.Store.Sealing

/-!
# The catalog at rest

A store writes its catalog as one image: every live entry, the values of sealed kinds encrypted
(`toRest`), the entries it could not open as they are, the log position and the head. Reading an
image back puts every envelope among the unreadable entries (`CatalogRepr.toCatalog`) and then opens
what the store's key opens (`openSealed`). The history is not written: it restarts empty, with its
floor at the head.

`Reaches` follows a store over its restarts; `Settled` is what they keep. A catalog and its reloaded
copy are `Same`, and `Same` catalogs answer every command alike (`Same.applyUnder`). No image shows
a secret (`image_seals_secrets`).
-/

namespace Engenho
open OrdMap WatchHistory ResourceCatalog Assoc List Logged

/-- What an image holds. -/
structure CatalogRepr where
  resources : List (ResourceKey × ResourceValue × VersionMeta)
  lastAppliedTerm : Nat
  lastAppliedIndex : Nat
  currentRevision : Nat
  compactedRevision : Nat
deriving DecidableEq

/-- The sealing codec with the JSON text of an image. -/
structure ImageCodec extends SealCodec where
  imageText : CatalogRepr → Bytes
  readImage : Bytes → Option CatalogRepr

/-- How many changes a loaded store keeps. -/
def WatchHistory.defaultCapacity : Nat := 8192

/-- The history of a catalog read back: no change is retained, so the floor is the head. -/
def WatchHistory.loadedAt (head capacity : Nat) (h : 0 < capacity) : WatchHistory :=
  ⟨[], head, head, capacity, h⟩

/-- An entry read back: an envelope waits to be opened. -/
def ResourceCatalog.loadEntry (c : ResourceCatalog)
    (e : ResourceKey × ResourceValue × VersionMeta) : ResourceCatalog :=
  if isEnvelope e.2.1 then { c with unreadable := c.unreadable.insert e.1 ⟨e.2, .unopened⟩ }
  else { c with resources := c.resources.insert e.1 e.2 }

/-- The catalog an image decodes to. The floor it names is not used. -/
def CatalogRepr.toCatalog (image : CatalogRepr) : ResourceCatalog :=
  image.resources.foldl ResourceCatalog.loadEntry
    ⟨.empty, image.lastAppliedTerm, image.lastAppliedIndex,
      .loadedAt image.currentRevision WatchHistory.defaultCapacity (by decide), .empty⟩

/-- The entries, each rendered or the first fault. -/
def renderEntries (render : ResourceKey → ResourceValue → Except SealFault ResourceValue) :
    List (ResourceKey × ResourceValue × VersionMeta) →
      Except SealFault (List (ResourceKey × ResourceValue × VersionMeta))
  | [] => .ok []
  | (key, value, versionMeta) :: rest => do
    let value ← render key value
    let rest ← renderEntries render rest
    return (key, value, versionMeta) :: rest

variable {image : CatalogRepr}
namespace ResourceCatalog

/-- What is written of a catalog. -/
def repr (c : ResourceCatalog)
    (render : ResourceKey → ResourceValue → Except SealFault ResourceValue) :
    Except SealFault CatalogRepr := do
  let live ← renderEntries render c.resources.entries
  let resources :=
    if c.unreadable.entries.isEmpty then live
    else (live ++ c.unreadable.entries.map fun e => (e.1, e.2.sealed)).insertionSort
      fun a b => a.1 ≤ b.1
  return ⟨resources, c.lastAppliedTerm, c.lastAppliedIndex, c.history.head, c.history.floor⟩

section
variable (codec : ImageCodec) (sealer : SecretSealer)

variable (c : ResourceCatalog)

/-- The image of the catalog under the store's sealer. Each sealed value draws its own nonce. -/
def toRest (nonces : ResourceKey → Nonce) : Except SealFault CatalogRepr :=
  c.repr fun key value =>
    if sealer.seals && isSealedKind key then
      sealer.sealValue codec.toSealCodec (nonces key) key value
    else .ok value

/-- The text of the image. -/
def toRestBytes (nonces : ResourceKey → Nonce) : Except SealFault Bytes :=
  (c.toRest codec sealer nonces).map codec.imageText

/-- Opens one entry that was read sealed. -/
def openEntry (e : ResourceKey × Unreadable) : ResourceCatalog :=
  match sealer.openValue codec.toSealCodec e.1 (e.2.sealed.1.asStr.getD "") with
  | .ok value => { c with resources := c.resources.insert e.1 (value, e.2.sealed.2) }
  | .error fault => { c with unreadable := c.unreadable.insert e.1 { e.2 with fault } }

/-- Opens every unreadable entry; what does not open stays, with the reason. -/
def openSealed : ResourceCatalog :=
  c.unreadable.entries.foldl (openEntry codec sealer) { c with unreadable := .empty }

/-- The catalog a store reads back from its bytes. -/
def loadRest (bytes : Bytes) : Option ResourceCatalog :=
  (codec.readImage bytes).map fun image => image.toCatalog.openSealed codec sealer

end

/-! ## What an image decodes to -/

/-- What the catalog holds under a key: the live entry, and the sealed one. -/
def stored (c : ResourceCatalog) (k : ResourceKey) :
    Option (ResourceValue × VersionMeta) × Option Unreadable :=
  (c.resources.get k, c.unreadable.get k)

theorem loadEntry_stored_ne (c : ResourceCatalog) (e : ResourceKey × ResourceValue × VersionMeta)
    (k : ResourceKey) (h : k ≠ e.1) : (c.loadEntry e).stored k = c.stored k := by
  unfold loadEntry
  split <;> simp [stored, get_insert_ne _ h]

theorem stored_toCatalog (h : Sorted image.resources) (k : ResourceKey) :
    image.toCatalog.stored k = (image.resources.lookup k).elim (none, none) fun e =>
      if isEnvelope e.1 then (none, some ⟨e, .unopened⟩) else (some e, none) :=
  Sorted.foldl_observe stored
    (fun _ (e : ResourceValue × VersionMeta) was => if isEnvelope e.1 then (was.1,
      some ⟨e, .unopened⟩)
      else (some e, was.2))
    loadEntry_stored_ne (fun c e => by unfold loadEntry; split <;> simp [stored]) h _ k

section
variable {codec : ImageCodec} {sealer : SecretSealer}

variable (c : ResourceCatalog)

theorem openEntry_stored_ne (e : ResourceKey × Unreadable) (k : ResourceKey)
    (h : k ≠ e.1) : (c.openEntry codec sealer e).stored k = c.stored k := by
  unfold openEntry
  split <;> simp [stored, get_insert_ne _ h]

/-- What opening an entry leaves under its key. -/
def openedAt (codec : ImageCodec) (sealer : SecretSealer) (k : ResourceKey) (e : Unreadable)
    (was : Option (ResourceValue × VersionMeta) × Option Unreadable) :
    Option (ResourceValue × VersionMeta) × Option Unreadable :=
  match sealer.openValue codec.toSealCodec k (e.sealed.1.asStr.getD "") with
  | .ok value => (some (value, e.sealed.2), was.2)
  | .error fault => (was.1, some { e with fault })

theorem stored_openSealed (codec : ImageCodec) (sealer : SecretSealer) (c : ResourceCatalog)
    (k : ResourceKey) : (c.openSealed codec sealer).stored k =
      (c.unreadable.get k).elim (c.resources.get k, none) fun e =>
        openedAt codec sealer k e (c.resources.get k, none) :=
  Sorted.foldl_observe stored (openedAt codec sealer) openEntry_stored_ne
    (fun c e => by unfold openEntry openedAt; split <;> simp [stored]) c.unreadable.sorted _ k

/-- The log position and the history, which no entry of an image touches. -/
def position : Nat × Nat × WatchHistory :=
  (c.lastAppliedTerm, c.lastAppliedIndex, c.history)

theorem position_foldl {ι : Type} {step : ResourceCatalog → ι → ResourceCatalog}
    (hstep : ∀ c e, (step c e).position = c.position) (c : ResourceCatalog) (l : List ι) :
    (l.foldl step c).position = c.position :=
  Run.exec_inv (I := fun c' : ResourceCatalog => c'.position = c.position)
    (fun c' e hc => (hstep c' e).trans hc) rfl l

theorem position_toCatalog (image : CatalogRepr) :
    image.toCatalog.position = (image.lastAppliedTerm, image.lastAppliedIndex,
      .loadedAt image.currentRevision defaultCapacity (by decide)) := by
  refine position_foldl (fun c e => ?_) _ image.resources
  unfold loadEntry
  split <;> rfl

theorem position_openSealed : (c.openSealed codec sealer).position = c.position := by
  refine position_foldl (fun c e => ?_) _ c.unreadable.entries
  unfold openEntry
  split <;> rfl

end

/-! ## What an image holds -/

variable {render : ResourceKey → ResourceValue → Except SealFault ResourceValue}
variable {l l' : List (ResourceKey × ResourceValue × VersionMeta)} {c : ResourceCatalog}

theorem renderEntries_cons {key : ResourceKey} {value : ResourceValue} {m : VersionMeta}
    (h : renderEntries render ((key, value, m) :: l) = .ok l') :
    ∃ value' rest, render key value = .ok value' ∧ renderEntries render l = .ok rest ∧
      l' = (key, value', m) :: rest := by
  unfold renderEntries at h
  cases hv : render key value with
  | error fault => rw [hv] at h; cases h
  | ok value' =>
    cases hl : renderEntries render l with
    | error fault => rw [hv, hl] at h; cases h
    | ok rest =>
      rw [hv, hl] at h
      cases h
      exact ⟨value', rest, rfl, rfl, rfl⟩

theorem renderEntries_keys (h : renderEntries render l = .ok l') :
    l'.map Prod.fst = l.map Prod.fst := by
  induction l generalizing l' with
  | nil => cases h; rfl
  | cons e l ih =>
    obtain ⟨value', rest, -, hl, rfl⟩ := renderEntries_cons h
    simp [ih hl]

theorem lookup_renderEntries (h : renderEntries render l = .ok l') (k : ResourceKey) :
    (l.lookup k = none → l'.lookup k = none) ∧
      ∀ v m, l.lookup k = some (v, m) → ∃ v', render k v = .ok v' ∧ l'.lookup k = some (v', m) := by
  induction l generalizing l' with
  | nil => cases h; simp
  | cons e l ih =>
    obtain ⟨key, value, m⟩ := e
    obtain ⟨value', rest, hv, hl, rfl⟩ := renderEntries_cons h
    simp only [lookup_cons_ite]
    by_cases hk : k = key
    · subst hk
      simp [hv]
    · simpa [hk] using ih hl

/-- `image` holds `c`, its live values through `render`. -/
structure ImageOf (c : ResourceCatalog)
    (render : ResourceKey → ResourceValue → Except SealFault ResourceValue) (image : CatalogRepr) :
    Prop where
  sorted : Assoc.Sorted image.resources
  live : ∀ k v m, c.resources.get k = some (v, m) →
    ∃ v', render k v = .ok v' ∧ image.resources.lookup k = some (v', m)
  held : ∀ k, c.resources.get k = none →
    image.resources.lookup k = (c.unreadable.get k).map Unreadable.sealed
  term : image.lastAppliedTerm = c.lastAppliedTerm
  index : image.lastAppliedIndex = c.lastAppliedIndex
  head : image.currentRevision = c.revision

/-- No key is both live and unreadable. -/
def Disjoint (c : ResourceCatalog) : Prop :=
  ∀ k e, c.unreadable.get k = some e → c.resources.get k = none

theorem repr_imageOf (hdis : c.Disjoint) (h : c.repr render = .ok image) :
    ImageOf c render image := by
  unfold repr at h
  cases hl : renderEntries render c.resources.entries with
  | error fault => rw [hl] at h; cases h
  | ok live =>
    rw [hl] at h
    cases h
    have hkeys := renderEntries_keys hl
    have hlive := lookup_renderEntries hl
    have hsorted : Sorted live := by
      have hs := pairwise_map.mpr c.resources.sorted
      rw [← hkeys] at hs
      exact pairwise_map.mp hs
    let held := c.unreadable.entries.map fun e => (e.1, e.2.sealed)
    have hheld : ∀ k, held.lookup k = (c.unreadable.get k).map Unreadable.sealed :=
      fun k => lookup_map ..
    -- with nothing unreadable the live entries are the image; otherwise the two lists are merged
    have hmerged : Sorted (if c.unreadable.entries.isEmpty then live
        else (live ++ held).insertionSort fun a b => a.1 ≤ b.1) ∧
        ∀ k, (if c.unreadable.entries.isEmpty then live
          else (live ++ held).insertionSort fun a b => a.1 ≤ b.1).lookup k =
            (live.lookup k).or (held.lookup k) := by
      split
      · rename_i hempty
        refine ⟨hsorted, fun k => ?_⟩
        simp [held, isEmpty_iff.mp hempty]
      have hnodup : ((live ++ held).map Prod.fst).Nodup := by
        rw [map_append, nodup_append, hkeys]
        refine ⟨c.resources.sorted.nodup_keys, ?_, ?_⟩
        · rw [map_map]
          exact c.unreadable.sorted.nodup_keys
        intro a ha b hb hab
        subst hab
        obtain ⟨⟨k, e⟩, he, rfl⟩ := mem_map.mp ha
        obtain ⟨⟨k', s⟩, hs, hk⟩ := mem_map.mp hb
        obtain ⟨⟨k'', u⟩, hu, hs⟩ := mem_map.mp hs
        cases hs
        obtain rfl : k'' = k := hk
        have := hdis k'' u (c.unreadable.mem_entries.mp hu)
        rw [c.resources.mem_entries.mp he] at this
        cases this
      have hsort := sorted_insertionSort hnodup
      exact ⟨hsort.1, fun k => by rw [hsort.2, lookup_append]⟩
    refine ⟨hmerged.1, fun k v m hk => ?_, fun k hk => ?_, rfl, rfl, rfl⟩
    · obtain ⟨v', hv', hlook⟩ := (hlive k).2 v m hk
      exact ⟨v', hv', by rw [hmerged.2, hlook]; rfl⟩
    · rw [hmerged.2, (hlive k).1 hk, hheld]
      rfl

/-! ## A store over its restarts -/

/-- What a store with `sealer` keeps of its unreadable entries: they are envelopes that the sealer
does not open, for the reason recorded. -/
structure Settled (codec : ImageCodec) (sealer : SecretSealer) (c : ResourceCatalog) : Prop where
  disjoint : c.Disjoint
  envelope : ∀ k e, c.unreadable.get k = some e → isEnvelope e.sealed.1 = true
  closed : ∀ k e, c.unreadable.get k = some e →
    sealer.openValue codec.toSealCodec k (e.sealed.1.asStr.getD "") = .error e.fault

variable (codec : ImageCodec) (sealer : SecretSealer)

theorem position_loaded (h : ImageOf c render image) :
    (image.toCatalog.openSealed codec sealer).position = (c.lastAppliedTerm, c.lastAppliedIndex,
      .loadedAt c.revision defaultCapacity (by decide)) := by
  rw [position_openSealed, position_toCatalog, h.term, h.index]
  simp [h.head]

/-- What the entry of an image becomes under its key. -/
def reloadedAt (k : ResourceKey)
    (e : ResourceValue × VersionMeta) : Option (ResourceValue × VersionMeta) × Option Unreadable :=
  if isEnvelope e.1 then openedAt codec sealer k ⟨e, .unopened⟩ (none, none) else (some e, none)

theorem stored_loaded (h : Sorted image.resources) (k : ResourceKey) :
    (image.toCatalog.openSealed codec sealer).stored k =
      (image.resources.lookup k).elim (none, none) (reloadedAt codec sealer k) := by
  have hload := stored_toCatalog h k
  rw [stored] at hload
  rw [stored_openSealed]
  cases he : image.resources.lookup k with
  | none => simp_all
  | some e =>
    by_cases henv : isEnvelope e.1 = true
    · simp_all [reloadedAt]
    · simp_all [reloadedAt]

/-- Whatever was written, a reloaded catalog is settled. -/
theorem settled_loaded (h : Sorted image.resources) :
    Settled codec sealer (image.toCatalog.openSealed codec sealer) := by
  -- an entry stays unreadable only where the image has an envelope that does not open
  have hkey : ∀ k e, (image.toCatalog.openSealed codec sealer).unreadable.get k = some e →
      (image.toCatalog.openSealed codec sealer).resources.get k = none ∧
      isEnvelope e.sealed.1 = true ∧
        sealer.openValue codec.toSealCodec k (e.sealed.1.asStr.getD "") = .error e.fault := by
    intro k e he
    have hst := stored_loaded codec sealer h k
    rw [stored, he] at hst
    cases hl : image.resources.lookup k with
    | none =>
      rw [hl] at hst
      cases (Prod.mk.inj hst).2
    | some x =>
      rw [hl, Option.elim_some, reloadedAt] at hst
      split at hst
      · rename_i henv
        unfold openedAt at hst
        split at hst
        · cases (Prod.mk.inj hst).2
        · rename_i fault hopen
          obtain ⟨hres, hunr⟩ := Prod.mk.inj hst
          cases hunr
          exact ⟨hres, henv, hopen⟩
      · cases (Prod.mk.inj hst).2
  exact ⟨fun k e he => (hkey k e he).1, fun k e he => (hkey k e he).2.1,
    fun k e he => (hkey k e he).2.2⟩

/-- A command keeps it: it writes no key that is unreadable, and opens nothing. -/
theorem Settled.applyUnder {codec : ImageCodec} {sealer : SecretSealer} (h : Settled codec sealer c)
    (env : Env) (cmd : ResourceCommand) (sem : ApplySemantics) (term index : Nat) :
    Settled codec sealer (c.applyUnder env cmd sem term index).1 := by
  have hunr : (c.applyUnder env cmd sem term index).1.unreadable = c.unreadable := by
    unfold ResourceCatalog.applyUnder
    split <;> rfl
  refine ⟨fun k e he => ?_, fun k e he => h.envelope k e (hunr ▸ he),
    fun k e he => h.closed k e (hunr ▸ he)⟩
  have he' : c.unreadable.get k = some e := hunr ▸ he
  by_cases hk : k ∈ cmd.keys
  · -- the command names an unreadable key, so it is refused
    have hsome : (c.unreadableTouchedBy cmd).isSome = true := by
      rw [unreadableTouchedBy, List.findSome?_isSome_iff]
      exact ⟨k, hk, by simp [secretFault, he']⟩
    obtain ⟨⟨key, fault⟩, hx⟩ := Option.isSome_iff_exists.mp hsome
    simp only [ResourceCatalog.applyUnder, hx]
    exact h.disjoint k e he'
  · rw [applyUnder_get_ne env c cmd sem term index hk]
    exact h.disjoint k e he'

end ResourceCatalog

/-- The states of a store with `sealer`: it starts empty, applies and compacts, and restarts from an
image that this store or another wrote, under whatever key that one held. The log of everything
committed goes with the image. -/
inductive Reaches (codec : ImageCodec) (env : Env) : SecretSealer → Logged → Prop where
  | init (sealer : SecretSealer) (capacity : Nat) : Reaches codec env sealer (.init capacity)
  | step {sealer : SecretSealer} {s : Logged} (h : Reaches codec env sealer s) (op : CatalogOp) :
    Reaches codec env sealer (s.step env op)
  | load {writer : SecretSealer} {s : Logged} (h : Reaches codec env writer s)
    {nonces : ResourceKey → Nonce} {image : CatalogRepr}
    (himage : s.cat.toRest codec writer nonces = .ok image) (sealer : SecretSealer) :
    Reaches codec env sealer ⟨image.toCatalog.openSealed codec sealer, s.log⟩

namespace Reaches
variable {codec : ImageCodec} {env : Env} {sealer : SecretSealer} {s : Logged}

theorem settled (h : Reaches codec env sealer s) : s.cat.Settled codec sealer := by
  induction h with
  | init sealer capacity =>
    have hnone : ∀ k, (Logged.init capacity).cat.unreadable.get k = none := fun k => rfl
    constructor <;> intro k e he <;> rw [hnone] at he <;> cases he
  | step h op ih =>
    cases op with
    | command cmd sem term index => exact ih.applyUnder env cmd sem term index
    | compact target => exact ⟨ih.disjoint, ih.envelope, ih.closed⟩
  | load h himage sealer ih =>
    exact settled_loaded codec sealer
      (repr_imageOf ih.disjoint himage).sorted

end Reaches

theorem WatchHistory.Backs.loadedAt {h : WatchHistory} {log : List Change} (hb : h.Backs log)
    {capacity : Nat} (hc : 0 < capacity) : (loadedAt h.head capacity hc).Backs log where
  ordered := hb.ordered
  le_head := hb.le_head
  dense := hb.dense
  ring := (Stamped.above_eq_nil hb.le_head).symm
  floor_le := le_rfl
  fits := Nat.zero_le _

theorem Reaches.backs {codec : ImageCodec} {env : Env} {sealer : SecretSealer} {s : Logged}
    (h : Reaches codec env sealer s) : s.cat.history.Backs s.log := by
  induction h with
  | init sealer capacity => exact backs_new ..
  | step h op ih => exact (step_backs ih op).1
  | load h himage sealer ih =>
    have hpos := position_loaded codec sealer
      (repr_imageOf h.settled.disjoint himage)
    have hhist : (ResourceCatalog.openSealed codec sealer _).history = _ :=
      congrArg (fun p => p.2.2) hpos
    rw [hhist]
    exact ih.loadedAt (by decide)

/-! ## A restart is invisible to the log -/

/-- The equality of catalogs: everything but the history, of which only the head counts. -/
structure Same (c c' : ResourceCatalog) : Prop where
  resources : c'.resources = c.resources
  unreadable : c'.unreadable = c.unreadable
  term : c'.lastAppliedTerm = c.lastAppliedTerm
  index : c'.lastAppliedIndex = c.lastAppliedIndex
  revision : c'.revision = c.revision

/-- A command of the log, with its position. -/
structure LogEntry where
  command : ResourceCommand
  semantics : ApplySemantics
  term : Nat
  index : Nat

/-- The catalog after the entries, and their outcomes. -/
def ResourceCatalog.applyLog (env : Env) (c : ResourceCatalog) :
    List LogEntry → ResourceCatalog × List ApplyOutcome
  | [] => (c, [])
  | e :: es =>
    let (c', outcome) := c.applyUnder env e.command e.semantics e.term e.index
    let (c'', outcomes) := c'.applyLog env es
    (c'', outcome :: outcomes)

namespace Same
variable {c c' : ResourceCatalog}

/-- The step of the simulation: a command reads the map, the unreadable entries and the head. -/
theorem applyUnder (h : Same c c') (env : Env) (cmd : ResourceCommand) (sem : ApplySemantics)
    (term index : Nat) :
    (c'.applyUnder env cmd sem term index).2 = (c.applyUnder env cmd sem term index).2 ∧
      Same (c.applyUnder env cmd sem term index).1 (c'.applyUnder env cmd sem term index).1 := by
  have htouched : c'.unreadableTouchedBy cmd = c.unreadableTouchedBy cmd := by
    simp [ResourceCatalog.unreadableTouchedBy, ResourceCatalog.secretFault, h.unreadable]
  have hrev : c'.history.nextRevision = c.history.nextRevision := congrArg (· + 1) h.revision
  unfold ResourceCatalog.applyUnder
  rw [htouched]
  cases c.unreadableTouchedBy cmd with
  | some x => exact ⟨rfl, h.resources, h.unreadable, rfl, rfl, h.revision⟩
  | none =>
    simp only [h.resources, hrev]
    refine ⟨trivial, rfl, h.unreadable, rfl, rfl, ?_⟩
    simp only [ResourceCatalog.revision]
    split
    · rw [commit_head, commit_head]
      exact hrev
    · exact h.revision

theorem applyLog (h : Same c c') (env : Env) (es : List LogEntry) :
    (c'.applyLog env es).2 = (c.applyLog env es).2 ∧
    Same (c.applyLog env es).1 (c'.applyLog env es).1 := by
  induction es generalizing c c' with
  | nil => exact ⟨rfl, h⟩
  | cons e es ih =>
    obtain ⟨hout, hsame⟩ := h.applyUnder env e.command e.semantics e.term e.index
    obtain ⟨houts, hend⟩ := ih hsame
    exact ⟨by simp only [ResourceCatalog.applyLog, hout, houts], hend⟩

end Same

section
variable {codec : ImageCodec} {sealer : SecretSealer}

/-- A settled catalog of objects is read back from its own image. -/
theorem ResourceCatalog.Settled.same_loaded {c : ResourceCatalog} (h : c.Settled codec sealer)
    (hobj : ∀ k v m, c.resources.get k = some (v, m) → v.isObject = true)
    (hinv : sealer.Inverts codec.toSealCodec)
    (htext : ∀ k v m, c.resources.get k = some (v, m) → isSealedKind k = true →
      codec.readValue (codec.valueText v) = some v) {nonces : ResourceKey → Nonce}
    (himage : c.toRest codec sealer nonces = .ok image) :
    Same c (image.toCatalog.openSealed codec sealer) := by
  have him := repr_imageOf h.disjoint himage
  have hpos := position_loaded codec sealer him
  have hstored : ∀ k, (image.toCatalog.openSealed codec sealer).stored k = c.stored k := by
    intro k
    rw [stored_loaded codec sealer him.sorted]
    cases hk : c.resources.get k with
    | some e =>
      obtain ⟨v, m⟩ := e
      have hnone : c.unreadable.get k = none := by
        cases hu : c.unreadable.get k with
        | none => rfl
        | some u => rw [h.disjoint k u hu] at hk; cases hk
      obtain ⟨v', hv', hlook⟩ := him.live k v m hk
      rw [hlook, Option.elim_some, stored, hk, hnone]
      split at hv'
      · -- sealed: the envelope opens to the value it was made of
        rename_i hsealed
        obtain ⟨henv, envelope, rfl⟩ := SecretSealer.isEnvelope_sealValue hv'
        have hopen := SecretSealer.openValue_sealValue hinv
          (htext k v m hk (Bool.and_eq_true_iff.mp hsealed).2) hv'
        simp only [reloadedAt, henv, if_true, openedAt, Json.asStr, Option.getD_some, hopen]
      · -- written as it is: an object is no envelope
        cases hv'
        obtain ⟨fields, rfl⟩ := Json.isObject_iff.mp (hobj k v m hk)
        rfl
    | none =>
      rw [him.held k hk, stored, hk]
      cases hu : c.unreadable.get k with
      | none => rfl
      | some u => simp [reloadedAt, h.envelope k u hu, openedAt, h.closed k u hu]
  exact ⟨ext_get fun k => congrArg Prod.fst (hstored k),
    ext_get fun k => congrArg Prod.snd (hstored k), congrArg Prod.fst hpos,
    congrArg (fun p => p.2.1) hpos, congrArg (fun p => p.2.2.head) hpos⟩

/-- A reloaded store refuses every resume below the head it was loaded at, and answers every other
one with all that was committed since. -/
theorem loaded_window (env : Env) {head capacity : Nat} {hc : 0 < capacity} {s : Logged}
    (hhist : s.cat.history = .loadedAt head capacity hc) (hb : s.cat.history.Backs s.log)
    (ops : List CatalogOp) :
    let t := Run.exec (Logged.step env) s ops
    (∀ rv < head, ∃ floor, t.cat.history.since rv = .error ⟨rv, floor⟩) ∧
      ∀ rv window, t.cat.history.since rv = .ok window →
      window = Stamped.above Change.revision rv t.log := by
  intro t
  have hinv : t.cat.history.Backs t.log ∧ head ≤ t.cat.history.floor :=
    Run.exec_inv (I := fun u : Logged => u.cat.history.Backs u.log ∧ head ≤ u.cat.history.floor)
      (fun u op hu => ⟨(step_backs hu.1 op).1, hu.2.trans (step_backs hu.1 op).2⟩)
      ⟨hb, by rw [hhist]; exact le_rfl⟩ ops
  obtain ⟨hbacks, hfloor⟩ := hinv
  refine ⟨fun rv hrv => ⟨t.cat.history.floor, ?_⟩, fun rv window hw => ?_⟩
  · have hlt := hrv.trans_le hfloor
    simp [since, split, hlt, Except.map]
  · rcases Nat.lt_or_ge rv t.cat.history.floor with hlt | hge
    · simp [since, split, hlt, Except.map] at hw
    · rw [hbacks.since hge] at hw
      cases hw
      rfl

/-- The store comes back from its own image as it was: the catalogs are equal and stay so under
every further log, outcome by outcome, while the new one serves no window it does not hold whole. -/
theorem restart_invisible (env : Env) {s : Logged} (hs : Reaches codec env sealer s)
    (hobj : ∀ k v m, s.cat.resources.get k = some (v, m) → v.isObject = true)
    (hinv : sealer.Inverts codec.toSealCodec)
    (htext : ∀ k v m, s.cat.resources.get k = some (v, m) → isSealedKind k = true →
      codec.readValue (codec.valueText v) = some v) {nonces : ResourceKey → Nonce} {image :
      CatalogRepr}
    (himage : s.cat.toRest codec sealer nonces = .ok image)
    (hread : codec.readImage (codec.imageText image) = some image) :
    ∃ bytes c', s.cat.toRestBytes codec sealer nonces = .ok bytes ∧
      ResourceCatalog.loadRest codec sealer bytes = some c' ∧
      Same s.cat c' ∧
      (∀ es, (c'.applyLog env es).2 = (s.cat.applyLog env es).2 ∧
        Same (s.cat.applyLog env es).1 (c'.applyLog env es).1) ∧
      ∀ ops, let t := Run.exec (Logged.step env) ⟨c', s.log⟩ ops
        (∀ rv < c'.revision, ∃ floor, t.cat.history.since rv = .error ⟨rv, floor⟩) ∧
        ∀ rv window, t.cat.history.since rv = .ok window →
          window = Stamped.above Change.revision rv t.log := by
  have hsame := hs.settled.same_loaded hobj hinv htext himage
  have hpos := ResourceCatalog.position_loaded codec sealer
    (ResourceCatalog.repr_imageOf hs.settled.disjoint himage)
  have hhist : (image.toCatalog.openSealed codec sealer).history = _ :=
    congrArg (fun p => p.2.2) hpos
  have hloaded := hs.load himage sealer
  refine ⟨codec.imageText image, image.toCatalog.openSealed codec sealer, ?_, ?_, hsame,
    hsame.applyLog env, fun ops => ?_⟩
  · rw [ResourceCatalog.toRestBytes, himage]
    rfl
  · rw [ResourceCatalog.loadRest, hread]
    rfl
  · rw [hsame.revision]
    exact loaded_window env hhist hloaded.backs ops

end

/-! ### A store that came back without its old key -/

variable (codec : ImageCodec) (values : List Json) (images : List CatalogRepr)
  (sealer : SecretSealer) (name : String)

/-- A codec whose texts are positions in the given tables or the name of a key, whose base64 writes
a character for a byte, and whose cipher only writes the associated data in front. -/
def tableCodec : ImageCodec where
  encrypt _ _ aad plain := some (aad ++ plain)
  decrypt _ _ aad body := if aad.isPrefixOf body then some (body.drop aad.length) else none
  encode64 bytes := String.ofList (bytes.map fun b => Char.ofNat b.toNat)
  decode64 text := some (text.toList.map fun c => UInt8.ofNat c.toNat)
  keyText key := key.name.toList.map fun c => UInt8.ofNat c.toNat
  valueText value := [UInt8.ofNat (values.idxOf value)]
  readValue bytes := bytes.head?.bind fun i => values[i.toNat]?
  imageText image := [UInt8.ofNat (images.idxOf image)]
  readImage bytes := bytes.head?.bind fun i => images[i.toNat]?

theorem tableCodec_inverts : sealer.Inverts (tableCodec values images).toSealCodec := by
  refine SecretSealer.open_seal (fun cipher nonce aad plain body hbody => ?_) fun bytes => ?_
  · obtain rfl : aad ++ plain = body := Option.some.inj hbody
    simp [tableCodec]
  · have hbyte : ∀ b : UInt8, UInt8.ofNat (Char.ofNat b.toNat).toNat = b := by
      have hlt : ∀ n < 256, UInt8.ofNat (Char.ofNat n).toNat = UInt8.ofNat n := by decide +kernel
      intro b
      rw [hlt b.toNat b.toNat_lt, UInt8.ofNat_toNat]
    simp [tableCodec, Function.comp_def, hbyte]

def secretKey : ResourceKey := ⟨"", "v1", "Secret", some "default", name⟩

def secretBody : Json := .obj [("data", .obj [("token", .str "aGk=")])]

/-- The secret as the store keeps it when it was created at `rev`. -/
def storedSecret (rev : Nat) : Json :=
  .obj [("data", .obj [("token", .str "aGk=")]),
    ("metadata", .obj [("generation", .num (.int 1)), ("resourceVersion", .str (toString rev)),
      ("uid", .str (atomicEnv.mintUid (secretKey name).label rev))])]

/-- A sealer that holds the key with this byte everywhere. -/
def sealerOf (b : UInt8) : SecretSealer :=
  ⟨.seal, .held [b] ⟨List.replicate 8 b, by simp⟩, none⟩

def zeroNonces : ResourceKey → Nonce := fun _ => ⟨List.replicate 24 0, by simp [nonceLen]⟩

def createSecret (index : Nat) : CatalogOp :=
  .command (.put (secretKey name) secretBody none) .v1 1 index

/-- The image under `sealer`, where there is one. -/
def imageOrEmpty (c : ResourceCatalog) : CatalogRepr :=
  (c.toRest codec sealer zeroNonces).toOption.getD ⟨[], 0, 0, 0, 0⟩

def secretValues : List Json := [storedSecret "old" 1, storedSecret "new" 2]

/-- A secret is written under one key, the store comes back with another, and a second secret is
written: the first stays sealed. -/
def rekeyedStore : Logged :=
  let before := (Logged.init 4).step atomicEnv (createSecret "old" 1)
  let image := imageOrEmpty codec (sealerOf 1) before.cat
  Logged.step atomicEnv ⟨image.toCatalog.openSealed codec (sealerOf 2), before.log⟩
    (createSecret "new" 2)

def rekeyedImage : CatalogRepr :=
  let codec := tableCodec secretValues []
  imageOrEmpty codec (sealerOf 2) (rekeyedStore codec).cat

def rekeyedCodec : ImageCodec := tableCodec secretValues [rekeyedImage]

theorem rekeyedStore_reaches :
    Reaches rekeyedCodec atomicEnv (sealerOf 2) (rekeyedStore rekeyedCodec) := by
  have hwritten : ((Logged.init 4).step atomicEnv (createSecret "old" 1)).cat.toRest rekeyedCodec
      (sealerOf 1) zeroNonces = .ok (imageOrEmpty rekeyedCodec (sealerOf 1)
        ((Logged.init 4).step atomicEnv (createSecret "old" 1)).cat) := by
    decide +kernel
  exact .step (.load (.step (.init (sealerOf 1) 4) _) hwritten _) _

theorem rekeyedStore_restarts : (rekeyedStore rekeyedCodec).cat.secretFault (secretKey "old") =
      some (.wrongKey "0101010101010101" "0202020202020202") ∧
    ∃ bytes c',
      (rekeyedStore rekeyedCodec).cat.toRestBytes rekeyedCodec (sealerOf 2) zeroNonces = .ok bytes ∧
      ResourceCatalog.loadRest rekeyedCodec (sealerOf 2) bytes = some c' ∧
      Same (rekeyedStore rekeyedCodec).cat c' := by
  have hvalues : ∀ e ∈ (rekeyedStore rekeyedCodec).cat.resources.entries,
      e.2.1.isObject = true ∧
        rekeyedCodec.readValue (rekeyedCodec.valueText e.2.1) = some e.2.1 := by
    decide +kernel
  have himage : (rekeyedStore rekeyedCodec).cat.toRest rekeyedCodec (sealerOf 2) zeroNonces =
      .ok rekeyedImage := by
    decide +kernel
  refine ⟨by decide +kernel, ?_⟩
  obtain ⟨bytes, c', hbytes, hload, hsame, -⟩ := restart_invisible atomicEnv rekeyedStore_reaches
    (fun k v m hk => (hvalues (k, v, m) (mem_entries _ |>.mpr hk)).1)
    (tableCodec_inverts secretValues [rekeyedImage] (sealerOf 2))
    (fun k v m hk _ => (hvalues (k, v, m) (mem_entries _ |>.mpr hk)).2)
    himage (by decide +kernel)
  exact ⟨bytes, c', hbytes, hload, hsame⟩

/-- A store with one object, whose weight is the number of this text. -/
def weighedStore (weight : String) : Logged :=
  (Logged.init 4).step atomicEnv (.command (.put podKey
    (.obj [("metadata", .obj []), ("spec", .obj [("weight", .num (.float weight))])]) none) .v1 1 1)

def weighedImage (weight : String) : CatalogRepr :=
  imageOrEmpty (tableCodec [] []) (sealerOf 1) (weighedStore weight).cat

/-- A codec that reads this number as its neighbour, as one does that is not exact in the last
place. -/
def driftingCodec : ImageCodec :=
  let written := weighedImage "8.348978922636786e-10"
  let exact := tableCodec [] [written]
  { exact with
    readImage := fun bytes => (exact.readImage bytes).map fun image =>
      if image = written then weighedImage "8.348978922636785e-10" else image }

/-- A number that is not read back as it was written changes its object over a restart. -/
theorem restart_drifts :
    let s := weighedStore "8.348978922636786e-10"
    Reaches driftingCodec atomicEnv (sealerOf 1) s ∧
      (sealerOf 1).Inverts driftingCodec.toSealCodec ∧
      ∃ bytes c', s.cat.toRestBytes driftingCodec (sealerOf 1) zeroNonces = .ok bytes ∧
        ResourceCatalog.loadRest driftingCodec (sealerOf 1) bytes = some c' ∧
        (s.cat.get podKey).all Json.isObject = true ∧ c'.get podKey ≠ s.cat.get podKey := by
  intro s
  refine ⟨.step (.init (sealerOf 1) 4) _, tableCodec_inverts [] [] (sealerOf 1), _, _, rfl, rfl, ?_⟩
  decide +kernel

end Engenho
