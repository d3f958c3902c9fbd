import Engenho.Controllers.JobRuns

/-!
# A finished Job stays finished

The invariant of the runs in which finished pods stay. It has one clause for each stage of a pass
(`Staged`), one for the counts with the creates under way (`Within`), and one for what a condition
of the Job says about its pods (`Told`): a Job that is Complete has the pods that made it so, one
that has Failed can no longer complete, and in either case nothing is under way.
-/

namespace Engenho
open Assoc List Nat
namespace Controllers
variable {st : Stage} {p : Pass}
namespace Job

/-! ## The status that is written -/

theorem computeStatus_spec {job : Json} {owned : Items} {g : Int} {desired : Json}
    (h : computeStatus job owned g = some desired) :
    ∃ fields, desired = .obj fields ∧ Sorted fields ∧
      fields.lookup "conditions" = conditionsFor (limit completions job) (limit backoffLimit job)
        (countState owned .succeeded) (countState owned .failed) := by
  unfold computeStatus at h
  split at h
  · rename_i n b hn hb
    cases h
    refine ⟨_, rfl, ?_, ?_⟩
    · have hsorted : Sorted (statusFields (countActive owned) (countPhase owned "Succeeded")
          (countPhase owned "Failed") g) := by
        have hkeys : ["active", "failed", "observedGeneration", "succeeded"].Pairwise (· < ·) := by
          decide
        exact pairwise_map.mp hkeys
      split
      · exact hsorted.put
      · exact hsorted
    · rw [limit_eq hn, limit_eq hb, countPhase_succeeded, countPhase_failed]
      split
      · rename_i conditions hcond
        rw [hcond, lookup_put_self]
      · rename_i hcond
        rw [hcond]
        rfl
  · cases h

variable {fields : JsonMap}

theorem get_conditions_written (hs : Sorted fields) (job : Json) (rev : Nat) (g : Int) :
    ((stampRevision (mergeRfc7396 job (.obj [("status", .obj fields)])) rev g).get "status").bind
        (Json.get "conditions") =
      match fields.lookup "conditions" with
      | none => (job.get "status").bind (Json.get "conditions")
      | some w => if w.isNull then none
        else some (mergeRfc7396 (((job.get "status").bind (Json.get "conditions")).getD .null)
          w) := by
  have hold : ((job.get "status").getD .null).get "conditions" =
      (job.get "status").bind (Json.get "conditions") := by
    cases job.get "status" <;> rfl
  rw [get_stampRevision _ _ _ (by decide), get_mergeRfc7396_single_self _ rfl, Option.bind_some]
  cases hc : fields.lookup "conditions" <;> simp only [get_mergeRfc7396 hs, hold, hc]

theorem carries_written_none (hs : Sorted fields) (hc : fields.lookup "conditions" = none)
    (job : Json) (rev : Nat) (g : Int) (cond : String) :
    carries cond (stampRevision (mergeRfc7396 job (.obj [("status", .obj fields)])) rev g) =
      carries cond job := by
  rw [carries, get_conditions_written hs, hc, carries]

theorem carries_written_arr (hs : Sorted fields) {items : List Json}
    (hc : fields.lookup "conditions" = some (.arr items)) (job : Json) (rev : Nat) (g : Int)
    (cond : String) :
    carries cond (stampRevision (mergeRfc7396 job (.obj [("status", .obj fields)])) rev g) =
      hasCondition cond (some (.arr items)) := by
  have harr : ∀ old, mergeRfc7396 old (.arr items) = .arr items := by
    intro old
    rw [mergeRfc7396]
    intro m h
    cases h
  rw [carries, get_conditions_written hs, hc]
  simp only [Json.isNull, Bool.false_eq_true, if_false, harr]

/-- A write of the status leaves what the controller reads of the Job. -/
theorem sameParent_written {job : Json} (hjob : job.isObject = true) (status : Json)
    (rev : Nat) (g : Int) :
    SameParent job (stampRevision (mergeRfc7396 job (.obj [("status", status)])) rev g) := by
  refine ⟨?_, ?_, fun field hf => ?_⟩
  · rw [stampRevision, isObject_updateMetadata, stampResourceVersion, isObject_updateMetadata]
    exact hjob
  · rw [get_stampRevision _ _ _ (by decide), get_mergeRfc7396_single_ne _ _ (by decide)]
  · have hrv : field ≠ "resourceVersion" := fun h => hf (by simp [h, writtenByStore])
    have hgen : field ≠ "generation" := fun h => hf (by simp [h, writtenByStore])
    rw [metaField_stampRevision _ _ _ hrv hgen, metaField, metaField,
      get_mergeRfc7396_single_ne _ _ (by decide)]

/-! ## The invariant -/

/-- The creates that are under way. -/
def outstanding : Stage → List ResourceCommand
  | .idle | .listed _ | .reporting _ => []
  | .writing _ todo => todo
  | .probed _ cmd todo | .sent _ cmd todo => cmd :: todo

/-- The command puts a pod that will be the Job's. -/
def PodPut (ns u : String) (cmd : ResourceCommand) : Prop :=
  ∃ n v, cmd = .put (podKeyIn ns n) v none ∧ isOwnedBy v u = true

/-- Creates for different keys, at which the Job has no pod. -/
structure Fresh (key : ResourceKey) (ns u : String) (c : ResourceCatalog)
    (cmds : List ResourceCommand) : Prop where
  puts : ∀ cmd ∈ cmds, PodPut ns u cmd
  keys : (cmds.flatMap ResourceCommand.keys).Nodup
  free : ∀ k ∈ cmds.flatMap ResourceCommand.keys, ∀ e ∈ podsOf c key u, e.1 ≠ k

/-- What the conditions of the Job say about its pods. -/
structure Told (job : Json) (owned : Items) (live : Json) : Prop where
  complete : carries "Complete" live = true → limit completions job ≤ countState owned .succeeded
  failed : carries "Failed" live = true → limit backoffLimit job < countState owned .failed

/-- The conditions that are about to be written, and what they rest on. -/
inductive Reported (job : Json) (owned : Items) (live : Option Json) (fields : JsonMap) :
    Prop where
  | complete (hc : fields.lookup "conditions" = some (.arr [completeCondition]))
      (hs : limit completions job ≤ countState owned .succeeded)
  | failed (hc : fields.lookup "conditions" = some (.arr [failedCondition]))
      (hf : limit backoffLimit job < countState owned .failed)
  | neither (hc : fields.lookup "conditions" = none)
      (hlive : ∀ j ∈ live, carries "Complete" j = false ∧ carries "Failed" j = false)

/-- The pass is about the Job. -/
structure About (job : Json) (u : String) (p : Pass) : Prop where
  same : SameParent job p.parent
  uid : uid job = some u
  mine : p.uid = u

/-- What a pass has read, and is to write, still stands. -/
inductive Staged (job : Json) (key : ResourceKey) (ns u : String) (c : ResourceCatalog) :
    Stage → Prop where
  | idle : Staged job key ns u c .idle
  | listed {p : Json} (h : SameParent job p) : Staged job key ns u c (.listed p)
  | writing {p : Pass} {todo : List ResourceCommand} (h : About job u p)
      (hf : Fresh key ns u c todo) :
      Staged job key ns u c (.writing p todo)
  | probed {p : Pass} {cmd : ResourceCommand} {todo : List ResourceCommand} (h : About job u p)
      (hf : Fresh key ns u c (cmd :: todo)) : Staged job key ns u c (.probed p cmd todo)
  | sent {p : Pass} {cmd : ResourceCommand} {todo : List ResourceCommand} (h : About job u p)
      (hf : Fresh key ns u c (cmd :: todo)) : Staged job key ns u c (.sent p cmd todo)
  | reporting {fields : JsonMap} {rv : Option Nat} (hu : uid job = some u)
      (hs : Assoc.Sorted fields)
      (hr : Reported job (podsOf c key u) (c.get key) fields) :
      Staged job key ns u c (.reporting (.patchCas key (.obj [("status", .obj fields)]) rv))

/-- What every step of a pass keeps. -/
structure Inv (job : Json) (key : ResourceKey) (ns u : String) (s : Reconcile) : Prop where
  staged : Staged job key ns u s.cat s.stage
  within : Within job (podsOf s.cat key u) (outstanding s.stage).length
  live : ∀ j ∈ s.cat.get key, SameParent job j ∧ Told job (podsOf s.cat key u) j ∧
    (carries "Complete" j = true ∨ carries "Failed" j = true → outstanding s.stage = [])

section Steps
variable {job : Json} {key : ResourceKey} {ns u : String} {c c' : ResourceCatalog}

theorem Told.mono {owned owned' : Items} {live : Json} (h : Told job owned live)
    (hs : countState owned .succeeded ≤ countState owned' .succeeded)
    (hf : countState owned .failed ≤ countState owned' .failed) : Told job owned' live :=
  ⟨fun hc => (h.complete hc).trans hs, fun hc => (h.failed hc).trans_le hf⟩

theorem Reported.mono {owned owned' : Items} {live : Option Json}
    (h : Reported job owned live fields)
    (hs : countState owned .succeeded ≤ countState owned' .succeeded)
    (hf : countState owned .failed ≤ countState owned' .failed) :
    Reported job owned' live fields := by
  cases h with
  | complete hc h => exact .complete hc (h.trans hs)
  | failed hc h => exact .failed hc (h.trans_le hf)
  | neither hc h => exact .neither hc h

variable {cmds todo : List ResourceCommand} {cmd : ResourceCommand} {s : Tracked} {e : PassEvent}

/-- Creates stay fresh while no pod of the Job appears at their keys. -/
theorem Fresh.mono (h : Fresh key ns u c cmds)
    (hk : ∀ e' ∈ podsOf c' key u, e'.1 ∈ cmds.flatMap ResourceCommand.keys →
      ∃ e ∈ podsOf c key u, e.1 = e'.1) : Fresh key ns u c' cmds := by
  refine ⟨h.puts, h.keys, fun k hmem e' he' hek => ?_⟩
  obtain ⟨e, he, hee⟩ := hk e' he' (hek ▸ hmem)
  exact h.free k hmem e he (hee.trans hek)

theorem Fresh.tail (h : Fresh key ns u c (cmd :: cmds)) : Fresh key ns u c cmds where
  puts := fun x hx => h.puts x (.tail _ hx)
  keys := by
    have := h.keys
    exact (nodup_append.mp this).2.1
  free := fun k hk => h.free k (by rw [flatMap_cons]; exact mem_append_right _ hk)

/-- A stamp changes the pod, and not whose it is. -/
theorem Fresh.restamp {cmd' : ResourceCommand} (h : Fresh key ns u c (cmd :: cmds))
    (hp : PodPut ns u cmd') (hk : cmd'.keys = cmd.keys) : Fresh key ns u c (cmd' :: cmds) := by
  refine ⟨forall_mem_cons.mpr ⟨hp, fun x hx => h.puts x (.tail _ hx)⟩, ?_, ?_⟩
  · rw [flatMap_cons, hk]
    exact h.keys
  · rw [flatMap_cons, hk]
    exact h.free

theorem Inv.not_both {s : Reconcile} (h : Inv job key ns u s)
    (hc : limit completions job ≤ countState (podsOf s.cat key u) .succeeded)
    (hf : limit backoffLimit job < countState (podsOf s.cat key u) .failed) : False := by
  have := h.within.failed hf
  omega

theorem podsOf_congr (h : ∀ k, k.kind = "Pod" → c'.get k = c.get k) :
    podsOf c' key u = podsOf c key u := by
  have hlisted : c'.listed ⟨"", "v1", "Pod", key.ns⟩ = c.listed ⟨"", "v1", "Pod", key.ns⟩ := by
    exact ResourceCatalog.listed_congr fun k hk => h k (ListScope.kind_of_contains hk)
  simp [podsOf, gatherOwned, podKind, hlisted]

/-! ### Other writers -/

theorem Inv.other (h : Inv job key ns u ⟨c, st⟩) (hmove : PodsMove key u c c')
    (hstay : FinishedStay key u c c') : Inv job key ns u ⟨c', st⟩ := by
  have hm := hmove.moved hstay
  have hfresh : ∀ {cmds : List ResourceCommand}, Fresh key ns u c cmds →
      Fresh key ns u c' cmds := by
    intro cmds hf
    refine hf.mono fun e' he' _ => ?_
    obtain ⟨e, he, hk, -⟩ := hmove.2.1 e' he'
    exact ⟨e, he, hk⟩
  refine ⟨?_, h.within.moved hm, fun j hj => ?_⟩
  · cases h.staged with
    | idle => exact .idle
    | listed hp => exact .listed hp
    | writing hp hf => exact .writing hp (hfresh hf)
    | probed hp hf => exact .probed hp (hfresh hf)
    | sent hp hf => exact .sent hp (hfresh hf)
    | reporting hu hs hr =>
      refine .reporting hu hs ?_
      rw [hmove.1]
      exact hr.mono hm.succeeded hm.failed
  · have hj' : j ∈ c.get key := by rw [← hmove.1]; exact hj
    obtain ⟨hsame, htold, hquiet⟩ := h.live j hj'
    exact ⟨hsame, htold.mono hm.succeeded hm.failed, hquiet⟩

/-! ### The steps of a pass -/

/-- What is assumed of the Job and of where it is. -/
structure Setup (scope : Option String) (job : Json) (key : ResourceKey) (ns u : String) :
    Prop where
  kind : key.kind = "Job"
  keyNs : key.ns = some ns
  childNs : childNamespace job scope = ns
  uid : (uid job).getD "" = u
  clean : ∀ t ∈ templateOf job, BringsNoOwner u t

variable {scope : Option String}

theorem Setup.owned (hset : Setup scope job key ns u) {i : Nat} {n : String} {v : Json}
    {owner : OwnerReference} (howner : ownerRefFor job "batch/v1" "Job" = some owner)
    (hb : buildPod job i owner = .ok (some (n, v))) :
    isOwnedBy v u = true := by
  obtain ⟨jobName, u', hname, huid, rfl⟩ := Controllers.ownerRefFor_eq howner
  obtain rfl : u' = u := by
    have := hset.uid
    rw [huid] at this
    exact this
  simp only [buildPod, hname] at hb
  obtain ⟨made, hmade, hb⟩ := Except.of_bind_ok hb
  cases made with
  | none => cases hb
  | some pod =>
    obtain ⟨pod', hedit, hb⟩ := Except.of_bind_ok hb
    cases hb
    rw [isOwnedBy_editTemplate hedit (by decide)]
    exact isOwnedBy_podFromTemplate hmade (uid_nonempty huid) hset.clean

theorem Delta.fresh (hset : Setup scope job key ns u) (hd : Delta scope job (podsOf c key u) cmds) :
    Fresh key ns u c cmds := by
  obtain ⟨pods, rfl, hnames, hpods⟩ := hd.puts
  rw [hset.childNs]
  have hkeys : (pods.map fun p => (ResourceCommand.put (podKeyIn ns p.2.1) p.2.2 none)).flatMap
      ResourceCommand.keys = (pods.map fun p => p.2.1).map (podKeyIn ns) := by
    rw [flatMap_map, map_map]
    exact map_eq_flatMap.symm
  refine ⟨?_, ?_, ?_⟩
  · intro cmd hcmd
    obtain ⟨p, hp, rfl⟩ := mem_map.mp hcmd
    obtain ⟨-, owner, howner, hb⟩ := hpods p hp
    exact ⟨p.2.1, p.2.2, rfl, hset.owned howner hb⟩
  · rw [hkeys]
    refine hnames.map fun a b hab => ?_
    exact congrArg ResourceKey.name hab
  · rw [hkeys]
    intro k hk e he hek
    obtain ⟨n, hn, rfl⟩ := mem_map.mp hk
    obtain ⟨p, hp, rfl⟩ := mem_map.mp hn
    exact (hpods p hp).1 e he (congrArg ResourceKey.name hek)

theorem Inv.idle (h : Inv job key ns u ⟨c, st⟩) : Inv job key ns u ⟨c, .idle⟩ where
  staged := .idle
  within := h.within.fewer (zero_le _)
  live := fun j hj => ⟨(h.live j hj).1, (h.live j hj).2.1, fun _ => rfl⟩

theorem Inv.gather (hset : Setup scope job key ns u) {p : Json}
    (h : Inv job key ns u ⟨c, .listed p⟩) :
    Inv job key ns u ⟨c, (controller scope).gatherStage c key.ns p⟩ := by
  have hidle := h.idle
  cases h.staged with
  | listed hsame =>
    unfold Workload.gatherStage
    split
    · rename_i u' g huid hgen
      have hjob : uid job = some u' := hsame.uid_eq.trans huid
      obtain rfl : u' = u := by
        have := hset.uid
        rw [hjob] at this
        exact this
      split
      · rename_i todo htodo
        have hd : Delta scope job (podsOf c key u') todo := by
          refine reconcileOne_delta ?_
          rw [reconcileOne_congr hsame (isObject_of_uid hjob)]
          exact htodo
        refine ⟨.writing ⟨hsame, hjob, rfl⟩ (hd.fresh hset), hidle.within.planned hd,
          fun j hj => ?_⟩
        obtain ⟨hs, htold, -⟩ := hidle.live j hj
        refine ⟨hs, htold, fun hfin => ?_⟩
        -- a finished Job gets nothing planned
        by_contra hne
        obtain ⟨⟨n, hn⟩, -, ⟨b, hb⟩⟩ := hd.reads
        obtain ⟨hless, hretry⟩ := hd.unfinished hne n b hn hb
        rw [countPhase_succeeded, ← limit_eq hn] at hless
        rw [countPhase_failed, ← limit_eq hb] at hretry
        rcases hfin with hfin | hfin
        · exact absurd (htold.complete hfin) (not_le.mpr hless)
        · exact absurd (htold.failed hfin) (not_lt.mpr hretry)
      · exact hidle
    · exact hidle

theorem Inv.restage {st' : Stage} (h : Inv job key ns u ⟨c, st⟩) (hs : Staged job key ns u c st')
    (hlen : (outstanding st').length ≤ (outstanding st).length) : Inv job key ns u ⟨c, st'⟩ where
  staged := hs
  within := h.within.fewer hlen
  live := fun j hj => by
    obtain ⟨hsame, htold, hquiet⟩ := h.live j hj
    refine ⟨hsame, htold, fun hfin => length_eq_zero_iff.mp ?_⟩
    rw [hquiet hfin] at hlen
    exact le_zero.mp hlen

theorem PodPut.stampCreate (h : PodPut ns u cmd) (now : Timestamp) :
    PodPut ns u (stampCreate now cmd) ∧ (stampCreate now cmd).keys = cmd.keys := by
  obtain ⟨n, v, rfl, hv⟩ := h
  exact ⟨⟨n, stampCreateTimestamp now v, rfl, by rw [isOwnedBy_stampCreateTimestamp, hv]⟩, rfl⟩

theorem PodPut.stampBirths (h : PodPut ns u cmd) (c : ResourceCatalog) (now : Timestamp) :
    PodPut ns u (c.stampBirths now cmd) ∧ (c.stampBirths now cmd).keys = cmd.keys := by
  obtain ⟨n, v, rfl, hv⟩ := h
  exact ⟨⟨n, c.stampBirth now (podKeyIn ns n) v, rfl, by rw [isOwnedBy_stampBirth, hv]⟩, rfl⟩

theorem Inv.probe (h : Inv job key ns u ⟨c, .writing p (cmd :: todo)⟩) (now : Timestamp) :
    Inv job key ns u ⟨c, probeStage c now p cmd todo⟩ := by
  cases h.staged with
  | writing hp hf =>
    have hput := hf.puts cmd (.head _)
    unfold probeStage
    split
    · exact h.restage (.writing hp hf.tail) (le_succ _)
    · obtain ⟨hput', hkeys⟩ := hput.stampCreate now
      exact h.restage (.probed hp (hf.restamp hput' hkeys)) (le_refl _)
    · exact h.restage (.probed hp hf) (le_refl _)

theorem Inv.send (h : Inv job key ns u ⟨c, .probed p cmd todo⟩) (now : Timestamp) :
    Inv job key ns u ⟨c, sendStage c now p cmd todo⟩ := by
  cases h.staged with
  | probed hp hf =>
    unfold sendStage
    split
    · exact h.idle
    · obtain ⟨hput', hkeys⟩ := (hf.puts cmd (.head _)).stampBirths c now
      exact h.restage (.sent hp (hf.restamp hput' hkeys)) (le_refl _)

variable (env : Env)

theorem Inv.commit (hset : Setup scope job key ns u) (h : Inv job key ns u ⟨c, .sent p cmd todo⟩)
    (slot : LogSlot) : Inv job key ns u ⟨commitSlot env c cmd slot, .writing p todo⟩ := by
  cases h.staged with
  | sent hp hf =>
    obtain ⟨n, v, rfl, hv⟩ := hf.puts cmd (.head _)
    have hget : ∀ k', k' ≠ podKeyIn ns n →
        (commitSlot env c (.put (podKeyIn ns n) v none) slot).get k' = c.get k' := fun k' hk' =>
      commitSlot_get_ne env c _ slot (by simpa [ResourceCommand.keys] using hk')
    have hfree : ∀ e ∈ podsOf c key u, e.1 ≠ podKeyIn ns n :=
      hf.free _ (by simp [ResourceCommand.keys])
    have hg := grown_of_get_ne hfree hget
    have hkey : key ≠ podKeyIn ns n := by
      intro hk
      have := hset.kind
      rw [hk] at this
      exact absurd (show "Pod" = "Job" from this) (by decide)
    refine ⟨.writing hp (hf.tail.mono fun e' he' hmem => ?_), h.within.created hg, fun j hj => ?_⟩
    · -- the key of this create is none of those that are left
      have hne : e'.1 ≠ podKeyIn ns n := by
        intro he
        have hnodup := hf.keys
        have hdis := (nodup_append.mp hnodup).2.2
        exact hdis (podKeyIn ns n) (by simp [ResourceCommand.keys]) e'.1 hmem he.symm
      obtain ⟨hin, hlive, howned⟩ := mem_podsOf.mp he'
      rw [hget _ hne] at hlive
      exact ⟨e', mem_podsOf.mpr ⟨hin, hlive, howned⟩, rfl⟩
    · rw [hget key hkey] at hj
      obtain ⟨hsame, htold, hquiet⟩ := h.live j hj
      refine ⟨hsame, htold.mono (hg.counts _) (hg.counts _), fun hfin => ?_⟩
      cases hquiet hfin

theorem conditionsFor_cases (n b s f : Nat) :
    (conditionsFor n b s f = some (.arr [completeCondition]) ∧ n ≤ s) ∨
      (conditionsFor n b s f = some (.arr [failedCondition]) ∧ b < f) ∨
      (conditionsFor n b s f = none ∧ s < n ∧ f ≤ b) := by
  unfold conditionsFor
  split
  · exact .inl ⟨rfl, by assumption⟩
  · split
    · exact .inr (.inl ⟨rfl, by assumption⟩)
    · exact .inr (.inr ⟨rfl, by omega, by omega⟩)

theorem Inv.settle (h : Inv job key ns u ⟨c, .writing p []⟩) :
    Inv job key ns u ⟨c, (controller scope).settleStage c key p⟩ := by
  cases h.staged with
  | writing hp hf =>
    unfold Workload.settleStage
    simp only
    split
    · rename_i cmd hcmd
      obtain ⟨desired, hdesired, hcmd⟩ := Option.bind_eq_some_iff.mp hcmd
      have hstatus : computeStatus job (podsOf c key u) p.generation = some desired := by
        rw [computeStatus_congr hp.same (isObject_of_uid hp.uid), ← hp.mine]
        exact hdesired
      obtain ⟨fields, rfl, hsorted, hcond⟩ := computeStatus_spec hstatus
      have hform : ∃ rv, cmd = .patchCas key (.obj [("status", .obj fields)]) rv := by
        unfold statusCommand at hcmd
        split at hcmd
        · cases hcmd
        · obtain ⟨rv, -, rfl⟩ := Option.map_eq_some_iff.mp hcmd
          exact ⟨some rv, rfl⟩
      obtain ⟨rv, rfl⟩ := hform
      refine h.restage (.reporting hp.uid hsorted ?_) (le_refl _)
      rcases conditionsFor_cases (limit completions job) (limit backoffLimit job)
        (countState (podsOf c key u) .succeeded) (countState (podsOf c key u) .failed) with
        ⟨hsome, hs⟩ | ⟨hsome, hfail⟩ | ⟨hnone, hs, hfail⟩
      · exact .complete (hcond.trans hsome) hs
      · exact .failed (hcond.trans hsome) hfail
      · refine .neither (hcond.trans hnone) fun j hj => ?_
        obtain ⟨-, htold, -⟩ := h.live j hj
        refine ⟨?_, ?_⟩
        · by_contra hc
          exact absurd (htold.complete (by simpa using hc)) (not_le.mpr hs)
        · by_contra hc
          exact absurd (htold.failed (by simpa using hc)) (not_lt.mpr hfail)
    · exact h.idle

theorem get_report (c : ResourceCatalog) (key : ResourceKey) (fields : JsonMap) (rv : Option Nat)
    (slot : LogSlot) {j : Json}
    (hj : j ∈ (commitSlot env c (.patchCas key (.obj [("status", .obj fields)]) rv) slot).get key) :
    c.get key = some j ∨ ∃ old g, c.get key = some old ∧
      j = stampRevision (mergeRfc7396 old (.obj [("status", .obj fields)])) (c.revision + 1) g := by
  have hcases := mergePatch_cases env c key (.obj [("status", .obj fields)])
    rv slot.semantics slot.term slot.index
  unfold commitSlot ResourceCommand.patchCas ResourceCatalog.get at hj
  unfold ResourceCatalog.get
  generalize (c.applyUnder env (.patch key (.obj [("status", .obj fields)]) .merge none rv)
    slot.semantics
    slot.term slot.index).1.resources = res at hcases hj
  cases hcases with
  | same => exact .inl hj
  | stored g hlive hpre =>
    rw [OrdMap.get_insert, if_pos rfl, Option.map_some, Option.mem_some_iff] at hj
    exact .inr ⟨_, g, by rw [hlive, Option.map_some], hj.symm⟩
  | released hlive hpre hrel =>
    rw [OrdMap.get_erase, if_pos rfl] at hj
    cases hj

/-- A written status keeps the conditions, and says nothing that is not so. -/
theorem Reported.written {owned : Items} {live : Option Json}
    (hr : Reported job owned live fields) (hs : Sorted fields) {old : Json} (hold : live = some old)
    (htold : Told job owned old) (hone : limit completions job ≤ countState owned .succeeded →
      limit backoffLimit job < countState owned .failed → False) (rev : Nat) (g : Int) :
    Told job owned (stampRevision (mergeRfc7396 old (.obj [("status", .obj fields)])) rev g) ∧
      ∀ cond ∈ ["Complete", "Failed"], carries cond old = true →
        carries cond (stampRevision (mergeRfc7396 old (.obj [("status", .obj fields)])) rev g) =
        true := by
  cases hr with
  | complete hc hsucc =>
    have hcarries := carries_written_arr hs hc old rev g
    refine ⟨⟨fun _ => hsucc, fun hf => ?_⟩, ?_⟩
    · rw [hcarries] at hf
      exact absurd hf (by decide)
    · simp only [forall_mem_cons, not_mem_nil, false_implies, implies_true, and_true]
      refine ⟨fun _ => ?_, fun hf => (hone hsucc (htold.failed hf)).elim⟩
      rw [hcarries]
      decide
  | failed hc hfail =>
    have hcarries := carries_written_arr hs hc old rev g
    refine ⟨⟨fun hf => ?_, fun _ => hfail⟩, ?_⟩
    · rw [hcarries] at hf
      exact absurd hf (by decide)
    · simp only [forall_mem_cons, not_mem_nil, false_implies, implies_true, and_true]
      refine ⟨fun hf => (hone (htold.complete hf) hfail).elim, fun _ => ?_⟩
      rw [hcarries]
      decide
  | neither hc hlive =>
    obtain ⟨hnc, hnf⟩ := hlive old hold
    have hcarries := carries_written_none hs hc old rev g
    refine ⟨⟨fun hf => ?_, fun hf => ?_⟩, fun cond _ hf => by rw [hcarries, hf]⟩
    · rw [hcarries, hnc] at hf
      cases hf
    · rw [hcarries, hnf] at hf
      cases hf

theorem Inv.report (hset : Setup scope job key ns u) (h : Inv job key ns u ⟨c, .reporting cmd⟩)
    (slot : LogSlot) : Inv job key ns u ⟨commitSlot env c cmd slot, .idle⟩ ∧
      ∀ j ∈ c.get key, ∀ j' ∈ (commitSlot env c cmd slot).get key, ∀ cond ∈ ["Complete", "Failed"],
        carries cond j = true → carries cond j' = true := by
  cases h.staged with
  | reporting hu hs hr =>
    rename_i fields rv
    have hpods : podsOf (commitSlot env c (.patchCas key (.obj [("status", .obj fields)]) rv) slot)
      key u =
        podsOf c key u := by
      refine podsOf_congr fun k hk => commitSlot_get_ne env c _ slot ?_
      have hne : k ≠ key :=
        fun he => absurd (hk.symm.trans ((congrArg _ he).trans hset.kind)) (by decide)
      simpa [ResourceCommand.patchCas, ResourceCommand.keys] using hne
    refine ⟨⟨.idle, ?_, fun j hj => ?_⟩, fun j hj j' hj' cond hcond hc => ?_⟩
    · rw [hpods]
      exact h.within.fewer (zero_le _)
    · rw [hpods]
      rcases get_report env c key fields rv slot hj with hsame | ⟨old, g, hold, rfl⟩
      · exact ⟨(h.live j hsame).1, (h.live j hsame).2.1, fun _ => rfl⟩
      · obtain ⟨hparent, htold, -⟩ := h.live old hold
        have hobj : old.isObject = true := hparent.object ▸ isObject_of_uid hu
        exact ⟨hparent.trans (sameParent_written hobj _ _ _),
          (hr.written hs hold htold h.not_both _ _).1, fun _ => rfl⟩
    · rcases get_report env c key fields rv slot hj' with hsame | ⟨old, g, hold, rfl⟩
      · obtain rfl := Option.some.inj (hj.symm.trans hsame)
        exact hc
      · obtain rfl := Option.some.inj (hj.symm.trans hold)
        exact (hr.written hs hold (h.live j hold).2.1 h.not_both _ _).2 cond hcond hc

/-! ### Whole steps -/

/-- What the controller has made and is still there is the Job's. -/
def Mine (key : ResourceKey) (u : String) (s : Tracked) : Prop :=
  ∀ k ∈ s.made, ∃ v, (k, v) ∈ podsOf s.run.cat key u

section
variable (hset : Setup scope job key ns u)
include hset

theorem Inv.step (hmove : Interleaved env key u s e)
    (hstay : FinishedKept env key u s e) (h : Inv job key ns u s.run) :
    Inv job key ns u (s.run.step (controller scope) env key e) := by
  obtain ⟨⟨c, st⟩, made⟩ := s
  have hcases := Reconcile.step_cases (controller scope) env key ⟨c, st⟩ e
  generalize Reconcile.step (controller scope) env key ⟨c, st⟩ e = s' at hcases
  cases hcases with
  | stay => exact h
  | other op => exact h.other hmove hstay
  | list hlive => exact h.restage (.listed (h.live _ hlive).1) (le_refl _)
  | gather p => exact h.gather hset
  | probe now p cmd todo => exact h.probe now
  | send now p cmd todo => exact h.send now
  | commit slot p cmd todo => exact h.commit env hset slot
  | settle p => exact h.settle
  | report slot cmd => exact (h.report env hset slot).1
  | abandon => exact h.idle

/-- A pod of the Job that is still there after a step is the Job's after it. -/
theorem Inv.kept (hmove : Interleaved env key u s e)
    (h : Inv job key ns u s.run) {k : ResourceKey} {v : Json} (hk : (k, v) ∈ podsOf s.run.cat key u)
    (hsome : ((s.run.step (controller scope) env key e).cat.get k).isSome = true) :
    ∃ v', (k, v') ∈ podsOf (s.run.step (controller scope) env key e).cat key u := by
  obtain ⟨⟨c, st⟩, made⟩ := s
  have hcases := Reconcile.step_cases (controller scope) env key ⟨c, st⟩ e
  generalize Reconcile.step (controller scope) env key ⟨c, st⟩ e = s' at hcases hsome ⊢
  cases hcases with
  | other op =>
    rcases hmove.2.2 (k, v) hk with ⟨e', he', hek⟩ | hnone
    · obtain ⟨k', v'⟩ := e'
      obtain rfl : k' = k := hek
      exact ⟨v', he'⟩
    · rw [hnone] at hsome
      cases hsome
  | commit slot p cmd todo =>
    cases h.staged with
    | sent hp hf =>
      have hne : k ∉ cmd.keys := fun hmem =>
        hf.free k (by rw [flatMap_cons]; exact mem_append_left _ hmem) (k, v) hk rfl
      obtain ⟨hin, hlive, howned⟩ := mem_podsOf.mp hk
      exact ⟨v, mem_podsOf.mpr ⟨hin, (commitSlot_get_ne env c cmd slot hne).trans hlive, howned⟩⟩
  | report slot cmd =>
    cases h.staged with
    | reporting hu hs hr =>
      obtain ⟨hin, hlive, howned⟩ := mem_podsOf.mp hk
      have hne : k ≠ key := by
        rintro rfl
        have hkind : "Pod" = "Job" := (ListScope.kind_of_contains hin).symm.trans hset.kind
        exact absurd hkind (by decide)
      refine ⟨v, mem_podsOf.mpr ⟨hin, (commitSlot_get_ne env c _ slot ?_).trans hlive, howned⟩⟩
      simpa [ResourceCommand.patchCas, ResourceCommand.keys] using hne
  | _ => exact ⟨v, hk⟩

/-- A create that changes its key makes a pod of the Job. -/
theorem Inv.created {s : Reconcile} (h : Inv job key ns u s) {k : ResourceKey}
    (hput : putting s e = some k)
    (hnew : (s.step (controller scope) env key e).cat.get k ≠ s.cat.get k)
    (hsome : ((s.step (controller scope) env key e).cat.get k).isSome = true) :
    ∃ v, (k, v) ∈ podsOf (s.step (controller scope) env key e).cat key u := by
  obtain ⟨c, st⟩ := s
  cases e with
  | commit slot =>
    cases h.staged with
    | sent hp hf =>
      obtain ⟨n, v, rfl, hv⟩ := hf.puts _ (.head _)
      obtain rfl : podKeyIn ns n = k := Option.some.inj hput
      have hin : (podScope key.ns).contains (podKeyIn ns n) = true := by
        simp [podScope, ListScope.contains, podKeyIn, hset.keyNs]
      simp only [Reconcile.step, commitSlot] at hnew hsome ⊢
      rcases put_get_cases env c (podKeyIn ns n) v none slot.semantics slot.term slot.index with
        hsame | hnone | ⟨cr, prior, g, hstored⟩
      · exact absurd hsame hnew
      · rw [hnone] at hsome
        cases hsome
      · refine ⟨_, mem_podsOf.mpr ⟨hin, hstored, ?_⟩⟩
        rw [isOwnedBy_stored, hv]
    | _ => cases hput
  | _ => cases hput

variable (hmove : Interleaved env key u s e) (h : Inv job key ns u s.run) (hmine : Mine key u s)
include hmove h hmine

theorem Mine.step : Mine key u (s.step env scope key e) := by
  intro k hk
  obtain ⟨hmem, hsome⟩ := mem_filter.mp hk
  rcases mem_append.mp hmem with hcreated | hmade
  · obtain ⟨hput, hnew⟩ := mem_filter.mp hcreated
    exact h.created env hset (by simpa using hput) (by simpa using hnew) hsome
  · obtain ⟨v, hv⟩ := hmine k hmade
    exact h.kept env hset hmove hv hsome

theorem Inv.stays : Stays env scope key s e := by
  obtain ⟨⟨c, st⟩, made⟩ := s
  refine ⟨fun k hk => ?_, fun j hj j' hj' cond hcond hc => ?_⟩
  · cases e with
    | commit slot =>
      cases h.staged with
      | sent hp hf =>
        obtain ⟨n, v, rfl, hv⟩ := hf.puts _ (.head _)
        obtain rfl : podKeyIn ns n = k := Option.some.inj hk
        refine ⟨fun hmade => ?_, fun j hj => ?_⟩
        · obtain ⟨w, hw⟩ := hmine _ hmade
          exact hf.free _ (by simp [ResourceCommand.keys]) _ hw rfl
        · -- a create is under way, so the Job is not finished
          have hquiet := (h.live j hj).2.2
          constructor
          · by_contra hc
            cases hquiet (.inl (by simpa using hc))
          · by_contra hc
            cases hquiet (.inr (by simpa using hc))
      | _ => cases hk
    | _ => cases hk
  · have hcases := Reconcile.step_cases (controller scope) env key ⟨c, st⟩ e
    simp only [Tracked.step] at hj'
    generalize Reconcile.step (controller scope) env key ⟨c, st⟩ e = s' at hcases hj'
    have hsame : ∀ {c' : ResourceCatalog}, c'.get key = c.get key → j' ∈ c'.get key →
        carries cond j' = true := by
      intro c' hget hmem
      rw [hget] at hmem
      obtain rfl := Option.some.inj (hj.symm.trans hmem)
      exact hc
    cases hcases with
    | other op => exact hsame hmove.1 hj'
    | commit slot p cmd todo =>
      refine hsame ?_ hj'
      cases h.staged with
      | sent hp hf =>
        obtain ⟨n, v, rfl, hv⟩ := hf.puts _ (.head _)
        refine commitSlot_get_ne env c _ slot fun hmem => ?_
        obtain rfl : key = podKeyIn ns n := by simpa [ResourceCommand.keys] using hmem
        exact absurd (show "Pod" = "Job" from hset.kind) (by decide)
    | report slot cmd => exact (h.report env hset slot).2 j hj j' hj' cond hcond hc
    | _ => exact hsame rfl hj'

end
end Steps

/-! ## The run -/

/-- The uid of the Job. Without one nothing is done for it. -/
def jobUid (job : Json) : String := (uid job).getD ""

def jobKey (ns n : String) : ResourceKey := ⟨"batch", "v1", "Job", some ns, n⟩

def fresh (c : ResourceCatalog) : Tracked := ⟨⟨c, .idle⟩, []⟩

/-- In every run of the passes over a new Job between moves of its pods in which finished pods stay:
the pods are within what the Job asks for, no pod is created for a finished Job or by the name of a
pod that is there, and a condition that says the Job is finished stays. The template brings no owner
of its own, and the pods go where the Job is. -/
theorem job_stays_finished (env : Env) (scope : Option String) (ns n : String) (c : ResourceCatalog)
    (job : Json)
    (hjob : c.get (jobKey ns n) = some job) (hnew : podsOf c (jobKey ns n) (jobUid job) = [])
    (hopen : carries "Complete" job = false ∧ carries "Failed" job = false)
    (hns : childNamespace job scope = ns)
    (hclean : ∀ t ∈ templateOf job, BringsNoOwner (jobUid job) t)
    (events : List PassEvent) (hmoves : Run.Along (Tracked.step env scope (jobKey ns n))
      (fun s e => Interleaved env (jobKey ns n) (jobUid job) s e ∧
        FinishedKept env (jobKey ns n) (jobUid job) s e) (fresh c) events) :
    WithinLimits (jobKey ns n) (jobUid job) job
        (Run.exec (Tracked.step env scope (jobKey ns n)) (fresh c) events).run.cat ∧
      Run.Along (Tracked.step env scope (jobKey ns n))
        (Stays env scope (jobKey ns n)) (fresh c) events := by
  have hset : Setup scope job (jobKey ns n) ns (jobUid job) := ⟨rfl, rfl, hns, rfl, hclean⟩
  have hstart : Inv job (jobKey ns n) ns (jobUid job) (fresh c).run ∧
      Mine (jobKey ns n) (jobUid job) (fresh c) := by
    refine ⟨⟨.idle, ?_, fun j hj => ?_⟩, List.forall_mem_nil _⟩
    · show Within job (podsOf c _ (jobUid job)) 0
      rw [hnew]
      exact ⟨Nat.zero_le _, Nat.zero_le _, fun h => absurd h (Nat.not_lt_zero _)⟩
    · obtain rfl := Option.some.inj (hjob.symm.trans hj)
      refine ⟨.refl _, ⟨fun h => ?_, fun h => ?_⟩, fun _ => rfl⟩
      · rw [hopen.1] at h
        cases h
      · rw [hopen.2] at h
        cases h
  have hstep : ∀ s e, (Interleaved env (jobKey ns n) (jobUid job) s e ∧
      FinishedKept env (jobKey ns n) (jobUid job) s e) →
      (Inv job (jobKey ns n) ns (jobUid job) s.run ∧ Mine (jobKey ns n) (jobUid job) s) →
      (Inv job (jobKey ns n) ns (jobUid job)
          (s.step env scope (jobKey ns n) e).run ∧
        Mine (jobKey ns n) (jobUid job)
          (s.step env scope (jobKey ns n) e)) :=
    fun s e hok h => ⟨h.1.step env hset hok.1 hok.2, h.2.step env hset hok.1 h.1⟩
  refine ⟨?_, Run.Along.imp_of_inv hstep (fun s e hok h => h.1.stays env hset hok.1 h.2)
    hstart hmoves⟩
  obtain ⟨hinv, -⟩ := Run.Along.exec_inv hstep hstart hmoves
  have hwithin := hinv.within.fewer (Nat.zero_le _)
  refine ⟨fun m hm => ?_, fun m hm => ?_⟩
  · rw [countPhase_succeeded, countActive_eq, ← limit_eq hm]
    exact hwithin.total
  · rw [countActive_eq, ← limit_eq hm]
    exact hwithin.active

/-! ## Runs of one Job -/

def loneJob : Json :=
  .obj [
    ("metadata", .obj [("name", .str "j"), ("namespace", .str "default"),
      ("resourceVersion", .str "1"), ("uid", .str "u1")]),
    ("spec", .obj [("template", .obj [("spec", .obj [])])])]

def lone : ResourceCatalog :=
  { ResourceCatalog.withHistoryCapacity 1 with
    resources := .ofList [(jobKey "default" "j", (loneJob, .createdAt 1))] }

/-- A pass that creates one pod and reports. -/
def creatingPass (at_ : Nat) : List PassEvent :=
  [.list, .gather, .probe anInstant, .send anInstant, .commit ⟨.v1, 1, at_⟩, .settle,
    .report ⟨.v1, 1, at_ + 1⟩]

/-- A pass that only reports. -/
def reportingPass (at_ : Nat) : List PassEvent := [.list, .gather, .settle, .report ⟨.v1, 1, at_⟩]

/-- The pod of the Job succeeds. -/
def succeeds (at_ : Nat) : PassEvent :=
  .other (.command (.patch (podKeyIn "default" "j-0")
    (.obj [("status", .obj [("phase", .str "Succeeded")])])
    .merge none none) .v1 1 at_)

/-- The pod of the Job is collected. -/
def collected (at_ : Nat) : PassEvent :=
  .other (.command (.delete (podKeyIn "default" "j-0") none none) .v1 1 at_)

def completing : List PassEvent := creatingPass 1 ++ [succeeds 3] ++ reportingPass 4

theorem job_stays_finished_lone :
    (Run.exec (Tracked.step atomicEnv none (jobKey "default" "j")) (fresh lone)
      completing).run.cat.get
        (jobKey "default" "j") ≠ some loneJob ∧
      Run.Along (Tracked.step atomicEnv none (jobKey "default" "j"))
        (Stays atomicEnv none (jobKey "default" "j")) (fresh lone)
        (completing ++ reportingPass 5) := by
  refine ⟨by decide +kernel, ?_⟩
  exact (job_stays_finished atomicEnv none "default" "j" lone loneJob (by decide +kernel)
    (by decide +kernel)
    (by decide +kernel) (by decide +kernel) (by decide +kernel) _ (by decide +kernel)).2

/-- The one pod of a Job succeeds and the Job is Complete. Then the pod is collected, and the next
pass creates it again while the Job is still marked Complete. -/
theorem collected_pods_restart :
    Run.Along (Tracked.step atomicEnv none (jobKey "default" "j"))
    (Interleaved atomicEnv (jobKey "default" "j") "u1")
        (fresh lone) (completing ++ [collected 5] ++ creatingPass 6) ∧
      ((Run.exec (Tracked.step atomicEnv none (jobKey "default" "j")) (fresh lone)
        (completing ++ [collected 5])).run.cat.get (jobKey "default" "j")).any
        (carries "Complete") = true ∧
      ((Run.exec (Tracked.step atomicEnv none (jobKey "default" "j")) (fresh lone)
        (completing ++ [collected 5])).run.cat.get (podKeyIn "default" "j-0")) = none ∧
      ((Run.exec (Tracked.step atomicEnv none (jobKey "default" "j")) (fresh lone)
        (completing ++ [collected 5] ++ creatingPass 6)).run.cat.get
        (podKeyIn "default" "j-0")).isSome = true ∧
      ¬ Run.Along (Tracked.step atomicEnv none (jobKey "default" "j"))
      (Stays atomicEnv none (jobKey "default" "j"))
        (fresh lone) (completing ++ [collected 5] ++ creatingPass 6) := by
  decide +kernel

end Job
end Controllers
end Engenho
