import Engenho.Lib.Cursor
import Engenho.Store.Read

/-!
# A series of pages of the present

A reader pages through a scope at the head: it takes a page, goes on at the cursor the page names,
and stops when there is none. Any operations may run between two calls (`liveSeries`). Each call
reads the catalog as it is then, so the pages are those of a changing sorted set (`Cursor.Series`).
-/

namespace Engenho
open Except Logged ResourceCatalog List
section
variable (env : Env) (scope : ListScope) (limit : Nat)

/-- The pages of a series, each with the state it was read from. Before each call a batch of
operations runs. -/
def liveSeries (s : Logged) (after : Option ResourceKey) :
    List (List CatalogOp) → Except ReadRefused (List (Logged × PageAtRevision))
  | [] => .ok []
  | ops :: batches => do
    let s := Run.exec (Logged.step env) s ops
    let page ← s.cat.readPage scope after limit .latest
    match page.next with
    | none => return [(s, page)]
    | some cursor =>
      let later ← liveSeries s (some cursor) batches
      return (s, page) :: later

end

variable (calls : List (Logged × PageAtRevision))

/-- The last page of the series named no cursor. -/
def seriesEnded : Bool :=
  calls.getLast?.any fun call => call.2.next.isNone

/-- The keys that the pages brought. -/
def seriesKeys : List ResourceKey :=
  calls.flatMap fun call => call.2.items.map Prod.fst

/-! ## One page -/

/-- The keys of the scope that are live. -/
def ResourceCatalog.keysIn (c : ResourceCatalog) (scope : ListScope) : List ResourceKey :=
  (c.resources.entries.map Prod.fst).filter fun k => scope.contains k

theorem ResourceCatalog.sorted_keysIn (c : ResourceCatalog) (scope : ListScope) :
    (c.keysIn scope).Pairwise (· < ·) := by
  refine List.Pairwise.filter _ ?_
  exact pairwise_map.mpr c.resources.sorted

variable {c : ResourceCatalog}

theorem ResourceCatalog.mem_keysIn {scope : ListScope} {k : ResourceKey} :
    k ∈ c.keysIn scope ↔ (c.resources.get k).isSome = true ∧ scope.contains k = true := by
  rw [keysIn, mem_filter, mem_map, Option.isSome_iff_exists]
  refine and_congr_left fun _ => ⟨?_, ?_⟩
  · rintro ⟨⟨k', v⟩, hmem, rfl⟩
    exact ⟨v, (c.resources.mem_entries).mp hmem⟩
  · rintro ⟨v, hv⟩
    exact ⟨(k, v), (c.resources.mem_entries).mpr hv, rfl⟩

theorem map_fst_range (c : ResourceCatalog) (scope : ListScope) (after : Option ResourceKey) :
    ((scope.range c.resources after).map fun e => (e.1, e.2.1)).map Prod.fst =
      Cursor.run after (c.keysIn scope) := by
  rw [ListScope.range_eq_filter, Cursor.run, keysIn, filter_filter, filter_map, map_map]
  have hsame : c.resources.entries.filter (fun e => scope.contains e.1 &&
      after.all fun cursor => decide (cursor < e.1)) =
      c.resources.entries.filter ((fun k => Cursor.ahead after k && scope.contains k) ∘ Prod.fst) :=
    filter_congr fun e _ => Bool.and_comm ..
  rw [hsame]
  rfl

/-- A page of a run is one of its keys. -/
theorem pageOf_spec {run : List (ResourceKey × ResourceValue)} {limit : Nat} (hlimit : 0 < limit)
    (rev : Nat) : (pageOf run limit rev).items.map Prod.fst = (run.map Prod.fst).take limit ∧
      (pageOf run limit rev).remaining = ((run.map Prod.fst).drop limit).length ∧
      (pageOf run limit rev).next =
        if limit < (run.map Prod.fst).length then ((run.map Prod.fst).take
          limit).getLast? else none := by
  have hne : ¬ limit = 0 := by omega
  rw [pageOf, if_neg hne]
  refine ⟨by simp, by simp, ?_⟩
  simp only [length_drop, length_map]
  by_cases hlt : limit < run.length
  · rw [if_pos (by omega), if_pos hlt, ← map_take, List.getLast?_map]
  · rw [if_neg (by omega), if_neg hlt]

variable {after : Option ResourceKey}

/-- A page of the present is a page of the live keys. -/
theorem readPage_latest {scope : ListScope} {limit : Nat} (hlimit : 0 < limit)
    {page : PageAtRevision} (h : c.readPage scope after limit .latest = .ok page) :
    page.items.map Prod.fst = Cursor.page limit after (c.keysIn scope) ∧
      page.next = Cursor.next limit after (c.keysIn scope) ∧
      page.remaining = ((Cursor.run after (c.keysIn scope)).drop limit).length := by
  rw [readPage] at h
  split at h
  · cases h
  cases h
  have hspec := fun run => @pageOf_spec run limit hlimit c.revision
  obtain ⟨hitems, hremaining, hnext⟩ :=
    hspec ((scope.range c.resources after).map fun e => (e.1, e.2.1))
  rw [map_fst_range] at hitems hremaining hnext
  exact ⟨hitems, hnext, hremaining⟩

/-! ## The series -/

section
variable {env : Env} {scope : ListScope} {limit : Nat}

/-- The series as a series over a changing set of keys. -/
def keyCalls (scope : ListScope) (calls : List (Logged × PageAtRevision)) :
    List (List ResourceKey × List ResourceKey) :=
  calls.map fun call => (call.1.cat.keysIn scope, call.2.items.map Prod.fst)

variable {batches : List (List CatalogOp)} {s : Logged} {calls : List (Logged × PageAtRevision)}

theorem liveSeries_series (hlimit : 0 < limit)
    (h : liveSeries env scope limit s after batches = .ok calls) :
    Cursor.Series limit after (keyCalls scope calls) (seriesEnded calls) := by
  induction batches generalizing s after calls with
  | nil =>
    cases h
    exact .stop after
  | cons ops batches ih =>
    obtain ⟨page, hpage, h⟩ := of_bind_ok h
    obtain ⟨hitems, hnext, -⟩ := readPage_latest hlimit hpage
    split at h
    · rename_i hnone
      cases h
      rw [hnone] at hnext
      have hended : seriesEnded [(Run.exec (step env) s ops, page)] = true := by
        simp [seriesEnded, hnone]
      rw [hended, keyCalls, map_singleton, hitems]
      exact .last hnext.symm
    · rename_i cursor hcursor
      obtain ⟨later, hlater, h⟩ := of_bind_ok h
      cases h
      rw [hcursor] at hnext
      have hrest := ih hlater
      rw [keyCalls, map_cons, hitems]
      have hended : seriesEnded ((Run.exec (step env) s ops, page) :: later) =
          seriesEnded later := by
        cases later with
        | nil => simp [seriesEnded, hcursor]
        | cons call later => rw [seriesEnded, seriesEnded, List.getLast?_cons_cons]
      rw [hended]
      exact .more hnext.symm hrest

theorem seriesKeys_eq (scope : ListScope) (calls : List (Logged × PageAtRevision)) :
    seriesKeys calls = Cursor.returned (keyCalls scope calls) := by
  rw [seriesKeys, Cursor.returned, keyCalls, flatMap_map]

variable (env) in
/-- As long as nothing is committed the objects stay the same. -/
theorem exec_log_resources (s : Logged) (ops : List CatalogOp) :
    ∃ changes, (Run.exec (step env) s ops).log = s.log ++ changes ∧
      (changes = [] → (Run.exec (step env) s ops).cat.resources = s.cat.resources) := by
  induction ops generalizing s with
  | nil => exact ⟨[], by simp, fun _ => rfl⟩
  | cons op ops ih =>
    obtain ⟨changes, hlog, hres⟩ := ih (s.step env op)
    refine ⟨(s.cat.perform env op).2 ++ changes, ?_, fun hnil => ?_⟩
    · rw [Run.exec_cons, hlog, step, append_assoc]
    · obtain ⟨hop, hchanges⟩ := append_eq_nil_iff.mp hnil
      rw [Run.exec_cons, hres hchanges, step, (perform_writes env s.cat op).2, hop]
      rfl

variable {call : Logged × PageAtRevision}

/-- The log grows along a series, and the objects of two calls with one log are the same. -/
theorem liveSeries_log (h : liveSeries env scope limit s after batches = .ok calls)
    (hcall : call ∈ calls) :
    ∃ changes, call.1.log = s.log ++ changes ∧
    (changes = [] → call.1.cat.resources = s.cat.resources) := by
  induction batches generalizing s after calls with
  | nil =>
    cases h
    cases hcall
  | cons ops batches ih =>
    obtain ⟨page, -, h⟩ := of_bind_ok h
    obtain ⟨first, hlog, hres⟩ := exec_log_resources env s ops
    split at h
    · cases h
      rw [mem_singleton.mp hcall]
      exact ⟨first, hlog, hres⟩
    obtain ⟨later, hlater, h⟩ := of_bind_ok h
    cases h
    rcases mem_cons.mp hcall with rfl | hcall
    · exact ⟨first, hlog, hres⟩
    · obtain ⟨more, hmore, hres'⟩ := ih hlater hcall
      refine ⟨first ++ more, by rw [hmore, hlog, append_assoc], fun hnil => ?_⟩
      obtain ⟨h₁, h₂⟩ := append_eq_nil_iff.mp hnil
      rw [hres' h₂, hres h₁]

/-- The calls of a series during which nothing is committed read the same objects. -/
theorem liveSeries_same {first : Logged × PageAtRevision} {later : List (Logged × PageAtRevision)}
    (h : liveSeries env scope limit s after batches = .ok (first :: later))
    (hlog : ∀ call ∈ later, call.1.log = first.1.log) :
    ∀ call ∈ later, call.1.cat.resources = first.1.cat.resources := by
  intro call hcall
  cases batches with
  | nil => cases h
  | cons ops batches =>
    obtain ⟨page, -, h⟩ := of_bind_ok h
    split at h
    · cases h
      cases hcall
    · obtain ⟨later', hlater, h⟩ := of_bind_ok h
      cases h
      obtain ⟨changes, hchanges, hres⟩ := liveSeries_log hlater hcall
      refine hres ?_
      rw [hlog call hcall] at hchanges
      simpa using hchanges

/-- While nothing is committed, what is left behind a page is what the later pages bring. -/
theorem liveSeries_remaining (hlimit : 0 < limit)
    (h : liveSeries env scope limit s after batches = .ok calls) (hended : seriesEnded calls = true)
    (hlog : ∀ call ∈ calls, ∀ call' ∈ calls, call.1.log = call'.1.log)
    {pre post : List (Logged × PageAtRevision)} (hcalls : calls = pre ++ call :: post) :
    call.2.remaining = (seriesKeys post).length := by
  induction pre generalizing s after batches calls with
  | nil =>
    subst hcalls
    have hres := liveSeries_same h fun call' hcall' => hlog call' (.tail _ hcall') call (.head _)
    have hseries := liveSeries_series hlimit h
    rw [hended] at hseries
    have hkeys : ∀ c ∈ keyCalls scope post, c.1 = call.1.cat.keysIn scope := by
      intro c hc
      obtain ⟨call', hcall', rfl⟩ := mem_map.mp hc
      simp only [keysIn, hres call' hcall']
    have hcount := hseries.remaining hlimit (call.1.cat.sorted_keysIn scope) hkeys
    rw [seriesKeys_eq scope]
    refine Eq.trans ?_ hcount
    cases batches with
    | nil => cases h
    | cons ops batches =>
      obtain ⟨page, hpage, h⟩ := of_bind_ok h
      have hremaining := (readPage_latest hlimit hpage).2.2
      split at h
      · cases h
        exact hremaining
      · obtain ⟨later, -, h⟩ := of_bind_ok h
        cases h
        exact hremaining
  | cons first pre ih =>
    subst hcalls
    cases batches with
    | nil => cases h
    | cons ops batches =>
      obtain ⟨page, -, h⟩ := of_bind_ok h
      split at h
      · have := List.cons.inj (Except.ok.inj h)
        simp at this
      · obtain ⟨later, hlater, h⟩ := of_bind_ok h
        obtain ⟨-, rfl⟩ := List.cons.inj (Except.ok.inj h)
        refine ih hlater ?_ (fun c hc c' hc' => hlog c (.tail _ hc) c'
          (.tail _ hc')) rfl
        have hne : pre ++ call :: post ≠ [] := by simp
        rw [seriesEnded, cons_append, List.getLast?_cons_of_ne_nil hne] at hended
        exact hended

/-- Whatever runs between the calls of a series at the head: the keys come in increasing order, no
key twice, all of the scope; a key of the scope that is live at every call of a series that came to
its end comes exactly once; and if nothing is committed from the first call on, the count of what
remains behind a page is the number of items on the later pages. -/
theorem liveSeries_stable (hlimit : 0 < limit) {batches : List (List CatalogOp)} {s : Logged}
    {calls : List (Logged × PageAtRevision)}
    (h : liveSeries env scope limit s none batches = .ok calls) :
    (seriesKeys calls).Pairwise (· < ·) ∧ (seriesKeys calls).Nodup ∧
      (∀ k ∈ seriesKeys calls, scope.contains k = true) ∧
      (seriesEnded calls = true → ∀ k, scope.contains k = true →
        (∀ call ∈ calls, (call.1.cat.resources.get k).isSome = true) →
        (seriesKeys calls).count k = 1) ∧
      (seriesEnded calls = true → (∀ call ∈ calls, ∀ call' ∈ calls, call.1.log = call'.1.log) →
        ∀ pre call post, calls = pre ++ call :: post →
        call.2.remaining = (seriesKeys post).length) := by
  have hseries := liveSeries_series hlimit h
  have hsorted : ∀ call ∈ keyCalls scope calls, call.1.Pairwise (· < ·) := by
    intro call hcall
    obtain ⟨call', -, rfl⟩ := List.mem_map.mp hcall
    exact call'.1.cat.sorted_keysIn scope
  have hkeys : (seriesKeys calls).Pairwise (· < ·) := by
    rw [seriesKeys_eq scope]
    exact (hseries.sorted hsorted).1
  have hnodup : (seriesKeys calls).Nodup := hkeys.imp fun hlt => hlt.ne
  refine ⟨hkeys, hnodup, ?_, fun hended k hk hlive => ?_,
    fun hended hlog pre call post hcalls => ?_⟩
  · intro k hk
    rw [seriesKeys_eq scope] at hk
    obtain ⟨call, hcall, hlive⟩ := hseries.mem_live hk
    obtain ⟨call', -, rfl⟩ := List.mem_map.mp hcall
    exact (ResourceCatalog.mem_keysIn.mp hlive).2
  · refine List.count_eq_one_of_mem hnodup ?_
    rw [seriesKeys_eq scope]
    rw [hended] at hseries
    refine hseries.complete hlimit hsorted rfl fun call hcall => ?_
    obtain ⟨call', hcall', rfl⟩ := List.mem_map.mp hcall
    exact ResourceCatalog.mem_keysIn.mpr ⟨hlive call' hcall', hk⟩
  · exact liveSeries_remaining hlimit h hended hlog hcalls

end

/-! ## An example -/

def defaultPods : ListScope := ⟨"", "v1", "Pod", some "default"⟩

def defaultPod (name : String) : ResourceKey := ⟨"", "v1", "Pod", some "default", name⟩

def putDefaultPod (name : String) : CatalogOp :=
  .command (.put (defaultPod name) (podBody []) none) .v1 1 1

/-- Three pods are read two at a time. Before the second call the pod at the cursor is deleted, and
one is put before it. -/
def movingBatches : List (List CatalogOp) :=
  [[putDefaultPod "a", putDefaultPod "b", putDefaultPod "d"],
    [.command (.delete (defaultPod "b") none none) .v1 1 2, putDefaultPod "aa"]]

theorem movingBatches_stable :
    ∃ calls, liveSeries atomicEnv defaultPods 2 (Logged.init 8) none movingBatches = .ok calls ∧
      seriesKeys calls = [defaultPod "a", defaultPod "b", defaultPod "d"] ∧
      (seriesKeys calls).count (defaultPod "d") = 1 := by
  have hcalls : liveSeries atomicEnv defaultPods 2 (Logged.init 8) none movingBatches = .ok _ := rfl
  have hstable := liveSeries_stable (by decide) hcalls
  exact ⟨_, hcalls, by decide +kernel, hstable.2.2.2.1 rfl (defaultPod "d") (by decide)
    (by decide +kernel)⟩

end Engenho
