import Engenho.Lib.Keyed
import Engenho.Store.WatchDelivery
import Engenho.Api.WatchServe

/-!
# The view of a client

What a client that applies watch events holds, as a replay of the store's log.

* `WatchRequest.writes`: the log as the client sees it, a list of keyed writes. Replaying it gives
  the selected objects of the store (`SteadyFrom.replay`), if no object leaves the selectors by an
  update.
* `Recorded`: the log against the store of a run; no object carries a resourceVersion above the
  revision of its write.
* `WatchClient.Tracks`: the view is the replay of what was sent; what is sent again after the client
  watches from an older resourceVersion are deletions only.
-/

namespace Engenho
open Stamped Assoc OrdMap WatchLine Keyed ChangeShape ResourceCatalog Option Nat Function

/-! ## Type metadata -/

variable (h : StoreBackedHandler) (v : Json)

/-- An object that gets its kind and version from the watch line is the same object without them. -/
theorem stripTypeMeta_stampTypeMeta (v : Json) :
    stripTypeMeta (stampTypeMeta h v) = stripTypeMeta v := by
  cases v with
  | obj m =>
    have dropped : ∀ (k s : String) (m : JsonMap),
        drop k (if (m.lookup k).isSome then m else put k (.str s) m) = drop k m := by
      intro k s m
      split
      · rfl
      · exact drop_put_self k _ m
    simp only [stampTypeMeta, stripTypeMeta]
    rw [drop_comm, dropped, drop_comm, dropped]
  | _ => rfl

theorem stripTypeMeta_idem : stripTypeMeta (stripTypeMeta v) = stripTypeMeta v := by
  cases v with
  | obj m =>
    have twice : ∀ (k : String) (m : JsonMap), drop k (drop k m) = drop k m := by simp [drop]
    simp only [stripTypeMeta]
    rw [drop_comm "kind" "apiVersion", twice, twice]
  | _ => rfl

theorem get_stripTypeMeta : (stripTypeMeta v).get "metadata" = v.get "metadata" := by
  cases v with
  | obj m =>
    simp only [stripTypeMeta, Json.get_obj]
    rw [lookup_drop_ne (by decide), lookup_drop_ne (by decide)]
  | _ => rfl

theorem rvOf_congr {v w : Json} (h : v.get "metadata" = w.get "metadata") : rvOf v = rvOf w := by
  unfold rvOf metaField
  rw [h]

@[simp] theorem rvOf_stripTypeMeta : rvOf (stripTypeMeta v) = rvOf v :=
  rvOf_congr (get_stripTypeMeta v)

@[simp] theorem rvOf_stampTypeMeta (v : Json) : rvOf (stampTypeMeta h v) = rvOf v := by
  rw [← rvOf_stripTypeMeta, stripTypeMeta_stampTypeMeta, rvOf_stripTypeMeta]

/-! ## Resource versions -/

variable {rev : Nat} {res : Resources}

/-- A stored object carries the revision of its write, or none. -/
theorem StampedValue.rvOf_eq {prior : Option Json} {r : Nat} {v : Json}
    (h : StampedValue prior rev v) (hr : rvOf v = some r) : r = rev := by
  have stamped : ∀ w, rvOf (stampResourceVersion w rev) = some r → r = rev := by
    intro w hw
    unfold rvOf at hw
    rw [stampResourceVersion, metaField_updateMetadata] at hw
    cases hb : metaBase w with
    | none =>
      rw [hb] at hw
      cases hw
    | some md =>
      rw [hb] at hw
      simp only [bind_some, lookup_put_self, Json.asStr, parseUsize_toString] at hw
      split at hw
      · exact (Option.some.inj hw).symm
      · cases hw
  cases h with
  | write w =>
    refine stamped w ?_
    rw [← hr]
    unfold rvOf
    rw [stampRevision, metaField_put_ne _ _ _ _ (by decide)]
  | terminating ts hprior hfin => exact stamped _ hr

/-- No stored object carries a resourceVersion above `rev`. -/
def RvBounded (rev : Nat) (res : Resources) : Prop :=
  ∀ key v m, res.get key = some (v, m) → ∀ r, rvOf v = some r → r ≤ rev

theorem KeyWrite.rv_le {ch : Change} (h : KeyWrite rev res ch) (hb : RvBounded rev res) :
    (∀ r, rvOf ch.value = some r → r ≤ rev) ∧ RvBounded rev (ch.applyTo res) := by
  have hvalue : ∀ r, rvOf ch.value = some r → r ≤ rev := by
    intro r hr
    cases h with
    | put hv => exact (hv.rvOf_eq hr).le
    | delete hlive => exact hb _ _ _ hlive r hr
    | release hlive hpost hrel => exact (hpost.rvOf_eq hr).le
  refine ⟨hvalue, fun key v m hk r hr => ?_⟩
  by_cases he : key = ch.key
  · subst he
    unfold Change.applyTo at hk
    split at hk
    · rw [get_insert_self] at hk
      cases hk
      exact hvalue r hr
    · rw [get_erase_self] at hk
      cases hk
  · rw [Change.get_applyTo_ne _ _ he] at hk
    exact hb key v m hk r hr

theorem Writes.rv_le {chs : List Change} (h : Writes rev res chs) (hb : RvBounded rev res) :
    (∀ ch ∈ chs, ∀ r, rvOf ch.value = some r → r ≤ rev) ∧ RvBounded rev (applyChanges res chs) := by
  induction h with
  | nil => exact ⟨by simp, hb⟩
  | cons hch _ ih =>
    obtain ⟨hvalue, hnext⟩ := hch.rv_le hb
    obtain ⟨hrest, hall⟩ := ih hnext
    refine ⟨fun c hc => ?_, hall⟩
    rcases List.mem_cons.mp hc with rfl | hc
    · exact hvalue
    · exact hrest c hc

/-! ## The log as the client sees it -/

/-- The view without type metadata, which LIST items and watch lines differ in. -/
def WatchClient.shown (c : WatchClient) (k : ResourceKey) : Option Json :=
  (c.view.get k).map stripTypeMeta

namespace WatchRequest
variable (req : WatchRequest)

/-- The objects of the scope that match the selectors. -/
def storeView (res : Resources) (k : ResourceKey) : Option Json :=
  if req.scope.contains k then
    ((res.get k).filter fun e => req.selectors.matches e.1).map fun e => stripTypeMeta e.1
  else none

/-- What the events of some changes write to the view. -/
def writes (chs : List Change) : List (ResourceKey × Option Json) :=
  (chs.filter req.forwards).map fun ch =>
    (ch.key, match ch.kind with
      | .put => some (stripTypeMeta ch.value)
      | .delete => none)

/-- An object of the scope that is selected before a change is selected behind it, and a selected
write carries its revision. -/
def Steady (res : Resources) (ch : Change) : Prop :=
  req.scope.contains ch.key = true →
    (∀ e ∈ res.get ch.key, req.selectors.matches e.1 = true →
      req.selectors.matches ch.value = true) ∧
    (ch.kind = .put → req.selectors.matches ch.value = true → rvOf ch.value = some ch.revision)

def SteadyFrom : Resources → List Change → Prop
  | _, [] => True
  | res, ch :: chs => req.Steady res ch ∧ SteadyFrom (ch.applyTo res) chs

instance (res : Resources) (ch : Change) : Decidable (req.Steady res ch) :=
  inferInstanceAs (Decidable (_ → _))

instance SteadyFrom.decidable : ∀ res chs, Decidable (req.SteadyFrom res chs)
  | _, [] => .isTrue trivial
  | res, ch :: chs =>
    have : Decidable (req.SteadyFrom (ch.applyTo res) chs) :=
      SteadyFrom.decidable (ch.applyTo res) chs
    inferInstanceAs (Decidable (req.Steady res ch ∧ req.SteadyFrom (ch.applyTo res) chs))

variable {req} {res : Resources} {ch : Change} {chs chs' : List Change}

theorem forwards_iff : req.forwards ch = true ↔
    req.scope.contains ch.key = true ∧ req.selectors.matches ch.value = true := by
  simp [forwards, watchEventFromChange, gvkNsMatches_eq_contains]

@[simp] theorem writes_append : req.writes (chs ++ chs') = req.writes chs ++ req.writes chs' := by
  simp [writes]

theorem steadyFrom_append : req.SteadyFrom res (chs ++ chs') ↔
    req.SteadyFrom res chs ∧ req.SteadyFrom (applyChanges res chs) chs' := by
  induction chs generalizing res with
  | nil => simp [SteadyFrom]
  | cons ch chs ih => simp [SteadyFrom, ih, and_assoc]

theorem storeView_applyTo_ne {k : ResourceKey} (h : k ≠ ch.key) :
    req.storeView (ch.applyTo res) k = req.storeView res k := by
  unfold storeView
  rw [Change.get_applyTo_ne res ch h]

theorem storeView_empty : req.storeView .empty = fun _ => none := by
  funext k
  simp [storeView]

/-- A change that is not forwarded leaves what the client should see. -/
theorem Steady.storeView_dropped (h : req.Steady res ch) (hf : req.forwards ch = false) :
    req.storeView (ch.applyTo res) = req.storeView res := by
  funext k
  by_cases hk : k = ch.key
  · subst hk
    unfold storeView
    cases hs : req.scope.contains ch.key with
    | false => rfl
    | true =>
      have hv : req.selectors.matches ch.value = false := by
        cases hm : req.selectors.matches ch.value with
        | false => rfl
        | true => rw [forwards_iff.mpr ⟨hs, hm⟩] at hf; cases hf
      have hbefore : (res.get ch.key).filter (fun e => req.selectors.matches e.1) = none := by
        rw [filter_eq_none_iff]
        intro e he hm
        rw [(h hs).1 e he hm] at hv
        cases hv
      have hafter : ((ch.applyTo res).get ch.key).filter (fun e => req.selectors.matches e.1) =
          none := by
        unfold Change.applyTo
        split
        · rw [get_insert_self, filter_some, hv]
          rfl
        · rw [get_erase_self]
          rfl
      rw [hbefore, hafter]
  · exact storeView_applyTo_ne hk

/-- A forwarded event does to the view what the change does to the store. -/
theorem storeView_forwarded (hf : req.forwards ch = true) :
    req.storeView (ch.applyTo res) = Keyed.replay (req.storeView res) (req.writes [ch]) := by
  obtain ⟨hs, hv⟩ := forwards_iff.mp hf
  have hw : req.writes [ch] = [(ch.key, match ch.kind with
      | .put => some (stripTypeMeta ch.value)
      | .delete => none)] := by
    simp [writes, hf]
  rw [hw]
  funext k
  simp only [Keyed.replay, List.foldl_cons, List.foldl_nil]
  by_cases hk : k = ch.key
  · subst hk
    rw [update_self]
    unfold storeView Change.applyTo
    rw [if_pos hs]
    cases ch.kind with
    | put =>
      simp only [get_insert_self, filter_some, hv]
      rfl
    | delete => simp only [get_erase_self]; rfl
  · rw [update_of_ne hk]
    exact storeView_applyTo_ne hk

theorem SteadyFrom.replay (h : req.SteadyFrom res chs) :
    Keyed.replay (req.storeView res) (req.writes chs) = req.storeView (applyChanges res chs) := by
  induction chs generalizing res with
  | nil => rfl
  | cons ch chs ih =>
    have hsplit : req.writes (ch :: chs) = req.writes [ch] ++ req.writes chs := by
      rw [← writes_append]
      rfl
    rw [hsplit, replay_append, applyChanges_cons, ← ih h.2]
    congr 1
    cases hf : req.forwards ch with
    | true => exact (storeView_forwarded hf).symm
    | false =>
      have hnone : req.writes [ch] = [] := by simp [writes, hf]
      rw [hnone, replay_nil, h.1.storeView_dropped hf]

theorem SteadyFrom.replay_empty (h : req.SteadyFrom .empty chs) :
    Keyed.replay (fun _ => none) (req.writes chs) = req.storeView (applyChanges .empty chs) := by
  rw [← storeView_empty, h.replay]

/-- Along a steady log, a selected write carries its revision. -/
theorem SteadyFrom.carries (h : req.SteadyFrom res chs) (hch : ch ∈ chs)
    (hf : req.forwards ch = true) (hk : ch.kind = .put) : rvOf ch.value = some ch.revision := by
  induction chs generalizing res with
  | nil => cases hch
  | cons c chs ih =>
    rcases List.mem_cons.mp hch with rfl | hch
    · obtain ⟨hs, hv⟩ := forwards_iff.mp hf
      exact (h.1 hs).2 hk hv
    · exact ih h.2 hch

end WatchRequest

/-! ## The list -/

namespace WatchRequest
variable {req : WatchRequest} {c : ResourceCatalog}

theorem listAt_revision {items : List Json} {rv : Nat}
    (h : req.handler.listAt c req.ns req.selectors = .ok (items, rv)) : rv = c.revision := by
  unfold StoreBackedHandler.listAt at h
  cases hr : req.handler.refuseUnreadableSecrets c req.ns with
  | error e =>
    rw [hr] at h
    cases h
  | ok _ =>
    rw [hr] at h
    cases h
    rfl

theorem listed_sorted : Sorted (req.listed c) := by
  exact ((c.listed_sorted req.scope).filter _).map stripTypeMeta

variable (k : ResourceKey)

theorem lookup_listed : (req.listed c).lookup k = req.storeView c.resources k := by
  have hentries : (c.listed req.scope).lookup k =
      ((c.resources.get k).filter fun _ => req.scope.contains k).map Prod.fst := by
    rw [ResourceCatalog.listed, entriesAfter, lookup_map, ListScope.range_eq_filter,
      c.resources.sorted.lookup_filter]
    simp [OrdMap.get]
  rw [WatchRequest.listed, lookup_map, (c.listed_sorted req.scope).lookup_filter, hentries]
  unfold storeView
  cases req.scope.contains k with
  | false => cases c.resources.get k <;> rfl
  | true =>
    cases c.resources.get k with
    | none => rfl
    | some e =>
      simp only [filter_some, if_true, map_some]
      cases req.selectors.matches e.1 <;> rfl

theorem storeView_strip (res : Resources) (k : ResourceKey) :
    (req.storeView res k).map stripTypeMeta = req.storeView res k := by
  unfold storeView
  split
  · rw [map_map]
    congr 1
    funext e
    exact stripTypeMeta_idem e.1
  · rfl

/-- The objects of a LIST are what the client should see. -/
theorem shown_listed :
    ((OrdMap.ofList (req.listed c)).get k).map stripTypeMeta = req.storeView c.resources k := by
  rw [get_ofList listed_sorted, lookup_listed, storeView_strip]

/-- So are the events in front of a stream that begins with the present state. -/
theorem shown_prelude (rv : Nat) (endBookmark : Bool) (k : ResourceKey) :
    (((req.prelude c rv endBookmark).foldl applyTo .empty).get k).map stripTypeMeta =
      req.storeView c.resources k := by
  have hevents : ((req.listed c).map fun e =>
        event .added e.1 (stampTypeMeta req.handler e.2)).foldl applyTo .empty =
      OrdMap.ofList ((req.listed c).map fun e => (e.1, stampTypeMeta req.handler e.2)) := by
    rw [OrdMap.ofList, List.foldl_map, List.foldl_map]
    rfl
  have hmarks : ∀ view : OrdMap ResourceKey Json,
      (if endBookmark then [bookmark rv true] else []).foldl applyTo view = view := by
    intro view
    cases endBookmark <;> rfl
  rw [prelude, List.foldl_append, hmarks, hevents, get_ofList (listed_sorted.map _),
    lookup_map, map_map, lookup_listed]
  have hstrip : stripTypeMeta ∘ stampTypeMeta req.handler = stripTypeMeta :=
    funext (stripTypeMeta_stampTypeMeta req.handler)
  rw [hstrip, storeView_strip]

theorem prelude_rev_le (h : RvBounded c.revision c.resources) {endBookmark : Bool}
    {line : WatchLine}
    (hline : line ∈ req.prelude c c.revision endBookmark) : line.rev ≤ c.revision := by
  rcases List.mem_append.mp hline with hline | hline
  · obtain ⟨⟨k, v⟩, he, rfl⟩ := List.mem_map.mp hline
    obtain ⟨⟨k', v'⟩, he', heq⟩ := List.mem_map.mp he
    cases heq
    obtain ⟨e, hrange, heq⟩ := List.mem_map.mp (List.mem_filter.mp he').1
    cases heq
    have hget := c.resources.mem_entries.mp (List.mem_filter.mp hrange).1
    simp only [rev, rvOf_stampTypeMeta, rvOf_stripTypeMeta]
    cases hr : rvOf e.2.1 with
    | none => exact zero_le _
    | some r => exact h _ _ _ hget r hr
  · cases endBookmark with
    | false => cases hline
    | true =>
      rw [List.mem_singleton.mp hline]
      exact le_rfl

end WatchRequest

/-! ## The store of a run -/

/-- What the log of a run says of its store, and of the objects in it. -/
structure Recorded (req : WatchRequest) (s : Logged) : Prop where
  backs : s.cat.history.Backs s.log
  resources : s.cat.resources = applyChanges .empty s.log
  positive : ∀ ch ∈ s.log, 0 < ch.revision
  rv_le : ∀ ch ∈ s.log, ∀ r, rvOf ch.value = some r → r ≤ ch.revision
  bounded : RvBounded s.cat.revision s.cat.resources
  steady : req.SteadyFrom .empty s.log

theorem Recorded.init (req : WatchRequest) (capacity : Nat) : Recorded req (.init capacity) where
  backs := WatchHistory.backs_new ..
  resources := rfl
  positive := fun ch hch => (by cases hch)
  rv_le := fun ch hch => (by cases hch)
  bounded := fun key v m hk => (by cases hk)
  steady := trivial

theorem Recorded.step {env : Env} {req : WatchRequest} {s : Logged} (h : Recorded req s)
    {op : CatalogOp} (hs : req.SteadyFrom s.cat.resources (s.cat.perform env op).2) :
    Recorded req (s.step env op) := by
  have hc := perform_commits env s.cat op
  obtain ⟨hw, hres⟩ := perform_writes env s.cat op
  have hnext : RvBounded (s.cat.revision + 1) s.cat.resources :=
    fun key v m hk r hr => (h.bounded key v m hk r hr).trans (le_succ _)
  refine ⟨(Logged.step_backs h.backs op).1, ?_, ?_, ?_, ?_, ?_⟩
  · rw [Logged.step, hres, h.resources, applyChanges_append]
  · intro ch hch
    rcases List.mem_append.mp hch with hch | hch
    · exact h.positive ch hch
    · exact zero_lt_of_lt (hc.new ch hch)
  · intro ch hch r hr
    rcases List.mem_append.mp hch with hch | hch
    · exact h.rv_le ch hch r hr
    · rw [hw.revision ch hch]
      exact (hw.rv_le hnext).1 ch hch r hr
  · -- without a change the objects are those of before, and so is the revision
    show RvBounded (s.cat.perform env op).1.revision (s.cat.perform env op).1.resources
    obtain ⟨_, _, he⟩ | ⟨first, rest, _, _, hw, he⟩ | ⟨target, he⟩ := perform_cases env s.cat op
    · rw [he]
      exact h.bounded
    · rw [he]
      simpa [ResourceCatalog.revision] using (hw.rv_le hnext).2
    · rw [he]
      simpa [ResourceCatalog.compact, ResourceCatalog.revision] using h.bounded
  · refine WatchRequest.steadyFrom_append.mpr ⟨h.steady, ?_⟩
    rw [← h.resources]
    exact hs

/-! ## The client -/

namespace WatchClient

/-- The client against the log. What is sent a second time, because the client watches again from an
older resourceVersion, are deletions: it has received every selected write it was sent. -/
structure Tracks (req : WatchRequest) (log : List Change) (head : Nat) (c : WatchClient) :
    Prop where
  view : c.shown = Keyed.replay (fun _ => none) (req.writes (log.take c.sent))
  position_le : c.position ≤ c.sent
  sent_le : c.sent ≤ log.length
  again : ∀ ch ∈ (log.take c.sent).drop c.position, req.forwards ch = true → ch.kind = .delete
  received : ∀ ch ∈ log.take c.sent, req.forwards ch = true → ch.kind = .put →
    ch.revision ≤ c.newest
  newest_le : c.newest ≤ head

variable {req : WatchRequest} {log chs : List Change} {head head' : Nat} {c : WatchClient}
  {ch : Change}

theorem Tracks.commit (h : c.Tracks req log head) (hle : head ≤ head') :
    c.Tracks req (log ++ chs) head' := by
  have htake : (log ++ chs).take c.sent = log.take c.sent := List.take_append_of_le_length h.sent_le
  refine ⟨?_, h.position_le, ?_, ?_, ?_, h.newest_le.trans hle⟩
  · rw [htake]; exact h.view
  · rw [List.length_append]
    exact h.sent_le.trans (Nat.le_add_right ..)
  · rw [htake]; exact h.again
  · rw [htake]; exact h.received

theorem Tracks.told (h : c.Tracks req log head) {n : Nat} (hn : c.newest ≤ n) (hn' : n ≤ head) :
    Tracks req log head { c with newest := n } :=
  ⟨h.view, h.position_le, h.sent_le, h.again,
    fun ch hch hf hk => (h.received ch hch hf hk).trans hn, hn'⟩

/-- A client that was told no resourceVersion holds nothing. -/
theorem Tracks.view_empty (h : c.Tracks req log head) (hpos : ∀ ch ∈ log, 0 < ch.revision)
    (h0 : c.newest = 0) : c.view = .empty := by
  have hnone : c.shown = fun _ => none := by
    rw [h.view]
    refine replay_eq_none fun e he => ?_
    obtain ⟨ch, hch, rfl⟩ := List.mem_map.mp he
    obtain ⟨hlog, hf⟩ := List.mem_filter.mp hch
    cases hk : ch.kind with
    | delete => rfl
    | put =>
      have hle := h.received ch hlog hf hk
      have hlt := hpos ch (List.mem_of_mem_take hlog)
      omega
  refine ext_get fun k => ?_
  have hk := congrFun hnone k
  simpa [shown] using hk

/-- What is sent again is not in the view. -/
theorem Tracks.shown_again (h : c.Tracks req log head)
    (hch : ch ∈ (log.take c.sent).drop c.position)
    (hf : req.forwards ch = true) : c.shown ch.key = none := by
  have hsplit : req.writes (log.take c.sent) = req.writes ((log.take c.sent).take c.position) ++
      req.writes ((log.take c.sent).drop c.position) := by
    rw [← WatchRequest.writes_append, List.take_append_drop]
  rw [h.view, hsplit]
  refine replay_cleared (fun e he => ?_) ⟨_, List.mem_map.mpr ⟨ch, ?_, rfl⟩, rfl⟩
  · obtain ⟨d, hd, rfl⟩ := List.mem_map.mp he
    obtain ⟨hd, hdf⟩ := List.mem_filter.mp hd
    simp [h.again d hd hdf]
  · exact List.mem_filter.mpr ⟨hch, hf⟩

@[simp] theorem pass_position (c : WatchClient) : c.pass.position = c.position + 1 := rfl

/-- The client is past one more change, with the view and the newest resourceVersion it then has. -/
theorem Tracks.pass (h : c.Tracks req log head) (hget : log[c.position]? = some ch)
    {view : OrdMap ResourceKey Json} {n : Nat}
    (hview : (fun k => (view.get k).map stripTypeMeta) = Keyed.replay c.shown (req.writes [ch]))
    (hn : c.newest ≤ n) (hn' : n ≤ head)
    (hrec : req.forwards ch = true → ch.kind = .put → ch.revision ≤ n) :
    Tracks req log head { c.pass with view, newest := n } := by
  have hlt : c.position < log.length := (List.getElem?_eq_some_iff.mp hget).1
  rcases lt_or_eq_of_le h.position_le with hpos | hpos
  · -- sent before: nothing of it changes the view
    have hsent : c.pass.sent = c.sent := by simp [WatchClient.pass, hpos.ne]
    have hmem : ch ∈ (log.take c.sent).drop c.position := by
      refine List.mem_of_getElem? (i := 0) ?_
      rw [List.getElem?_drop, List.getElem?_take, if_pos (by omega)]
      exact hget
    have hsame : Keyed.replay c.shown (req.writes [ch]) = c.shown := by
      cases hf : req.forwards ch with
      | false => simp [WatchRequest.writes, hf]
      | true =>
        have hw : req.writes [ch] = [(ch.key, none)] := by
          simp [WatchRequest.writes, hf, h.again ch hmem hf]
        rw [hw]
        exact replay_clear (h.shown_again hmem hf)
    refine ⟨?_, ?_, ?_, ?_, ?_, hn'⟩
    · simp only [hsent]
      rw [← h.view, ← hsame, ← hview]
      rfl
    · simp only [hsent]
      exact hpos
    · simp only [hsent]
      exact h.sent_le
    · simp only [hsent]
      intro d hd
      refine h.again d ?_
      simp only [pass_position] at hd
      rw [← List.drop_drop] at hd
      exact List.mem_of_mem_drop hd
    · simp only [hsent]
      intro d hd hf hk
      exact (h.received d hd hf hk).trans hn
  · have hsent : c.pass.sent = c.sent + 1 := by simp [WatchClient.pass, hpos]
    have htake : log.take (c.sent + 1) = log.take c.sent ++ [ch] := by
      rw [← hpos, List.take_add_one, hget]
      rfl
    refine ⟨?_, ?_, ?_, ?_, ?_, hn'⟩
    · simp only [hsent]
      rw [htake, WatchRequest.writes_append, replay_append, ← h.view, ← hview]
      rfl
    · simp only [pass_position]
      omega
    · simp only [hsent]
      omega
    · intro d hd
      simp only [pass_position] at hd
      rw [List.drop_eq_nil_of_le (by rw [List.length_take]; omega)] at hd
      cases hd
    · simp only [hsent, htake]
      intro d hd hf hk
      rcases List.mem_append.mp hd with hd | hd
      · exact (h.received d hd hf hk).trans hn
      · obtain rfl := List.mem_singleton.mp hd
        exact hrec hf hk

/-! ### Lines -/

/-- An event does to the view what its change writes. -/
theorem shown_event (c : WatchClient) (hf : req.forwards ch = true) (h : StoreBackedHandler) :
    let ev := watchEventFromChange ch
    let line := event ev.kind ev.key (stampTypeMeta h ev.object)
    (fun k => ((line.applyTo c.view).get k).map stripTypeMeta) =
      Keyed.replay c.shown (req.writes [ch]) := by
  intro ev line
  have inserted : (fun k => ((c.view.insert ch.key (stampTypeMeta h ch.value)).get k).map
    stripTypeMeta) =
      Function.update c.shown ch.key (some (stripTypeMeta ch.value)) := by
    funext k
    by_cases hk : k = ch.key
    · subst hk
      simp [stripTypeMeta_stampTypeMeta]
    · rw [get_insert_ne _ hk, update_of_ne hk]
      rfl
  have erased : (fun k => ((c.view.erase ch.key).get k).map stripTypeMeta) =
      Function.update c.shown ch.key none := by
    funext k
    by_cases hk : k = ch.key
    · subst hk
      simp
    · rw [get_erase_ne _ hk, update_of_ne hk]
      rfl
  have hw : ∀ v, (match ch.kind with
      | .put => some (stripTypeMeta ch.value)
      | .delete =>
        none) = v → Keyed.replay c.shown (req.writes [ch]) = Function.update c.shown ch.key v := by
    simp [WatchRequest.writes, hf, Keyed.replay]
  cases hk : ch.kind with
  | put =>
    rw [hw (some (stripTypeMeta ch.value)) (by rw [hk]), ← inserted]
    cases hp : ch.prior with
    | none | some v => simp [line, ev, watchEventFromChange, of, unfiltered, hk, hp, applyTo]
  | delete =>
    rw [hw none (by rw [hk]), ← erased]
    simp [line, ev, watchEventFromChange, of, unfiltered, hk, applyTo]

theorem receiveAll_eq (c : WatchClient) (lines : List WatchLine) : c.receiveAll lines = { c with
      view := lines.foldl applyTo c.view, newest := (c.receiveAll lines).newest } := by
  induction lines generalizing c with
  | nil => rfl
  | cons line lines ih =>
    have := ih (c.receive line)
    simp only [receiveAll, List.foldl_cons] at this ⊢
    rw [this]
    rfl

/-- The newest resourceVersion is that of a line, or what it was. -/
theorem receiveAll_newest (c : WatchClient) (lines : List WatchLine) :
    c.newest ≤ (c.receiveAll lines).newest ∧
    (∀ line ∈ lines, line.rev ≤ (c.receiveAll lines).newest) ∧
      ∀ n, c.newest ≤ n → (∀ line ∈ lines, line.rev ≤ n) → (c.receiveAll lines).newest ≤ n := by
  induction lines generalizing c with
  | nil => exact ⟨le_rfl, by simp, fun n hn _ => hn⟩
  | cons line lines ih =>
    obtain ⟨h1, h2, h3⟩ := ih (c.receive line)
    have hnew : (c.receive line).newest = max c.newest line.rev := rfl
    simp only [receiveAll, List.foldl_cons] at h1 h2 h3 ⊢
    refine ⟨by omega, fun l hl => ?_, fun n hn hall => ?_⟩
    · rcases List.mem_cons.mp hl with rfl | hl
      · omega
      · exact h2 l hl
    · refine h3 n (max_le hn (hall line (by simp))) fun l hl => hall l (.tail _ hl)

/-- The loop's turn with an event: the client is past it, and was told no more than its revision. -/
theorem Tracks.serveChange (h : c.Tracks req log head) (hget : log[c.position]? = some ch)
    (hle : ch.revision ≤ head) (hrv : ∀ r, rvOf ch.value = some r → r ≤ ch.revision)
    (hcarries : req.forwards ch = true → ch.kind = .put → rvOf ch.value = some ch.revision)
    (progress : WatchProgress) : (req.serveChange c progress ch).1.Tracks req log head ∧
      (req.serveChange c progress ch).1.position = c.position + 1 ∧
      (req.serveChange c progress ch).1.newest ≤ max c.newest ch.revision ∧
      (req.serveChange c progress ch).2.delivered ≤ max progress.delivered ch.revision := by
  unfold WatchRequest.serveChange
  cases hf : req.forwards ch with
  | false =>
    have hview : (fun k => (c.view.get k).map stripTypeMeta) =
        Keyed.replay c.shown (req.writes [ch]) := by
      simp only [WatchRequest.writes, hf, List.filter_cons, List.filter_nil, List.map_nil,
        Bool.false_eq_true, if_false]
      rfl
    have hpass := h.pass hget hview le_rfl h.newest_le fun hf' => (by rw [hf] at hf'; cases hf')
    exact ⟨hpass, rfl, le_max_left .., le_max_left ..⟩
  | true =>
    have htold : (rvOf ch.value).getD 0 ≤ ch.revision := by
      cases hr : rvOf ch.value with
      | none => exact zero_le _
      | some r => exact hrv r hr
    have hpass := h.pass hget (shown_event c hf req.handler)
      (n := max c.newest ((rvOf ch.value).getD 0)) (le_max_left ..)
      (max_le h.newest_le (htold.trans hle)) fun hf' hk => by
        rw [hcarries hf' hk]
        exact le_max_right ..
    simp only [receive, rev, rvOf_stampTypeMeta]
    exact ⟨hpass, rfl, max_le_max le_rfl htold, le_rfl⟩

end WatchClient
end Engenho
