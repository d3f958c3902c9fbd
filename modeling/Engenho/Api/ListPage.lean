import Engenho.Lib.Paging
import Engenho.Store.Listing
import Engenho.Store.Pagination
import Engenho.Api.Selectors

/-!
# LIST, whole and in pages

A handler serves one group, version and kind. `listAt` reads a whole scope. `listPage` hands out
pages of `limit` matching objects: it reads the store in chunks of `limit` entries, filters them,
and stops in the middle of a chunk when the page is full. It returns a continue token if the page is
full and the store has entries beyond the last chunk.

`listSeries` is the client: it asks for page after page while it is handed a token. Matches that are
left in the last chunk when the page fills up are lost (`listSeries_loses`); `listSeries_exact` says
exactly when that does not happen.
-/

namespace Engenho
open Paging ContinueToken List Bool

/-- An answer that is an error. -/
inductive ApiError where
  | notFound (what : String)
  | conflict (what why : String)
  | resourceVersionConflict (text : String)
  | badRequest (text : String)
  | forbidden (text : String)
  | gone (text : String)
  | applyConflict (causes : Json)
  | internal (text : String)
  | storageError (text : String)
  | disruptionBudget (text : String)
  | invalid (text : String)
deriving DecidableEq

/-- The endpoint of a kind. -/
structure StoreBackedHandler where
  group : String
  version : String
  kind : String
deriving DecidableEq, Repr

/-- The entries that cannot be read. -/
def ResourceCatalog.secretFaults (c : ResourceCatalog) (scope : ListScope) :
    List (ResourceKey × SealFault) :=
  (scope.range c.unreadable none).map fun e => (e.1, e.2.fault)

/-- A page of a LIST as the handler returns it. -/
structure ListResult where
  items : List Json
  revision : Nat
  continueToken : Option String
  remaining : Option Nat
deriving DecidableEq

namespace StoreBackedHandler

variable (h : StoreBackedHandler)

variable (codec : TokenCodec) (c : ResourceCatalog) (ns : Option String)

/-- What the endpoint lists. -/
def scope : ListScope :=
  ⟨h.group, h.version, h.kind, ns⟩

def unreadableSecret (key : ResourceKey) (fault : SealFault) (count : Nat) : ApiError :=
  .storageError (toString count ++ " stored object(s) cannot be read, first " ++
    key.label ++ ": " ++
    fault.text)

/-- No LIST passes over an entry it cannot read. -/
def refuseUnreadableSecrets : Except ApiError Unit :=
  let faults := c.secretFaults (h.scope ns)
  match faults.head? with
  | some (key, fault) => .error (unreadableSecret key fault faults.length)
  | none => .ok ()

/-- The whole LIST. -/
def listAt (sel : Selectors) : Except ApiError (List Json × Nat) := do
  h.refuseUnreadableSecrets c ns
  let entries := c.entriesAfter (h.scope ns) none
  return ((entries.filter fun e => sel.matches e.2).map fun e => stripTypeMeta e.2, c.revision)

/-- The matches of a chunk, taken until the page is full, with the key of the last one taken. -/
def acceptChunk (sel : Selectors) (limit : Nat) :
    List (ResourceKey × ResourceValue) → List Json → Option ResourceKey →
    List Json × Option ResourceKey
  | [], accepted, last => (accepted, last)
  | (k, v) :: entries, accepted, last =>
    if sel.matches v then
      let accepted := accepted ++ [stripTypeMeta v]
      if accepted.length = limit then (accepted, some k) else acceptChunk sel limit entries accepted
        (some k)
    else acceptChunk sel limit entries accepted last

/-- What the loop leaves: the page, its last key, the entries beyond the last chunk, the
revision. -/
structure Filled where
  accepted : List Json
  lastEmittedKey : Option ResourceKey
  storeTailRemaining : Nat
  snapshotRv : Option Nat

/-- The loop over store chunks; `none` if `fuel` rounds do not end it. -/
def fillPage (h : StoreBackedHandler) (c : ResourceCatalog) (ns : Option String) (sel : Selectors)
    (limit : Nat) : Nat → Option ResourceKey → List Json → Option ResourceKey → Option Nat →
    Option Filled
  | 0, _, _, _, _ => none
  | fuel + 1, cursor, accepted, last, snapshot =>
    let page := c.listPageAtRevision (h.scope ns) cursor (max limit 1)
    let snapshot := snapshot.orElse fun _ => some page.revision
    let (accepted, last) := acceptChunk sel limit page.items accepted last
    if accepted.length = limit || page.next.isNone || page.items.isEmpty then
      some ⟨accepted, last, page.remaining, snapshot⟩
    else fillPage h c ns sel limit fuel page.next accepted last snapshot

/-- A page of a LIST. -/
def listPage (h : StoreBackedHandler) (c : ResourceCatalog) (ns : Option String)
    (sel : Selectors) (limit : Nat) (continueToken : Option ContinueToken) (fuel : Nat) :
    Option (Except ApiError ListResult) :=
  match h.refuseUnreadableSecrets c ns with
  | .error e => some (.error e)
  | .ok () =>
    let seriesSnapshot := continueToken.map ContinueToken.snapshotRev
    let cursor := continueToken.map ContinueToken.lastKey
    if limit = 0 then
      let page := c.listPageAtRevision (h.scope ns) cursor 0
      let items := (page.items.filter fun e => sel.matches e.2).map fun e => stripTypeMeta e.2
      some (.ok ⟨items, seriesSnapshot.getD page.revision, none, none⟩)
    else
      (fillPage h c ns sel limit fuel cursor [] none seriesSnapshot).map fun filled =>
        let rv := filled.snapshotRv.getD 0
        if filled.accepted.length = limit && 0 < filled.storeTailRemaining then
          .ok ⟨filled.accepted, rv,
            filled.lastEmittedKey.map fun k => ContinueToken.encode codec ⟨rv, k⟩,
            some filled.storeTailRemaining⟩
        else .ok ⟨filled.accepted, rv, none, none⟩

/-- The token of a request: absent or empty asks for the first page. -/
def readToken (text : Option String) : Except ApiError (Option ContinueToken) :=
  match text with
  | none => .ok none
  | some s =>
    if s = "" then .ok none
    else
      match ContinueToken.decode codec s with
      | .ok t => .ok (some t)
      | .error e => .error (.gone ("invalid or expired continue token: " ++ e.reason))

/-- A client that lists page after page while it is handed a token. -/
def listSeries (codec : TokenCodec) (h : StoreBackedHandler) (c : ResourceCatalog)
    (ns : Option String) (sel : Selectors) (limit : Nat) :
    Nat → Option String → Option (Except ApiError (List Json))
  | 0, _ => none
  | fuel + 1, text =>
    match readToken codec text with
    | .error e => some (.error e)
    | .ok token =>
      match listPage codec h c ns sel limit token (fuel + 1) with
      | none => none
      | some (.error e) => some (.error e)
      | some (.ok page) =>
        match page.continueToken with
        | none => some (.ok page.items)
        | some next =>
          (listSeries codec h c ns sel limit fuel (some next)).map fun rest =>
            rest.map fun items => page.items ++ items

end StoreBackedHandler

/-! ## Cursors -/

variable {after : Option ResourceKey} {k : ResourceKey}
variable (c : ResourceCatalog)

/-- A cursor on a key of the run continues behind that key. -/
theorem ResourceCatalog.entriesAfter_of_split (scope : ListScope) {v : ResourceValue}
    {pre post : List (ResourceKey × ResourceValue)}
    (h : c.entriesAfter scope after = pre ++ (k, v) :: post) :
    c.entriesAfter scope (some k) = post := by
  obtain ⟨pre', rest', hrun, rfl, hrest⟩ := map_eq_append_iff.mp h
  obtain ⟨⟨k', v', m⟩, post', rfl, hk, rfl⟩ := map_eq_cons_iff.mp hrest
  cases hk
  rw [ListScope.range_eq_filter] at hrun
  have hsorted : Assoc.Sorted (pre' ++ (k', v', m) :: post') := by
    rw [← hrun]
    exact c.resources.sorted.filter _
  -- the cursor of the run lies below its keys
  have hafter : after.all (fun cursor => decide (cursor < k')) = true := by
    have hmem : (k', v', m) ∈ pre' ++ (k', v', m) :: post' := by simp
    rw [← hrun] at hmem
    have := (mem_filter.mp hmem).2
    simp only [and_eq_true] at this
    exact this.2
  have hfilter : c.resources.entries.filter (fun e => scope.contains e.1 &&
      (some k').all fun cursor => decide (cursor < e.1)) = post' := by
    rw [← hsorted.filter_gt, ← hrun, filter_filter]
    refine filter_congr fun e _ => ?_
    cases after with
    | none => simp [Bool.and_comm]
    | some cursor =>
      have hlt : cursor < k' := by simpa using hafter
      by_cases he : k' < e.1
      · simp [he, hlt.trans he]
      · simp [he]
  rw [entriesAfter, ListScope.range_eq_filter, hfilter]

/-- A cursor on the last key of a part of the run continues behind that part. -/
theorem ResourceCatalog.entriesAfter_of_getLast (scope : ListScope) {n : Nat}
    (h : ((c.entriesAfter scope after).take n).getLast?.map Prod.fst = some k) :
    c.entriesAfter scope (some k) = (c.entriesAfter scope after).drop n := by
  obtain ⟨⟨k, v⟩, hlast, rfl⟩ := Option.map_eq_some_iff.mp h
  obtain ⟨pre, hpre⟩ := List.getLast?_eq_some_iff.mp hlast
  have hsplit : c.entriesAfter scope after =
      pre ++ (k, v) :: (c.entriesAfter scope after).drop n := by
    conv => lhs; rw [← take_append_drop n (c.entriesAfter scope after), hpre]
    simp
  exact c.entriesAfter_of_split scope hsplit

/-! ## One page -/

namespace StoreBackedHandler

variable (sel : Selectors) (e : ResourceKey × ResourceValue)

/-- What a page shows of an entry, and whether the entry is on it. -/
def shown : Json := stripTypeMeta e.2

def wanted : Bool := sel.matches e.2

theorem acceptChunk_eq (limit : Nat) (entries : List (ResourceKey × ResourceValue))
    (accepted : List Json) (last : Option ResourceKey) (h : accepted.length < limit) :
    acceptChunk sel limit entries accepted last =
      (accepted ++ ((entries.filter (wanted sel)).take (limit - accepted.length)).map shown,
        (((entries.filter (wanted sel)).take (limit - accepted.length)).getLast?.map Prod.fst).or
          last) := by
  induction entries generalizing accepted last with
  | nil => simp [acceptChunk]
  | cons e entries ih =>
    obtain ⟨k, v⟩ := e
    by_cases hm : sel.matches v = true
    · have hfil : ((k, v) :: entries).filter (wanted sel) =
          (k, v) :: entries.filter (wanted sel) := by
        simp [wanted, hm]
      obtain ⟨need, hneed⟩ : ∃ need, limit - accepted.length = need + 1 :=
        ⟨limit - accepted.length - 1, by omega⟩
      rw [acceptChunk, if_pos hm, hfil, hneed, take_succ_cons]
      simp only [length_append, length_singleton]
      by_cases hfull : accepted.length + 1 = limit
      · have : need = 0 := by omega
        subst this
        simp [hfull, shown]
      · rw [if_neg hfull, ih _ _ (by simp; omega)]
        have hrest : limit - (accepted ++ [stripTypeMeta v]).length = need := by simp; omega
        rw [hrest, List.getLast?_cons]
        cases hl : ((entries.filter (wanted sel)).take need).getLast? with
        | none | some e => simp [shown]
    · have hfil : ((k, v) :: entries).filter (wanted sel) = entries.filter (wanted sel) := by
        simp [wanted, hm]
      rw [acceptChunk, if_neg hm, hfil, ih _ _ h]

/-- What the loop leaves of a run with `need` places on the page. -/
structure FilledFrom (sel : Selectors) (limit revision need : Nat) (accepted : List Json)
    (run : List (ResourceKey × ResourceValue)) (snapshot : Option Nat) (f : Filled) : Prop where
  accepted_eq : f.accepted = accepted ++ ((run.filter (wanted sel)).take need).map shown
  snapshot_eq : f.snapshotRv = some (snapshot.getD revision)
  last_eq : need ≤ (run.filter (wanted sel)).length →
    f.lastEmittedKey = ((run.filter (wanted sel)).take need).getLast?.map Prod.fst
  tail_eq : need ≤ (run.filter (wanted sel)).length →
    f.storeTailRemaining = run.length - Paging.roundUp limit (Paging.cut (wanted sel) need run)

section
variable {sel : Selectors} {limit revision need : Nat} {accepted : List Json}
  {run : List (ResourceKey × ResourceValue)} {snapshot : Option Nat}

theorem filter_chunk (sel : Selectors) (limit : Nat) (run : List (ResourceKey × ResourceValue)) :
    run.filter (wanted sel) =
      (run.take limit).filter (wanted sel) ++ (run.drop limit).filter (wanted sel) := by
  rw [← filter_append, take_append_drop]

theorem take_ne_nil {α : Type} {l : List α} {n : Nat} (hn : 0 < n) (hle : n ≤ l.length) :
    l.take n ≠ [] := by
  intro h
  have hlen := congrArg List.length h
  rw [length_take, length_nil] at hlen
  omega

theorem FilledFrom.of_full (hpos : 0 < need)
    (hfull : need ≤ ((run.take limit).filter (wanted sel)).length) (last : Option ResourceKey) :
    FilledFrom sel limit revision need accepted run snapshot
      ⟨accepted ++ (((run.take limit).filter (wanted sel)).take need).map shown,
        ((((run.take limit).filter (wanted sel)).take need).getLast?.map Prod.fst).or last,
        (run.drop limit).length, some (snapshot.getD revision)⟩ := by
  have htake : (run.filter (wanted sel)).take need =
      ((run.take limit).filter (wanted sel)).take need := by
    rw [filter_chunk sel limit run, take_append_of_le_length hfull]
  refine ⟨by rw [htake], rfl, fun _ => ?_, fun _ => ?_⟩
  · rw [htake, List.getLast?_eq_some_getLast (take_ne_nil hpos hfull)]
    rfl
  have hcut := cut_append (wanted sel) need (run.take limit) (run.drop limit)
  rw [take_append_drop, if_pos hfull] at hcut
  have hle : cut (wanted sel) need run ≤ limit := by
    rw [hcut]
    exact (cut_le_length _ _ _).trans (length_take_le _ _)
  have hne : run ≠ [] := by
    rintro rfl
    simp at hfull
    omega
  rw [roundUp_le_of_le (cut_pos (wanted sel) hpos hne) hle, length_drop]

/-- The run ends with the first chunk and the page is not full. -/
theorem FilledFrom.of_end (hshort : run.drop limit = [])
    (hfull : ¬ need ≤ ((run.take limit).filter (wanted sel)).length) (last : Option ResourceKey)
    (tail : Nat) : FilledFrom sel limit revision need accepted run snapshot
      ⟨accepted ++ (((run.take limit).filter (wanted sel)).take need).map shown, last, tail,
        some (snapshot.getD revision)⟩ := by
  have hrun : run.take limit = run := by
    have := take_append_drop limit run
    rwa [hshort, append_nil] at this
  rw [hrun] at hfull ⊢
  exact ⟨rfl, rfl, fun h => absurd h hfull, fun h => absurd h hfull⟩

/-- The first chunk does not fill the page, and the loop went on behind it. -/
theorem FilledFrom.of_rest (hlonger : limit < run.length) (hlimit : 0 < limit)
    (hfull : ¬ need ≤ ((run.take limit).filter (wanted sel)).length) {f : Filled}
    (h : FilledFrom sel limit revision (need - ((run.take limit).filter (wanted sel)).length)
      (accepted ++ ((run.take limit).filter (wanted sel)).map shown) (run.drop limit)
      (some (snapshot.getD revision)) f) :
    FilledFrom sel limit revision need accepted run snapshot f := by
  have htake : (run.filter (wanted sel)).take need = (run.take limit).filter (wanted sel) ++
      ((run.drop limit).filter (wanted sel)).take
        (need - ((run.take limit).filter (wanted sel)).length) := by
    rw [filter_chunk sel limit run, take_append, take_of_length_le (by omega)]
  have hcount : need ≤ (run.filter (wanted sel)).length →
      need - ((run.take limit).filter (wanted sel)).length ≤
        ((run.drop limit).filter (wanted sel)).length := by
    rw [filter_chunk sel limit run, length_append]
    omega
  refine ⟨?_, h.snapshot_eq, fun hc => ?_, fun hc => ?_⟩
  · rw [h.accepted_eq, htake, map_append, append_assoc]
  · rw [h.last_eq (hcount hc), htake]
    have hne := take_ne_nil (by omega) (hcount hc)
    rw [List.getLast?_append, List.getLast?_eq_some_getLast hne]
    rfl
  · have hcut := cut_append (wanted sel) need (run.take limit) (run.drop limit)
    have hlen : (run.take limit).length = limit := by rw [length_take]; omega
    rw [take_append_drop, if_neg hfull, hlen] at hcut
    rw [h.tail_eq (hcount hc), hcut, roundUp_add hlimit, length_drop, Nat.sub_sub]

end

variable {fuel : Nat}
section
variable (h : StoreBackedHandler) (c : ResourceCatalog) (ns : Option String) (sel : Selectors)
  {limit : Nat}

theorem page_eq (hlimit : 0 < limit) (cursor : Option ResourceKey) :
    c.listPageAtRevision (h.scope ns) cursor (max limit 1) =
      ⟨(c.entriesAfter (h.scope ns) cursor).take limit, c.revision,
        if 0 < ((c.entriesAfter (h.scope ns) cursor).drop limit).length then
          ((c.entriesAfter (h.scope ns) cursor).take limit).getLast?.map Prod.fst else none,
        ((c.entriesAfter (h.scope ns) cursor).drop limit).length⟩ := by
  have hmax : max limit 1 = limit := by omega
  rw [ResourceCatalog.listPageAtRevision, hmax, pageOf, if_neg hlimit.ne']
  rfl

/-- The loop ends within as many rounds as there are entries, and fills the page. -/
theorem fillPage_spec (hlimit : 0 < limit) (cursor : Option ResourceKey) {accepted : List Json}
    (hacc : accepted.length < limit) (last : Option ResourceKey) (snapshot : Option Nat)
    (hfuel : (c.entriesAfter (h.scope ns) cursor).length < fuel) :
    ∃ f, fillPage h c ns sel limit fuel cursor accepted last snapshot = some f ∧
      FilledFrom sel limit c.revision (limit - accepted.length) accepted
        (c.entriesAfter (h.scope ns) cursor) snapshot f := by
  induction fuel generalizing cursor accepted last snapshot with
  | zero => omega
  | succ fuel ih =>
    have hnext : ∀ k, ((c.entriesAfter (h.scope ns) cursor).take limit).getLast?.map Prod.fst =
      some k →
        c.entriesAfter (h.scope ns) (some k) = (c.entriesAfter (h.scope ns) cursor).drop limit :=
      fun k => c.entriesAfter_of_getLast (h.scope ns)
    rw [fillPage, page_eq h c ns hlimit]
    revert hnext hfuel
    generalize c.entriesAfter (h.scope ns) cursor = run
    intro hfuel hnext
    have hsnap : (snapshot.orElse fun _ => some c.revision) = some (snapshot.getD c.revision) := by
      cases snapshot <;> rfl
    simp only [acceptChunk_eq sel limit _ accepted last hacc, hsnap]
    by_cases hfull : limit - accepted.length ≤ ((run.take limit).filter (wanted sel)).length
    · have hlen : (accepted ++ (((run.take limit).filter (wanted sel)).take
          (limit - accepted.length)).map shown).length = limit := by
        rw [length_append, length_map, length_take]
        omega
      rw [hlen]
      exact ⟨_, by simp, .of_full (by omega) hfull last⟩
    · by_cases hend : run.drop limit = []
      · rw [if_pos (by simp [hend])]
        exact ⟨_, rfl, .of_end hend hfull _ _⟩
      have hlonger : limit < run.length := by
        by_contra hle
        exact hend (drop_of_length_le (by omega))
      have hlen : (accepted ++ (((run.take limit).filter (wanted sel)).take
          (limit - accepted.length)).map shown).length < limit := by
        rw [length_append, length_map, length_take]
        omega
      obtain ⟨e, he⟩ : ∃ e, (run.take limit).getLast? = some e :=
        ⟨_, List.getLast?_eq_some_getLast (take_ne_nil hlimit hlonger.le)⟩
      have hdrop : 0 < (run.drop limit).length := by rw [length_drop]; omega
      have hitems : (run.take limit).isEmpty = false := by simpa using take_ne_nil hlimit hlonger.le
      rw [if_pos hdrop, he, if_neg (by simp only [hitems]; simp; omega)]
      have hrun := hnext e.1 (by rw [he]; rfl)
      obtain ⟨f, hf, hfilled⟩ := ih (some e.1) hlen
        (((((run.take limit).filter (wanted sel)).take (limit - accepted.length)).getLast?.map
          Prod.fst).or last) (some (snapshot.getD c.revision))
        (by rw [hrun, length_drop]; omega)
      refine ⟨f, hf, .of_rest hlonger hlimit hfull ?_⟩
      rw [hrun, length_append, length_map,
        take_of_length_le (by omega : ((run.take limit).filter (wanted sel)).length ≤ _),
        Nat.sub_add_eq] at hfilled
      exact hfilled

/-- A page holds the first `limit` matches behind the cursor. It comes with a token exactly if it is
full and the store has entries beyond the chunk it filled up in; the token continues behind the last
match of the page. -/
theorem listPage_spec (codec : TokenCodec) (hlimit : 0 < limit)
    (hread : h.refuseUnreadableSecrets c ns = .ok ()) (token : Option ContinueToken)
    (hfuel : (c.entriesAfter (h.scope ns) (token.map lastKey)).length < fuel) :
    let run := c.entriesAfter (h.scope ns) (token.map lastKey)
    ∃ page, listPage codec h c ns sel limit token fuel = some (.ok page) ∧
      page.items = ((run.filter (wanted sel)).take limit).map shown ∧
      if limit ≤ (run.filter (wanted sel)).length ∧
          roundUp limit (cut (wanted sel) limit run) < run.length then
        ∃ next, page.continueToken = some (encode codec next) ∧
          c.entriesAfter (h.scope ns) (some next.lastKey) = run.drop (cut (wanted sel) limit run)
      else page.continueToken = none := by
  intro run
  obtain ⟨f, hf, hfilled⟩ := fillPage_spec h c ns sel hlimit (token.map lastKey)
    (show ([] : List Json).length < limit from hlimit) none (token.map snapshotRev) hfuel
  have hitems : f.accepted = ((run.filter (wanted sel)).take limit).map shown := hfilled.accepted_eq
  have hlen : f.accepted.length = limit ↔ limit ≤ (run.filter (wanted sel)).length := by
    rw [hitems, length_map, length_take]
    omega
  simp only [listPage, hread, if_neg hlimit.ne', hf, Option.map_some]
  by_cases hcount : limit ≤ (run.filter (wanted sel)).length
  · have htail : f.storeTailRemaining =
        run.length - roundUp limit (cut (wanted sel) limit run) := hfilled.tail_eq hcount
    -- the last key of the page is that of the entry the run is cut at
    obtain ⟨e, he⟩ : ∃ e, ((run.filter (wanted sel)).take limit).getLast? = some e :=
      ⟨_, List.getLast?_eq_some_getLast (take_ne_nil hlimit hcount)⟩
    have hlast : f.lastEmittedKey = some e.1 := by
      rw [hfilled.last_eq hcount]
      exact congrArg (Option.map Prod.fst) he
    have hnext : c.entriesAfter (h.scope ns) (some e.1) =
        run.drop (cut (wanted sel) limit run) := by
      refine c.entriesAfter_of_getLast (h.scope ns) ?_
      rw [getLast?_take_cut (wanted sel) hlimit hcount, he]
      rfl
    by_cases hmore : roundUp limit (cut (wanted sel) limit run) < run.length
    · rw [if_pos (by simp only [and_eq_true, decide_eq_true_eq]; exact ⟨hlen.mpr hcount, by omega⟩)]
      refine ⟨_, rfl, hitems, ?_⟩
      rw [if_pos ⟨hcount, hmore⟩]
      exact ⟨⟨f.snapshotRv.getD 0, e.1⟩, by rw [hlast]; rfl, hnext⟩
    · rw [if_neg (by simp only [and_eq_true, decide_eq_true_eq]; omega)]
      refine ⟨_, rfl, hitems, ?_⟩
      rw [if_neg (by omega)]
  · rw [if_neg (by simp only [and_eq_true, decide_eq_true_eq]; omega)]
    refine ⟨_, rfl, hitems, ?_⟩
    rw [if_neg (by omega)]

end

/-! ## The series -/

section
variable (codec : TokenCodec) (h : StoreBackedHandler) (c : ResourceCatalog) (ns : Option String)
  (sel : Selectors) {limit : Nat}

/-- The client collects the series of the library. -/
theorem listSeries_eq (hlimit : 0 < limit) (hread : h.refuseUnreadableSecrets c ns = .ok ())
    {text : Option String} {token : Option ContinueToken}
    (htoken : readToken codec text = .ok token)
    (hfuel : (c.entriesAfter (h.scope ns) (token.map lastKey)).length < fuel) :
    listSeries codec h c ns sel limit fuel text = some (.ok ((series (wanted sel) limit fuel
        (c.entriesAfter (h.scope ns) (token.map lastKey))).map shown)) := by
  induction fuel generalizing text token with
  | zero => omega
  | succ fuel ih =>
    obtain ⟨page, hpage, hitems, hnext⟩ := listPage_spec h c ns sel codec hlimit hread token hfuel
    rw [listSeries, htoken]
    simp only [hpage]
    rw [series]
    split at hnext
    · rename_i hmore
      obtain ⟨next, hcont, hrun⟩ := hnext
      have hne : c.entriesAfter (h.scope ns) (token.map lastKey) ≠ [] := by
        intro he
        rw [he] at hmore
        simp at hmore
      have hpos := cut_pos (wanted sel) hlimit hne
      have htoken : readToken codec (some (encode codec next)) = .ok (some next) := by
        simp [readToken, encode_ne_empty, decode_encode]
      have hrest := ih htoken (by
        rw [Option.map_some, hrun, length_drop]
        omega)
      rw [Option.map_some, hrun] at hrest
      simp only [hcont, hrest, if_pos hmore, map_append, hitems]
      rfl
    · rename_i hmore
      simp only [hnext, if_neg hmore, hitems]

/-- The scope's entries, in key order. -/
def scopeEntries : List (ResourceKey × ResourceValue) :=
  (c.resources.entries.filter fun e => (h.scope ns).contains e.1).map fun e => (e.1, e.2.1)

theorem entriesAfter_none : c.entriesAfter (h.scope ns) none = scopeEntries h c ns := by
  rw [ResourceCatalog.entriesAfter, ListScope.range_eq_filter]
  simp [scopeEntries]

/-- Without a limit one page holds every match, as `listAt` does. -/
theorem listPage_unlimited (hread : h.refuseUnreadableSecrets c ns = .ok ()) (fuel : Nat) :
    listPage codec h c ns sel 0 none fuel =
      some (.ok ⟨((scopeEntries h c ns).filter (wanted sel)).map shown, c.revision,
        none, none⟩) := by
  rw [← entriesAfter_none]
  simp only [listPage, hread]
  rfl

/-- The series of pages ends, and it collects what one page without a limit holds, exactly when no
page that leaves a match behind fills up in the last chunk of the scope. -/
theorem listSeries_exact (hlimit : 0 < limit) (hread : h.refuseUnreadableSecrets c ns = .ok ())
    {fuel : Nat} (hfuel : (scopeEntries h c ns).length < fuel) :
    ∃ items all, listSeries codec h c ns sel limit fuel none = some (.ok items) ∧
      listPage codec h c ns sel 0 none fuel = some (.ok all) ∧
      all.items =
        ((scopeEntries h c ns).filter fun e => sel.matches e.2).map (fun e => stripTypeMeta e.2) ∧
      (items = all.items ↔
        Paging.FillsBeforeEnd (fun e => sel.matches e.2) limit (scopeEntries h c ns)) := by
  have hseries : listSeries codec h c ns sel limit fuel none =
      some (.ok ((Paging.series (wanted sel) limit fuel (scopeEntries h c ns)).map shown)) := by
    rw [← entriesAfter_none] at hfuel ⊢
    have htoken : readToken codec none = .ok none := rfl
    exact listSeries_eq codec h c ns sel hlimit hread htoken hfuel
  refine ⟨_, _, hseries, listPage_unlimited codec h c ns sel hread fuel, rfl, ?_⟩
  refine Iff.trans ?_ (Paging.series_eq_iff (wanted sel) hlimit hfuel)
  constructor
  · -- the series is a prefix of the matches, so equal lengths suffice
    intro heq
    have hlen := congrArg List.length heq
    rw [List.length_map, List.length_map] at hlen
    exact (Paging.series_prefix (wanted sel) limit fuel _).eq_of_length hlen
  · intro heq
    exact congrArg (List.map shown) heq

end

/-! ## Concrete series -/

def podHandler : StoreBackedHandler := ⟨"", "v1", "Pod"⟩

/-- A put of a pod with the label `app`. -/
def putLabelled (name app : String) : CatalogOp :=
  .command (.put ⟨"", "v1", "Pod", some "default", name⟩
    (podBody [("labels", .obj [("app", .str app)]), ("name", .str name)]) none) .v1 1 1

def webOnly : Selectors := ⟨[.equals "app" "web"], []⟩

/-- The names of listed objects. -/
def names (items : List Json) : List (Option Json) := items.map (metaField "name")

/-- Two web pods and another one behind them, one to a page. -/
def twoOfThree : ResourceCatalog :=
  (Logged.after atomicEnv 8 [putLabelled "a" "web", putLabelled "b" "web",
    putLabelled "c" "db"]).cat

theorem listSeries_exact_two : ∃ items all,
      listSeries tallyCodec podHandler twoOfThree (some "default") webOnly 1 4 none =
        some (.ok items) ∧
      listPage tallyCodec podHandler twoOfThree (some "default") webOnly 0 none 4 = some (.ok all) ∧
      items = all.items ∧ names all.items = [some (.str "a"), some (.str "b")] := by
  have hcond : Paging.FillsBeforeEnd (fun e : ResourceKey × ResourceValue => webOnly.matches e.2) 1
      (scopeEntries podHandler twoOfThree (some "default")) := by
    intro j hj
    have hcount : ((scopeEntries podHandler twoOfThree (some "default")).filter
        fun e => webOnly.matches e.2).length = 2 := by decide
    obtain rfl : j = 0 := by omega
    decide
  obtain ⟨items, all, hitems, hall, hspec, hiff⟩ :=
    listSeries_exact tallyCodec podHandler twoOfThree
    (some "default") webOnly (by decide : 0 < 1) (by decide)
    (by decide : _ < 4)
  refine ⟨items, all, hitems, hall, hiff.mpr hcond, ?_⟩
  rw [hspec]
  decide

/-- Another pod, then three web pods. -/
def threeOfFour : ResourceCatalog :=
  (Logged.after atomicEnv 8 [putLabelled "a" "db", putLabelled "b" "web", putLabelled "c" "web",
    putLabelled "d" "web"]).cat

/-- In pages of two the last web pod is never listed: the first page fills up in the middle of the
second chunk, and no entry lies beyond that. -/
theorem listSeries_loses :
    ((listSeries tallyCodec podHandler threeOfFour (some "default") webOnly 2 5 none).map
      fun r => r.map names) = some (.ok [some (.str "b"), some (.str "c")]) ∧
    ((listPage tallyCodec podHandler threeOfFour (some "default") webOnly 0 none 5).map
      fun r => r.map fun page => names page.items) =
        some (.ok [some (.str "b"), some (.str "c"), some (.str "d")]) := by
  decide

end StoreBackedHandler
end Engenho
