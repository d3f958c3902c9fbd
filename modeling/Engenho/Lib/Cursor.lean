import Mathlib.Data.List.Basic
import Mathlib.Order.Lattice

/-!
# Reading a changing sorted set page by page

A reader asks for the keys above its cursor, at most `limit` at a time, and continues at the last
key of the page while more keys follow. Between two calls the set of keys may change in any way.
What the reader gets is increasing, so no key comes twice (`Series.sorted`), and a key that is there
at every call comes (`Series.complete`). If the set does not change, the number of keys behind a
page is the number that the later pages bring (`Series.remaining`).
-/

universe u
namespace Cursor
open List
variable {κ : Type u} [LinearOrder κ]

/-- The key lies above the cursor. -/
def ahead (after : Option κ) (k : κ) : Bool := after.all fun c => decide (c < k)

/-- The keys above the cursor. -/
def run (after : Option κ) (live : List κ) : List κ := live.filter (ahead after)

/-- The page of a call, and where the next call goes on. -/
def page (limit : Nat) (after : Option κ) (live : List κ) : List κ := (run after live).take limit

/-- The cursor of the next page, if there is one. -/
def next (limit : Nat) (after : Option κ) (live : List κ) : Option κ :=
  if limit < (run after live).length then (page limit after live).getLast? else none

/-- Calls one after another, each with the keys that were there and the page it got. The flag says
that the last call was told to stop. -/
inductive Series (limit : Nat) : Option κ → List (List κ × List κ) → Bool → Prop
  | stop (after : Option κ) : Series limit after [] false
  | last {after : Option κ} {live : List κ} (h : next limit after live = none) :
      Series limit after [(live, page limit after live)] true
  | more {after : Option κ} {live : List κ} {c : κ} {calls : List (List κ × List κ)} {done : Bool}
      (h : next limit after live = some c) (hrest : Series limit (some c) calls done) :
      Series limit after ((live, page limit after live) :: calls) done

/-- All keys the calls brought. -/
def returned (calls : List (List κ × List κ)) : List κ := calls.flatMap Prod.snd

variable {limit : Nat} {after : Option κ} {live : List κ}
  {calls : List (List κ × List κ)} {done : Bool} {k c : κ}

theorem returned_cons :
    returned ((live, page limit after live) :: calls) = page limit after live ++ returned calls :=
  flatMap_cons

theorem returned_last : returned [(live, page limit after live)] = page limit after live := by
  simp [returned]

theorem mem_run : k ∈ run after live ↔ k ∈ live ∧ ahead after k = true := mem_filter

theorem sorted_run (h : live.Pairwise (· < ·)) : (run after live).Pairwise (· < ·) := h.filter _

theorem ahead_trans (hc : ahead after c = true) (hk : c < k) : ahead after k = true := by
  cases after with
  | none => rfl
  | some a =>
    simp only [ahead, Option.all_some, decide_eq_true_eq] at hc ⊢
    exact hc.trans hk

/-- The next cursor splits the keys above the old one: those of the page are not above it, the
others are. -/
theorem run_split (hlive : live.Pairwise (· < ·)) (h : next limit after live = some c) :
    ahead after c = true ∧ (∀ x ∈ page limit after live, x ≤ c) ∧
      run (some c) live = (run after live).drop limit := by
  rw [next] at h
  split at h
  · obtain ⟨pre, hpre⟩ := List.getLast?_eq_some_iff.mp h
    have hrun : run after live = pre ++ c :: (run after live).drop limit := by
      have := take_append_drop limit (run after live)
      rw [show (run after live).take limit = pre ++ [c] from hpre] at this
      simpa using this.symm
    have hsorted : (pre ++ c :: (run after live).drop limit).Pairwise (· < ·) :=
      hrun ▸ sorted_run hlive
    obtain ⟨-, hpost, hcross⟩ := pairwise_append.mp hsorted
    have hc : ahead after c = true := (mem_run.mp (hrun ▸ by simp : c ∈ run after live)).2
    refine ⟨hc, fun x hx => ?_, ?_⟩
    · rw [hpre] at hx
      rcases mem_append.mp hx with hx | hx
      · exact (hcross x hx c (.head _)).le
      · rw [mem_singleton.mp hx]
    · have hfilter : run (some c) live = (run after live).filter (ahead (some c)) := by
        rw [run, run, filter_filter]
        refine filter_congr fun x _ => ?_
        by_cases hx : ahead (some c) x = true
        · have hcx : c < x := by simpa [ahead] using hx
          rw [hx, ahead_trans hc hcx]
          rfl
        · simp [hx]
      rw [hfilter]
      conv_lhs => rw [hrun]
      have hlow : ∀ x ∈ pre, ahead (some c) x = false := by
        intro x hx
        simpa [ahead] using (hcross x hx c (.head _)).le
      have hhigh : ∀ x ∈ (run after live).drop limit, ahead (some c) x = true := by
        intro x hx
        simpa [ahead] using (pairwise_cons.mp hpost).1 x hx
      rw [filter_append, filter_eq_nil_iff.mpr (fun x hx => by simp [hlow x hx]),
        filter_cons_of_neg (by simp [ahead]), filter_eq_self.mpr hhigh]
      rfl
  · cases h

theorem mem_page_of_le (hlive : live.Pairwise (· < ·)) (h : next limit after live = some c)
    (hk : k ∈ run after live) (hle : k ≤ c) : k ∈ page limit after live := by
  obtain ⟨-, -, hrest⟩ := run_split hlive h
  rw [← take_append_drop limit (run after live), ← hrest] at hk
  rcases mem_append.mp hk with hk | hk
  · exact hk
  · have hlt : c < k := by simpa [ahead] using (mem_run.mp hk).2
    exact absurd hle (not_le_of_gt hlt)

theorem page_of_next_none (hlimit : 0 < limit) (h : next limit after live = none) :
    (run after live).length ≤ limit := by
  rw [next] at h
  split at h
  · have hempty := List.getLast?_eq_none_iff.mp h
    have hlen := congrArg List.length hempty
    rw [page, length_take, length_nil] at hlen
    omega
  · omega

/-- What a call brings was there at that call. -/
theorem Series.mem_live (h : Series limit after calls done) (hk : k ∈ returned calls) :
    ∃ call ∈ calls, k ∈ call.1 := by
  have onPage : ∀ {after : Option κ} {live : List κ}, k ∈ page limit after live → k ∈ live :=
    fun hk => (mem_run.mp (mem_of_mem_take hk)).1
  induction h with
  | stop => simp [returned] at hk
  | last =>
    rw [returned_last] at hk
    exact ⟨_, (.head _), onPage hk⟩
  | more _ _ ih =>
    rcases mem_append.mp hk with hk | hk
    · exact ⟨_, (.head _), onPage hk⟩
    · obtain ⟨call, hcall, hlive⟩ := ih hk
      exact ⟨call, mem_cons_of_mem _ hcall, hlive⟩

/-- What the calls bring is increasing and lies above the cursor. -/
theorem Series.sorted (h : Series limit after calls done)
    (hlive : ∀ call ∈ calls, call.1.Pairwise (· < ·)) :
    (returned calls).Pairwise (· < ·) ∧ ∀ k ∈ returned calls, ahead after k = true := by
  have onPage : ∀ {after : Option κ} {live : List κ}, ∀ k ∈ page limit after live,
      ahead after k = true :=
    fun k hk => (mem_run.mp (mem_of_mem_take hk)).2
  induction h with
  | stop => exact ⟨List.Pairwise.nil, by simp [returned]⟩
  | @last after live _ =>
    have hl := hlive _ (.head _)
    rw [returned_last]
    exact ⟨(sorted_run hl).take, onPage⟩
  | @more after live c calls done hnext _ ih =>
    obtain ⟨hl, hrest⟩ := forall_mem_cons.mp hlive
    obtain ⟨hsorted, hahead⟩ := ih hrest
    obtain ⟨hc, hle, -⟩ := run_split hl hnext
    have habove : ∀ k ∈ returned calls, c < k := fun k hk => by simpa [ahead] using hahead k hk
    refine ⟨pairwise_append.mpr ⟨(sorted_run hl).take, hsorted, ?_⟩, fun k hk => ?_⟩
    · exact fun a ha b hb => lt_of_le_of_lt (hle a ha) (habove b hb)
    · rcases mem_append.mp hk with hk | hk
      · exact onPage k hk
      · exact ahead_trans hc (habove k hk)

/-- A key that is there at every call of a series that came to its end was brought. -/
theorem Series.complete (hlimit : 0 < limit) (h : Series limit after calls true)
    (hlive : ∀ call ∈ calls, call.1.Pairwise (· < ·)) (hk : ahead after k = true)
    (hthere : ∀ call ∈ calls, k ∈ call.1) : k ∈ returned calls := by
  generalize hd : true = done at h
  induction h with
  | stop => cases hd
  | @last after live hnext =>
    have hrun := mem_run.mpr ⟨hthere _ (.head _), hk⟩
    rw [returned_last]
    rwa [page, take_of_length_le (page_of_next_none hlimit hnext)]
  | @more after live c calls done hnext _ ih =>
    obtain ⟨hl, hrest⟩ := forall_mem_cons.mp hlive
    obtain ⟨hkl, hkrest⟩ := forall_mem_cons.mp hthere
    rcases le_or_gt k c with hle | hlt
    · exact mem_append_left _ (mem_page_of_le hl hnext (mem_run.mpr ⟨hkl, hk⟩) hle)
    · exact mem_append_right _ (ih hrest (by simpa [ahead] using hlt) hkrest hd)

/-- A series over a set that does not change brings every key above the cursor. -/
theorem Series.returned_eq (hlimit : 0 < limit) (h : Series limit after calls true)
    (hlive : live.Pairwise (· < ·)) (hsame : ∀ call ∈ calls, call.1 = live) :
    returned calls = run after live := by
  generalize hd : true = done at h
  induction h with
  | stop => cases hd
  | @last after live' hnext =>
    obtain rfl : live' = live := hsame _ (.head _)
    rw [returned_last]
    exact take_of_length_le (page_of_next_none hlimit hnext)
  | @more after live' c calls done hnext _ ih =>
    obtain ⟨rfl, hrest⟩ := forall_mem_cons.mp hsame
    obtain ⟨-, -, hsplit⟩ := run_split hlive hnext
    rw [returned_cons, ih hrest hd, hsplit, page, take_append_drop]

/-- The number of keys behind a page is the number that the later pages bring. -/
theorem Series.remaining (hlimit : 0 < limit) {page' : List κ}
    (h : Series limit after ((live, page') :: calls) true) (hlive : live.Pairwise (· < ·))
    (hsame : ∀ call ∈ calls, call.1 = live) :
    ((run after live).drop limit).length = (returned calls).length := by
  cases h with
  | last hnext =>
    rw [length_drop, Nat.sub_eq_zero_of_le (page_of_next_none hlimit hnext)]
    rfl
  | more hnext hrest =>
    obtain ⟨-, -, hsplit⟩ := run_split hlive hnext
    rw [hrest.returned_eq hlimit hlive hsame, hsplit]

end Cursor
