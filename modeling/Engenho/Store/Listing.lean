import Engenho.Store.Catalog

/-!
# Listings

What a reader of the store gets when it lists a scope: the entries of the scope in key order, each
key once, with their values.
-/

namespace Engenho

/-- The pods of a namespace, or all of them. -/
def podScope (ns : Option String) : ListScope := ⟨"", "v1", "Pod", ns⟩

/-- All nodes. -/
def nodeScope : ListScope := ⟨"", "v1", "Node", none⟩

theorem ListScope.kind_of_contains {scope : ListScope} {k : ResourceKey}
    (h : scope.contains k = true) : k.kind = scope.kind := by
  simp only [ListScope.contains, Bool.and_eq_true, decide_eq_true_eq] at h
  exact h.1.2

namespace ResourceCatalog

/-- The entries of a scope behind a cursor, in key order, with their values. -/
def entriesAfter (c : ResourceCatalog) (scope : ListScope) (after : Option ResourceKey) : Items :=
  (scope.range c.resources after).map fun e => (e.1, e.2.1)

/-- All entries of a scope. -/
def listed (c : ResourceCatalog) (scope : ListScope) : Items := c.entriesAfter scope none

variable {scope : ListScope} {c : ResourceCatalog}

theorem listed_keys_nodup (c : ResourceCatalog) (scope : ListScope) :
    ((c.listed scope).map Prod.fst).Nodup := by
  have : (c.listed scope).map Prod.fst = (scope.range c.resources none).map Prod.fst := by
    simp [listed, entriesAfter]
  rw [this, ListScope.range_eq_filter]
  exact (c.resources.sorted.filter _).nodup_keys

variable {key : ResourceKey} {v : Json}

theorem mem_listed : (key, v) ∈ c.listed scope ↔ scope.contains key = true ∧
    c.get key = some v := by
  unfold listed entriesAfter ResourceCatalog.get
  rw [ListScope.range_eq_filter, List.mem_map, Option.map_eq_some_iff]
  simp only [Option.all_none, Bool.and_true]
  constructor
  · rintro ⟨⟨k, e⟩, he, heq⟩
    cases heq
    obtain ⟨hmem, hin⟩ := List.mem_filter.mp he
    exact ⟨hin, e, (OrdMap.mem_entries _).mp hmem, rfl⟩
  · rintro ⟨hin, e, hget, rfl⟩
    exact ⟨(key, e), List.mem_filter.mpr ⟨(OrdMap.mem_entries _).mpr hget, hin⟩, rfl⟩

theorem get_of_mem_listed (h : (key, v) ∈ c.listed scope) : c.get key = some v :=
  (mem_listed.mp h).2

theorem listed_sorted (c : ResourceCatalog) (scope : ListScope) :
    Assoc.Sorted (c.listed scope) := by
  unfold listed entriesAfter
  rw [ListScope.range_eq_filter]
  exact (c.resources.sorted.filter _).map _

/-- A listing only shows what is at the keys of its scope. -/
theorem listed_congr {c' : ResourceCatalog}
    (h : ∀ k, scope.contains k = true → c'.get k = c.get k) :
    c'.listed scope = c.listed scope := by
  refine (listed_sorted c' scope).ext (listed_sorted c scope) fun k => ?_
  refine Option.ext fun v => ?_
  rw [Assoc.lookup_eq_some_iff_mem (listed_sorted c' scope).nodup_keys,
    Assoc.lookup_eq_some_iff_mem (listed_sorted c scope).nodup_keys, mem_listed, mem_listed]
  exact and_congr_right fun hk => by rw [h k hk]

end ResourceCatalog
end Engenho
