import DepAtlas.Index.Importers
import DepAtlas.Index.NodeCache
import DepAtlas.Proofs.Order

/-! # The cache and the index of importers

The laws of the two tables of an atlas. The cache answers for a path with what was put there last. An
index of importers is sound if it knows of each import under which source it was recorded; of a sound
index, taking out a source leaves exactly the imports of the other sources.
-/

namespace DepAtlas

namespace NodeCache

variable {c : NodeCache} {k k' mark : String} {node : FileNode}

@[simp] theorem get?_empty (k : String) : empty.get? k = none := rfl

theorem contains_iff : c.contains k = true ↔ ∃ f, c.get? k = some f := by
  rw [contains, Option.isSome_iff_exists]

@[simp] theorem get?_erase_self (c : NodeCache) (k : String) : (c.erase k).get? k = none := by
  simp [get?, erase, List.find?_filter]

theorem get?_erase_of_ne (h : k' ≠ k) : (c.erase k).get? k' = c.get? k' := by
  have hp : (fun x : String × CachedFile => decide (decide (x.1 ≠ k) = true ∧ decide (x.1 = k') = true))
      = fun x => decide (x.1 = k') := by
    funext x
    by_cases hx : x.1 = k' <;> simp [hx, h]
  simp only [get?, erase, List.find?_filter, hp]

theorem get?_erase (c : NodeCache) (k k' : String) :
    (c.erase k).get? k' = if k' = k then none else c.get? k' := by
  split
  · rename_i h; rw [h, get?_erase_self]
  · rename_i h; exact get?_erase_of_ne h

theorem get?_put (c : NodeCache) (k mark : String) (node : FileNode) (k' : String) :
    (c.put k mark node).get? k' = if k' = k then some ⟨mark, node⟩ else c.get? k' := by
  have hput : (c.put k mark node).get? k' =
      ((c.erase k).get? k').or (if k = k' then some ⟨mark, node⟩ else none) := by
    simp only [get?, put, List.find?_append, Option.map_or]
    by_cases h : k = k' <;> simp [h]
  rw [hput, get?_erase]
  by_cases h : k' = k
  · simp [h]
  · simp [h, Ne.symm h]

theorem mem_paths : k ∈ c.paths ↔ c.contains k = true := by
  rw [paths, Text.mem_sorted, contains, get?, Option.isSome_map, List.find?_isSome]
  simp [List.mem_map]

theorem mem_entries_of_get? {f : CachedFile} (h : c.get? k = some f) : (k, f) ∈ c.entries := by
  obtain ⟨x, hx, rfl⟩ := Option.map_eq_some_iff.mp h
  obtain rfl : x.1 = k := by simpa using List.find?_some hx
  exact List.mem_of_find?_eq_some hx

/-- No path has two entries. -/
def Distinct (c : NodeCache) : Prop := (c.entries.map (·.1)).Nodup

theorem distinct_empty : empty.Distinct := List.nodup_nil

theorem Distinct.erase (h : c.Distinct) (k : String) : (c.erase k).Distinct :=
  (List.filter_sublist.map _).nodup h

theorem Distinct.put (h : c.Distinct) (k mark : String) (node : FileNode) :
    (c.put k mark node).Distinct := by
  have hk : k ∉ (c.erase k).entries.map (·.1) := by
    simp [NodeCache.erase]
  rw [Distinct, NodeCache.put, List.map_append, List.nodup_append]
  refine ⟨h.erase k, List.nodup_singleton k, ?_⟩
  rintro x hx y hy rfl
  obtain rfl := List.mem_singleton.mp hy
  exact hk hx

theorem Distinct.get?_eq_some_iff (h : c.Distinct) {f : CachedFile} :
    c.get? k = some f ↔ (k, f) ∈ c.entries := by
  constructor
  · exact mem_entries_of_get?
  · intro hm
    obtain ⟨g, hg⟩ : ∃ g, c.get? k = some g := by
      rw [← contains_iff, ← mem_paths, paths, Text.mem_sorted]
      exact List.mem_map_of_mem (f := (·.1)) hm
    have he := List.inj_on_of_nodup_map h (mem_entries_of_get? hg) hm rfl
    obtain rfl : g = f := congrArg Prod.snd he
    exact hg

end NodeCache

namespace Importers

variable {i : Importers} {source target : String} {x : String × Importer} {d : Dependency}

/-- The edge that a dependency leaves in an index. -/
def edgeOf (d : Dependency) : String × Importer := (d.target, .ofDependency d)

/-- Every import is recorded once, and under its own source. -/
structure Sound (i : Importers) : Prop where
  nodup : i.edges.Nodup
  recorded : ∀ x ∈ i.edges, (x.2.source, x.1) ∈ i.recorded

theorem sound_empty : empty.Sound := ⟨List.nodup_nil, fun _ h => by cases h⟩

theorem mem_lookup {e : Importer} : e ∈ i.lookup target ↔ (target, e) ∈ i.edges := by
  simp [lookup]

theorem Sound.nodup_lookup (h : i.Sound) (target : String) : (i.lookup target).Nodup := by
  refine List.Nodup.map_on (fun x hx y hy he => ?_) (h.nodup.filter _)
  simp only [List.mem_filter, decide_eq_true_eq] at hx hy
  exact Prod.ext (hx.2.trans hy.2.symm) he

theorem mem_edges_recordDependency :
    x ∈ (i.recordDependency d).edges ↔ x ∈ i.edges ∨ x = edgeOf d := by
  simp only [recordDependency, record, edgeOf]
  split
  · rename_i h
    constructor
    · exact Or.inl
    · rintro (hx | rfl)
      · exact hx
      · exact List.contains_iff_mem.mp h
  · simp

theorem mem_recorded_recordDependency {p : String × String} :
    p ∈ (i.recordDependency d).recorded ↔ p ∈ i.recorded ∨ p = (d.source, d.target) := by
  simp only [recordDependency, record]
  split
  · rename_i h
    constructor
    · exact Or.inl
    · rintro (hp | rfl)
      · exact hp
      · exact List.contains_iff_mem.mp h
  · simp

theorem Sound.recordDependency (h : i.Sound) (d : Dependency) : (i.recordDependency d).Sound where
  nodup := by
    simp only [Importers.recordDependency, record]
    split
    · exact h.nodup
    · rename_i hn
      refine List.nodup_append.mpr ⟨h.nodup, List.nodup_singleton _, ?_⟩
      rintro x hx y hy rfl
      obtain rfl := List.mem_singleton.mp hy
      exact hn (List.contains_iff_mem.mpr hx)
  recorded x hx := by
    rw [mem_recorded_recordDependency]
    rcases mem_edges_recordDependency.mp hx with hx | rfl
    · exact Or.inl (h.recorded x hx)
    · exact Or.inr rfl

theorem Sound.foldl_recordDependency (h : i.Sound) (ds : List Dependency) :
    (ds.foldl Importers.recordDependency i).Sound := by
  induction ds generalizing i with
  | nil => exact h
  | cons d ds ih => exact ih (h.recordDependency d)

theorem mem_edges_foldl_recordDependency (ds : List Dependency) :
    x ∈ (ds.foldl recordDependency i).edges ↔ x ∈ i.edges ∨ ∃ d ∈ ds, x = edgeOf d := by
  induction ds generalizing i with
  | nil => simp
  | cons d ds ih =>
    rw [List.foldl_cons, ih, mem_edges_recordDependency, or_assoc]
    simp

theorem Sound.mem_edges_remove (h : i.Sound) :
    x ∈ (i.remove source).2.edges ↔ x ∈ i.edges ∧ x.2.source ≠ source := by
  simp only [remove, List.mem_filter, goesWith, Bool.not_eq_true', Bool.and_eq_false_iff,
    decide_eq_false_iff_not]
  refine and_congr_right fun hx => ⟨?_, Or.inr⟩
  rintro (hr | hs)
  · -- what goes with another source was recorded under that one
    rintro rfl
    rw [List.contains_iff_mem.mpr (h.recorded x hx)] at hr
    cases hr
  · exact hs

theorem Sound.remove (h : i.Sound) (source : String) : (i.remove source).2.Sound where
  nodup := h.nodup.filter _
  recorded x hx := by
    obtain ⟨hx, hs⟩ := h.mem_edges_remove.mp hx
    exact List.mem_filter.mpr ⟨h.recorded x hx, by simpa using hs⟩

theorem targetCount_eq (i : Importers) :
    i.targetCount = (i.edges.map (·.1)).toFinset.card :=
  Text.length_sortedOnce _

end Importers

end DepAtlas
