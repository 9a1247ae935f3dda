import DepAtlas.Proofs.Deletion

/-! # What a change leaves alone

A change that is told to an atlas makes it forget some files, and once the workspace has been indexed
some files are read again. The files that are told to be forgotten were known, and each is told once.
What is known of any other file stays, and its imports keep their order in the index of importers, since
a file is only entered while nothing is known of it.
-/

namespace DepAtlas

namespace Importers

variable {i : Importers} {source : String} {d : Dependency} {keep : String → Bool}

/-- The imports of the sources that are kept, in the order of recording. -/
def keptEdges (i : Importers) (keep : String → Bool) : List (String × Importer) :=
  i.edges.filter (keep ·.2.source)

theorem keptEdges_remove (h : keep source = false) :
    (i.remove source).2.keptEdges keep = i.keptEdges keep := by
  rw [keptEdges, remove, List.filter_filter]
  refine List.filter_congr fun x _ => ?_
  by_cases hx : x.2.source = source
  · simp [hx, h]
  · simp [goesWith, hx]

theorem keptEdges_recordDependency (h : keep d.source = false) :
    (i.recordDependency d).keptEdges keep = i.keptEdges keep := by
  simp only [keptEdges, recordDependency, record]
  split
  · rfl
  · rw [List.filter_append, List.filter_singleton]
    simp [Importer.ofDependency, h]

theorem keptEdges_foldl_recordDependency {ds : List Dependency}
    (h : ∀ d ∈ ds, keep d.source = false) (i : Importers) :
    (ds.foldl recordDependency i).keptEdges keep = i.keptEdges keep := by
  induction ds generalizing i with
  | nil => rfl
  | cons d ds ih =>
    rw [List.forall_mem_cons] at h
    rw [List.foldl_cons, ih h.2, keptEdges_recordDependency h.1]

theorem filter_lookup (i : Importers) (keep : String → Bool) (target : String) :
    (i.lookup target).filter (keep ·.source) =
      ((i.keptEdges keep).filter (·.1 = target)).map (·.2) := by
  rw [lookup, keptEdges, List.filter_map, List.filter_filter, List.filter_filter]
  congr 1
  exact List.filter_congr fun x _ => Bool.and_comm ..

end Importers

namespace Atlas

variable {w : World} {a b b' : Atlas} {k key : String} {gone : List String}

/-! ## Changes in two parts -/

theorem contains_foldl_forget (keys : List String) (a : Atlas) (k : String) :
    (keys.foldl (fun a key => (a.forget key).2) a).cache.contains k =
      (a.cache.contains k && !keys.contains k) := by
  rw [NodeCache.contains, get?_foldl_forget]
  by_cases hk : k ∈ keys <;> simp [NodeCache.contains, hk]

/-- Of the files that are forgotten those are told that were known, in the order of the first time. -/
theorem forgetAll_fst (a : Atlas) (keys : List String) :
    (a.forgetAll keys).1 = (keys.filter a.cache.contains).eraseDups := by
  induction keys using List.reverseRecOn with
  | nil => rfl
  | append_singleton keys key ih =>
    rw [forgetAll_concat, List.filter_append, List.eraseDups_append]
    dsimp only
    rw [ih, forgetAll_snd, contains_foldl_forget]
    cases hc : a.cache.contains key with
    | false => simp [hc, List.removeAll]
    | true =>
      by_cases hk : key ∈ keys
      · simp [hc, hk, List.removeAll]
      · simp [hc, hk, List.removeAll, List.eraseDups_cons]

/-- The files that a change makes an atlas forget. -/
def dropped (a : Atlas) (w : World) (p : Path) : Watch.Change → List String
  | .modified => [w.tree.key p]
  | .added => w.tree.key p :: a.waitingFor w (w.tree.key p)
  | .removed => a.evicted (w.tree.key p)

/-- The files that lead to the file `key` or to a known file below it. -/
def referrers (a : Atlas) (key : String) : List String :=
  (a.cache.paths.filter (fun cached =>
    cached = key || (Path.ofText cached).isUnder (.ofText key)) ++ [key]).flatMap
      a.importers.sourcesOf

/-- The files that are read again after a change, once the workspace has been indexed. -/
def reread (a : Atlas) (w : World) (p : Path) : Watch.Change → List Path
  | .modified => [p].filter a.tracks
  | .added =>
    (((a.forgetAll (a.dropped w p .added)).1 ++ [w.tree.key p]).map Path.ofText).filter
      fun q => a.tracks q && w.tree.isFile q
  | .removed => ((a.referrers (w.tree.key p)).map Path.ofText).filter w.tree.isFile

theorem refresh_cons (a : Atlas) (q : Path) (files : List Path) :
    a.refresh w (q :: files) = (a.analyze w q).2.refresh w files := by
  rw [← analyzeLenient_snd]
  rfl

theorem foldl_readAgain (sources : List String) (a : Atlas) :
    sources.foldl (readAgain w) a =
      a.refresh w ((sources.map Path.ofText).filter fun q => a.tracks q && w.tree.isFile q) := by
  induction sources generalizing a with
  | nil => rfl
  | cons source sources ih =>
    have ht : (readAgain w a source).tracks = a.tracks :=
      funext (learns_readAgain a source).alike.tracks
    rw [List.foldl_cons, ih, ht, List.map_cons, List.filter_cons]
    unfold readAgain
    split
    · rw [refresh_cons, refresh_cons]
      rfl
    · rfl

/-- Every change first forgets files and then reads files again. -/
theorem apply_eq (a : Atlas) (w : World) (p : Path) (c : Watch.Change) :
    a.apply w p c =
      if a.warmup.completed then
        (a.forgetAll (a.dropped w p c)).2.refresh w (a.reread w p c)
      else (a.forgetAll (a.dropped w p c)).2 := by
  have halike := alike_forgetAll a (a.dropped w p c)
  cases c with
  | modified =>
    have hforget : (a.forgetAll (a.dropped w p .modified)).2 = (a.invalidate w p).2 :=
      forgetAll_snd ..
    rw [hforget] at halike ⊢
    simp only [apply, fileChanged, reread, halike.warmup, halike.tracks]
    cases a.warmup.completed with
    | false => rfl
    | true =>
      cases ht : a.tracks p with
      | false => simp [ht, refresh]
      | true => simp [ht]
  | added =>
    have htracks : (a.forgetAll (a.dropped w p .added)).2.tracks = a.tracks := funext halike.tracks
    rw [apply, fileAdded_snd, reread, ← htracks, ← foldl_readAgain, ← halike.warmup]
    rfl
  | removed =>
    rw [← halike.warmup]
    rfl

theorem learns_apply (a : Atlas) (p : Path) (c : Watch.Change) :
    Learns w (a.forgetAll (a.dropped w p c)).2 (a.apply w p c) := by
  rw [apply_eq]
  split
  · exact learns_refresh _ _
  · exact .refl

/-! ## What is kept -/

/-- Whether a file is known and not among those that are forgotten. -/
def keeps (a : Atlas) (gone : List String) (source : String) : Bool :=
  a.cache.contains source && !gone.contains source

/-- What is known of the files that are kept is the same in another state. -/
structure Spared (a : Atlas) (gone : List String) (b : Atlas) : Prop where
  cached : ∀ k f, a.cache.get? k = some f → k ∉ gone → b.cache.get? k = some f
  edges : b.importers.keptEdges (a.keeps gone) = a.importers.keptEdges (a.keeps gone)

theorem spared_refl (a : Atlas) (gone : List String) : a.Spared gone a :=
  ⟨fun _ _ hf _ => hf, rfl⟩

/-- A file of which nothing is known is not one that is kept. -/
theorem Spared.keeps_eq_false (h : a.Spared gone b) (hk : b.cache.get? k = none) :
    a.keeps gone k = false := by
  refine Bool.eq_false_iff.mpr fun hkept => ?_
  simp only [keeps, Bool.and_eq_true, Bool.not_eq_true', List.contains_eq_mem,
    decide_eq_false_iff_not] at hkept
  obtain ⟨f, hf⟩ := NodeCache.contains_iff.mp hkept.1
  have hb := h.cached k f hf hkept.2
  rw [hk] at hb
  cases hb

theorem Spared.forget (h : a.Spared gone b) (hk : a.keeps gone key = false) :
    a.Spared gone (b.forget key).2 where
  cached k f hf hout := by
    rw [get?_forget, if_neg]
    · exact h.cached k f hf hout
    · rintro rfl
      have hkept : a.keeps gone k = true := by
        simp [keeps, hout, NodeCache.contains_iff.mpr ⟨f, hf⟩]
      rw [hk] at hkept
      cases hkept
  edges := (Importers.keptEdges_remove hk).trans h.edges

theorem Spared.learn (h : a.Spared gone b) (hl : Learn w b b') : a.Spared gone b' where
  cached k f hf hout := hl.get?_eq_some (h.cached k f hf hout)
  edges := by
    cases hl with
    | store p named unknown supported read built =>
      have hk := h.keeps_eq_false unknown
      rw [store, Importers.keptEdges_foldl_recordDependency, Importers.keptEdges_remove hk, h.edges]
      intro d hd
      rw [(build_own built).2 d hd, hk]
    | uses file =>
      unfold enterUses
      split <;> exact h.edges

theorem Spared.learns (h : a.Spared gone b) (hl : Learns w b b') : a.Spared gone b' := by
  induction hl with
  | refl => exact h
  | tail _ hstep ih => exact ih.learn hstep

theorem Spared.foldl_forget {keys : List String} (h : a.Spared gone b)
    (hk : ∀ key ∈ keys, a.keeps gone key = false) :
    a.Spared gone (keys.foldl (fun a key => (a.forget key).2) b) := by
  induction keys generalizing b with
  | nil => exact h
  | cons key keys ih =>
    rw [List.forall_mem_cons] at hk
    exact ih (h.forget hk.1) hk.2

/-- The files that are told to be forgotten are all that forgetting takes away. -/
theorem spared_forgetAll (a : Atlas) (keys : List String) :
    a.Spared (a.forgetAll keys).1 (a.forgetAll keys).2 := by
  rw [forgetAll_snd]
  refine (spared_refl a _).foldl_forget fun key hkey => ?_
  cases hc : a.cache.contains key with
  | false => simp [keeps, hc]
  | true => simp [keeps, hc, mem_forgetAll hkey hc]

theorem Spared.filter_lookup (h : a.Spared gone b) (target : String) :
    (b.importers.lookup target).filter (a.keeps gone ·.source) =
      (a.importers.lookup target).filter (a.keeps gone ·.source) := by
  rw [Importers.filter_lookup, Importers.filter_lookup, h.edges]

/-! ## Footprints -/

/-- All that a change does to an atlas is done to the files that it lists: what is known of the others
stays, with their entries in the index of importers and the order of these, and before the workspace
has been indexed the cache loses the listed files and is otherwise the same. -/
structure Footprint (a : Atlas) (gone : List String) (b : Atlas) : Prop where
  cached : ∀ k f, a.cache.get? k = some f → k ∉ gone → b.cache.get? k = some f
  importers : ∀ target, (b.importers.lookup target).filter (a.keeps gone ·.source) =
    (a.importers.lookup target).filter (a.keeps gone ·.source)
  unindexed : a.warmup.completed = false →
    ∀ k, b.cache.get? k = if k ∈ gone then none else a.cache.get? k

theorem Spared.footprint (h : a.Spared gone b)
    (hexact : a.warmup.completed = false →
      ∀ k, b.cache.get? k = if k ∈ gone then none else a.cache.get? k) : a.Footprint gone b :=
  ⟨h.cached, h.filter_lookup, hexact⟩

theorem mem_forgetAll_fst {keys : List String} :
    k ∈ (a.forgetAll keys).1 ↔ k ∈ keys ∧ a.cache.contains k = true := by
  rw [forgetAll_fst, List.mem_eraseDups, List.mem_filter]

theorem get?_forgetAll (a : Atlas) (keys : List String) (k : String) :
    (a.forgetAll keys).2.cache.get? k =
      if k ∈ (a.forgetAll keys).1 then none else a.cache.get? k := by
  rw [forgetAll_snd, get?_foldl_forget]
  simp only [mem_forgetAll_fst]
  cases hk : a.cache.get? k with
  | none => simp
  | some f => simp [NodeCache.contains, hk]

theorem footprint_apply (a : Atlas) (w : World) (p : Path) (c : Watch.Change) :
    a.Footprint (a.forgetAll (a.dropped w p c)).1 (a.apply w p c) := by
  apply ((spared_forgetAll a _).learns (learns_apply a p c)).footprint
  intro hc k
  rw [apply_eq, hc]
  exact get?_forgetAll a _ k

theorem spared_invalidate (a : Atlas) (w : World) (p : Path) :
    a.Spared [w.tree.key p] (a.invalidate w p).2 :=
  (spared_refl a _).forget (by simp [keeps])

/-- In every state, whatever the path and the files: the lists that come back when a file has come or
gone name known files, each once, and the other two answers tell whether the file was known. None of
these changes reaches beyond the files that it lists, or beyond the file of its path. -/
theorem changes_keep_to_listed_files (a : Atlas) (w : World) (p : Path) :
    (∀ told ∈ [a.fileAdded w p, a.fileDeleted w p],
      told.1.Nodup ∧ (∀ k ∈ told.1, a.cache.contains k = true) ∧ a.Footprint told.1 told.2) ∧
    ∀ told ∈ [a.invalidate w p, a.fileChanged w p],
      told.1 = a.cache.contains (w.tree.key p) ∧ a.Footprint [w.tree.key p] told.2 := by
  have hlisted : ∀ c, ((a.forgetAll (a.dropped w p c)).1).Nodup ∧
      ∀ k ∈ (a.forgetAll (a.dropped w p c)).1, a.cache.contains k = true := by
    intro c
    constructor
    · rw [forgetAll_fst]
      exact Text.nodup_eraseDups _
    · exact fun k hk => (mem_forgetAll_fst.mp hk).2
  simp only [List.forall_mem_cons, List.not_mem_nil, false_imp_iff, implies_true, and_true]
  refine ⟨⟨?_, ?_⟩, ⟨rfl, ?_⟩, ⟨rfl, ?_⟩⟩
  · exact ⟨(hlisted .added).1, (hlisted .added).2, footprint_apply a w p .added⟩
  · exact ⟨(hlisted .removed).1, (hlisted .removed).2, footprint_apply a w p .removed⟩
  · apply (spared_invalidate a w p).footprint
    intro _ k
    simp only [List.mem_singleton]
    exact get?_forget a (w.tree.key p) k
  · have hl := learns_apply (w := w) a p .modified
    have hforget : (a.forgetAll (a.dropped w p .modified)).2 = (a.invalidate w p).2 :=
      forgetAll_snd ..
    rw [hforget] at hl
    apply ((spared_invalidate a w p).learns hl).footprint
    intro hc k
    simp only [List.mem_singleton]
    exact get?_fileChanged hc p k

end Atlas

end DepAtlas
