import DepAtlas.Proofs.Histories
import DepAtlas.Proofs.Index
import Mathlib.Data.Set.Card

/-! # The index of importers mirrors the cache

A file is entered and forgotten in the cache and in the index of importers together. So after every
history the index holds exactly the dependencies of the cached files, turned round, and a look at the
cache drops nothing of what it says.
-/

namespace DepAtlas

namespace Atlas

variable {w : World} {a a' : Atlas} {key : String}

/-! ## Nodes -/

/-- A dependency comes from a name that leads to another source file. -/
theorem link_eq_dependency {i : Import} {d : Dependency} (h : a.link w key i = .dependency d) :
    ∃ path, a.resolver.resolve w.tree key i.specifier = .ok (.resolved path) ∧
      (Language.ofPath? path).isSome = true ∧ path.toText ≠ key ∧
      d = ⟨key, path.toText, i.kind, i.line, i.specifier⟩ := by
  unfold link at h
  dsimp only at h
  split at h
  · cases h
  · cases h
  · rename_i path hpath
    split at h
    · cases h
    · rename_i hlanguage
      split at h
      · cases h
      · rename_i hother
        exact ⟨path, hpath, by simpa [← Option.isSome_iff_ne_none] using hlanguage, hother,
          (Link.dependency.inj h).symm⟩

theorem link_of_resolve {i : Import} {path : Path}
    (h : a.resolver.resolve w.tree key i.specifier = .ok (.resolved path))
    (hlanguage : (Language.ofPath? path).isSome = true) (hother : path.toText ≠ key) :
    a.link w key i = .dependency ⟨key, path.toText, i.kind, i.line, i.specifier⟩ := by
  rw [link, h]
  simp [Option.isSome_iff_ne_none.mp hlanguage, hother]

theorem source_of_link {i : Import} {d : Dependency} (h : a.link w key i = .dependency d) :
    d.source = key := by
  obtain ⟨path, -, -, -, rfl⟩ := link_eq_dependency h
  rfl

theorem mem_dependenciesOf {links : List Link} {d : Dependency} :
    d ∈ dependenciesOf links ↔ .dependency d ∈ links := by
  rw [dependenciesOf, List.mem_eraseDups, List.mem_filterMap]
  constructor
  · rintro ⟨x, hx, hd⟩
    cases x <;> simp only [Option.some.injEq, reduceCtorEq] at hd
    exact hd ▸ hx
  · intro h
    exact ⟨_, h, rfl⟩

/-- Only an open session builds a node, and it does so from an outline. -/
theorem build_eq_ok {content : List UInt8} {node : FileNode}
    (h : a.build w key content = .ok node) :
    a.closed = false ∧ ∃ o, w.parsing.outline key (Text.decodeLenient content) = .ok o ∧
      node = a.nodeOf w key o := by
  unfold build Parsing.outlineIn at h
  cases hc : a.closed with
  | true => simp [hc, Except.map] at h
  | false =>
    simp only [hc, Bool.false_eq_true, if_false] at h
    cases ho : w.parsing.outline key (Text.decodeLenient content) with
    | error e => simp [ho, Except.map] at h
    | ok o =>
      rw [ho] at h
      exact ⟨rfl, o, rfl, (Except.ok.inj h).symm⟩

/-- A node that is built belongs to its key, and so do its dependencies. -/
theorem build_own {content : List UInt8} {node : FileNode} (h : a.build w key content = .ok node) :
    node.path = key ∧ ∀ d ∈ node.dependencies, d.source = key := by
  obtain ⟨-, o, -, rfl⟩ := build_eq_ok h
  refine ⟨rfl, fun d hd => ?_⟩
  obtain ⟨i, -, hi⟩ := List.mem_map.mp (mem_dependenciesOf.mp hd)
  exact source_of_link hi

/-! ## The mirror -/

/-- A file in the cache has the dependency. -/
def Holds (a : Atlas) (d : Dependency) : Prop :=
  ∃ k f, a.cache.get? k = some f ∧ d ∈ f.node.dependencies

/-- The index of importers has an edge for each dependency of a cached file, and no other. -/
structure Mirrored (a : Atlas) : Prop where
  own : ∀ k f, a.cache.get? k = some f → f.node.path = k ∧ ∀ d ∈ f.node.dependencies, d.source = k
  sound : a.importers.Sound
  edges : ∀ x, x ∈ a.importers.edges ↔ ∃ d, a.Holds d ∧ x = Importers.edgeOf d

theorem holds_forget (h : a.Mirrored) {d : Dependency} :
    (a.forget key).2.Holds d ↔ a.Holds d ∧ d.source ≠ key := by
  simp only [Holds, forget, NodeCache.get?_erase]
  constructor
  · rintro ⟨k, f, hf, hd⟩
    split at hf
    · cases hf
    · rename_i hk
      exact ⟨⟨k, f, hf, hd⟩, (h.own k f hf).2 d hd ▸ hk⟩
  · rintro ⟨⟨k, f, hf, hd⟩, hs⟩
    have hk : k ≠ key := (h.own k f hf).2 d hd ▸ hs
    exact ⟨k, f, by rw [if_neg hk]; exact hf, hd⟩

theorem holds_store (h : a.Mirrored) {mark : String} {node : FileNode} {d : Dependency} :
    (a.store key mark node).Holds d ↔ (a.Holds d ∧ d.source ≠ key) ∨ d ∈ node.dependencies := by
  simp only [Holds, store, NodeCache.get?_put]
  constructor
  · rintro ⟨k, f, hf, hd⟩
    split at hf
    · cases hf
      exact Or.inr hd
    · rename_i hk
      exact Or.inl ⟨⟨k, f, hf, hd⟩, (h.own k f hf).2 d hd ▸ hk⟩
  · rintro (⟨⟨k, f, hf, hd⟩, hs⟩ | hd)
    · have hk : k ≠ key := (h.own k f hf).2 d hd ▸ hs
      exact ⟨k, f, by rw [if_neg hk]; exact hf, hd⟩
    · exact ⟨key, ⟨mark, node⟩, by simp, hd⟩

theorem mem_edges_remove_iff (h : a.Mirrored) {x : String × Importer} :
    x ∈ (a.importers.remove key).2.edges ↔
      ∃ d, (a.Holds d ∧ d.source ≠ key) ∧ x = Importers.edgeOf d := by
  rw [h.sound.mem_edges_remove, h.edges]
  constructor
  · rintro ⟨⟨d, hd, rfl⟩, hs⟩
    exact ⟨d, ⟨hd, hs⟩, rfl⟩
  · rintro ⟨d, ⟨hd, hs⟩, rfl⟩
    exact ⟨⟨d, hd, rfl⟩, hs⟩

theorem mirrored_of_empty (hc : a.cache = .empty) (hi : a.importers = .empty) : a.Mirrored where
  own k f hf := by simp [hc] at hf
  sound := hi ▸ Importers.sound_empty
  edges x := by
    rw [hi]
    constructor
    · intro hx
      cases hx
    · rintro ⟨d, ⟨k, f, hf, -⟩, -⟩
      simp [hc] at hf

theorem Mirrored.forget (h : a.Mirrored) (key : String) : (a.forget key).2.Mirrored where
  own k f hf := by
    simp only [Atlas.forget, NodeCache.get?_erase] at hf
    split at hf
    · cases hf
    · exact h.own k f hf
  sound := h.sound.remove key
  edges x := by
    simp only [holds_forget h]
    exact mem_edges_remove_iff h

theorem Mirrored.store (h : a.Mirrored) {mark : String} {node : FileNode} (hp : node.path = key)
    (hs : ∀ d ∈ node.dependencies, d.source = key) : (a.store key mark node).Mirrored where
  own k f hf := by
    simp only [Atlas.store, NodeCache.get?_put] at hf
    split at hf
    · rename_i hk
      cases hf
      exact hk ▸ ⟨hp, hs⟩
    · exact h.own k f hf
  sound := (h.sound.remove key).foldl_recordDependency node.dependencies
  edges x := by
    simp only [holds_store h]
    rw [Atlas.store, Importers.mem_edges_foldl_recordDependency, mem_edges_remove_iff h]
    constructor
    · rintro (⟨d, hd, rfl⟩ | ⟨d, hd, rfl⟩)
      · exact ⟨d, Or.inl hd, rfl⟩
      · exact ⟨d, Or.inr hd, rfl⟩
    · rintro ⟨d, hd | hd, rfl⟩
      · exact Or.inl ⟨d, hd, rfl⟩
      · exact Or.inr ⟨d, hd, rfl⟩

theorem Mirrored.congr (h : a.Mirrored) (hc : a'.cache = a.cache)
    (hi : a'.importers = a.importers) : a'.Mirrored where
  own := hc ▸ h.own
  sound := hi ▸ h.sound
  edges x := by
    have hh : ∀ d, a'.Holds d ↔ a.Holds d := fun d => by simp only [Holds, hc]
    simp only [hi, hh]
    exact h.edges x

theorem Mirrored.move (h : a.Mirrored) (hm : Move w a a') : a'.Mirrored := by
  cases hm with
  | learn hl =>
    cases hl with
    | store p named unknown supported read built =>
      obtain ⟨hp, hs⟩ := build_own built
      exact h.store hp hs
    | uses file =>
      unfold enterUses
      split
      · exact h
      · exact h.congr rfl rfl
  | index plain read built =>
    obtain ⟨hp, hs⟩ := build_own built
    exact h.store hp hs
  | forget key => exact h.forget key
  | note => exact h.congr rfl rfl
  | close => exact mirrored_of_empty rfl rfl

theorem Mirrored.moves (h : a.Mirrored) (hm : Moves w a a') : a'.Mirrored :=
  hm.keeps (fun _ _ ha => ha.move) h

end Atlas

namespace Atlas.Mirrored

variable {a : Atlas} (h : a.Mirrored)

include h

theorem mem_lookup_iff {target : String} {e : Importer} :
    e ∈ a.importers.lookup target ↔ ∃ d, a.Holds d ∧ d.target = target ∧ .ofDependency d = e := by
  rw [Importers.mem_lookup, h.edges]
  constructor
  · rintro ⟨d, hd, he⟩
    cases he
    exact ⟨d, hd, rfl, rfl⟩
  · rintro ⟨d, hd, rfl, rfl⟩
    exact ⟨d, hd, rfl⟩

theorem targetCount_eq_ncard :
    a.importers.targetCount = {t | ∃ d, a.Holds d ∧ d.target = t}.ncard := by
  rw [Importers.targetCount_eq, ← Set.ncard_coe_finset]
  congr 1
  ext t
  simp only [List.coe_toFinset, List.mem_map, Set.mem_ofPred_eq]
  constructor
  · rintro ⟨x, hx, rfl⟩
    obtain ⟨d, hd, rfl⟩ := (h.edges x).mp hx
    exact ⟨d, hd, rfl⟩
  · rintro ⟨d, hd, rfl⟩
    exact ⟨_, (h.edges _).mpr ⟨d, hd, rfl⟩, rfl⟩

/-- The cache bears out all that the index says. -/
theorem referencesTo_eq (w : World) (p : Path) :
    a.referencesTo w p = a.importers.lookup (w.tree.key p) := by
  refine List.filter_eq_self.mpr fun e he => ?_
  obtain ⟨d, ⟨k, f, hf, hd⟩, ht, rfl⟩ := h.mem_lookup_iff.mp he
  have hk : (Importer.ofDependency d).source = k := (h.own k f hf).2 d hd
  simp only [hk, hf, Option.any_some, List.any_eq_true, Bool.and_eq_true, decide_eq_true_eq]
  exact ⟨d, hd, ht, rfl⟩

end Atlas.Mirrored

namespace Session

variable {s : Session}

theorem Reachable.mirrored {allowed : World → Prop} (h : s.Reachable allowed) :
    s.atlas.Mirrored := by
  refine h.atlas_of_moves (fun w config a _ hn => ?_) fun w a a' _ ha hm => ha.move hm
  have hf := Atlas.fresh_of_new hn
  exact Atlas.mirrored_of_empty hf.cache hf.importers

/-- After every history, whatever became of the files meanwhile, the index of importers is the cache
turned round: cached nodes and their dependencies belong to their keys, the importers of a target are
the dependencies that lead to it, each once, and as many targets are counted as there are. So asking
the cache again about an importer never drops it. -/
theorem importers_mirror_cache (h : s.Reachable fun _ => True) :
    (∀ k f, s.atlas.cache.get? k = some f →
      f.node.path = k ∧ ∀ d ∈ f.node.dependencies, d.source = k) ∧
    (∀ t, (s.atlas.importers.lookup t).Nodup ∧ ∀ e, e ∈ s.atlas.importers.lookup t ↔
      ∃ d, s.atlas.Holds d ∧ d.target = t ∧ .ofDependency d = e) ∧
    s.atlas.importers.targetCount = {t | ∃ d, s.atlas.Holds d ∧ d.target = t}.ncard ∧
    ∀ w p, s.atlas.referencesTo w p = s.atlas.importers.lookup (w.tree.key p) :=
  have hm := h.mirrored
  ⟨hm.own, fun t => ⟨hm.sound.nodup_lookup t, fun _ => hm.mem_lookup_iff⟩, hm.targetCount_eq_ncard,
    hm.referencesTo_eq⟩

end Session

/-! ## A small workspace -/

namespace Small

/-- The source `import './b'`. -/
def source : List UInt8 := [105, 109, 112, 111, 114, 116, 32, 39, 46, 47, 98, 39]

/-- A workspace with one file, which imports another. -/
def tree : FileTree := ⟨[(["w"], .directory), (["w", "a.ts"], .file source)], []⟩

/-- The workspace when the file that is imported has come. -/
def grown : FileTree :=
  ⟨[(["w"], .directory), (["w", "a.ts"], .file source), (["w", "b.ts"], .file [])], []⟩

def config : WorkspaceConfig := ⟨"/w", 5, [], [], false, false, false, 0, 0, false⟩

def world (t : FileTree) : World := { tree := t, parsing := .byGrammar }

def root : Path := ⟨true, [.enter "w"]⟩

/-- The file that imports another. -/
def importer : Path := ⟨true, [.enter "w", .enter "a.ts"]⟩

def atlas : Atlas where
  config := config
  root := root
  resolver := ⟨root, []⟩
  exclusions := ⟨root, []⟩
  cache := .empty
  importers := .empty
  callers := .empty
  status := {}
  warmup := {}
  closed := false

theorem new_eq (t : FileTree) (h : t = tree ∨ t = grown) :
    Atlas.new (world t) config = .ok atlas := by
  rcases h with rfl | rfl <;> rfl

end Small

/-- In the grown workspace, looking at the importing file makes the import known from both ends. -/
theorem Session.importers_mirror_cache_small :
    ∃ s : Session, (s.Reachable fun _ => True) ∧
      s.atlas.importers.lookup "/w/b.ts" = [⟨"/w/a.ts", 1, "./b", .plain⟩] ∧
      s.atlas.importers.targetCount = {t | ∃ d, s.atlas.Holds d ∧ d.target = t}.ncard := by
  have h : (Session.act (Small.world Small.grown) ⟨Small.atlas, []⟩
      (.analyze Small.importer)).Reachable fun _ => True :=
    .act trivial (.new trivial (Small.new_eq _ (Or.inr rfl))) _
  exact ⟨_, h, by decide +kernel, (Session.importers_mirror_cache h).2.2.1⟩

end DepAtlas
