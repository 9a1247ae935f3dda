import DepAtlas.Proofs.Crawls
import Mathlib.Data.List.Find

/-! # Crawls tell distances

Whatever became of the files since they were entered, an atlas has something to say of each of them, and
the dependencies that it tells lead from file to file. As long as the files at their ends are known by
the names that the dependencies give them, a crawl goes through this graph breadth first. It tells the
files within its depth, the nearer ones first and each at its distance, of the dependencies from one
file to another the first one, and whether a file at the full depth leads on.
-/

namespace DepAtlas

namespace Atlas

variable {w : World} {a : Atlas} {p : Path} {x : String} {n : FileNode}

/-! ## The graph of an atlas with a history -/

/-- What is said of a file belongs to its key, and its dependencies start there. -/
theorem Mirrored.own_of_analyze (h : a.Mirrored) (hn : (a.analyze w p).1 = .ok n) :
    n.path = w.tree.key p ∧ ∀ d ∈ n.dependencies, d.source = n.path := by
  have hown : n.path = w.tree.key p ∧ ∀ d ∈ n.dependencies, d.source = w.tree.key p := by
    rw [analyze_fst] at hn
    split at hn
    · rename_i f hf
      obtain rfl := Except.ok.inj hn
      exact h.own _ f hf
    · obtain ⟨content, hb⟩ := judge_eq_ok hn
      exact build_own hb
  refine ⟨hown.1, fun d hd => ?_⟩
  rw [hown.1]
  exact hown.2 d hd

/-- Something is told of a file because it can be read, or else it is a leaf of its language. -/
theorem told_cases (hn : a.told w x = some n) :
    (a.analyze w (.ofText x)).1 = .ok n ∨
      ∃ language, n = FileNode.leaf (w.tree.key (.ofText x)) language := by
  rw [told_eq] at hn
  split at hn
  · rename_i node hnode
    obtain rfl := Option.some.inj hn
    exact Or.inl hnode
  · obtain ⟨language, -, rfl⟩ := Option.map_eq_some_iff.mp hn
    exact Or.inr ⟨language, rfl⟩

theorem exists_told (h : (Language.ofPath? (.ofText x)).isSome = true) :
    ∃ n, a.told w x = some n := by
  obtain ⟨language, hl⟩ := Option.isSome_iff_exists.mp h
  rw [told_eq, hl]
  split
  · exact ⟨_, rfl⟩
  · exact ⟨_, rfl⟩

theorem Mirrored.path_of_told (h : a.Mirrored) (hn : a.told w x = some n) :
    n.path = w.tree.key (.ofText x) := by
  rcases told_cases hn with hn | ⟨language, rfl⟩
  · exact (h.own_of_analyze hn).1
  · rfl

/-- A file that leads on has been read. -/
theorem analyze_of_mem_dependencies {d : Dependency} (hn : a.told w x = some n)
    (hd : d ∈ n.dependencies) : (a.analyze w (.ofText x)).1 = .ok n := by
  rcases told_cases hn with hn | ⟨language, rfl⟩
  · exact hn
  · cases hd

/-- The dependencies in the cache lead to files of known languages. -/
def Directed (a : Atlas) : Prop :=
  ∀ k f, a.cache.get? k = some f → ∀ d ∈ f.node.dependencies,
    (Language.ofPath? (.ofText d.target)).isSome = true

theorem language_of_build {key : String} {content : List UInt8} (hw : w.tree.WellFormed)
    (h : a.build w key content = .ok n) :
    ∀ d ∈ n.dependencies, (Language.ofPath? (.ofText d.target)).isSome = true := by
  obtain ⟨-, o, -, rfl⟩ := build_eq_ok h
  intro d hd
  obtain ⟨i, -, hi⟩ := List.mem_map.mp (mem_dependenciesOf.mp hd)
  obtain ⟨path, hres, hlanguage, -, rfl⟩ := link_eq_dependency hi
  rw [(Resolve.Resolver.settled_of_resolve hw hres).1]
  exact hlanguage

theorem Directed.language_of_analyze (h : a.Directed) (hw : w.tree.WellFormed)
    (hn : (a.analyze w p).1 = .ok n) :
    ∀ d ∈ n.dependencies, (Language.ofPath? (.ofText d.target)).isSome = true := by
  rw [analyze_fst] at hn
  split at hn
  · rename_i f hf
    obtain rfl := Except.ok.inj hn
    exact h _ f hf
  · obtain ⟨content, hb⟩ := judge_eq_ok hn
    exact language_of_build hw hb

/-- Each file at the end of a dependency that is told is known by the name it has there. -/
def KeysHold (a : Atlas) (w : World) : Prop :=
  ∀ x n d, a.told w x = some n → d ∈ n.dependencies → w.tree.key (.ofText d.target) = d.target

/-- What is read now is known by its names, so it is enough to look at the cache. -/
theorem keysHold_of_cache (hw : w.tree.WellFormed)
    (h : ∀ k f, a.cache.get? k = some f → ∀ d ∈ f.node.dependencies,
      w.tree.key (.ofText d.target) = d.target) : a.KeysHold w := by
  intro x n d hn hd
  have hread := analyze_of_mem_dependencies hn hd
  rw [analyze_fst] at hread
  split at hread
  · rename_i f hf
    obtain rfl := Except.ok.inj hread
    exact h _ f hf d hd
  · obtain ⟨content, hb⟩ := judge_eq_ok hread
    obtain ⟨-, o, -, rfl⟩ := build_eq_ok hb
    obtain ⟨i, -, hi⟩ := List.mem_map.mp (mem_dependenciesOf.mp hd)
    obtain ⟨path, hres, -, -, rfl⟩ := link_eq_dependency hi
    obtain ⟨htext, hkey⟩ := Resolve.Resolver.settled_of_resolve hw hres
    rw [htext, hkey]

theorem sturdy_of_keysHold (hm : a.Mirrored) (hd : a.Directed) (hw : w.tree.WellFormed)
    (hk : a.KeysHold w) : a.Sturdy w where
  source x n d hn hdep := (hm.own_of_analyze (analyze_of_mem_dependencies hn hdep)).2 d hdep
  target x n d hn hdep := by
    have hread := analyze_of_mem_dependencies hn hdep
    obtain ⟨m, hm'⟩ := exists_told (a := a) (w := w) (hd.language_of_analyze hw hread d hdep)
    refine ⟨m, hm', ?_⟩
    rw [hm.path_of_told hm', hk x n d hn hdep]

end Atlas

theorem Session.Reachable.directed {s : Session} (h : s.Reachable (·.tree.WellFormed)) :
    s.atlas.Directed := by
  refine h.atlas_of_moves (fun w config a _ hn => ?_) fun w a a' hw ha hm => ?_
  · intro k f hf
    simp [(Atlas.fresh_of_new hn).cache] at hf
  · intro k f hf
    rcases hm.get?_eq_some hf with hold | ⟨content, node, hb, rfl, -⟩
    · exact ha k f hold
    · exact Atlas.language_of_build hw hb

namespace Crawl

open Atlas (Learns)

variable {w : World} {a : Atlas} {depth : Nat} {s : State} {d e : Dependency}

/-! ## First dependencies -/

theorem edges_follow (w : World) (depth : Nat) (s : State) (d : Dependency) :
    (follow w depth s d).crawl.edges = (s.crawl.addEdge d).edges := by
  unfold follow
  dsimp only
  split
  · rfl
  · split <;> rfl

theorem mem_edges_addEdge {c : Crawl} (h : e ∈ (c.addEdge d).edges) :
    e ∈ c.edges ∨ e = d ∧ (d.source, d.target) ∉ c.pairs := by
  unfold addEdge at h
  split at h
  · exact Or.inl h
  · rename_i hnew
    rcases List.mem_append.mp h with h | h
    · exact Or.inl h
    · refine Or.inr ⟨List.mem_singleton.mp h, fun hin => hnew ?_⟩
      obtain ⟨f, hf, hends⟩ := List.mem_map.mp hin
      obtain ⟨hsource, htarget⟩ := Prod.mk.inj hends
      exact List.any_eq_true.mpr ⟨f, hf, by simp [hsource, htarget]⟩

theorem mem_pairs_follow (w : World) (depth : Nat) (s : State) (d : Dependency)
    (x : String × String) :
    x ∈ (follow w depth s d).crawl.pairs ↔ x ∈ s.crawl.pairs ∨ (d.source, d.target) = x := by
  rw [pairs, edges_follow]
  exact mem_pairs_addEdge s.crawl d x

/-- An edge that is new is the first dependency with its ends. -/
theorem mem_edges_foldl_follow {ds : List Dependency}
    (h : e ∈ (ds.foldl (follow w depth) s).crawl.edges) :
    e ∈ s.crawl.edges ∨ (e.source, e.target) ∉ s.crawl.pairs ∧
      ds.find? (fun d => d.source = e.source ∧ d.target = e.target) = some e := by
  induction ds generalizing s with
  | nil => exact Or.inl h
  | cons d ds ih =>
    rcases ih h with h | ⟨hpair, hfind⟩
    · rw [edges_follow] at h
      rcases mem_edges_addEdge h with h | ⟨rfl, hpair⟩
      · exact Or.inl h
      · exact Or.inr ⟨hpair, by simp⟩
    · rw [mem_pairs_follow, not_or, Prod.mk.injEq] at hpair
      refine Or.inr ⟨hpair.1, ?_⟩
      rw [List.find?_cons_of_neg (by simpa using hpair.2)]
      exact hfind

/-- An edge that is new after a level is the first dependency with its ends of a file in it. -/
theorem mem_edges_level {level : List FileNode}
    (h : e ∈ (level.foldl (expand w depth) s).crawl.edges) :
    e ∈ s.crawl.edges ∨ ∃ n ∈ level,
      n.dependencies.find? (fun d => d.source = e.source ∧ d.target = e.target) = some e := by
  induction level generalizing s with
  | nil => exact Or.inl h
  | cons n level ih =>
    rcases ih h with h | ⟨m, hm, hfind⟩
    · rcases mem_edges_foldl_follow h with h | ⟨-, hfind⟩
      · rw [(nodes_foldl_addUnresolved n.unresolved s.crawl).2] at h
        exact Or.inl h
      · exact Or.inr ⟨n, List.mem_cons_self, hfind⟩
    · exact Or.inr ⟨m, List.mem_cons_of_mem _ hm, hfind⟩

/-! ## Charts -/

/-- What the nodes and edges that a crawl has found so far are: the nodes are in the order of their
depths and as their files are told, and each edge is the first dependency of its file that leads where
it leads. -/
structure Charted (w : World) (a : Atlas) (c : Crawl) : Prop where
  sorted : c.nodes.Pairwise fun m n => m.depth ≤ n.depth
  shown : ∀ n ∈ c.nodes, ∃ m, a.told w n.path = some m ∧ n = .ofNode m n.depth
  first : ∀ e ∈ c.edges, ∃ m, a.told w e.source = some m ∧
    m.dependencies.find? (·.target = e.target) = some e

theorem Charted.advance {start : String} {k : Nat} {x : List FileNode × State}
    (h : Charted w a x.2.crawl) (hl : Layered w a start k x) (ha : a.Sturdy w) :
    Charted w a (Crawl.advance w k x).2.crawl := by
  have hlearned : Learns w a ({ x.2 with next := [] } : State).atlas := hl.learned
  obtain ⟨found, hf⟩ := exists_followed_level k ha hlearned hl.told
  have hnodes : (Crawl.advance w k x).2.crawl.nodes =
      x.2.crawl.nodes ++ found.map (.ofNode · (k + 1)) := hf.nodes
  refine ⟨?_, ?_, ?_⟩
  · -- all that has been found before is nearer
    rw [hnodes, List.pairwise_append]
    refine ⟨h.sorted, ?_, ?_⟩
    · rw [List.pairwise_map]
      exact List.pairwise_of_forall fun _ _ => le_rfl
    · intro m hm n hn
      obtain ⟨f, -, rfl⟩ := List.mem_map.mp hn
      exact (hl.depth_le hm).trans (Nat.le_succ k)
  · rw [hnodes]
    intro n hn
    rcases List.mem_append.mp hn with hn | hn
    · exact h.shown n hn
    · obtain ⟨f, hm, rfl⟩ := List.mem_map.mp hn
      exact ⟨f, hf.told f hm, rfl⟩
  · intro e he
    rcases mem_edges_level he with he | ⟨m, hm, hfind⟩
    · exact h.first e he
    · have hsource := fun d => ha.source m.path m d (hl.told m hm)
      have hown := hsource e (List.mem_of_find?_eq_some hfind)
      refine ⟨m, hown ▸ hl.told m hm, ?_⟩
      rw [← hfind]
      refine List.find?_congr fun d hd => ?_
      simp [hsource d hd, hown]

theorem Charted.layers {start : String} {x : List FileNode × State} (h : Charted w a x.2.crawl)
    (hl : Layered w a start 0 x) (ha : a.Sturdy w) (k : Nat) :
    Charted w a (Crawl.layers w k 0 x).2.crawl := by
  induction k with
  | zero => exact h
  | succ k ih =>
    rw [layers_succ, Nat.zero_add]
    exact ih.advance (hl.layers ha k) ha

/-- A crawl from a file before its first level. -/
def outset (n : FileNode) (a : Atlas) : List FileNode × State :=
  ([n], ⟨⟨n.path, [.ofNode n 0], [], [], false⟩, [n.path], [], a⟩)

theorem layered_outset {b : Atlas} {n : FileNode} (hb : Learns w a b)
    (hn : a.told w n.path = some n) : Layered w a n.path 0 (outset n b) :=
  .zero hb hn rfl rfl rfl

theorem charted_outset {b : Atlas} {n : FileNode} (hn : a.told w n.path = some n) :
    Charted w a (outset n b).2.crawl where
  sorted := List.pairwise_singleton _ _
  shown m hm := by
    obtain rfl := List.mem_singleton.mp hm
    exact ⟨n, hn, rfl⟩
  first e he := by cases he

end Crawl

namespace Atlas

variable {w : World} {a : Atlas} {p : Path} {n : FileNode}

/-- What a crawl from a file that can be read tells. -/
theorem crawl_of_analyze (hn : (a.analyze w p).1 = .ok n) (k : Nat) :
    let x := Crawl.layers w k 0 (Crawl.outset n (a.analyze w p).2)
    (a.crawl w p k).1 = .ok { x.2.crawl with truncated := x.1.any (·.dependencies ≠ []) } := by
  have hlevels := (Crawl.levels_eq_layers w k 0 [n] (Crawl.outset n (a.analyze w p).2).2).1
  unfold crawl crawlFrom
  generalize a.analyze w p = r at hn hlevels ⊢
  obtain ⟨answer, b⟩ := r
  obtain rfl : answer = .ok n := hn
  exact congrArg Except.ok hlevels

/-- The layers of a crawl from a file that can be read, with what they have found. -/
theorem charted_layers (hm : a.Mirrored) (hs : a.Sturdy w)
    (hp : w.tree.key (.ofText (w.tree.key p)) = w.tree.key p) (hn : (a.analyze w p).1 = .ok n)
    (k : Nat) :
    let x := Crawl.layers w k 0 (Crawl.outset n (a.analyze w p).2)
    Crawl.Layered w a (w.tree.key p) k x ∧ Crawl.Charted w a x.2.crawl := by
  intro x
  have hown := (hm.own_of_analyze hn).1
  have htold : a.told w n.path = some n := by
    apply told_of_analyze
    rw [hown, analyze_congr hp, hn]
  have hzero := Crawl.layered_outset (learns_analyze a p) htold
  refine ⟨?_, (Crawl.charted_outset htold).layers hzero hs k⟩
  rw [← hown]
  exact hzero.layers hs k

end Atlas

/-! ## Breadth first -/

/-- Where the files at the ends of dependencies are known by these names, a crawl that succeeds is a
search in breadth. Its files are those within its depth, each once, as it is told and at its distance,
and they come in the order of their distances. Its edges are, for each file nearer than the depth and
each file to which it leads, the first of its dependencies that leads there. It is marked as cut off
exactly if a file at the full depth has a dependency. -/
theorem Session.crawl_charts_distances {s : Session} {w : World}
    (h : s.Reachable (·.tree.WellFormed)) (hw : w.tree.WellFormed) (hk : s.atlas.KeysHold w)
    {entry : String} {depth : Nat} {c : Crawl}
    (hc : (s.atlas.crawl w (.ofText entry) depth).1 = .ok c) :
    let near (k : Nat) (x : String) : Prop := s.atlas.Within w (w.tree.key (.ofText entry)) k x
    (c.nodes.map (·.path)).Nodup ∧
    (c.nodes.Pairwise fun m n => m.depth ≤ n.depth) ∧
    (∀ x, x ∈ c.nodes.map (·.path) ↔ near depth x) ∧
    (∀ n ∈ c.nodes, IsLeast {k | near k n.path} n.depth ∧
      ∃ m, s.atlas.told w n.path = some m ∧ n = .ofNode m n.depth) ∧
    (c.edges.map fun e => (e.source, e.target)).Nodup ∧
    (∀ e, e ∈ c.edges ↔ (∃ k < depth, near k e.source) ∧
      ∃ m, s.atlas.told w e.source = some m ∧
        m.dependencies.find? (·.target = e.target) = some e) ∧
    (c.truncated = true ↔ ∃ n ∈ c.nodes, n.depth = depth ∧
      ∃ m, s.atlas.told w n.path = some m ∧ m.dependencies ≠ []) := by
  intro near
  have hm := h.mirrored
  have hs := Atlas.sturdy_of_keysHold hm h.directed hw hk
  have hkey := hw.key_ofText_key (Path.legible_ofText entry)
  obtain ⟨n, hn⟩ := Atlas.exists_analyze_of_crawl hc
  obtain ⟨hl, hchart⟩ := Atlas.charted_layers hm hs hkey hn depth
  have hcrawl := Atlas.crawl_of_analyze hn depth
  generalize Crawl.layers w depth 0
    (Crawl.outset n (s.atlas.analyze w (.ofText entry)).2) = x at hl hchart hcrawl
  obtain rfl := Except.ok.inj (hc.symm.trans hcrawl)
  refine ⟨hl.nodup, hchart.sorted, hl.nodes, ?_, hl.nodupPairs, ?_, ?_⟩
  · intro m hmem
    refine ⟨⟨(hl.depth m hmem _).mpr le_rfl, ?_⟩, hchart.shown m hmem⟩
    intro k hk
    exact (hl.depth m hmem k).mp hk
  · intro e
    constructor
    · intro he
      obtain ⟨k, hk, hnear, -⟩ := (hl.pairs e.source e.target).mp (List.mem_map_of_mem he)
      exact ⟨⟨k, hk, hnear⟩, hchart.first e he⟩
    · rintro ⟨⟨k, hk, hnear⟩, m, htold, hfind⟩
      -- there is an edge with these ends, and it is the first dependency as well
      have hlead : s.atlas.Leads w e.source e.target :=
        ⟨m, htold, e, List.mem_of_find?_eq_some hfind, rfl⟩
      obtain ⟨f, hf, hends⟩ := List.mem_map.mp ((hl.pairs _ _).mpr ⟨k, hk, hnear, hlead⟩)
      obtain ⟨hsource, htarget⟩ := Prod.mk.inj hends
      obtain ⟨m', htold', hfind'⟩ := hchart.first f hf
      rw [hsource, htold] at htold'
      obtain rfl := Option.some.inj htold'
      rw [htarget, hfind] at hfind'
      obtain rfl := Option.some.inj hfind'
      exact hf
  · have hlevel : ∀ y, y ∈ x.1.map (·.path) ↔
        ∃ m ∈ x.2.crawl.nodes, m.depth = depth ∧ m.path = y := by
      intro y
      simp [← hl.level, and_assoc]
    constructor
    · intro hany
      obtain ⟨m, hmem, hdeps⟩ := List.any_eq_true.mp hany
      obtain ⟨m', hmem', hdepth, hpath⟩ := (hlevel m.path).mp (List.mem_map_of_mem hmem)
      exact ⟨m', hmem', hdepth, m, hpath ▸ hl.told m hmem, by simpa using hdeps⟩
    · rintro ⟨m', hmem', hdepth, m, htold, hdeps⟩
      obtain ⟨f, hf, hpath⟩ := List.mem_map.mp ((hlevel m'.path).mpr ⟨m', hmem', hdepth, rfl⟩)
      obtain rfl : f = m := Option.some.inj ((hl.told f hf).symm.trans (hpath ▸ htold))
      exact List.any_eq_true.mpr ⟨f, hf, by simpa using hdeps⟩

/-- One step from the file that imports another, when the other has gone since. -/
def Small.bereft : Crawl where
  entry := "/w/a.ts"
  nodes := [⟨"/w/a.ts", .typeScript, 0⟩, ⟨"/w/b.ts", .typeScript, 1⟩]
  edges := [⟨"/w/a.ts", "/w/b.ts", .plain, 1, "./b"⟩]
  unresolved := []
  truncated := false

/-- A session that has looked at the importing file while the other was there. -/
def Small.remembering : Session :=
  Session.act (Small.world Small.grown) ⟨Small.atlas, []⟩ (.analyze Small.importer)

theorem Small.reachable_remembering : remembering.Reachable (·.tree.WellFormed) :=
  have hw : (world grown).tree.WellFormed := by decide +kernel
  .act hw (.new hw (new_eq _ (Or.inr rfl))) _

/-- A file that has gone is still at the end of a dependency in the cache, and a crawl tells it as a
leaf. -/
theorem Session.crawl_charts_distances_small :
    Small.remembering.Reachable (·.tree.WellFormed) ∧
      Small.remembering.atlas.KeysHold (Small.world Small.tree) ∧
      (Small.remembering.atlas.crawl (Small.world Small.tree) (.ofText "/w/a.ts") 1).1 =
        .ok Small.bereft ∧
      ∀ x, x ∈ ["/w/a.ts", "/w/b.ts"] ↔
        Small.remembering.atlas.Within (Small.world Small.tree)
          (Small.tree.key (.ofText "/w/a.ts")) 1 x := by
  have hw : (Small.world Small.tree).tree.WellFormed := by decide +kernel
  have hentries : ∀ e ∈ Small.remembering.atlas.cache.entries, ∀ d ∈ e.2.node.dependencies,
      Small.tree.key (.ofText d.target) = d.target := by decide +kernel
  have hk : Small.remembering.atlas.KeysHold (Small.world Small.tree) := by
    apply Atlas.keysHold_of_cache hw
    intro k f hf
    obtain ⟨e, he, rfl⟩ := Option.map_eq_some_iff.mp hf
    exact hentries e (List.mem_of_find?_eq_some he)
  have hc : (Small.remembering.atlas.crawl (Small.world Small.tree) (.ofText "/w/a.ts") 1).1 =
      .ok Small.bereft := by decide +kernel
  exact ⟨Small.reachable_remembering, hk, hc,
    (crawl_charts_distances Small.reachable_remembering hw hk hc).2.2.1⟩

end DepAtlas
