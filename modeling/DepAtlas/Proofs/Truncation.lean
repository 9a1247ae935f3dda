import DepAtlas.Proofs.Distances

/-! # Crawls that were not cut off

A crawl is marked as cut off if a file at its full depth has dependencies. Where it is not, a deeper crawl
finds no other files and no other edges, so that its cycles are the same as well. But imports that lead
nowhere are told only of files that are nearer than the full depth: a deeper crawl may have more of them
to tell.
-/

namespace DepAtlas

namespace Crawl

open Atlas (Learns)

variable {w : World} {a : Atlas} {depth : Nat} {s t u : State}

/-! ## The files of the last level -/

/-- What a crawl has found from one state to another: files of which the atlas tells something. They are
nodes of a given depth, and files to go on from. -/
structure Found (w : World) (a : Atlas) (depth : Nat) (s : State) (found : List FileNode)
    (t : State) : Prop where
  learned : Learns w a t.atlas
  nodes : t.crawl.nodes = s.crawl.nodes ++ found.map (CrawlNode.ofNode · depth)
  next : t.next = s.next ++ found
  told : ∀ n ∈ found, ∃ x, a.told w x = some n

theorem Found.nil (h : Learns w a t.atlas) (hnodes : t.crawl.nodes = s.crawl.nodes)
    (hnext : t.next = s.next) : Found w a depth s [] t where
  learned := h
  nodes := by simp [hnodes]
  next := by simp [hnext]
  told n hn := by cases hn

theorem Found.append {found more : List FileNode} (h : Found w a depth s found t)
    (h' : Found w a depth t more u) : Found w a depth s (found ++ more) u where
  learned := h'.learned
  nodes := by rw [h'.nodes, h.nodes, List.map_append, List.append_assoc]
  next := by rw [h'.next, h.next, List.append_assoc]
  told n hn := by
    rcases List.mem_append.mp hn with hn | hn
    · exact h.told n hn
    · exact h'.told n hn

/-- What is found step by step is found by all of them. -/
theorem exists_found_foldl {β : Type} {f : State → β → State}
    (hf : ∀ s x, Learns w a s.atlas → ∃ found, Found w a depth s found (f s x)) (xs : List β)
    (hs : Learns w a s.atlas) : ∃ found, Found w a depth s found (xs.foldl f s) := by
  induction xs generalizing s with
  | nil => exact ⟨[], .nil hs rfl rfl⟩
  | cons x xs ih =>
    obtain ⟨first, hfirst⟩ := hf s x hs
    obtain ⟨rest, hrest⟩ := ih hfirst.learned
    exact ⟨first ++ rest, hfirst.append hrest⟩

theorem exists_found_follow (depth : Nat) (d : Dependency) (hs : Learns w a s.atlas) :
    ∃ found, Found w a (depth + 1) s found (follow w depth s d) := by
  have hlearned := hs.trans (Atlas.learns_follow depth s d)
  have htold : (s.atlas.analyzeLenient w (.ofText d.target)).1 = a.told w d.target :=
    hs.told d.target
  have hkept : (s.crawl.addEdge d).nodes = s.crawl.nodes := by
    unfold addEdge
    split <;> rfl
  unfold follow at hlearned ⊢
  dsimp only at hlearned ⊢
  split at hlearned
  · rename_i hv
    rw [if_pos hv]
    exact ⟨[], .nil hlearned hkept rfl⟩
  · rename_i hv
    rw [if_neg hv]
    generalize s.atlas.analyzeLenient w (.ofText d.target) = r at htold hlearned ⊢
    obtain ⟨child, b⟩ := r
    cases child with
    | none => exact ⟨[], .nil hlearned hkept rfl⟩
    | some child =>
      refine ⟨[child], hlearned, ?_, rfl, ?_⟩
      · simp [addNode, hkept]
      · intro n hn
        obtain rfl := List.mem_singleton.mp hn
        exact ⟨d.target, htold.symm⟩

theorem exists_found_expand (depth : Nat) (n : FileNode) (hs : Learns w a s.atlas) :
    ∃ found, Found w a (depth + 1) s found (expand w depth s n) := by
  have hnodes := (nodes_foldl_addUnresolved n.unresolved s.crawl).1
  have hfirst : Found w a (depth + 1) s []
      { s with crawl := n.unresolved.foldl addUnresolved s.crawl } := .nil hs hnodes rfl
  obtain ⟨found, hf⟩ := exists_found_foldl (fun s d => exists_found_follow (s := s) depth d)
    n.dependencies hfirst.learned
  exact ⟨[] ++ found, hfirst.append hf⟩

/-- The nodes at the last depth are the files to go on from, and of each the atlas tells something. -/
structure Frontier (w : World) (a : Atlas) (k : Nat) (x : List FileNode × State) : Prop where
  learned : Learns w a x.2.atlas
  depth_le : ∀ n ∈ x.2.crawl.nodes, n.depth ≤ k
  level : (x.2.crawl.nodes.filter (·.depth = k)).map (·.path) = x.1.map (·.path)
  told : ∀ n ∈ x.1, ∃ y, a.told w y = some n

theorem Frontier.advance {k : Nat} {x : List FileNode × State} (h : Frontier w a k x) :
    Frontier w a (k + 1) (Crawl.advance w k x) := by
  have hstart : Learns w a ({ x.2 with next := [] } : State).atlas := h.learned
  obtain ⟨found, hf⟩ := exists_found_foldl (fun s n => exists_found_expand (s := s) k n)
    x.1 hstart
  have hnodes : (Crawl.advance w k x).2.crawl.nodes =
      x.2.crawl.nodes ++ found.map (.ofNode · (k + 1)) := hf.nodes
  have hlevel : (Crawl.advance w k x).1 = found := hf.next
  refine ⟨hf.learned, ?_, ?_, hlevel ▸ hf.told⟩
  · rw [hnodes]
    intro n hn
    rcases List.mem_append.mp hn with hn | hn
    · exact (h.depth_le n hn).trans (Nat.le_succ k)
    · obtain ⟨m, -, rfl⟩ := List.mem_map.mp hn
      exact le_rfl
  · have hold : x.2.crawl.nodes.filter (·.depth = k + 1) = [] := by
      refine List.filter_eq_nil_iff.mpr fun n hn => ?_
      have := h.depth_le n hn
      simp only [decide_eq_true_eq]
      omega
    rw [hnodes, hlevel, List.filter_append, hold, List.nil_append, List.filter_eq_self.mpr,
      List.map_map]
    · rfl
    · intro n hn
      obtain ⟨m, -, rfl⟩ := List.mem_map.mp hn
      simp [CrawlNode.ofNode]

theorem Frontier.layers {x : List FileNode × State} (h : Frontier w a 0 x) (k : Nat) :
    Frontier w a k (Crawl.layers w k 0 x) := by
  induction k with
  | zero => exact h
  | succ k ih =>
    rw [layers_succ, Nat.zero_add]
    exact ih.advance

/-! ## Going on from files that lead nowhere -/

/-- Each import is told unless its file has told one with its name before. -/
theorem exists_foldl_addUnresolved (us : List Unresolved) (c : Crawl) :
    ∃ more, us.foldl addUnresolved c = { c with unresolved := c.unresolved ++ more } ∧
      (∀ u ∈ more, u ∈ us) ∧
      (more = [] ↔ ∀ u ∈ us, ∃ v ∈ c.unresolved, v.source = u.source ∧
        v.specifier = u.specifier) := by
  induction us generalizing c with
  | nil => exact ⟨[], by simp, by simp, by simp⟩
  | cons u us ih =>
    by_cases hu : ∃ v ∈ c.unresolved, v.source = u.source ∧ v.specifier = u.specifier
    · have hsame : c.addUnresolved u = c := if_pos (by simpa using hu)
      obtain ⟨more, hmore, hsub, hnil⟩ := ih c
      refine ⟨more, ?_, ?_, ?_⟩
      · rw [List.foldl_cons, hsame, hmore]
      · exact fun v hv => List.mem_cons_of_mem _ (hsub v hv)
      · rw [hnil, List.forall_mem_cons]
        exact (and_iff_right hu).symm
    · have hnew : c.addUnresolved u = { c with unresolved := c.unresolved ++ [u] } :=
        if_neg (by simpa using hu)
      obtain ⟨more, hmore, hsub, -⟩ := ih { c with unresolved := c.unresolved ++ [u] }
      refine ⟨u :: more, ?_, ?_, ?_⟩
      · rw [List.foldl_cons, hnew, hmore, List.append_assoc]
        rfl
      · rw [List.forall_mem_cons]
        exact ⟨List.mem_cons_self, fun v hv => List.mem_cons_of_mem _ (hsub v hv)⟩
      · constructor
        · intro h
          cases h
        · intro h
          exact absurd (h u List.mem_cons_self) hu

theorem foldl_expand_of_leaves {level : List FileNode} (h : ∀ n ∈ level, n.dependencies = []) :
    level.foldl (expand w depth) s =
      { s with crawl := (level.flatMap (·.unresolved)).foldl addUnresolved s.crawl } := by
  induction level generalizing s with
  | nil => rfl
  | cons n level ih =>
    obtain ⟨hn, hlevel⟩ := List.forall_mem_cons.mp h
    have hexpand : expand w depth s n =
        { s with crawl := n.unresolved.foldl addUnresolved s.crawl } := by
      unfold expand
      rw [hn]
      rfl
    rw [List.foldl_cons, hexpand, ih hlevel, List.flatMap_cons, List.foldl_append]

theorem layers_add (w : World) (k m depth : Nat) (x : List FileNode × State) :
    layers w (k + m) depth x = layers w m (depth + k) (layers w k depth x) := by
  induction k generalizing depth x with
  | zero => simp [layers]
  | succ k ih =>
    rw [Nat.succ_add, layers, ih, layers]
    congr 1
    omega

/-- After a level of files that lead nowhere, all further levels only tell the imports of these files. -/
theorem layers_of_leaves {k : Nat} {x : List FileNode × State}
    (h : ∀ n ∈ (layers w k 0 x).1, n.dependencies = []) (m : Nat) :
    (layers w (k + (m + 1)) 0 x).1 = [] ∧ (layers w (k + (m + 1)) 0 x).2.crawl =
      ((layers w k 0 x).1.flatMap (·.unresolved)).foldl addUnresolved
        (layers w k 0 x).2.crawl := by
  have hstep : advance w (0 + k) (layers w k 0 x) =
      ([], { (layers w k 0 x).2 with
        next := []
        crawl := ((layers w k 0 x).1.flatMap (·.unresolved)).foldl addUnresolved
          (layers w k 0 x).2.crawl }) := by
    unfold advance
    dsimp only
    rw [foldl_expand_of_leaves h]
  rw [layers_add, layers, hstep]
  exact ⟨(layers_nil ..).1, (layers_nil ..).2.1⟩

end Crawl

namespace Atlas

variable {w : World} {a : Atlas} {p : Path} {n : FileNode}

theorem frontier_layers (hn : (a.analyze w p).1 = .ok n) (htold : ∃ y, a.told w y = some n)
    (k : Nat) : Crawl.Frontier w a k (Crawl.layers w k 0 (Crawl.outset n (a.analyze w p).2)) := by
  have hzero : Crawl.Frontier w a 0 (Crawl.outset n (a.analyze w p).2) := by
    refine ⟨learns_analyze a p, ?_, ?_, ?_⟩
    · simp [Crawl.outset, CrawlNode.ofNode]
    · simp [Crawl.outset, CrawlNode.ofNode]
    · intro m hm
      obtain rfl := List.mem_singleton.mp hm
      exact htold
  exact hzero.layers k

/-- A file is read in the same way by its key. -/
theorem Mirrored.analyze_path (h : a.Mirrored) (hw : w.tree.WellFormed) {x : String}
    (hn : a.told w x = some n) :
    a.analyze w (.ofText n.path) = a.analyze w (.ofText x) := by
  apply analyze_congr
  rw [h.path_of_told hn, hw.key_ofText_key (Path.legible_ofText x)]

/-- The imports that lead nowhere of the nodes at the last depth are those of the last level. -/
theorem Mirrored.exists_unresolved_iff (h : a.Mirrored) (hw : w.tree.WellFormed) {k : Nat}
    {x : List FileNode × Crawl.State} (hx : Crawl.Frontier w a k x) (u : Unresolved) :
    (∃ n ∈ x.2.crawl.nodes, n.depth = k ∧
      ∃ m, (a.analyze w (.ofText n.path)).1 = .ok m ∧ u ∈ m.unresolved) ↔
      u ∈ x.1.flatMap (·.unresolved) := by
  have hlevel : ∀ y, y ∈ x.1.map (·.path) ↔ ∃ n ∈ x.2.crawl.nodes, n.depth = k ∧ n.path = y := by
    intro y
    simp [← hx.level, and_assoc]
  rw [List.mem_flatMap]
  constructor
  · rintro ⟨n, hn, hdepth, m, hm, hu⟩
    obtain ⟨f, hf, hpath⟩ := List.mem_map.mp ((hlevel n.path).mpr ⟨n, hn, hdepth, rfl⟩)
    obtain ⟨y, hy⟩ := hx.told f hf
    rw [← hpath, h.analyze_path hw hy] at hm
    obtain rfl : f = m := Option.some.inj (hy.symm.trans (told_of_analyze hm))
    exact ⟨f, hf, hu⟩
  · rintro ⟨f, hf, hu⟩
    obtain ⟨n, hn, hdepth, hpath⟩ := (hlevel f.path).mp (List.mem_map_of_mem hf)
    obtain ⟨y, hy⟩ := hx.told f hf
    refine ⟨n, hn, hdepth, f, ?_, hu⟩
    rw [hpath, h.analyze_path hw hy]
    rcases told_cases hy with hread | ⟨language, rfl⟩
    · exact hread
    · cases hu

end Atlas

namespace Session

open Atlas (Learns)

/-- If a crawl was not cut off, a deeper one tells the same files, edges and cycles, and that it was not
cut off either; it may be made at any time before or after. To the imports that lead nowhere it adds
those of the files at the full depth of the first crawl. So it tells nothing new exactly if all of these
have been told already, or if it is no deeper. -/
theorem deeper_crawl_adds_unresolved {s : Session} {w : World} (h : s.Reachable fun _ => True)
    (hw : w.tree.WellFormed) {entry : String} {depth deeper : Nat} {c : Crawl}
    (hc : (s.atlas.crawl w (.ofText entry) depth).1 = .ok c) (ht : c.truncated = false)
    (hle : depth ≤ deeper) {b : Atlas} (hb : Learns w s.atlas b) :
    let left (u : Unresolved) : Prop := ∃ n ∈ c.nodes, n.depth = depth ∧
      ∃ m, (s.atlas.analyze w (.ofText n.path)).1 = .ok m ∧ u ∈ m.unresolved
    ∃ c' more, (b.crawl w (.ofText entry) deeper).1 = .ok c' ∧
      c' = { c with unresolved := c.unresolved ++ more } ∧ c'.cycles = c.cycles ∧
      (∀ u ∈ more, left u) ∧
      (c' = c ↔ deeper = depth ∨ ∀ u, left u →
        ∃ v ∈ c.unresolved, v.source = u.source ∧ v.specifier = u.specifier) := by
  intro left
  have hm := h.mirrored
  obtain ⟨n, hn⟩ := Atlas.exists_analyze_of_crawl hc
  have hfront := Atlas.frontier_layers hn ⟨entry, Atlas.told_of_analyze hn⟩ depth
  have hcrawl := Atlas.crawl_of_analyze hn depth
  have hsame : (b.crawl w (.ofText entry) deeper).1 = (s.atlas.crawl w (.ofText entry) deeper).1 :=
    Atlas.crawlFrom_congr hb.analyze_fst _ [] deeper
  rcases Nat.eq_or_lt_of_le hle with rfl | hlt
  · exact ⟨c, [], hsame.trans hc, by simp, rfl, by simp, by simp⟩
  obtain ⟨m, rfl⟩ := Nat.exists_eq_add_of_lt hlt
  have hdeeper := Atlas.crawl_of_analyze hn (depth + (m + 1))
  have hpast := Crawl.layers_of_leaves (w := w) (k := depth)
    (x := Crawl.outset n (s.atlas.analyze w (.ofText entry)).2) (m := m)
  generalize Crawl.layers w depth 0
    (Crawl.outset n (s.atlas.analyze w (.ofText entry)).2) = x at hfront hcrawl hpast
  obtain rfl := Except.ok.inj (hc.symm.trans hcrawl)
  have hleaves : ∀ f ∈ x.1, f.dependencies = [] := by
    intro f hf
    simpa using List.any_eq_false.mp ht f hf
  obtain ⟨hnil, hadded⟩ := hpast hleaves
  obtain ⟨more, hmore, hsub, hnone⟩ :=
    Crawl.exists_foldl_addUnresolved (x.1.flatMap (·.unresolved)) x.2.crawl
  have hleft : ∀ u, left u ↔ u ∈ x.1.flatMap (·.unresolved) :=
    fun u => hm.exists_unresolved_iff hw hfront u
  have hanswer : (b.crawl w (.ofText entry) (depth + m + 1)).1 =
      .ok { x.2.crawl with
        unresolved := x.2.crawl.unresolved ++ more
        truncated := x.1.any (·.dependencies ≠ []) } := by
    have huncut : x.1.any (·.dependencies ≠ []) = false := ht
    rw [hsame, Nat.add_assoc, hdeeper, hnil, hadded, hmore, huncut]
    rfl
  refine ⟨_, more, hanswer, rfl, rfl, fun u hu => (hleft u).mpr (hsub u hu), ?_⟩
  have hsome : depth + m + 1 ≠ depth := by omega
  simp only [hleft, hsome, false_or]
  rw [← hnone]
  simp

end Session

/-- A crawl of depth zero from a file whose import leads nowhere. -/
def Small.lone : Crawl where
  entry := "/w/a.ts"
  nodes := [⟨"/w/a.ts", .typeScript, 0⟩]
  edges := []
  unresolved := []
  truncated := false

theorem Small.crawl_lone :
    (atlas.crawl (world tree) (.ofText "/w/a.ts") 0).1 = .ok lone := by decide +kernel

/-- A crawl of depth one tells the import that leads nowhere, and nothing else that is new. -/
theorem Session.deeper_crawl_adds_unresolved_small :
    Small.lone.truncated = false ∧ ∃ c more,
      (Small.atlas.crawl (Small.world Small.tree) (.ofText "/w/a.ts") 1).1 = .ok c ∧
        c = { Small.lone with unresolved := Small.lone.unresolved ++ more } ∧
        c.cycles = Small.lone.cycles := by
  have h : Session.Reachable (fun _ => True) ⟨Small.atlas, []⟩ :=
    .new trivial (Small.new_eq Small.tree (Or.inl rfl))
  obtain ⟨c, more, hc, hmore, hcycles, -⟩ := deeper_crawl_adds_unresolved h (by decide +kernel)
    Small.crawl_lone rfl (Nat.zero_le 1) .refl
  exact ⟨rfl, c, more, hc, hmore, hcycles⟩

/-- A crawl of depth zero is not marked as cut off, although a deeper one has more to tell. -/
theorem Session.uncut_crawl_omits_unresolved :
    Session.Reachable (· = Small.world Small.tree) ⟨Small.atlas, []⟩ ∧
      (Small.atlas.crawl (Small.world Small.tree) (.ofText "/w/a.ts") 0).1 = .ok Small.lone ∧
      Small.lone.truncated = false ∧ Small.lone.unresolved = [] ∧
      (Small.atlas.crawl (Small.world Small.tree) (.ofText "/w/a.ts") 1).1 =
        .ok { Small.lone with unresolved :=
          [⟨"/w/a.ts", "./b", .plain, 1, "no file matches relative specifier ./b"⟩] } :=
  ⟨.new rfl (Small.new_eq _ (Or.inl rfl)), Small.crawl_lone, rfl, rfl, by decide +kernel⟩

end DepAtlas
