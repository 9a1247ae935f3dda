import DepAtlas.Proofs.Destinations
import DepAtlas.Proofs.Transparency

/-! # What a crawl tells

While the files stay as they are, questions do not change what an atlas has to say of a file. So a crawl
walks through a graph that does not move: the files, with what is told of each, and where they lead. Layer
by layer it finds the files that can be reached in so many steps, each once and with the least number of
steps, and the edges between them.
-/

namespace DepAtlas

namespace Atlas

variable {w : World} {a b : Atlas} {p : Path} {x y : String} {n : FileNode}

/-! ## What is told of files -/

/-- What an atlas has to say of a file, a leaf if it cannot be read. -/
def told (a : Atlas) (w : World) (x : String) : Option FileNode :=
  (a.analyzeLenient w (.ofText x)).1

theorem told_eq (a : Atlas) (w : World) (x : String) :
    a.told w x =
      match (a.analyze w (.ofText x)).1 with
      | .ok node => some node
      | .error _ => (Language.ofPath? (.ofText x)).map (FileNode.leaf (w.tree.key (.ofText x))) :=
  analyzeLenient_fst a _

theorem Learns.told (h : Learns w a b) (x : String) : b.told w x = a.told w x := by
  rw [told_eq, told_eq, h.analyze_fst]

theorem Faithful.exists_outline (h : a.Faithful w) (hn : (a.analyze w p).1 = .ok n) :
    ∃ o, n = a.nodeOf w (w.tree.key p) o := by
  rw [Atlas.analyze_fst] at hn
  split at hn
  · rename_i f hf
    obtain ⟨content, o, -, -, rfl⟩ := h _ f hf
    exact ⟨o, (Except.ok.inj hn).symm⟩
  · obtain ⟨content, hb⟩ := judge_eq_ok hn
    obtain ⟨-, o, -, hnode⟩ := build_eq_ok hb
    exact ⟨o, hnode⟩

/-- What is told of a file is told under its key. -/
theorem Faithful.path_of_told (h : a.Faithful w) (hn : a.told w x = some n) :
    n.path = w.tree.key (.ofText x) := by
  rw [told_eq] at hn
  split at hn
  · rename_i node hnode
    obtain ⟨o, rfl⟩ := h.exists_outline hnode
    exact (Option.some.inj hn) ▸ rfl
  · obtain ⟨language, -, rfl⟩ := Option.map_eq_some_iff.mp hn
    rfl

/-- What is told of a file that can be read. -/
theorem told_of_analyze (hn : (a.analyze w (.ofText x)).1 = .ok n) : a.told w x = some n := by
  rw [told_eq, hn]

/-- Each dependency that is told leads from its file to another of which something is told. -/
structure Sturdy (a : Atlas) (w : World) : Prop where
  source : ∀ x n d, a.told w x = some n → d ∈ n.dependencies → d.source = n.path
  target : ∀ x n d, a.told w x = some n → d ∈ n.dependencies →
    ∃ m, a.told w d.target = some m ∧ m.path = d.target

theorem Faithful.sturdy (h : a.Faithful w) (hw : w.tree.WellFormed) : a.Sturdy w := by
  -- a dependency comes from a link of a node that has been built
  have hlink : ∀ x n d, a.told w x = some n → d ∈ n.dependencies →
      ∃ i, a.link w n.path i = .dependency d := by
    intro x n d hn hd
    rw [told_eq] at hn
    split at hn
    · rename_i node hnode
      obtain ⟨o, ho⟩ := h.exists_outline hnode
      obtain rfl := Option.some.inj hn
      subst ho
      obtain ⟨i, -, hi⟩ := List.mem_map.mp (mem_dependenciesOf.mp hd)
      exact ⟨i, hi⟩
    · obtain ⟨language, -, rfl⟩ := Option.map_eq_some_iff.mp hn
      cases hd
  refine ⟨fun x n d hn hd => ?_, fun x n d hn hd => ?_⟩
  · obtain ⟨i, hi⟩ := hlink x n d hn hd
    exact source_of_link hi
  · obtain ⟨i, hi⟩ := hlink x n d hn hd
    obtain ⟨path, hres, hlanguage, -, rfl⟩ := link_eq_dependency hi
    obtain ⟨htext, hkey⟩ := Resolve.Resolver.settled_of_resolve hw hres
    obtain ⟨m, hm⟩ : ∃ m, a.told w path.toText = some m := by
      rw [told_eq, htext]
      split
      · exact ⟨_, rfl⟩
      · obtain ⟨language, hl⟩ := Option.isSome_iff_exists.mp hlanguage
        exact ⟨_, by rw [hl]; rfl⟩
    exact ⟨m, hm, by rw [h.path_of_told hm, htext, hkey]⟩

/-- A file leads to another by one of its dependencies. -/
def Leads (a : Atlas) (w : World) (x y : String) : Prop :=
  ∃ n, a.told w x = some n ∧ ∃ d ∈ n.dependencies, d.target = y

/-- The files that can be reached in at most so many steps. -/
def Within (a : Atlas) (w : World) (start : String) : Nat → String → Prop
  | 0, x => x = start
  | k + 1, y => Within a w start k y ∨ ∃ x, Within a w start k x ∧ a.Leads w x y

theorem Within.mono {start : String} {j k : Nat} (h : a.Within w start j x) (hjk : j ≤ k) :
    a.Within w start k x := by
  induction hjk with
  | refl => exact h
  | step _ ih => exact Or.inl ih

end Atlas

namespace Crawl

open Atlas (Learns)

variable {w : World} {a : Atlas} {depth : Nat} {s t u : State} {d : Dependency}

/-- The ends of the edges of a crawl. -/
def pairs (c : Crawl) : List (String × String) := c.edges.map fun d => (d.source, d.target)

theorem mem_pairs_addEdge (c : Crawl) (d : Dependency) (x : String × String) :
    x ∈ (c.addEdge d).pairs ↔ x ∈ c.pairs ∨ (d.source, d.target) = x := by
  unfold addEdge
  split
  · rename_i h
    obtain ⟨e, he, hsame⟩ := List.any_eq_true.mp h
    simp only [Bool.and_eq_true, decide_eq_true_eq] at hsame
    have hin : (d.source, d.target) ∈ c.pairs :=
      List.mem_map.mpr ⟨e, he, by rw [hsame.1, hsame.2]⟩
    constructor
    · exact Or.inl
    · rintro (hx | rfl)
      · exact hx
      · exact hin
  · simp [pairs, eq_comm]

theorem nodup_pairs_addEdge {c : Crawl} (h : c.pairs.Nodup) (d : Dependency) :
    (c.addEdge d).pairs.Nodup := by
  unfold addEdge
  split
  · exact h
  · rename_i hnew
    rw [pairs, List.map_append, List.nodup_append]
    refine ⟨h, List.nodup_singleton _, ?_⟩
    rintro x hx y hy rfl
    obtain ⟨e, he, rfl⟩ := List.mem_map.mp hx
    refine hnew (List.any_eq_true.mpr ⟨e, he, ?_⟩)
    simpa using List.mem_singleton.mp hy

/-! ## Following dependencies -/

/-- What following dependencies from a state comes to: new files are told at the next depth, each once,
and the edges are told whether or not they lead to something new. -/
structure Followed (w : World) (a : Atlas) (depth : Nat) (s : State) (ds : List Dependency)
    (found : List FileNode) (t : State) : Prop where
  learned : Learns w a t.atlas
  visited : ∀ x, x ∈ t.visited ↔ x ∈ s.visited ∨ ∃ d ∈ ds, d.target = x
  nodes : t.crawl.nodes = s.crawl.nodes ++ found.map (CrawlNode.ofNode · (depth + 1))
  next : t.next = s.next ++ found
  fresh : ∀ x, x ∈ found.map (·.path) ↔ x ∉ s.visited ∧ ∃ d ∈ ds, d.target = x
  nodup : (found.map (·.path)).Nodup
  told : ∀ n ∈ found, a.told w n.path = some n
  pairs : ∀ x, x ∈ t.crawl.pairs ↔ x ∈ s.crawl.pairs ∨ ∃ d ∈ ds, (d.source, d.target) = x
  nodupPairs : s.crawl.pairs.Nodup → t.crawl.pairs.Nodup

theorem Followed.nil (h : Learns w a s.atlas) : Followed w a depth s [] [] s where
  learned := h
  visited := by simp
  nodes := by simp
  next := by simp
  fresh := by simp
  nodup := List.nodup_nil
  told := by simp
  pairs := by simp
  nodupPairs := id

theorem Followed.append {ds es : List Dependency} {found more : List FileNode}
    (h : Followed w a depth s ds found t) (h' : Followed w a depth t es more u) :
    Followed w a depth s (ds ++ es) (found ++ more) u where
  learned := h'.learned
  visited x := by
    rw [h'.visited, h.visited, or_assoc]
    simp only [List.mem_append, or_and_right, exists_or]
  nodes := by rw [h'.nodes, h.nodes, List.map_append, List.append_assoc]
  next := by rw [h'.next, h.next, List.append_assoc]
  fresh x := by
    rw [List.map_append, List.mem_append, h.fresh, h'.fresh, h.visited]
    simp only [List.mem_append, or_and_right, exists_or, not_or]
    constructor
    · rintro (⟨hs, hd⟩ | ⟨⟨hs, -⟩, hd⟩)
      · exact ⟨hs, Or.inl hd⟩
      · exact ⟨hs, Or.inr hd⟩
    · rintro ⟨hs, hd | hd⟩
      · exact Or.inl ⟨hs, hd⟩
      · by_cases hbefore : ∃ d ∈ ds, d.target = x
        · exact Or.inl ⟨hs, hbefore⟩
        · exact Or.inr ⟨⟨hs, hbefore⟩, hd⟩
  nodup := by
    rw [List.map_append, List.nodup_append]
    refine ⟨h.nodup, h'.nodup, ?_⟩
    rintro x hx y hy rfl
    exact ((h'.fresh x).mp hy).1 ((h.visited x).mpr (Or.inr ((h.fresh x).mp hx).2))
  told n hn := (List.mem_append.mp hn).elim (h.told n) (h'.told n)
  pairs x := by
    rw [h'.pairs, h.pairs, or_assoc]
    simp only [List.mem_append, or_and_right, exists_or]
  nodupPairs hn := h'.nodupPairs (h.nodupPairs hn)

theorem followed_follow (depth : Nat) (h : Learns w a s.atlas) {m : FileNode} (hm : a.told w d.target = some m)
    (hpath : m.path = d.target) :
    Followed w a depth s [d] (if s.visited.contains d.target then [] else [m])
      (follow w depth s d) := by
  have hlearned := h.trans (Atlas.learns_follow depth s d)
  have hfound : (s.atlas.analyzeLenient w (.ofText d.target)).1 = some m := (h.told _).trans hm
  have hpairs : ∀ x, x ∈ (s.crawl.addEdge d).pairs ↔
      x ∈ s.crawl.pairs ∨ ∃ e ∈ [d], (e.source, e.target) = x := fun x => by
    simpa using mem_pairs_addEdge s.crawl d x
  have hkept : ∀ e : Dependency, (s.crawl.addEdge e).nodes = s.crawl.nodes := fun e => by
    unfold addEdge
    split <;> rfl
  unfold follow at hlearned ⊢
  dsimp only at hlearned ⊢
  by_cases hv : d.target ∈ s.visited
  · simp only [List.contains_iff_mem, hv, if_true] at hlearned ⊢
    refine ⟨hlearned, ?_, by simp [hkept], by simp, ?_, by simp, by simp, hpairs, ?_⟩
    · intro x
      simp only [List.mem_singleton, exists_eq_left]
      exact ⟨Or.inl, fun hx => hx.elim id fun he => he ▸ hv⟩
    · intro x
      simp only [List.map_nil, List.not_mem_nil, List.mem_singleton, exists_eq_left, false_iff]
      rintro ⟨hx, rfl⟩
      exact hx hv
    · exact fun hn => nodup_pairs_addEdge hn d
  · simp only [List.contains_iff_mem, hv, if_false] at hlearned ⊢
    generalize s.atlas.analyzeLenient w (.ofText d.target) = r at hfound hlearned ⊢
    obtain ⟨found, atlas⟩ := r
    obtain rfl : found = some m := hfound
    refine ⟨hlearned, ?_, by simp [hkept, addNode], rfl, ?_, by simp, ?_, hpairs, ?_⟩
    · intro x
      simp [or_comm, eq_comm]
    · intro x
      simp only [List.map_cons, List.map_nil, List.mem_singleton, exists_eq_left, hpath]
      constructor
      · rintro rfl
        exact ⟨hv, rfl⟩
      · rintro ⟨-, rfl⟩
        rfl
    · intro n hn
      obtain rfl := List.mem_singleton.mp hn
      rwa [hpath]
    · exact fun hn => nodup_pairs_addEdge hn d

theorem exists_followed (depth : Nat) {ds : List Dependency} (h : Learns w a s.atlas)
    (hds : ∀ d ∈ ds, ∃ m, a.told w d.target = some m ∧ m.path = d.target) :
    ∃ found, Followed w a depth s ds found (ds.foldl (follow w depth) s) := by
  induction ds generalizing s with
  | nil => exact ⟨[], .nil h⟩
  | cons d ds ih =>
    rw [List.forall_mem_cons] at hds
    obtain ⟨⟨m, hm, hpath⟩, hds⟩ := hds
    have hfirst := followed_follow depth h hm hpath
    obtain ⟨found, hrest⟩ := ih hfirst.learned hds
    exact ⟨_, hfirst.append hrest⟩

/-- Imports that lead nowhere have no part in where a crawl goes. -/
theorem Followed.of_unresolved {ds : List Dependency} {found : List FileNode}
    (unresolved : List Unresolved)
    (h : Followed w a depth { s with crawl := unresolved.foldl addUnresolved s.crawl } ds found t) :
    Followed w a depth s ds found t := by
  obtain ⟨hnodes, hedges⟩ := nodes_foldl_addUnresolved unresolved s.crawl
  have hpairs : (unresolved.foldl addUnresolved s.crawl).pairs = s.crawl.pairs := by
    rw [Crawl.pairs, Crawl.pairs, hedges]
  refine ⟨h.learned, h.visited, ?_, h.next, h.fresh, h.nodup, h.told, ?_, ?_⟩
  · rw [h.nodes, hnodes]
  · intro x
    rw [h.pairs, hpairs]
  · intro hn
    exact h.nodupPairs (by rwa [hpairs])

theorem exists_followed_expand (depth : Nat) (ha : a.Sturdy w) (h : Learns w a s.atlas) {n : FileNode}
    (hn : a.told w n.path = some n) :
    ∃ found, Followed w a depth s n.dependencies found (expand w depth s n) := by
  have htargets := fun d => ha.target n.path n d hn
  obtain ⟨found, hf⟩ := exists_followed depth
    (s := { s with crawl := n.unresolved.foldl addUnresolved s.crawl }) h htargets
  exact ⟨found, hf.of_unresolved n.unresolved⟩

theorem exists_followed_level (depth : Nat) (ha : a.Sturdy w) (h : Learns w a s.atlas)
    {level : List FileNode} (hl : ∀ n ∈ level, a.told w n.path = some n) :
    ∃ found, Followed w a depth s (level.flatMap (·.dependencies)) found
      (level.foldl (expand w depth) s) := by
  induction level generalizing s with
  | nil => exact ⟨[], .nil h⟩
  | cons n level ih =>
    rw [List.forall_mem_cons] at hl
    obtain ⟨first, hfirst⟩ := exists_followed_expand depth ha h hl.1
    obtain ⟨rest, hrest⟩ := ih hfirst.learned hl.2
    exact ⟨first ++ rest, hfirst.append hrest⟩

/-! ## Layers -/

/-- The files of the next level and the state that has found them. -/
def advance (w : World) (depth : Nat) (x : List FileNode × State) : List FileNode × State :=
  let s := x.1.foldl (expand w depth) { x.2 with next := [] }
  (s.next, s)

/-- The state after so many levels. -/
def layers (w : World) : Nat → Nat → List FileNode × State → List FileNode × State
  | 0, _, x => x
  | more + 1, depth, x => layers w more (depth + 1) (advance w depth x)

theorem layers_succ (more depth : Nat) (x : List FileNode × State) :
    layers w (more + 1) depth x = advance w (depth + more) (layers w more depth x) := by
  induction more generalizing depth x with
  | zero => rfl
  | succ more ih =>
    rw [layers, ih, layers]
    congr 1
    omega

theorem truncated_foldl_addUnresolved (us : List Unresolved) (c : Crawl) :
    (us.foldl addUnresolved c).truncated = c.truncated := by
  induction us generalizing c with
  | nil => rfl
  | cons u us ih =>
    rw [List.foldl_cons, ih]
    unfold addUnresolved
    split <;> rfl

theorem truncated_follow (w : World) (depth : Nat) (s : State) (d : Dependency) :
    (follow w depth s d).crawl.truncated = s.crawl.truncated := by
  have hedge : (s.crawl.addEdge d).truncated = s.crawl.truncated := by
    unfold addEdge
    split <;> rfl
  unfold follow
  dsimp only
  split
  · exact hedge
  · split
    · exact hedge
    · exact hedge

theorem truncated_level (w : World) (depth : Nat) (level : List FileNode) (s : State) :
    (level.foldl (expand w depth) s).crawl.truncated = s.crawl.truncated := by
  induction level generalizing s with
  | nil => rfl
  | cons n level ih =>
    rw [List.foldl_cons, ih]
    have hfollow : ∀ (ds : List Dependency) (t : State),
        (ds.foldl (follow w depth) t).crawl.truncated = t.crawl.truncated := by
      intro ds
      induction ds with
      | nil => intro t; rfl
      | cons d ds ihd =>
        intro t
        rw [List.foldl_cons, ihd, truncated_follow]
    unfold expand
    rw [hfollow]
    exact truncated_foldl_addUnresolved n.unresolved s.crawl

theorem layers_nil (more depth : Nat) (s : State) :
    (layers w more depth ([], s)).1 = [] ∧ (layers w more depth ([], s)).2.crawl = s.crawl ∧
      (layers w more depth ([], s)).2.atlas = s.atlas := by
  induction more generalizing depth s with
  | zero => exact ⟨rfl, rfl, rfl⟩
  | succ more ih => exact ih (depth + 1) { s with next := [] }

/-- A crawl tells what its layers have found, and whether a file of the last one leads on. -/
theorem levels_eq_layers (w : World) (more depth : Nat) (level : List FileNode) (s : State) :
    (levels w more depth level s).crawl =
        { (layers w more depth (level, s)).2.crawl with
          truncated := s.crawl.truncated ||
            (layers w more depth (level, s)).1.any (·.dependencies ≠ []) } ∧
      (levels w more depth level s).atlas = (layers w more depth (level, s)).2.atlas := by
  induction more generalizing depth level s with
  | zero =>
    cases level with
    | nil => simp [levels, layers]
    | cons n level =>
      unfold levels
      split <;> rename_i h
      · simp only [layers, h, Bool.or_true, and_self]
      · simp only [layers, Bool.eq_false_iff.mpr h, Bool.or_false, and_self]
  | succ more ih =>
    cases level with
    | nil =>
      obtain ⟨hnil, hcrawl, hatlas⟩ := layers_nil (w := w) (more + 1) depth s
      rw [hnil, hcrawl, hatlas]
      simp [levels]
    | cons n level =>
      have ht := truncated_level w depth (n :: level) { s with next := [] }
      unfold levels
      dsimp only
      rw [(ih ..).1, (ih ..).2, ht]
      exact ⟨rfl, rfl⟩

/-- What a crawl knows when it has gone through so many levels: the files within so many steps, each
once and at its distance, those of the last level as they are told, and the edges from all others. -/
structure Layered (w : World) (a : Atlas) (start : String) (k : Nat) (x : List FileNode × State) :
    Prop where
  learned : Learns w a x.2.atlas
  visited : ∀ y, y ∈ x.2.visited ↔ a.Within w start k y
  nodes : ∀ y, y ∈ x.2.crawl.nodes.map (·.path) ↔ a.Within w start k y
  nodup : (x.2.crawl.nodes.map (·.path)).Nodup
  depth : ∀ n ∈ x.2.crawl.nodes, ∀ j, a.Within w start j n.path ↔ n.depth ≤ j
  level : (x.2.crawl.nodes.filter (·.depth = k)).map (·.path) = x.1.map (·.path)
  told : ∀ n ∈ x.1, a.told w n.path = some n
  pairs : ∀ y z, (y, z) ∈ x.2.crawl.pairs ↔ ∃ j < k, a.Within w start j y ∧ a.Leads w y z
  nodupPairs : x.2.crawl.pairs.Nodup

namespace Layered

variable {start : String} {k : Nat} {x : List FileNode × State}

theorem depth_le (h : Layered w a start k x) {n : CrawlNode} (hn : n ∈ x.2.crawl.nodes) :
    n.depth ≤ k :=
  (h.depth n hn k).mp ((h.nodes n.path).mp (List.mem_map_of_mem hn))

/-- The last level has the files that can be reached in so many steps, but not in fewer. -/
theorem mem_level (h : Layered w a start k x) (y : String) :
    y ∈ x.1.map (·.path) ↔ a.Within w start k y ∧ ∀ j < k, ¬ a.Within w start j y := by
  rw [← h.level, List.mem_map]
  constructor
  · rintro ⟨n, hn, rfl⟩
    obtain ⟨hn, hk⟩ := List.mem_filter.mp hn
    have hk := of_decide_eq_true hk
    refine ⟨(h.nodes n.path).mp (List.mem_map_of_mem hn), fun j hj hwithin => ?_⟩
    have := (h.depth n hn j).mp hwithin
    omega
  · rintro ⟨hwithin, hleast⟩
    obtain ⟨n, hn, rfl⟩ := List.mem_map.mp ((h.nodes y).mpr hwithin)
    refine ⟨n, List.mem_filter.mpr ⟨hn, ?_⟩, rfl⟩
    have hle := h.depth_le hn
    have hge : ¬ n.depth < k := fun hlt => hleast n.depth hlt ((h.depth n hn _).mpr le_rfl)
    simp only [decide_eq_true_eq]
    omega

/-- Where the last level leads. -/
theorem exists_pair_iff (h : Layered w a start k x) (ha : a.Sturdy w) (y z : String) :
    (∃ d ∈ x.1.flatMap (·.dependencies), (d.source, d.target) = (y, z)) ↔
      y ∈ x.1.map (·.path) ∧ a.Leads w y z := by
  simp only [List.mem_flatMap, List.mem_map, Prod.mk.injEq]
  constructor
  · rintro ⟨d, ⟨n, hn, hd⟩, rfl, rfl⟩
    have hsource := ha.source n.path n d (h.told n hn) hd
    exact ⟨⟨n, hn, hsource.symm⟩, n, hsource ▸ h.told n hn, d, hd, rfl⟩
  · rintro ⟨⟨n, hn, rfl⟩, m, hm, d, hd, rfl⟩
    obtain rfl : n = m := Option.some.inj ((h.told n hn).symm.trans hm)
    exact ⟨d, ⟨n, hn, hd⟩, ha.source n.path n d hm hd, rfl⟩

theorem exists_target_iff (h : Layered w a start k x) (ha : a.Sturdy w) (y : String) :
    (∃ d ∈ x.1.flatMap (·.dependencies), d.target = y) ↔
      ∃ z ∈ x.1.map (·.path), a.Leads w z y := by
  simp only [← h.exists_pair_iff ha, Prod.mk.injEq]
  constructor
  · rintro ⟨d, hd, ht⟩
    exact ⟨d.source, d, hd, rfl, ht⟩
  · rintro ⟨z, d, hd, -, ht⟩
    exact ⟨d, hd, ht⟩

/-- Files that are not of the last level lead to files that have been found already. -/
theorem within_succ_iff (h : Layered w a start k x) (y : String) :
    a.Within w start (k + 1) y ↔
      a.Within w start k y ∨ ∃ z ∈ x.1.map (·.path), a.Leads w z y := by
  constructor
  · rintro (hy | ⟨z, hz, hlead⟩)
    · exact Or.inl hy
    · by_cases hlevel : z ∈ x.1.map (·.path)
      · exact Or.inr ⟨z, hlevel, hlead⟩
      · rw [h.mem_level] at hlevel
        push Not at hlevel
        obtain ⟨j, hj, hwithin⟩ := hlevel hz
        have hnext : a.Within w start (j + 1) y := Or.inr ⟨z, hwithin, hlead⟩
        exact Or.inl (hnext.mono hj)
  · rintro (hy | ⟨z, hz, hlead⟩)
    · exact Or.inl hy
    · exact Or.inr ⟨z, ((h.mem_level z).mp hz).1, hlead⟩

/-- Files within so many steps are of the last level or within fewer. -/
theorem leads_before_succ_iff (h : Layered w a start k x) (y z : String) :
    ((∃ j < k, a.Within w start j y ∧ a.Leads w y z) ∨ y ∈ x.1.map (·.path) ∧ a.Leads w y z) ↔
      ∃ j < k + 1, a.Within w start j y ∧ a.Leads w y z := by
  rw [h.mem_level]
  constructor
  · rintro (⟨j, hj, hwithin, hlead⟩ | ⟨⟨hwithin, -⟩, hlead⟩)
    · exact ⟨j, by omega, hwithin, hlead⟩
    · exact ⟨k, by omega, hwithin, hlead⟩
  · rintro ⟨j, hj, hwithin, hlead⟩
    by_cases hbefore : ∃ i < k, a.Within w start i y
    · obtain ⟨i, hi, hy⟩ := hbefore
      exact Or.inl ⟨i, hi, hy, hlead⟩
    · push Not at hbefore
      exact Or.inr ⟨⟨hwithin.mono (by omega), hbefore⟩, hlead⟩

theorem advance (h : Layered w a start k x) (ha : a.Sturdy w) :
    Layered w a start (k + 1) (Crawl.advance w k x) := by
  have hlearned : Learns w a ({ x.2 with next := [] } : State).atlas := h.learned
  obtain ⟨found, hf⟩ := exists_followed_level k ha hlearned h.told
  have hnew : ∀ y, y ∈ found.map (·.path) ↔
      ¬ a.Within w start k y ∧ ∃ z ∈ x.1.map (·.path), a.Leads w z y := by
    intro y
    rw [hf.fresh, h.exists_target_iff ha]
    exact and_congr_left' (not_congr (h.visited y))
  have hdepth : ∀ n ∈ found, ∀ j, a.Within w start j n.path ↔ k + 1 ≤ j := by
    intro n hn j
    obtain ⟨hout, hlead⟩ := (hnew n.path).mp (List.mem_map_of_mem hn)
    constructor
    · intro hj
      by_contra hlt
      exact hout (hj.mono (by omega))
    · intro hj
      exact ((h.within_succ_iff _).mpr (Or.inr hlead)).mono hj
  have hnodes : (Crawl.advance w k x).2.crawl.nodes =
      x.2.crawl.nodes ++ found.map (.ofNode · (k + 1)) := hf.nodes
  have hpaths : (Crawl.advance w k x).2.crawl.nodes.map (·.path) =
      x.2.crawl.nodes.map (·.path) ++ found.map (·.path) := by
    rw [hnodes, List.map_append, List.map_map]
    rfl
  have hlevel : (Crawl.advance w k x).1 = found := hf.next
  refine ⟨hf.learned, ?_, ?_, ?_, ?_, ?_, hlevel ▸ hf.told, ?_, hf.nodupPairs h.nodupPairs⟩
  · intro y
    rw [h.within_succ_iff, ← h.exists_target_iff ha]
    exact (hf.visited y).trans (or_congr_left (h.visited y))
  · intro y
    rw [hpaths, List.mem_append, h.nodes, hnew, h.within_succ_iff]
    tauto
  · rw [hpaths, List.nodup_append]
    refine ⟨h.nodup, hf.nodup, ?_⟩
    rintro y hy z hz rfl
    exact ((hnew y).mp hz).1 ((h.nodes y).mp hy)
  · rw [hnodes]
    intro n hn j
    rcases List.mem_append.mp hn with hn | hn
    · exact h.depth n hn j
    · obtain ⟨m, hm, rfl⟩ := List.mem_map.mp hn
      exact hdepth m hm j
  · -- of the nodes so far none is at the new depth, and all new ones are
    have hold : x.2.crawl.nodes.filter (·.depth = k + 1) = [] := by
      refine List.filter_eq_nil_iff.mpr fun n hn => ?_
      have := h.depth_le hn
      simp only [decide_eq_true_eq]
      omega
    have hall : (found.map (CrawlNode.ofNode · (k + 1))).filter (·.depth = k + 1) =
        found.map (CrawlNode.ofNode · (k + 1)) := by
      refine List.filter_eq_self.mpr fun n hn => ?_
      obtain ⟨m, -, rfl⟩ := List.mem_map.mp hn
      simp [CrawlNode.ofNode]
    rw [hnodes, hlevel, List.filter_append, hold, hall, List.nil_append, List.map_map]
    rfl
  · intro y z
    refine (hf.pairs (y, z)).trans ?_
    rw [h.exists_pair_iff ha, h.pairs, h.leads_before_succ_iff]

theorem layers {x : List FileNode × State} (h : Layered w a start 0 x) (ha : a.Sturdy w) (k : Nat) :
    Layered w a start k (Crawl.layers w k 0 x) := by
  induction k with
  | zero => exact h
  | succ k ih =>
    rw [layers_succ, Nat.zero_add]
    exact ih.advance ha

/-- Before the first level only the file itself is known. -/
theorem zero {n : FileNode} (h : Learns w a s.atlas) (hn : a.told w n.path = some n)
    (hnodes : s.crawl.nodes = [.ofNode n 0]) (hedges : s.crawl.edges = [])
    (hvisited : s.visited = [n.path]) : Layered w a n.path 0 ([n], s) where
  learned := h
  visited y := by simp [hvisited, Atlas.Within]
  nodes y := by simp [hnodes, CrawlNode.ofNode, Atlas.Within]
  nodup := by simp [hnodes]
  depth m hm j := by
    rw [hnodes, List.mem_singleton] at hm
    subst hm
    have hstart : a.Within w n.path 0 n.path := rfl
    exact ⟨fun _ => Nat.zero_le j, hstart.mono⟩
  level := by simp [hnodes, CrawlNode.ofNode]
  told m hm := by rwa [List.mem_singleton.mp hm]
  pairs y z := by simp [Crawl.pairs, hedges]
  nodupPairs := by simp [Crawl.pairs, hedges]

end Layered

end Crawl

namespace Atlas

variable {w : World} {a b : Atlas} {p q : Path} {n : FileNode}

theorem analyze_congr (h : w.tree.key p = w.tree.key q) : a.analyze w p = a.analyze w q := by
  simp only [analyze, h]

/-- A crawl from a file that can be read goes through the files in layers. -/
theorem exists_layered (ha : a.Faithful w) (hs : a.Sturdy w) (hb : Learns w a b)
    (hp : w.tree.key (.ofText (w.tree.key p)) = w.tree.key p) (hn : (a.analyze w p).1 = .ok n)
    (k : Nat) :
    ∃ c x, b.crawl w p k = (.ok c, x.2.atlas) ∧ c.nodes = x.2.crawl.nodes ∧
      c.edges = x.2.crawl.edges ∧ Crawl.Layered w a (w.tree.key p) k x := by
  have hown : n.path = w.tree.key p := by
    obtain ⟨o, rfl⟩ := ha.exists_outline hn
    rfl
  have htold : a.told w n.path = some n := by
    rw [hown]
    exact told_of_analyze (by rw [analyze_congr hp, hn])
  have hsame : (b.analyze w p).1 = .ok n := (hb.analyze_fst p).trans hn
  have hlearned := hb.trans (learns_analyze b p)
  unfold crawl crawlFrom
  generalize b.analyze w p = r at hsame hlearned ⊢
  obtain ⟨answer, b'⟩ := r
  obtain rfl : answer = .ok n := hsame
  have hzero : Crawl.Layered w a n.path 0
      ([n], ⟨⟨n.path, [.ofNode n 0], [], [], false⟩, [n.path], [], b'⟩) :=
    .zero hlearned htold rfl rfl rfl
  obtain ⟨hcrawl, hatlas⟩ := Crawl.levels_eq_layers w k 0 [n]
    ⟨⟨n.path, [.ofNode n 0], [], [], false⟩, [n.path], [], b'⟩
  exact ⟨_, _, by rw [← hatlas]; rfl, congrArg (·.nodes) hcrawl, congrArg (·.edges) hcrawl,
    hown ▸ hzero.layers hs k⟩

/-- Only from a file that can be read does a crawl start. -/
theorem exists_analyze_of_crawl {k : Nat} {c : Crawl} (h : (a.crawl w p k).1 = .ok c) :
    ∃ n, (a.analyze w p).1 = .ok n := by
  unfold crawl crawlFrom at h
  split at h
  · cases h
  · rename_i n _ hn
    exact ⟨n, by rw [hn]⟩

end Atlas

end DepAtlas
