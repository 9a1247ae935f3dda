import DepAtlas.Proofs.Crawls

/-! # Going on from the files of the last level

A crawl can be carried on by crawls of one step from the files of its last level, in any order. Each of
them is told the files that are known by then, so that it tells no file again, but it tells all edges from
its file. When all have been made, the files and edges are those of a crawl that is one step deeper.
-/

namespace DepAtlas

open Atlas (Learns)

/-- What crawls have told one after the other, and the atlas by then. -/
structure Collection where
  known : List String
  edges : List Dependency
  atlas : Atlas

namespace Collection

variable {w : World} {a : Atlas} {x y : Collection} {file : String} {files : List String}

def ofCrawl (c : Crawl) (a : Atlas) : Collection := ⟨c.nodes.map (·.path), c.edges, a⟩

/-- Crawls one step from a file, and adds what is told. -/
def goOn (w : World) (x : Collection) (file : String) : Collection :=
  match x.atlas.crawlFrom w (.ofText file) x.known 1 with
  | (.ok c, atlas) => ⟨x.known ++ c.nodes.map (·.path), x.edges ++ c.edges, atlas⟩
  | (.error _, atlas) => { x with atlas }

/-- The ends of the edges. -/
def pairs (x : Collection) : List (String × String) := x.edges.map fun d => (d.source, d.target)

/-! ## One step -/

/-- The crawl tells what the file leads to, without what is known, and all edges from the file. -/
structure Tells (w : World) (a : Atlas) (x : Collection) (file : String) (c : Crawl) : Prop where
  nodes : ∀ z, z ∈ c.nodes.map (·.path) ↔ z ∉ x.known ∧ a.Leads w file z
  nodup : (c.nodes.map (·.path)).Nodup
  pairs : ∀ u v, (u, v) ∈ c.pairs ↔ u = file ∧ a.Leads w file v
  nodupPairs : c.pairs.Nodup

/-- A file that cannot be read leads nowhere. -/
theorem not_leads_of_error {e : ToolError} (h : (a.analyze w (.ofText file)).1 = .error e)
    (z : String) : ¬ a.Leads w file z := by
  rintro ⟨n, hn, d, hd, -⟩
  rw [Atlas.told_eq, h] at hn
  obtain ⟨language, -, rfl⟩ := Option.map_eq_some_iff.mp hn
  cases hd

/-- One level from a file that is known is one expansion of the file. -/
theorem tells_levels (hs : a.Sturdy w) {b : Atlas} (hb : Learns w a b) {n : FileNode}
    (hn : a.told w n.path = some n) (hf : n.path ∈ x.known) :
    let s := Crawl.levels w 1 0 [n]
      ⟨⟨n.path, [], [], [], false⟩, n.path :: x.known, [], b⟩
    Learns w a s.atlas ∧ x.Tells w a n.path s.crawl := by
  let start : Crawl.State := ⟨⟨n.path, [], [], [], false⟩, n.path :: x.known, [], b⟩
  obtain ⟨found, hfound⟩ := Crawl.exists_followed_expand 0 (s := start) hs hb hn
  obtain ⟨hcrawl, hatlas⟩ := Crawl.levels_eq_layers w 1 0 [n] start
  have hlayer : (Crawl.layers w 1 0 ([n], start)).2 = Crawl.expand w 0 start n := rfl
  rw [hlayer] at hcrawl hatlas
  have hpaths : (Crawl.levels w 1 0 [n] start).crawl.nodes.map (·.path) = found.map (·.path) := by
    rw [hcrawl, hfound.nodes, List.nil_append, List.map_map]
    rfl
  have hpairs : (Crawl.levels w 1 0 [n] start).crawl.pairs =
      (Crawl.expand w 0 start n).crawl.pairs := by
    rw [Crawl.pairs, hcrawl, Crawl.pairs]
  have hleads : ∀ z, (∃ d ∈ n.dependencies, d.target = z) ↔ a.Leads w n.path z := by
    intro z
    simp [Atlas.Leads, hn]
  intro s
  refine ⟨hatlas ▸ hfound.learned, ?_, ?_, ?_, ?_⟩
  · intro z
    rw [hpaths, hfound.fresh, hleads]
    refine and_congr_left' (not_congr ?_)
    simp only [start, List.mem_cons, or_iff_right_iff_imp]
    rintro rfl
    exact hf
  · rw [hpaths]
    exact hfound.nodup
  · intro u v
    rw [hpairs, hfound.pairs, ← hleads]
    constructor
    · rintro (hold | ⟨d, hd, he⟩)
      · cases hold
      · obtain ⟨rfl, rfl⟩ := Prod.mk.inj he
        exact ⟨hs.source n.path n d hn hd, d, hd, rfl⟩
    · rintro ⟨rfl, d, hd, rfl⟩
      exact Or.inr ⟨d, hd, by rw [hs.source n.path n d hn hd]⟩
  · rw [hpairs]
    exact hfound.nodupPairs List.nodup_nil

/-- A crawl of one step from a known file fails and the file leads nowhere, or it tells what is new. -/
theorem crawlFrom_cases (ha : a.Faithful w) (hs : a.Sturdy w) (hx : Learns w a x.atlas)
    (hf : file ∈ x.known) (hkey : w.tree.key (.ofText file) = file) :
    ∃ b, Learns w a b ∧
      ((∃ e, x.atlas.crawlFrom w (.ofText file) x.known 1 = (.error e, b) ∧
          ∀ z, ¬ a.Leads w file z) ∨
        ∃ c, x.atlas.crawlFrom w (.ofText file) x.known 1 = (.ok c, b) ∧ x.Tells w a file c) := by
  have hsame := hx.analyze_fst (.ofText file)
  have hlearned := hx.trans (Atlas.learns_analyze x.atlas (.ofText file))
  unfold Atlas.crawlFrom
  generalize x.atlas.analyze w (.ofText file) = r at hsame hlearned ⊢
  obtain ⟨answer, b⟩ := r
  cases answer with
  | error e => exact ⟨b, hlearned, Or.inl ⟨e, rfl, not_leads_of_error hsame.symm⟩⟩
  | ok n =>
    have htold : a.told w file = some n := Atlas.told_of_analyze hsame.symm
    obtain rfl : n.path = file := by rw [ha.path_of_told htold, hkey]
    have hknown : x.known.contains n.path = true := List.contains_iff_mem.mpr hf
    obtain ⟨hl, htells⟩ := tells_levels hs hlearned htold hf
    dsimp only
    rw [if_pos hknown]
    exact ⟨_, hl, Or.inr ⟨_, rfl, htells⟩⟩

/-! ## All files of a level -/

/-- What has been collected when some files have been gone on from. -/
structure Grown (w : World) (a : Atlas) (x : Collection) (files : List String) (y : Collection) :
    Prop where
  learned : Learns w a y.atlas
  known : ∀ z, z ∈ y.known ↔ z ∈ x.known ∨ ∃ f ∈ files, a.Leads w f z
  nodup : y.known.Nodup
  pairs : ∀ u v, (u, v) ∈ y.pairs ↔ (u, v) ∈ x.pairs ∨ u ∈ files ∧ a.Leads w u v
  nodupPairs : y.pairs.Nodup

/-- From the files it is possible to go on, and none has been gone on from. -/
structure Ready (w : World) (x : Collection) (files : List String) : Prop where
  known : ∀ f ∈ files, f ∈ x.known
  settled : ∀ f ∈ files, w.tree.key (.ofText f) = f
  nodup : files.Nodup
  fresh : ∀ f ∈ files, ∀ z, (f, z) ∉ x.pairs

theorem Grown.crawlFrom_cases (h : Grown w a x files y) (ha : a.Faithful w) (hs : a.Sturdy w)
    (hr : Ready w x (files ++ [file])) :
    ∃ b, Learns w a b ∧
      ((∃ e, y.atlas.crawlFrom w (.ofText file) y.known 1 = (.error e, b) ∧
          ∀ z, ¬ a.Leads w file z) ∨
        ∃ c, y.atlas.crawlFrom w (.ofText file) y.known 1 = (.ok c, b) ∧ y.Tells w a file c) := by
  have hlast : file ∈ files ++ [file] := by simp
  exact Collection.crawlFrom_cases ha hs h.learned
    ((h.known file).mpr (Or.inl (hr.known file hlast))) (hr.settled file hlast)

theorem Grown.goOn (h : Grown w a x files y) (ha : a.Faithful w) (hs : a.Sturdy w)
    (hr : Ready w x (files ++ [file])) :
    Grown w a x (files ++ [file]) (y.goOn w file) := by
  have hlast : file ∈ files ++ [file] := by simp
  have hnew : file ∉ files := fun hm =>
    (List.nodup_append.mp hr.nodup).2.2 file hm file (List.mem_singleton_self file) rfl
  unfold Collection.goOn
  obtain ⟨b, hb, ⟨e, he, hno⟩ | ⟨c, hc, ht⟩⟩ := h.crawlFrom_cases ha hs hr
  · rw [he]
    refine ⟨hb, fun z => ?_, h.nodup, fun u v => ?_, h.nodupPairs⟩
    · rw [h.known]
      simp [or_and_right, exists_or, hno]
    · refine (h.pairs u v).trans (or_congr_right ?_)
      simp only [List.mem_append, List.mem_singleton, or_and_right]
      refine (or_iff_left ?_).symm
      rintro ⟨rfl, hlead⟩
      exact hno v hlead
  · rw [hc]
    have hpairs : Collection.pairs ⟨y.known ++ c.nodes.map (·.path), y.edges ++ c.edges, b⟩ =
        y.pairs ++ c.pairs := List.map_append
    refine ⟨hb, fun z => ?_, ?_, fun u v => ?_, ?_⟩
    · rw [List.mem_append, ht.nodes]
      constructor
      · rintro (hz | ⟨-, hlead⟩)
        · rcases (h.known z).mp hz with hz | ⟨f, hf, hlead⟩
          · exact Or.inl hz
          · exact Or.inr ⟨f, List.mem_append_left _ hf, hlead⟩
        · exact Or.inr ⟨file, hlast, hlead⟩
      · rintro (hz | ⟨f, hf, hlead⟩)
        · exact Or.inl ((h.known z).mpr (Or.inl hz))
        · rcases List.mem_append.mp hf with hf | hf
          · exact Or.inl ((h.known z).mpr (Or.inr ⟨f, hf, hlead⟩))
          · obtain rfl := List.mem_singleton.mp hf
            exact or_iff_not_imp_left.mpr fun hz => ⟨hz, hlead⟩
    · rw [List.nodup_append]
      refine ⟨h.nodup, ht.nodup, ?_⟩
      rintro z hz z' hz' rfl
      exact ((ht.nodes z).mp hz').1 hz
    · rw [hpairs, List.mem_append]
      refine (or_congr (h.pairs u v) (ht.pairs u v)).trans ?_
      rw [or_assoc, List.mem_append, List.mem_singleton, or_and_right]
      refine or_congr_right (or_congr_right (and_congr_right ?_))
      rintro rfl
      exact Iff.rfl
    · -- edges from this file have not been told by another crawl
      rw [hpairs, List.nodup_append]
      refine ⟨h.nodupPairs, ht.nodupPairs, ?_⟩
      rintro ⟨u, v⟩ hy _ hc rfl
      obtain ⟨rfl, -⟩ := (ht.pairs u v).mp hc
      rcases (h.pairs u v).mp hy with hold | ⟨hu, -⟩
      · exact hr.fresh u hlast v hold
      · exact hnew hu

theorem Ready.of_append {more : List String} (h : Ready w x (files ++ more)) : Ready w x files where
  known f hf := h.known f (List.mem_append_left _ hf)
  settled f hf := h.settled f (List.mem_append_left _ hf)
  nodup := (List.nodup_append.mp h.nodup).1
  fresh f hf := h.fresh f (List.mem_append_left _ hf)

/-- Going on from file after file, what is collected depends on the files alone. -/
theorem grown_foldl (ha : a.Faithful w) (hs : a.Sturdy w) (hx : Learns w a x.atlas)
    (hnodup : x.known.Nodup) (hpairs : x.pairs.Nodup) (hr : Ready w x files) :
    Grown w a x files (files.foldl (goOn w) x) := by
  induction files using List.reverseRecOn with
  | nil => exact ⟨hx, by simp, hnodup, by simp, hpairs⟩
  | append_singleton files file ih =>
    rw [List.foldl_append, List.foldl_cons, List.foldl_nil]
    exact (ih hr.of_append).goOn ha hs hr

/-- From the files of the last level of a crawl it is possible to go on. -/
theorem ready_of_layered {start : String} {m : Nat} {l : List FileNode × Crawl.State}
    (hl : Crawl.Layered w a start m l) (ha : a.Faithful w)
    (hfiles : files.Perm (l.1.map (·.path)))
    (hknown : x.known = l.2.crawl.nodes.map (·.path)) (hpairs : x.pairs = l.2.crawl.pairs) :
    Ready w x files where
  known f hf := by
    rw [hknown, hl.nodes]
    exact ((hl.mem_level f).mp (hfiles.subset hf)).1
  settled f hf := by
    obtain ⟨n, hn, rfl⟩ := List.mem_map.mp (hfiles.subset hf)
    exact (ha.path_of_told (hl.told n hn)).symm
  nodup := by
    rw [hfiles.nodup_iff, ← hl.level]
    exact hl.nodup.sublist (List.filter_sublist.map _)
  fresh f hf z hz := by
    rw [hpairs] at hz
    obtain ⟨j, hj, hwithin, -⟩ := (hl.pairs f z).mp hz
    exact ((hl.mem_level f).mp (hfiles.subset hf)).2 j hj hwithin

end Collection

namespace Session

open Collection (goOn)

variable {s : Session} {w : World}

/-- A crawl is carried on by crawls of one step from the files of its last level, in any order, each of
which is told what is known by then. None of them tells a file that is known. When all have been made,
the files that are known and the ends of the edges are those of a crawl that is one step deeper, each
once; that crawl may be made at any time before, between or after. -/
theorem going_on_reaches_next_depth (h : s.Reachable (· = w)) (hw : w.tree.WellFormed)
    {entry : String} {m : Nat} {c : Crawl} {b : Atlas}
    (hc : s.atlas.crawl w (.ofText entry) m = (.ok c, b)) {order : List CrawlNode}
    (ho : order.Perm (c.nodes.filter (·.depth = m))) :
    let start := Collection.ofCrawl c b
    let files := order.map (·.path)
    (∀ (before : List String) (file : String) (after : List String), files = before ++ file :: after →
      let x := before.foldl (goOn w) start
      ∀ c', (x.atlas.crawlFrom w (.ofText file) x.known 1).1 = .ok c' →
        ∀ n ∈ c'.nodes, n.path ∉ x.known) ∧
    ∀ b', Learns w s.atlas b' → ∃ c', (b'.crawl w (.ofText entry) (m + 1)).1 = .ok c' ∧
      (c'.nodes.map (·.path)).Nodup ∧ c'.pairs.Nodup ∧
      (files.foldl (goOn w) start).known.Perm (c'.nodes.map (·.path)) ∧
      (files.foldl (goOn w) start).pairs.Perm c'.pairs := by
  intro start files
  have ha := h.faithful hw
  have hs := ha.sturdy hw
  have hkey := hw.key_ofText_key (Path.legible_ofText entry)
  obtain ⟨n, hn⟩ := Atlas.exists_analyze_of_crawl (congrArg Prod.fst hc)
  obtain ⟨c₀, l, hl, hnodes, hedges, hlayer⟩ := Atlas.exists_layered ha hs .refl hkey hn m
  obtain ⟨rfl, rfl⟩ : c₀ = c ∧ l.2.atlas = b := by simpa using hl.symm.trans hc
  have hpairs : start.pairs = l.2.crawl.pairs := congrArg (List.map _) hedges
  have hknown : start.known = l.2.crawl.nodes.map (·.path) := congrArg (List.map _) hnodes
  have hfiles : files.Perm (l.1.map (·.path)) := by
    rw [← hlayer.level, ← hnodes]
    exact ho.map _
  have hready := Collection.ready_of_layered hlayer ha hfiles hknown hpairs
  have hgrown {fs : List String} (hr : Collection.Ready w start fs) :=
    Collection.grown_foldl ha hs hlayer.learned (hknown ▸ hlayer.nodup)
      (hpairs ▸ hlayer.nodupPairs) hr
  refine ⟨?_, fun b' hb' => ?_⟩
  · intro before file after hsplit x c' hc' n hn
    have hr : Collection.Ready w start ((before ++ [file]) ++ after) := by
      simpa [hsplit] using hready
    obtain ⟨b', -, ⟨e, he, -⟩ | ⟨c₁, hc₁, htells⟩⟩ :=
      (hgrown hr.of_append.of_append).crawlFrom_cases ha hs hr.of_append
    · rw [he] at hc'
      cases hc'
    · rw [hc₁] at hc'
      obtain rfl := Except.ok.inj hc'
      exact ((htells.nodes n.path).mp (List.mem_map_of_mem hn)).1
  · obtain ⟨c', l', hl', hnodes', hedges', hlayer'⟩ :=
      Atlas.exists_layered ha hs hb' hkey hn (m + 1)
    have hfinal := hgrown hready
    have hpairs' : c'.pairs = l'.2.crawl.pairs := congrArg (List.map _) hedges'
    refine ⟨c', by rw [hl'], ?_⟩
    rw [hnodes', hpairs']
    refine ⟨hlayer'.nodup, hlayer'.nodupPairs, ?_, ?_⟩
    · rw [List.perm_ext_iff_of_nodup hfinal.nodup hlayer'.nodup]
      intro z
      rw [hfinal.known, hknown, hlayer.nodes, hlayer'.nodes, hlayer.within_succ_iff]
      simp only [hfiles.mem_iff]
    · rw [List.perm_ext_iff_of_nodup hfinal.nodupPairs hlayer'.nodupPairs]
      rintro ⟨u, v⟩
      rw [hfinal.pairs, hpairs, hlayer.pairs, hlayer'.pairs, ← hlayer.leads_before_succ_iff,
        hfiles.mem_iff]

end Session

/-- A workspace with two files that import each other. -/
def Small.cyclic : FileTree where
  entries := [(["w"], .directory), (["w", "a.ts"], .file source),
    (["w", "b.ts"], .file [105, 109, 112, 111, 114, 116, 32, 39, 46, 47, 97, 39])]
  start := []

theorem Small.new_cyclic : Atlas.new (world cyclic) config = .ok atlas := rfl

/-- One step from the first of the two. -/
def Small.oneStep : Crawl where
  entry := "/w/a.ts"
  nodes := [⟨"/w/a.ts", .typeScript, 0⟩, ⟨"/w/b.ts", .typeScript, 1⟩]
  edges := [⟨"/w/a.ts", "/w/b.ts", .plain, 1, "./b"⟩]
  unresolved := []
  truncated := true

/-- Going on from the second file of a cycle tells the edge back to the first, and no file. -/
theorem Session.going_on_reaches_next_depth_small :
    ∃ (s : Session) (b : Atlas), s.Reachable (· = Small.world Small.cyclic) ∧
      s.atlas.crawl (Small.world Small.cyclic) (.ofText "/w/a.ts") 1 = (.ok Small.oneStep, b) ∧
      ∃ c, (b.crawl (Small.world Small.cyclic) (.ofText "/w/a.ts") 2).1 = .ok c ∧
        ((Collection.ofCrawl Small.oneStep b).goOn (Small.world Small.cyclic) "/w/b.ts").known.Perm
          (c.nodes.map (·.path)) ∧
        ((Collection.ofCrawl Small.oneStep b).goOn (Small.world Small.cyclic) "/w/b.ts").pairs.Perm
          c.pairs := by
  have h : Session.Reachable (· = Small.world Small.cyclic) ⟨Small.atlas, []⟩ :=
    .new rfl Small.new_cyclic
  have hstep : (Small.atlas.crawl (Small.world Small.cyclic) (.ofText "/w/a.ts") 1).1 =
      .ok Small.oneStep := by decide +kernel
  have hlearned := Atlas.learns_crawlFrom (w := Small.world Small.cyclic) Small.atlas
    (.ofText "/w/a.ts") [] 1
  rw [← Atlas.crawl] at hlearned
  generalize hr : Small.atlas.crawl (Small.world Small.cyclic) (.ofText "/w/a.ts") 1 = r
    at hstep hlearned
  obtain ⟨answer, b⟩ := r
  obtain rfl : answer = .ok Small.oneStep := hstep
  have hlast : [⟨"/w/b.ts", .typeScript, 1⟩] = Small.oneStep.nodes.filter (·.depth = 1) := rfl
  obtain ⟨c, hc, -, -, hknown, hends⟩ :=
    (going_on_reaches_next_depth h (by decide +kernel) hr (.of_eq hlast)).2 b hlearned
  exact ⟨_, b, h, hr, c, hc, hknown, hends⟩

end DepAtlas
