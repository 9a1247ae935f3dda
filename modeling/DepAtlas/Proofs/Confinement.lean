import DepAtlas.Proofs.Passes
import DepAtlas.Proofs.Mirror
import DepAtlas.Proofs.SymbolIds

/-! # Requests stay inside the root

A request names files by texts that are confined to the root; from there it comes to other files by the
dependencies of files and by the ids of symbols. Dependencies lead inside the root, since that is asked
whenever a name of a module is understood. Ids do so if they can be split again. Then no file outside
the root is ever given to the parser: what it would make of such a file makes no difference.
-/

namespace DepAtlas

/-- Two services that may differ in what they make of files of no concern. -/
structure Parsing.AgreeOn (concern : String → Prop) (s s' : Parsing) : Prop where
  outline : ∀ key source, concern key → s'.outline key source = s.outline key source
  supports : s'.supports = s.supports
  supportsWhenClosed : s'.supportsWhenClosed = s.supportsWhenClosed

/-- No name in a file inside the root has a colon. -/
def World.ColonFree (w : World) (root : Path) : Prop :=
  ∀ key content o, w.tree.Inside root key → w.tree.read (.ofText key) = .ok content →
    w.parsing.outline key (Text.decodeLenient content) = .ok o → o.ColonFree

/-- The root of a workspace, by the path by which it is known. -/
structure FileTree.Home (t : FileTree) (root : Path) : Prop where
  rooted : root.rooted = true
  legible : root.Legible
  clean : root.clean = root
  settled : t.settle root = root

theorem FileTree.WellFormed.home {t : FileTree} (hw : t.WellFormed) {l : Location}
    (h : t.lookup l = some .directory) : t.Home l.path where
  rooted := rfl
  legible := Path.legible_path (hw.above (by simp [h])).1
  clean := l.clean_path
  settled := hw.settle_path (by simp [h]) (by simp [h])

/-- What is known of a file stays inside the root. -/
structure FileNode.Inside (w : World) (root : Path) (n : FileNode) : Prop where
  path : w.tree.Inside root n.path
  targets : ∀ d ∈ n.dependencies, w.tree.Inside root d.target
  symbols : w.ColonFree root → ∀ s ∈ n.symbols, IdInside w.tree root s.id

/-- All that an atlas knows stays inside the root. -/
structure Atlas.Confined (w : World) (root : Path) (a : Atlas) : Prop where
  home : a.root = root
  resolver : a.resolver.root = root
  cached : ∀ k f, a.cache.get? k = some f → w.tree.Inside root k ∧ f.node.Inside w root
  callers : w.ColonFree root → ∀ u ∈ a.callers.uses, IdInside w.tree root u.2.symbol

/-- The answer is the same with another service, and the atlas stays confined. -/
structure Kept (w : World) (root : Path) {α : Type} (other answer : α × Atlas) : Prop where
  same : other = answer
  confined : answer.2.Confined w root

/-- A world with a root, and another service that reads the files inside the root in the same way. -/
structure Fenced (w : World) (root : Path) (s : Parsing) : Prop where
  wellFormed : w.tree.WellFormed
  home : w.tree.Home root
  agree : w.parsing.AgreeOn (w.tree.Inside root) s

/-- A question about a file is answered from the cache, or by entering the file, or not at all. -/
theorem Atlas.analyze_cases (a : Atlas) (w : World) (p : Path) :
    (∃ f, a.cache.get? (w.tree.key p) = some f ∧ a.analyze w p = (.ok f.node, a)) ∨
      (∃ content n, w.tree.read (.ofText (w.tree.key p)) = .ok content ∧
        a.build w (w.tree.key p) content = .ok n ∧
        a.analyze w p = (.ok n, a.store (w.tree.key p) (Atlas.markOf content) n)) ∨
      ∃ e, a.analyze w p = (.error e, a) := by
  unfold Atlas.analyze
  dsimp only
  split
  · rename_i f hf
    exact Or.inl ⟨f, hf, rfl⟩
  · refine Or.inr ?_
    split
    · exact Or.inr ⟨_, rfl⟩
    · split
      · exact Or.inr ⟨_, rfl⟩
      · split
        · exact Or.inr ⟨_, rfl⟩
        · rename_i content hread
          split
          · exact Or.inr ⟨_, rfl⟩
          · rename_i n hn
            exact Or.inl ⟨content, n, hread, hn, rfl⟩

namespace Atlas.Confined

variable {w : World} {root : Path} {a a' : Atlas} {key : String}

theorem congr (h : a.Confined w root) (hr : a'.root = a.root) (hres : a'.resolver = a.resolver)
    (hc : a'.cache = a.cache) (hcs : a'.callers = a.callers) : a'.Confined w root where
  home := hr.trans h.home
  resolver := by rw [hres, h.resolver]
  cached := hc ▸ h.cached
  callers := hcs ▸ h.callers

theorem forget (h : a.Confined w root) (key : String) : (a.forget key).2.Confined w root where
  home := h.home
  resolver := h.resolver
  cached k f hf := by
    rw [get?_forget] at hf
    split at hf
    · cases hf
    · exact h.cached k f hf
  callers hc u hu := h.callers hc u (List.mem_of_mem_filter hu)

theorem store (h : a.Confined w root) (hk : w.tree.Inside root key) (mark : String) {n : FileNode}
    (hn : n.Inside w root) : (a.store key mark n).Confined w root where
  home := h.home
  resolver := h.resolver
  cached k f hf := by
    rw [get?_store] at hf
    split at hf
    · rename_i hkey
      subst hkey
      obtain rfl := Option.some.inj hf
      exact ⟨hk, hn⟩
    · exact h.cached k f hf
  callers hc u hu := h.callers hc u (List.mem_of_mem_filter hu)

end Atlas.Confined

namespace Fenced

variable {w : World} {root : Path} {s : Parsing} {a : Atlas} {p : Path} {key : String}

section

variable (h : Fenced w root s)

include h

/-! ## Files -/

theorem outlineIn (closed : Bool) (hk : w.tree.Inside root key) (source : String) :
    s.outlineIn closed key source = w.parsing.outlineIn closed key source := by
  unfold Parsing.outlineIn
  rw [h.agree.outline key source hk]

theorem supportsIn (closed : Bool) (p : Path) :
    s.supportsIn closed p = w.parsing.supportsIn closed p := by
  unfold Parsing.supportsIn
  rw [h.agree.supports, h.agree.supportsWhenClosed]

theorem build (a : Atlas) (hk : w.tree.Inside root key) (content : List UInt8) :
    a.build { w with parsing := s } key content = a.build w key content := by
  unfold Atlas.build
  rw [h.outlineIn a.closed hk]
  rfl

theorem inside_target (hres : a.resolver.root = root) {i : Import} {d : Dependency}
    (hd : a.link w key i = .dependency d) : w.tree.Inside root d.target := by
  obtain ⟨path, hpath, -, -, rfl⟩ := Atlas.link_eq_dependency hd
  have hin := Resolve.Resolver.inside_of_resolve h.wellFormed
    (by rw [hres]; exact h.home.clean) hpath
  rwa [hres] at hin

theorem inside_of_build (hres : a.resolver.root = root) (hk : w.tree.Inside root key)
    {content : List UInt8} (hread : w.tree.read (.ofText key) = .ok content) {n : FileNode}
    (hn : a.build w key content = .ok n) : n.Inside w root := by
  obtain ⟨-, o, ho, rfl⟩ := Atlas.build_eq_ok hn
  refine ⟨hk, fun d hd => ?_, fun hc x hx => ?_⟩
  · obtain ⟨i, -, hi⟩ := List.mem_map.mp (Atlas.mem_dependenciesOf.mp hd)
    exact h.inside_target hres hi
  · obtain ⟨d, hd, rfl⟩ := List.mem_map.mp hx
    exact ⟨key, d.qualifiedName, rfl, (hc key content o hk hread ho).declarations d hd, hk⟩

variable (ha : a.Confined w root)

include ha

theorem inside_of_confine {raw : String} (hp : a.confine w raw = .ok p) :
    w.tree.Inside root (w.tree.key p) ∧ p.toText = w.tree.key p := by
  unfold Atlas.confine at hp
  rw [ha.home] at hp
  exact h.wellFormed.inside_of_confine h.home.settled h.home.legible hp

theorem analyze (hp : w.tree.Inside root (w.tree.key p)) :
    Kept w root (a.analyze { w with parsing := s } p) (a.analyze w p) ∧
      ∀ n, (a.analyze w p).1 = .ok n → n.Inside w root := by
  have hsame : a.analyze { w with parsing := s } p = a.analyze w p := by
    simp only [Atlas.analyze, h.supportsIn, h.build a hp]
  rcases a.analyze_cases w p with ⟨f, hf, he⟩ | ⟨content, n, hread, hn, he⟩ | ⟨e, he⟩
  · refine ⟨⟨hsame, by rwa [he]⟩, fun n hn => ?_⟩
    rw [he] at hn
    obtain rfl := Except.ok.inj hn
    exact (ha.cached _ f hf).2
  · have hin := h.inside_of_build ha.resolver hp hread hn
    refine ⟨⟨hsame, by rw [he]; exact ha.store hp _ hin⟩, fun m hm => ?_⟩
    rw [he] at hm
    obtain rfl := Except.ok.inj hm
    exact hin
  · refine ⟨⟨hsame, by rwa [he]⟩, fun n hn => ?_⟩
    rw [he] at hn
    cases hn

theorem analyzeLenient (hp : w.tree.Inside root (w.tree.key p)) :
    Kept w root (a.analyzeLenient { w with parsing := s } p) (a.analyzeLenient w p) ∧
      ∀ n ∈ (a.analyzeLenient w p).1, n.Inside w root := by
  obtain ⟨⟨hsame, hconf⟩, hnode⟩ := h.analyze ha hp
  refine ⟨⟨?_, ?_⟩, ?_⟩
  · simp only [Atlas.analyzeLenient, hsame]
  · rwa [Atlas.analyzeLenient_snd]
  · intro n hn
    unfold Atlas.analyzeLenient at hn
    split at hn
    · rename_i node _ hx
      obtain rfl := Option.some.inj hn
      exact hnode node (by rw [hx])
    · obtain ⟨language, -, rfl⟩ := Option.map_eq_some_iff.mp hn
      exact ⟨hp, by simp [FileNode.leaf], by simp [FileNode.leaf]⟩

end

/-! ## Crawls -/

/-- What a crawl has reached, and what it will go on from, is inside the root. -/
structure CrawlInside (w : World) (root : Path) (c : Crawl.State) : Prop where
  atlas : c.atlas.Confined w root
  nodes : ∀ n ∈ c.crawl.nodes, w.tree.Inside root n.path
  edges : ∀ d ∈ c.crawl.edges, w.tree.Inside root d.target
  next : ∀ n ∈ c.next, n.Inside w root

theorem CrawlInside.addEdge {c : Crawl.State} (hc : CrawlInside w root c) {d : Dependency}
    (hd : w.tree.Inside root d.target) :
    CrawlInside w root { c with crawl := c.crawl.addEdge d } := by
  unfold Crawl.addEdge
  split
  · exact hc
  · refine ⟨hc.atlas, hc.nodes, ?_, hc.next⟩
    exact List.forall_mem_append.mpr ⟨hc.edges, List.forall_mem_singleton.mpr hd⟩

section

variable (h : Fenced w root s)

include h

theorem follow (depth : Nat) {c : Crawl.State} (hc : CrawlInside w root c) {d : Dependency}
    (hd : w.tree.Inside root d.target) :
    Crawl.follow { w with parsing := s } depth c d = Crawl.follow w depth c d ∧
      CrawlInside w root (Crawl.follow w depth c d) := by
  obtain ⟨⟨hsame, hconf⟩, hnode⟩ := h.analyzeLenient hc.atlas hd.key
  have he := hc.addEdge hd
  unfold Crawl.follow
  dsimp only
  rw [hsame]
  split
  · exact ⟨rfl, he⟩
  · refine ⟨rfl, ?_⟩
    split <;> rename_i hx <;> rw [hx] at hconf hnode
    · exact ⟨hconf, he.nodes, he.edges, he.next⟩
    · rename_i child atlas
      have hchild := hnode child rfl
      refine ⟨hconf, ?_, he.edges, ?_⟩
      · exact List.forall_mem_append.mpr ⟨he.nodes, List.forall_mem_singleton.mpr hchild.path⟩
      · exact List.forall_mem_append.mpr ⟨he.next, List.forall_mem_singleton.mpr hchild⟩

theorem expand (depth : Nat) {c : Crawl.State} (hc : CrawlInside w root c) {n : FileNode}
    (hn : n.Inside w root) :
    Crawl.expand { w with parsing := s } depth c n = Crawl.expand w depth c n ∧
      CrawlInside w root (Crawl.expand w depth c n) := by
  obtain ⟨hnodes, hedges⟩ := Crawl.nodes_foldl_addUnresolved n.unresolved c.crawl
  refine Atlas.foldl_same (P := CrawlInside w root) n.dependencies
    (fun c d hd hc => h.follow depth hc (hn.targets d hd)) ?_
  exact ⟨hc.atlas, fun m hm => hc.nodes m (hnodes ▸ hm), fun d hd => hc.edges d (hedges ▸ hd), hc.next⟩

theorem levels (more depth : Nat) {nodes : List FileNode} (hn : ∀ n ∈ nodes, n.Inside w root)
    {c : Crawl.State} (hc : CrawlInside w root c) :
    Crawl.levels { w with parsing := s } more depth nodes c = Crawl.levels w more depth nodes c ∧
      CrawlInside w root (Crawl.levels w more depth nodes c) := by
  induction more generalizing depth nodes c with
  | zero =>
    cases nodes with
    | nil => exact ⟨rfl, hc⟩
    | cons n nodes =>
      unfold Crawl.levels
      split
      · exact ⟨rfl, hc.atlas, hc.nodes, hc.edges, hc.next⟩
      · exact ⟨rfl, hc⟩
  | succ more ih =>
    cases nodes with
    | nil => exact ⟨rfl, hc⟩
    | cons n nodes =>
      obtain ⟨hsame, hin⟩ := Atlas.foldl_same (P := CrawlInside w root) (n :: nodes)
        (fun c m hm hc => h.expand depth hc (hn m hm))
        (s := { c with next := [] }) ⟨hc.atlas, hc.nodes, hc.edges, by simp⟩
      unfold Crawl.levels
      dsimp only
      rw [hsame]
      -- What is found on this level is what the next one goes on from.
      exact ih _ hin.next hin

theorem crawlFrom (ha : a.Confined w root) (hp : w.tree.Inside root (w.tree.key p))
    (known : List String) (depth : Nat) :
    Kept w root (a.crawlFrom { w with parsing := s } p known depth) (a.crawlFrom w p known depth) ∧
      ∀ c, (a.crawlFrom w p known depth).1 = .ok c →
        (∀ n ∈ c.nodes, w.tree.Inside root n.path) ∧ ∀ d ∈ c.edges, w.tree.Inside root d.target := by
  obtain ⟨⟨hsame, hconf⟩, hnode⟩ := h.analyze ha hp
  unfold Atlas.crawlFrom
  rw [hsame]
  split <;> rename_i hx <;> rw [hx] at hconf hnode
  · exact ⟨⟨rfl, hconf⟩, fun c hc => by cases hc⟩
  · rename_i n a'
    have hn := hnode n rfl
    have hstart : CrawlInside w root
        ⟨⟨n.path, if known.contains n.path then [] else [.ofNode n 0], [], [], false⟩,
          n.path :: known, [], a'⟩ := by
      refine ⟨hconf, fun m hm => ?_, by simp, by simp⟩
      dsimp only at hm
      split at hm
      · cases hm
      · obtain rfl := List.mem_singleton.mp hm
        exact hn.path
    have hfirst : ∀ m ∈ [n], m.Inside w root := by simpa using hn
    obtain ⟨hsame', hin⟩ := h.levels depth 0 hfirst hstart
    dsimp only
    rw [hsame']
    refine ⟨⟨rfl, hin.atlas⟩, fun c hc => ?_⟩
    obtain rfl := Except.ok.inj hc
    exact ⟨hin.nodes, hin.edges⟩

end

end Fenced

end DepAtlas
