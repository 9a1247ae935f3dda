import DepAtlas.Proofs.UseIndex
import Mathlib.Order.Bounds.Basic

/-! # Who uses a symbol

Before a question about a symbol is answered, only the file of the symbol and the files that import it
are entered into the index of callers. An edge of a symbol graph that leads to another file comes from an
import, and each import of a cached file is in the index of importers, so that nobody is missed. Hence the
dependents of a symbol are told by the symbol graphs of the cached files alone.
-/

namespace DepAtlas

namespace Atlas

variable {w : World} {a b : Atlas} {p : Path} {key k name : String} {e : SymbolEdge} {u : Caller}
  {ids : List String}

/-- An edge of the symbol graph of a cached file. -/
def Edge (a : Atlas) (w : World) (k : String) (e : SymbolEdge) : Prop :=
  a.cache.contains k = true ∧ ∃ g, a.symbolGraph w (.ofText k) = .ok g ∧ e ∈ g.edges

theorem edge_congr (hr : b.resolver = a.resolver) (hc : b.closed = a.closed)
    (hcached : ∀ k, b.cache.contains k = true ↔ a.cache.contains k = true) :
    b.Edge w k e ↔ a.Edge w k e := by
  simp only [Edge, symbolGraph_congr hr hc, hcached]

/-! ## Entering the users -/

theorem mem_entered_enterUses {f file : String} :
    f ∈ (a.enterUses w file).callers.entered ↔ f ∈ a.callers.entered ∨ f = file := by
  rcases a.enterUses_cases w file with ⟨hin, he⟩ | ⟨callers, he, hentered, -⟩ <;> rw [he]
  · constructor
    · exact Or.inl
    · rintro (hf | rfl)
      · exact hf
      · exact hin
  · rw [Callers.mem_entered_enter, hentered]

theorem mem_entered_foldl_enterUses {f : String} (files : List String) (a : Atlas) :
    f ∈ (files.foldl (enterUses w) a).callers.entered ↔ f ∈ a.callers.entered ∨ f ∈ files := by
  induction files generalizing a with
  | nil => simp
  | cons file files ih =>
    rw [List.foldl_cons, ih, mem_entered_enterUses, List.mem_cons, or_assoc]

theorem cache_foldl_enterUses (files : List String) (a : Atlas) :
    (files.foldl (enterUses w) a).cache = a.cache := by
  induction files generalizing a with
  | nil => rfl
  | cons file files ih => rw [List.foldl_cons, ih, cache_enterUses]

theorem analyze_of_cached {f : CachedFile} (h : a.cache.get? (w.tree.key p) = some f) :
    a.analyze w p = (.ok f.node, a) := by
  unfold analyze
  dsimp only
  rw [h]

/-- What is entered before a question about a file that is cached. -/
theorem prepareCallers_of_cached (hk : w.tree.key (.ofText key) = key)
    (hc : a.cache.contains key = true) :
    (a.prepareCallers w key).2 =
      (Text.sortedOnce (key :: (a.referencesTo w (.ofText key)).map (·.source))).foldl
        (enterUses w) a := by
  obtain ⟨f, hf⟩ := NodeCache.contains_iff.mp hc
  have hsame : (a.analyzeLenient w (.ofText key)).2 = a := by
    rw [analyzeLenient_snd, analyze_of_cached (hk ▸ hf)]
  unfold prepareCallers
  dsimp only
  rw [hsame]

/-- Whoever uses a symbol of another file imports this file. -/
theorem source_mem_references (hw : w.Orderly) (hm : a.Mirrored) (hf : a.Faithful w)
    (hsettled : w.tree.key (.ofText k) = k) (hkey : w.tree.key (.ofText key) = key)
    (hlanguage : (Language.ofPath? (.ofText key)).isSome = true) (he : a.Edge w k e)
    (hname : ':' ∉ name.toList) (ht : e.target = symbolId key name) :
    k ∈ key :: (a.referencesTo w (.ofText key)).map (·.source) := by
  obtain ⟨hcached, g, hg, hmem⟩ := he
  obtain ⟨content, o, hread, hout, -, name', htarget, hname', hway⟩ :=
    hw.of_mem_edges hsettled hg hmem
  obtain ⟨hfile, -⟩ := symbolId_inj hname hname' (ht.symm.trans htarget)
  rw [← hfile] at hway
  rw [List.mem_cons]
  by_cases hk : k = key
  · exact Or.inl hk
  · obtain ⟨i, hi, path, hpath, rfl⟩ := hway.resolve_left (Ne.symm hk)
    -- the import is a link of the node, so that the index of importers has it
    rw [(Resolve.Resolver.settled_of_resolve hw.wellFormed hpath).1] at hlanguage
    have hlink := link_of_resolve hpath hlanguage (Ne.symm hk)
    obtain ⟨f, hget⟩ := NodeCache.contains_iff.mp hcached
    obtain ⟨content', o', hread', hout', rfl⟩ := hf k f hget
    obtain rfl : content' = content := Except.ok.inj (hread'.symm.trans hread)
    obtain rfl : o' = o := Except.ok.inj (hout'.symm.trans hout)
    have hdep : (⟨k, path.toText, i.kind, i.line, i.specifier⟩ : Dependency) ∈
        (a.nodeOf w k o').dependencies :=
      mem_dependenciesOf.mpr (List.mem_map.mpr ⟨i, hi, hlink⟩)
    have hreference : .ofDependency ⟨k, path.toText, i.kind, i.line, i.specifier⟩ ∈
        a.referencesTo w (.ofText path.toText) := by
      rw [hm.referencesTo_eq, hkey]
      exact hm.mem_lookup_iff.mpr ⟨_, ⟨k, _, hget, hdep⟩, rfl, rfl⟩
    exact Or.inr (List.mem_map.mpr ⟨_, hreference, rfl⟩)

/-- Once the users of a file have been entered, the index has the uses of its symbols in all cached
files. -/
theorem mem_uses_prepareCallers (hw : w.Orderly) (h : a.Current w) (hm : a.Mirrored)
    (hf : a.Faithful w) (hkey : w.tree.key (.ofText key) = key) (hc : a.cache.contains key = true)
    (hname : ':' ∉ name.toList) :
    (symbolId key name, u) ∈ (a.prepareCallers w key).2.callers.uses ↔
      ∃ k e, a.Edge w k e ∧ e.target = symbolId key name ∧ u = .ofEdge k e := by
  have hcurrent := h.prepareCallers hw hkey
  have hl := (learns_prepareCallers (w := w) a key).alike
  have hgraph := symbolGraph_congr hl.resolver hl.closed w
  have hcache : (a.prepareCallers w key).2.cache = a.cache := by
    rw [prepareCallers_of_cached hkey hc, cache_foldl_enterUses]
  constructor
  · intro hmem
    obtain ⟨hentered, g, hg, e, he, hx⟩ := (hcurrent.uses _).mp hmem
    obtain ⟨ht, hu⟩ := Prod.mk.inj hx
    have hcached := (hcurrent.entered _ hentered).2 g hg
    rw [hcache] at hcached
    rw [hgraph] at hg
    exact ⟨u.file, e, ⟨hcached, g, hg, he⟩, ht.symm, hu⟩
  · rintro ⟨k, e, hedge, ht, rfl⟩
    obtain ⟨f, hget⟩ := NodeCache.contains_iff.mp hedge.1
    have hlanguage : (Language.ofPath? (.ofText key)).isSome = true := by
      obtain ⟨f, hget⟩ := NodeCache.contains_iff.mp hc
      obtain ⟨content, o, -, hout, -⟩ := hf key f hget
      exact hw.literate _ (hw.candid key _ o hout)
    have hentered : k ∈ (a.prepareCallers w key).2.callers.entered := by
      rw [prepareCallers_of_cached hkey hc, mem_entered_foldl_enterUses, Text.mem_sortedOnce]
      exact Or.inr (source_mem_references hw hm hf (h.cached k f hget) hkey hlanguage hedge hname ht)
    obtain ⟨-, g, hg, he⟩ := hedge
    rw [← hgraph] at hg
    exact (hcurrent.uses _).mpr ⟨hentered, g, hg, e, he, by rw [ht]; rfl⟩

theorem usedBy_prepareCallers (hw : w.Orderly) (h : a.Current w) (hm : a.Mirrored)
    (hf : a.Faithful w) (hkey : w.tree.key (.ofText key) = key) (hc : a.cache.contains key = true)
    (hids : ∀ id ∈ ids, ∃ name, id = symbolId key name ∧ ':' ∉ name.toList) :
    (a.prepareCallers w key).2.callers.UsedBy ids u ↔
      u.symbol ∉ ids ∧ ∃ k e, a.Edge w k e ∧ e.target ∈ ids ∧ u = .ofEdge k e := by
  refine and_congr_right fun _ => ⟨?_, ?_⟩
  · rintro ⟨id, hid, hmem⟩
    obtain ⟨name, rfl, hname⟩ := hids id hid
    obtain ⟨k, e, hedge, ht, hu⟩ := (mem_uses_prepareCallers hw h hm hf hkey hc hname).mp hmem
    exact ⟨k, e, hedge, ht ▸ hid, hu⟩
  · rintro ⟨k, e, hedge, hid, hu⟩
    obtain ⟨name, ht, hname⟩ := hids _ hid
    refine ⟨symbolId key name, ht ▸ hid, ?_⟩
    exact (mem_uses_prepareCallers hw h hm hf hkey hc hname).mpr ⟨k, e, hedge, ht, hu⟩

/-! ## Answers -/

/-- The ids of the symbols of a node that have a name. -/
def idsOf (n : FileNode) (name : String) : List String :=
  (n.symbols.filter (·.hasName name)).map (·.id)

/-- The dependents of a symbol are told if there is such a symbol. -/
theorem dependents_eq_ok_iff {d : Dependents} :
    a.dependents w p name = (.ok d, b) ↔
      ∃ n a', a.analyze w p = (.ok n, a') ∧ idsOf n name ≠ [] ∧
        b = (a'.prepareCallers w (w.tree.key p)).2 ∧
        d = ⟨w.tree.key p, name, idsOf n name, b.callers.usersOf (idsOf n name)⟩ := by
  unfold dependents symbolIds
  cases a.analyze w p with
  | mk answer a' =>
    cases answer with
    | error e => simp
    | ok n =>
      have hids : (n.symbols.filter (·.hasName name)).map (·.id) = idsOf n name := rfl
      dsimp only
      rw [hids]
      by_cases h : idsOf n name = []
      · simp [h]
      · rw [if_neg (by simpa using h)]
        constructor
        · intro hd
          obtain ⟨hanswer, rfl⟩ := Prod.mk.inj hd
          exact ⟨n, a', rfl, h, rfl, (Except.ok.inj hanswer).symm⟩
        · rintro ⟨_, _, hx, -, rfl, rfl⟩
          cases hx
          rfl

/-- A file that has been told is cached, and no other file besides the ones that were. -/
theorem get?_analyze {n : FileNode} (h : a.analyze w p = (.ok n, b)) :
    (∃ f, b.cache.get? (w.tree.key p) = some f ∧ f.node = n) ∧
      ∀ k, b.cache.contains k = true ↔ a.cache.contains k = true ∨ k = w.tree.key p := by
  rcases a.analyze_cases w p with ⟨f, hf, ha⟩ | ⟨content, m, -, -, ha⟩ | ⟨e, ha⟩ <;>
    obtain ⟨hn, rfl⟩ := Prod.mk.inj (h.symm.trans ha)
  · refine ⟨⟨f, hf, (Except.ok.inj hn).symm⟩, fun k => ⟨Or.inl, ?_⟩⟩
    rintro (hk | rfl)
    · exact hk
    · exact NodeCache.contains_iff.mpr ⟨f, hf⟩
  · obtain rfl := Except.ok.inj hn
    refine ⟨⟨_, by rw [get?_store, if_pos rfl], rfl⟩, fun k => ?_⟩
    simp only [NodeCache.contains_iff, get?_store]
    by_cases hk : k = w.tree.key p <;> simp [hk]
  · cases hn

/-- Only an open session tells of files. -/
theorem Current.open_of_analyze (h : a.Current w) {n : FileNode} (ha : a.analyze w p = (.ok n, b)) :
    a.closed = false := by
  rcases a.analyze_cases w p with ⟨f, hf, -⟩ | ⟨content, m, -, hm, -⟩ | ⟨e, he⟩
  · by_contra hc
    rw [h.shut (by simpa using hc)] at hf
    cases hf
  · exact (build_eq_ok hm).1
  · rw [he] at ha
    cases ha

/-- The ids of the symbols of a cached file can be split again. -/
theorem symbolId_of_mem_idsOf (hw : w.Orderly) (hf : a.Faithful w)
    (hkey : w.tree.key (.ofText key) = key) {f : CachedFile} (hget : a.cache.get? key = some f)
    {id : String} (hid : id ∈ idsOf f.node name) :
    ∃ name, id = symbolId key name ∧ ':' ∉ name.toList := by
  obtain ⟨content, o, hread, hout, rfl⟩ := hf key f hget
  have hfree := hw.colonFree key content o (FileTree.inside_anywhere.mpr hkey) hread hout
  obtain ⟨symbol, hsymbol, rfl⟩ := List.mem_map.mp hid
  obtain ⟨d, hd, rfl⟩ := List.mem_map.mp (List.mem_of_mem_filter hsymbol)
  exact ⟨d.qualifiedName, rfl, hfree.declarations d hd⟩

/-- What an atlas is like when it has answered a question about a symbol. -/
structure Told (a : Atlas) (w : World) (p : Path) (d : Dependents) (b : Atlas) : Prop where
  cached : ∀ k, b.cache.contains k = true ↔ a.cache.contains k = true ∨ k = w.tree.key p
  alike : Alike a b
  current : b.Current w
  callers : d.callers = b.callers.usersOf d.ids
  uses : ∀ u, b.callers.UsedBy d.ids u ↔
    u.symbol ∉ d.ids ∧ ∃ k e, b.Edge w k e ∧ e.target ∈ d.ids ∧ u = .ofEdge k e

theorem told_of_dependents (hw : w.Orderly) (h : a.Current w) (hm : a.Mirrored) (hf : a.Faithful w)
    (hp : p.Legible) {d : Dependents} (hd : a.dependents w p name = (.ok d, b)) :
    a.Told w p d b := by
  obtain ⟨n, a', ha, -, rfl, rfl⟩ := dependents_eq_ok_iff.mp hd
  have hl := learns_analyze (w := w) a p
  have hcurrent := h.analyze hw hp
  have hfaithful := hf.moves hw.wellFormed hl.moves
  rw [ha] at hl hcurrent hfaithful
  obtain ⟨⟨f, hget, rfl⟩, hcached⟩ := get?_analyze ha
  have hkey := hw.wellFormed.key_ofText_key hp
  have hself : a'.cache.contains (w.tree.key p) = true := NodeCache.contains_iff.mpr ⟨f, hget⟩
  have hcache : (a'.prepareCallers w (w.tree.key p)).2.cache = a'.cache := by
    rw [prepareCallers_of_cached hkey hself, cache_foldl_enterUses]
  have hlearns := (learns_prepareCallers (w := w) a' (w.tree.key p)).alike
  refine ⟨by rw [hcache]; exact hcached, hl.alike.trans hlearns, hcurrent.prepareCallers hw hkey,
    rfl, fun u => ?_⟩
  rw [usedBy_prepareCallers hw hcurrent (hm.moves hl.moves) hfaithful hkey hself
    fun id => symbolId_of_mem_idsOf hw hfaithful hkey hget]
  simp only [edge_congr hlearns.resolver hlearns.closed (by simp [hcache])]

namespace Told

variable {d : Dependents} (h : a.Told w p d b)

include h

/-- A symbol that is told uses one of the ids, and of its uses the one that counts is told. -/
theorem of_mem_callers (hu : u ∈ d.callers) :
    (u.symbol ∉ d.ids ∧ ∃ k e, b.Edge w k e ∧ e.target ∈ d.ids ∧ u = .ofEdge k e) ∧
      ∀ k e, b.Edge w k e → e.target ∈ d.ids → e.source = u.symbol →
        Callers.Outdoes u (.ofEdge k e) := by
  rw [h.callers] at hu
  obtain ⟨hused, hbest⟩ := Callers.of_mem_usersOf hu
  have hspec := (h.uses u).mp hused
  refine ⟨hspec, fun k e he ht hs => hbest _ ((h.uses _).mpr ⟨?_, k, e, he, ht, rfl⟩) hs⟩
  rw [show (Caller.ofEdge k e).symbol = e.source from rfl, hs]
  exact hspec.1

theorem exists_mem_callers (hs : e.source ∉ d.ids) (he : b.Edge w k e) (ht : e.target ∈ d.ids) :
    ∃ u ∈ d.callers, u.symbol = e.source := by
  rw [h.callers]
  exact Callers.exists_mem_usersOf ((h.uses (.ofEdge k e)).mpr ⟨hs, k, e, he, ht, rfl⟩)

theorem typeOnly_iff (hu : u ∈ d.callers) :
    u.typeOnly = true ↔ ∀ k e, b.Edge w k e → e.target ∈ d.ids → e.source = u.symbol →
      e.typeOnly = true := by
  obtain ⟨⟨-, k, e, he, ht, rfl⟩, hbest⟩ := h.of_mem_callers hu
  exact ⟨fun htype k' e' he' ht' hs => (hbest k' e' he' ht' hs).1 htype, fun hall => hall k e he ht rfl⟩

theorem isLeast_line (hu : u ∈ d.callers) :
    IsLeast {line | ∃ k e, b.Edge w k e ∧ e.target ∈ d.ids ∧ e.source = u.symbol ∧
      e.typeOnly = u.typeOnly ∧ e.line = line} u.line := by
  obtain ⟨⟨-, k, e, he, ht, rfl⟩, hbest⟩ := h.of_mem_callers hu
  refine ⟨⟨k, e, he, ht, rfl, rfl, rfl⟩, ?_⟩
  rintro _ ⟨k', e', he', ht', hs, htype, rfl⟩
  exact (hbest k' e' he' ht' hs).2 htype

omit h in
/-- The file of a use is told by the id of its symbol. -/
theorem file_eq (hw : w.Orderly) (hb : b.Current w) {k' : String} {e' : SymbolEdge}
    (he : b.Edge w k e) (he' : b.Edge w k' e') (hs : e.source = e'.source) : k = k' := by
  have hsource : ∀ {k e}, b.Edge w k e → ∃ user, e.source = symbolId k user ∧ ':' ∉ user.toList := by
    rintro k e ⟨hc, g, hg, he⟩
    obtain ⟨f, hget⟩ := NodeCache.contains_iff.mp hc
    obtain ⟨-, -, -, -, huser, -⟩ := hw.of_mem_edges (hb.cached k f hget) hg he
    exact huser
  obtain ⟨user, hk, huser⟩ := hsource he
  obtain ⟨user', hk', huser'⟩ := hsource he'
  exact (symbolId_inj huser huser' (hk.symm.trans (hs.trans hk'))).1

/-- The same is told of ids wherever the same files are cached. -/
theorem callers_congr (hw : w.Orderly) {a₁ b₁ : Atlas} {d₁ : Dependents} (h₁ : a₁.Told w p d₁ b₁)
    (hr : a₁.resolver = a.resolver) (hc : a₁.closed = a.closed)
    (hcached : ∀ k, a₁.cache.contains k = true ↔ a.cache.contains k = true) (hids : d₁.ids = d.ids) :
    d₁.callers = d.callers := by
  have hedge : ∀ k e, b₁.Edge w k e ↔ b.Edge w k e := fun k e =>
    edge_congr (by rw [h₁.alike.resolver, h.alike.resolver, hr])
      (by rw [h₁.alike.closed, h.alike.closed, hc]) (by simp [h₁.cached, h.cached, hcached])
  rw [h.callers, h₁.callers, hids]
  refine Callers.usersOf_congr (fun u => ?_) fun u v hu hv hs => ?_
  · have huses := h₁.uses u
    rw [hids] at huses
    rw [huses, h.uses]
    simp only [hedge]
  · rw [← hids, h₁.uses] at hu hv
    obtain ⟨-, k, e, he, -, rfl⟩ := hu
    obtain ⟨-, k', e', he', -, rfl⟩ := hv
    exact file_eq hw h₁.current he he' hs

end Told

end Atlas

namespace Session

variable {w : World} {s s' : Session} {p : Path} {name : String} {d : Dependents} {a' : Atlas}

/-- A session in one world goes back to a new atlas with the same configuration. -/
theorem Reachable.exists_new (h : s.Reachable (· = w)) :
    ∃ config b, Atlas.new w config = .ok b ∧ b.config = s.atlas.config := by
  refine h.atlas_of_moves (P := fun a => ∃ config b, Atlas.new w config = .ok b ∧ b.config = a.config)
    ?_ ?_
  · rintro _ config a rfl hnew
    exact ⟨config, a, hnew, rfl⟩
  · rintro _ a a' - ⟨config, b, hnew, hconfig⟩ hm
    exact ⟨config, b, hnew, hconfig.trans hm.setup.1.symm⟩

/-- Sessions with the same configuration follow imports in the same way. -/
theorem Reachable.resolver_congr (h : s.Reachable (· = w)) (h' : s'.Reachable (· = w))
    (hconfig : s'.atlas.config = s.atlas.config) : s'.atlas.resolver = s.atlas.resolver := by
  obtain ⟨config, b, hnew, hb⟩ := h.exists_new
  rw [← h.resolver_new hnew hb, h'.resolver_new hnew (hb.trans hconfig.symm)]

/-- While the files stay as they are, the dependents of a symbol are told by the symbol graphs of the
cached files. They are in the order of their ids, each once, and they are the symbols with an edge to one
of the ids of the symbol, these apart. A dependent is one by its types only if all such edges of it are,
and its line is the first one of the kind that counts. Whatever has been asked before, sessions with the
same files in the cache give the same answer. -/
theorem dependents_told_by_graphs (hw : w.Orderly) (h : s.Lived w) (hp : p.Legible)
    (hd : s.atlas.dependents w p name = (.ok d, a')) :
    d.callers.Pairwise (·.symbol < ·.symbol) ∧
    (∀ c, (∃ u ∈ d.callers, u.symbol = c) ↔
      c ∉ d.ids ∧ ∃ k e, a'.Edge w k e ∧ e.target ∈ d.ids ∧ e.source = c) ∧
    (∀ u ∈ d.callers,
      (u.typeOnly = true ↔ ∀ k e, a'.Edge w k e → e.target ∈ d.ids → e.source = u.symbol →
        e.typeOnly = true) ∧
      IsLeast {line | ∃ k e, a'.Edge w k e ∧ e.target ∈ d.ids ∧ e.source = u.symbol ∧
        e.typeOnly = u.typeOnly ∧ e.line = line} u.line ∧
      ∃ e, a'.Edge w u.file e ∧ e.target ∈ d.ids ∧ e.source = u.symbol) ∧
    (∀ k, a'.cache.contains k = true ↔ s.atlas.cache.contains k = true ∨ k = w.tree.key p) ∧
    ∀ s' : Session, s'.Lived w → s'.atlas.closed = false → s'.atlas.config = s.atlas.config →
      (∀ k, s'.atlas.cache.contains k = true ↔ s.atlas.cache.contains k = true) →
        (s'.atlas.dependents w p name).1 = .ok d := by
  have htold := Atlas.told_of_dependents hw (h.current hw) h.reachable.mirrored
    (h.reachable.faithful hw.wellFormed) hp hd
  refine ⟨?_, fun c => ⟨?_, ?_⟩, fun u hu => ⟨htold.typeOnly_iff hu, htold.isLeast_line hu, ?_⟩,
    htold.cached, fun s' h' hopen' hconfig hcached => ?_⟩
  · rw [htold.callers]
    exact Callers.pairwise_usersOf _ _
  · rintro ⟨u, hu, rfl⟩
    obtain ⟨⟨hout, k, e, he, ht, rfl⟩, -⟩ := htold.of_mem_callers hu
    exact ⟨hout, k, e, he, ht, rfl⟩
  · rintro ⟨hout, k, e, he, ht, rfl⟩
    exact htold.exists_mem_callers hout he ht
  · obtain ⟨⟨-, k, e, he, ht, rfl⟩, -⟩ := htold.of_mem_callers hu
    exact ⟨e, he, ht, rfl⟩
  · obtain ⟨n, a₁, ha, hids, rfl, hfields⟩ := Atlas.dependents_eq_ok_iff.mp hd
    have hopen := (h.current hw).open_of_analyze ha
    have hresolver := h.reachable.resolver_congr h'.reachable hconfig
    have hagree : Atlas.Agree w s.atlas s'.atlas :=
      ⟨h.reachable.faithful hw.wellFormed, h'.reachable.faithful hw.wellFormed, hresolver, hopen, hopen'⟩
    have hsame := hagree.analyze hw.candid p
    cases ha' : s'.atlas.analyze w p with
    | mk answer b₁ =>
      rw [ha, ha'] at hsame
      obtain rfl : .ok n = answer := hsame
      have hd' := Atlas.dependents_eq_ok_iff.mpr ⟨n, b₁, ha', hids, rfl, rfl⟩
      have htold' := Atlas.told_of_dependents hw (h'.current hw) h'.reachable.mirrored
        (h'.reachable.faithful hw.wellFormed) hp hd'
      have hcallers := htold.callers_congr hw htold' hresolver (hopen'.trans hopen.symm) hcached
        (by rw [hfields])
      subst hfields
      rw [hd']
      dsimp only at hcallers ⊢
      rw [hcallers]

end Session

namespace Small

/-- A class. -/
def library : Outline :=
  ⟨.typeScript, [], [⟨"C", "C", .classType, 1, 1, true, none, none⟩], []⟩

/-- A function that names the class as a type, and makes one of it in the next line. -/
def client : Outline where
  language := .typeScript
  imports := [⟨"./b", .plain, 1, [⟨"C", "C", false, false⟩]⟩]
  declarations := [⟨"g", "g", .function, 1, 2, false, none, none⟩]
  references := [⟨some "g", "C", none, 1, false, true⟩, ⟨some "g", "C", none, 2, true, false⟩]

/-- A service that knows these two, and takes an empty source for the class. -/
def service : Parsing where
  outline key source :=
    if Parsing.knowsLanguage (.ofText key) then .ok (if source = "" then library else client)
    else .error (.unsupported key)
  supports := Parsing.knowsLanguage
  supportsWhenClosed := false

def linked : World where
  tree := ⟨[(["w"], .directory), (["w", "a.ts"], .file [97]), (["w", "b.ts"], .file [])], []⟩
  parsing := service

def declarer : Path := ⟨true, [.enter "w", .enter "b.ts"]⟩

theorem new_linked : Atlas.new linked config = .ok atlas := rfl

theorem orderly_linked : linked.Orderly where
  wellFormed := by decide +kernel
  candid key source o h := by
    simp only [linked, service] at h ⊢
    split at h
    · assumption
    · cases h
  literate _ h := h
  colonFree key content o _ _ h := by
    simp only [linked, service] at h
    split at h
    · rw [← Except.ok.inj h]
      split <;> decide +kernel
    · cases h

theorem exists_of_map_eq_ok {ε α β : Type} {x : Except ε α} {f : α → β} {y : β}
    (h : x.map f = .ok y) : ∃ z, x = .ok z ∧ f z = y := by
  cases x with
  | error e => cases h
  | ok z => exact ⟨z, rfl, Except.ok.inj h⟩

/-- The edges of the graphs in this workspace, when all of its files are cached. -/
theorem edge_linked {a : Atlas} (ha : Atlas.Alike atlas a) {k : String} {e : SymbolEdge}
    (hc : ∀ k, a.cache.contains k = true ↔ k = "/w/a.ts" ∨ k = "/w/b.ts") :
    a.Edge linked k e ↔ k = "/w/a.ts" ∧
      (e = ⟨"/w/a.ts:g", "/w/b.ts:C", "/w/b.ts", true, 1⟩ ∨
        e = ⟨"/w/a.ts:g", "/w/b.ts:C", "/w/b.ts", false, 2⟩) := by
  have hclient : (atlas.symbolGraph linked (.ofText "/w/a.ts")).map (·.edges) =
      .ok [⟨"/w/a.ts:g", "/w/b.ts:C", "/w/b.ts", true, 1⟩,
        ⟨"/w/a.ts:g", "/w/b.ts:C", "/w/b.ts", false, 2⟩] := by decide +kernel
  have hlibrary : (atlas.symbolGraph linked (.ofText "/w/b.ts")).map (·.edges) =
      .ok [] := by decide +kernel
  obtain ⟨g, hg, hedges⟩ := exists_of_map_eq_ok hclient
  obtain ⟨g', hg', hedges'⟩ := exists_of_map_eq_ok hlibrary
  rw [Atlas.Edge, hc, Atlas.symbolGraph_congr ha.resolver ha.closed]
  constructor
  · rintro ⟨rfl | rfl, x, hx, he⟩
    · obtain rfl := Except.ok.inj (hx.symm.trans hg)
      simpa [hedges] using he
    · obtain rfl := Except.ok.inj (hx.symm.trans hg')
      simp [hedges'] at he
  · rintro ⟨rfl, he⟩
    exact ⟨Or.inl rfl, g, hg, by simpa [hedges] using he⟩

end Small

/-- The function uses the class, by its type in the first line and at run time in the second. -/
theorem Session.dependents_told_by_graphs_small :
    ∃ (s : Session) (d : Dependents) (a' : Atlas), s.Lived Small.linked ∧
      s.atlas.dependents Small.linked Small.declarer "C" = (.ok d, a') ∧
      d.ids = ["/w/b.ts:C"] ∧ ∀ u, u ∈ d.callers ↔ u = ⟨"/w/a.ts:g", "/w/a.ts", false, 2⟩ := by
  have hlegible : ∀ p ∈ (Act.analyze Small.importer).path?, p.Legible := by
    rintro _ ⟨⟩
    exact Path.legible_ofText "/w/a.ts"
  have hlived : Lived Small.linked
      ⟨(Small.atlas.analyze Small.linked Small.importer).2, []⟩ :=
    (Lived.new Small.new_linked).act (.analyze Small.importer) hlegible
  have hfirst : (Small.atlas.analyze Small.linked Small.importer).1.map (·.path) =
      .ok "/w/a.ts" := by decide +kernel
  have hsecond : ((Small.atlas.analyze Small.linked Small.importer).2.analyze
      Small.linked Small.declarer).1.map (Atlas.idsOf · "C") =
        .ok ["/w/b.ts:C"] := by decide +kernel
  obtain ⟨n, hn, -⟩ := Small.exists_of_map_eq_ok hfirst
  have hlearns := Atlas.learns_analyze (w := Small.linked) Small.atlas Small.importer
  generalize hr : Small.atlas.analyze Small.linked Small.importer = r
    at hlived hsecond hn hlearns
  have hknown : ∀ k, r.2.cache.contains k = true ↔ k = "/w/a.ts" := by
    intro k
    have hkey : Small.linked.tree.key Small.importer = "/w/a.ts" := by decide +kernel
    have hempty : Small.atlas.cache.contains k = false := rfl
    rw [(Atlas.get?_analyze (hr.trans (Prod.ext hn rfl))).2, hempty, hkey]
    simp
  obtain ⟨m, hm, hids⟩ := Small.exists_of_map_eq_ok hsecond
  obtain ⟨d, a', hd⟩ : ∃ d a',
      r.2.dependents Small.linked Small.declarer "C" = (.ok d, a') :=
    ⟨_, _, Atlas.dependents_eq_ok_iff.mpr ⟨m, _, Prod.ext hm rfl, by simp [hids], rfl, rfl⟩⟩
  have hdids : d.ids = ["/w/b.ts:C"] := by
    obtain ⟨m', _, hm', -, -, rfl⟩ := Atlas.dependents_eq_ok_iff.mp hd
    rw [hm'] at hm
    obtain rfl := Except.ok.inj hm
    exact hids
  obtain ⟨-, hsymbols, hentries, hmore, -⟩ := dependents_told_by_graphs
    Small.orderly_linked hlived (Path.legible_ofText "/w/b.ts") hd
  have hmoves := Atlas.learns_dependents (w := Small.linked) r.2 Small.declarer "C"
  rw [hd] at hmoves
  have halike := (Atlas.Learns.alike hlearns).trans (Atlas.Learns.alike hmoves)
  have hedge {k e} := Small.edge_linked (k := k) (e := e) halike fun k => by
    have hkey : Small.linked.tree.key (.ofText "/w/b.ts") = "/w/b.ts" := by
      decide +kernel
    rw [hmore, hknown, hkey]
  simp only [hedge, hdids, List.mem_singleton] at hsymbols hentries
  have honly : ∀ u ∈ d.callers, u = ⟨"/w/a.ts:g", "/w/a.ts", false, 2⟩ := by
    rintro ⟨symbol, file, typeOnly, line⟩ hu
    obtain ⟨htype, ⟨⟨_, _, ⟨-, hcounts⟩, -, -, hkind, hline⟩, -⟩, e, ⟨rfl, he⟩, -, hs⟩ := hentries _ hu
    obtain rfl : "/w/a.ts:g" = symbol := by rcases he with rfl | rfl <;> exact hs
    -- the second edge is one at run time, so that the first one does not count
    have hruns : typeOnly = false := by
      by_contra hc
      have := htype.mp (by simpa using hc) "/w/a.ts" _ ⟨rfl, Or.inr rfl⟩ rfl rfl
      cases this
    rcases hcounts with rfl | rfl
    · rw [hruns] at hkind
      cases hkind
    · obtain rfl : 2 = line := hline
      rw [hruns]
  refine ⟨_, d, a', hlived, hd, hdids, fun u => ⟨honly u, ?_⟩⟩
  rintro rfl
  obtain ⟨u, hu, -⟩ := (hsymbols "/w/a.ts:g").mpr
    ⟨by decide, "/w/a.ts", _, ⟨rfl, Or.inl rfl⟩, rfl, rfl⟩
  exact honly u hu ▸ hu

end DepAtlas
