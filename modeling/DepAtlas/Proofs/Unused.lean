import DepAtlas.Proofs.SymbolDependents

/-! # Symbols that nobody uses

A symbol is told to be unused by the index of callers and by the graph of its own file. The file and the
files that import it are entered before the index is asked, so that no use in a cached file is missed. Hence
a report on unused symbols is told by the symbol graphs of the cached files alone.
-/

namespace DepAtlas

/-- What is said of a symbol that nobody uses. -/
def Symbol.verdict (x : Symbol) : UnusedReason := if x.isExported then .onlyExported else .neverReferenced

namespace SymbolGraph

variable {g : SymbolGraph} {c : Callers} {x : Symbol} {reason : UnusedReason}

theorem isJudged_iff : isJudged x = true ↔ x.kind ≠ .method ∧ x.name ∉ entryNames := by
  simp [isJudged]

theorem unusedReason?_eq_some_iff :
    g.unusedReason? c x = some reason ↔
      (∀ u, (x.id, u) ∈ c.uses → u.file = g.file) ∧
      (x.isExported = false →
        ∀ e ∈ g.edges, e.targetFile = g.file → e.source ≠ e.target → e.target ≠ x.id) ∧
      reason = x.verdict := by
  have hlookup : (c.lookup x.id).any (·.file ≠ g.file) = true ↔
      ¬ ∀ u, (x.id, u) ∈ c.uses → u.file = g.file := by
    simp [Callers.lookup]
  have hinside : (g.edges.any fun e => e.targetFile = g.file && e.source ≠ e.target && e.target = x.id) = true ↔
      ¬ ∀ e ∈ g.edges, e.targetFile = g.file → e.source ≠ e.target → e.target ≠ x.id := by
    simp [and_assoc]
  unfold unusedReason?
  split
  · rename_i hused
    exact iff_of_false (by simp) fun h => hlookup.mp hused h.1
  · rename_i hunused
    have houtside := not_not.mp (mt hlookup.mpr hunused)
    split
    · rename_i hexported
      simp only [Symbol.verdict, if_pos hexported, Option.some.injEq]
      exact ⟨fun h => ⟨houtside, fun hout => absurd hexported (by simp [hout]), h.symm⟩, fun h => h.2.2.symm⟩
    · rename_i hexported
      split
      · rename_i hused
        exact iff_of_false (by simp) fun h => hinside.mp hused (h.2.1 (by simpa using hexported))
      · rename_i hunused
        have hnever := not_not.mp (mt hinside.mpr hunused)
        simp only [Symbol.verdict, if_neg hexported, Option.some.injEq]
        exact ⟨fun h => ⟨houtside, fun _ => hnever, h.symm⟩, fun h => h.2.2.symm⟩

/-- The symbols of a report stand in the order of the file. -/
theorem sublist_filterMap_unusedReason? (g : SymbolGraph) (c : Callers) (symbols : List Symbol) :
    ((symbols.filterMap fun x => (g.unusedReason? c x).map (x, ·)).map (·.1)).Sublist symbols := by
  have hfilter : (symbols.filterMap fun x => (g.unusedReason? c x).map (x, ·)).map (·.1) =
      symbols.filter fun x => (g.unusedReason? c x).isSome := by
    rw [List.map_filterMap, ← List.filterMap_eq_filter]
    congr
    funext x
    cases h : g.unusedReason? c x <;> simp [Option.guard, h]
  rw [hfilter]
  exact List.filter_sublist

end SymbolGraph

namespace Atlas

variable {w : World} {a : Atlas} {key : String} {g : SymbolGraph} {x : Symbol}

/-- Nobody uses a symbol of a file: no other file that is cached and, if it is not exported, no other symbol
of the file itself. -/
structure Unused (a : Atlas) (w : World) (g : SymbolGraph) (x : Symbol) : Prop where
  outside : ∀ k e, a.Edge w k e → k ≠ g.file → e.target ≠ x.id
  inside : x.isExported = false → ∀ e ∈ g.edges, e.source ≠ x.id → e.target ≠ x.id

theorem symbolGraph_ofText_key {p : Path} (hkey : w.tree.key (.ofText (w.tree.key p)) = w.tree.key p) :
    a.symbolGraph w (.ofText (w.tree.key p)) = a.symbolGraph w p := by
  simp only [symbolGraph, outline, hkey]

/-- A question about a file adds at most the file to the cache. -/
theorem contains_analyzeLenient (hkey : w.tree.key (.ofText key) = key)
    (hc : (a.analyzeLenient w (.ofText key)).2.cache.contains key = true) (k : String) :
    (a.analyzeLenient w (.ofText key)).2.cache.contains k = true ↔
      a.cache.contains k = true ∨ k = key := by
  rw [analyzeLenient_snd] at hc ⊢
  cases ha : a.analyze w (.ofText key) with
  | mk answer b =>
    rw [ha] at hc
    cases answer with
    | ok n =>
      rw [← hkey]
      exact (get?_analyze ha).2 k
    | error e =>
      obtain rfl : b = a := by
        rcases a.analyze_cases w (.ofText key) with ⟨f, -, h⟩ | ⟨content, n, -, -, h⟩ | ⟨e', h⟩ <;>
          cases ha.symm.trans h
        rfl
      exact (or_iff_left_of_imp fun hk => hk ▸ hc).symm

/-- The index is asked in the same state whether or not the file was cached before. -/
theorem prepareCallers_analyzeLenient (hkey : w.tree.key (.ofText key) = key)
    (hc : (a.analyzeLenient w (.ofText key)).2.cache.contains key = true) :
    ((a.analyzeLenient w (.ofText key)).2.prepareCallers w key).2 = (a.prepareCallers w key).2 :=
  prepareCallers_of_cached hkey hc

/-- The edges from a file to a symbol of its own say that the symbol is in this file. -/
theorem targetFile_eq (hw : w.Orderly) (hkey : w.tree.key (.ofText key) = key)
    (hg : a.symbolGraph w (.ofText key) = .ok g) {e : SymbolEdge} (he : e ∈ g.edges) {name : String}
    (hname : ':' ∉ name.toList) (ht : e.target = symbolId key name) : e.targetFile = key := by
  obtain ⟨-, -, -, -, -, name', htarget, hname', -⟩ := hw.of_mem_edges hkey hg he
  exact (symbolId_inj hname' hname (htarget.symm.trans ht)).1

theorem file_of_symbolGraph {p : Path} (hg : a.symbolGraph w p = .ok g) : g.file = w.tree.key p := by
  obtain ⟨o, -, rfl⟩ := symbolGraph_eq_ok hg
  rfl

theorem symbolId_of_mem_symbols (hw : w.Orderly) (hkey : w.tree.key (.ofText key) = key)
    (hg : a.symbolGraph w (.ofText key) = .ok g) (hx : x ∈ g.symbols) :
    ∃ name, x.id = symbolId key name ∧ ':' ∉ name.toList := by
  obtain ⟨o, ho, rfl⟩ := symbolGraph_eq_ok hg
  obtain ⟨-, content, hread, hout⟩ := outline_eq_ok ho
  rw [hkey] at hread hout hx
  obtain ⟨d, hd, rfl⟩ := List.mem_map.mp hx
  have hfree := hw.colonFree key content o (FileTree.inside_anywhere.mpr hkey) hread hout
  exact ⟨d.qualifiedName, rfl, hfree.declarations d hd⟩

theorem unusedSymbols_of_symbolGraph {p : Path} (hg : a.symbolGraph w p = .ok g) :
    a.unusedSymbols w p =
      (.ok ⟨g.file, g.symbols.length, (g.symbols.filter SymbolGraph.isJudged).filterMap fun x =>
        (g.unusedReason? (a.prepareCallers w g.file).2.callers x).map (x, ·)⟩,
        (a.prepareCallers w g.file).2) := by
  unfold unusedSymbols
  rw [hg]

theorem unusedSymbols_eq_ok {p : Path} {u : UnusedSymbols} {b : Atlas}
    (h : a.unusedSymbols w p = (.ok u, b)) : ∃ g, a.symbolGraph w p = .ok g := by
  unfold unusedSymbols at h
  split at h
  · cases h
  · exact ⟨_, by assumption⟩

/-- Once the users of a file are entered, what the index says of a symbol is what the graphs say. -/
theorem unusedReason?_prepareCallers (hw : w.Orderly) (h : a.Current w) (hm : a.Mirrored)
    (hf : a.Faithful w) (hkey : w.tree.key (.ofText key) = key)
    (hg : a.symbolGraph w (.ofText key) = .ok g) (hx : x ∈ g.symbols) (reason : UnusedReason) :
    g.unusedReason? (a.prepareCallers w key).2.callers x = some reason ↔
      a.Unused w g x ∧ reason = x.verdict := by
  obtain ⟨name, hid, hname⟩ := symbolId_of_mem_symbols hw hkey hg hx
  have hfile : g.file = key := (file_of_symbolGraph hg).trans hkey
  have hc := Current.contains_of_symbolGraph hw hkey hg
  have hl := learns_analyzeLenient (w := w) a (.ofText key)
  have huses {u : Caller} := mem_uses_prepareCallers (u := u) hw
    (h.analyzeLenient hw (Path.legible_ofText key)) (hm.moves hl.moves) (hf.moves hw.wellFormed hl.moves)
    hkey hc hname
  have hedge : ∀ k e, k ≠ key →
      ((a.analyzeLenient w (.ofText key)).2.Edge w k e ↔ a.Edge w k e) := by
    intro k e hk
    rw [Edge, Edge, symbolGraph_congr hl.alike.resolver hl.alike.closed, contains_analyzeLenient hkey hc,
      or_iff_left hk]
  rw [SymbolGraph.unusedReason?_eq_some_iff, ← prepareCallers_analyzeLenient hkey hc, hid, ← and_assoc]
  refine and_congr_left fun _ => ⟨?_, ?_⟩
  · rintro ⟨houtside, hinside⟩
    refine ⟨fun k e he hk ht => ?_, fun hout e he hne ht => ?_⟩
    · rw [hfile] at hk
      have hmem := huses.mpr ⟨k, e, (hedge k e hk).mpr he, ht.trans hid, rfl⟩
      exact hk ((houtside _ hmem).trans hfile)
    · have htarget := targetFile_eq hw hkey hg he hname (ht.trans hid)
      exact hinside hout e he (htarget.trans hfile.symm) (ht ▸ hne) (ht.trans hid)
  · rintro ⟨houtside, hinside⟩
    refine ⟨fun u hu => ?_, fun hout e he _ hne ht => ?_⟩
    · obtain ⟨k, e, he, ht, rfl⟩ := huses.mp hu
      by_contra hk
      change k ≠ g.file at hk
      exact houtside k e ((hedge k e (hfile ▸ hk)).mp he) hk (ht.trans hid.symm)
    · have ht' := ht.trans hid.symm
      exact hinside hout e he (ht' ▸ hne) ht'

end Atlas

namespace Session

variable {w : World} {s : Session} {p : Path} {u : UnusedSymbols} {a' : Atlas}

/-- While the files stay as they are, the unused symbols of a file are told by the symbol graphs of the cached
files, whatever has been asked before. A symbol is listed if it can be judged at all, no other cached file has
an edge to it and, where it is not exported, no other symbol of the file has one. The list has the order of the
file, and at most the file itself is cached in addition. -/
theorem unused_told_by_graphs (hw : w.Orderly) (h : s.Lived w) (hp : p.Legible)
    (hu : s.atlas.unusedSymbols w p = (.ok u, a')) :
    ∃ g, s.atlas.symbolGraph w p = .ok g ∧ u.file = w.tree.key p ∧ g.file = w.tree.key p ∧
      u.total = g.symbols.length ∧
      (∀ x reason, (x, reason) ∈ u.unused ↔
        x ∈ g.symbols ∧ (x.kind ≠ .method ∧ x.name ∉ SymbolGraph.entryNames) ∧
          s.atlas.Unused w g x ∧ reason = x.verdict) ∧
      (u.unused.map (·.1)).Sublist g.symbols ∧
      ∀ k, a'.cache.contains k = true ↔ s.atlas.cache.contains k = true ∨ k = w.tree.key p := by
  have hkey := hw.wellFormed.key_ofText_key hp
  obtain ⟨g, hg⟩ := Atlas.unusedSymbols_eq_ok hu
  have hfile := Atlas.file_of_symbolGraph hg
  have hg' := (Atlas.symbolGraph_ofText_key hkey).trans hg
  rw [Atlas.unusedSymbols_of_symbolGraph hg, hfile] at hu
  obtain ⟨hanswer, rfl⟩ := Prod.mk.inj hu
  obtain rfl := Except.ok.inj hanswer
  refine ⟨g, hg, rfl, hfile, rfl, fun x reason => ?_, ?_, fun k => ?_⟩
  · have hreason (hx : x ∈ g.symbols) := Atlas.unusedReason?_prepareCallers hw (h.current hw)
      h.reachable.mirrored (h.reachable.faithful hw.wellFormed) hkey hg' hx reason
    simp only [← SymbolGraph.isJudged_iff, List.mem_filterMap, List.mem_filter, Option.map_eq_some_iff,
      Prod.mk.injEq]
    constructor
    · rintro ⟨_, ⟨hx, hjudged⟩, _, htold, rfl, rfl⟩
      exact ⟨hx, hjudged, (hreason hx).mp htold⟩
    · rintro ⟨hx, hjudged, htold⟩
      exact ⟨x, ⟨hx, hjudged⟩, reason, (hreason hx).mpr htold, rfl, rfl⟩
  · exact (SymbolGraph.sublist_filterMap_unusedReason? _ _ _).trans List.filter_sublist
  · have hc := Atlas.Current.contains_of_symbolGraph hw hkey hg'
    rw [← Atlas.prepareCallers_analyzeLenient hkey hc, Atlas.prepareCallers_of_cached hkey hc,
      Atlas.cache_foldl_enterUses]
    exact Atlas.contains_analyzeLenient hkey hc k

end Session

namespace Small

/-- The session when the file that imports the class has been read. -/
def linkedSession : Session := Session.act linked ⟨atlas, []⟩ (.analyze importer)

theorem lived_linkedSession : linkedSession.Lived linked := by
  refine .act (.new new_linked) (.analyze importer) ?_
  rintro _ ⟨⟩
  exact Path.legible_ofText "/w/a.ts"

theorem edge_linkedSession :
    ∃ e, linkedSession.atlas.Edge linked "/w/a.ts" e ∧ e.target = "/w/b.ts:C" := by
  have hcached : linkedSession.atlas.cache.contains "/w/a.ts" = true := by decide +kernel
  have htargets : (linkedSession.atlas.symbolGraph linked (.ofText "/w/a.ts")).map
      (·.edges.map (·.target)) = .ok ["/w/b.ts:C", "/w/b.ts:C"] := by decide +kernel
  obtain ⟨g, hg, hedges⟩ := exists_of_map_eq_ok htargets
  obtain ⟨e, he, ht⟩ := List.mem_map.mp (hedges ▸ List.mem_cons_self)
  exact ⟨e, ⟨hcached, g, hg, he⟩, ht⟩

end Small

/-- The class is not listed, since the function in the other file uses it. -/
theorem Session.unused_told_by_graphs_small :
    ∃ u a', Small.linkedSession.atlas.unusedSymbols Small.linked Small.declarer = (.ok u, a') ∧
      u.file = "/w/b.ts" ∧ u.total = 1 ∧ u.unused = [] := by
  have hsymbols : (Small.linkedSession.atlas.symbolGraph Small.linked Small.declarer).map
      (·.symbols.map (·.id)) = .ok ["/w/b.ts:C"] := by decide +kernel
  have hkey : Small.linked.tree.key Small.declarer = "/w/b.ts" := by decide +kernel
  have hlegible : Small.declarer.Legible := Path.legible_ofText "/w/b.ts"
  obtain ⟨g, hg, hids⟩ := Small.exists_of_map_eq_ok hsymbols
  have hu := Atlas.unusedSymbols_of_symbolGraph hg
  obtain ⟨g', hg', hfile, hfile', htotal, hlisted, -⟩ := unused_told_by_graphs Small.orderly_linked
    Small.lived_linkedSession hlegible hu
  obtain rfl := Except.ok.inj (hg.symm.trans hg')
  refine ⟨_, _, hu, hfile.trans hkey, ?_, List.eq_nil_iff_forall_not_mem.mpr ?_⟩
  · rw [htotal, ← List.length_map (f := (·.id)), hids]
    rfl
  · rintro ⟨x, reason⟩ hx
    obtain ⟨hmem, -, hunused, -⟩ := (hlisted x reason).mp hx
    obtain ⟨e, he, ht⟩ := Small.edge_linkedSession
    have hid : x.id = "/w/b.ts:C" := by
      simpa [hids] using List.mem_map_of_mem (f := (·.id)) hmem
    refine hunused.outside _ e he ?_ (ht.trans hid.symm)
    rw [hfile', hkey]
    decide

end DepAtlas
