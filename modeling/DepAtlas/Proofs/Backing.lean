import DepAtlas.Proofs.Traces

/-! # Imports behind the uses of symbols

The graph of a file and its node are made of the same imports. The graph has them by the names they bind,
the node by the files they lead to, and leaves out the file itself and what is no source. So an edge
to a symbol of another source file is never without a dependency on this file.
-/

namespace DepAtlas.Atlas

open SymbolGraph

variable {w : World} {e : SymbolEdge} {key : String} {o : Outline}

/-- An edge to a symbol of another file follows an import. -/
theorem exists_import_of_edge (a : Atlas) (he : e ∈ (ofOutline a.resolver w.tree key o).edges)
    (hother : e.targetFile ≠ key) : ∃ i ∈ o.imports, ∃ path,
      a.resolver.resolve w.tree key i.specifier = .ok (.resolved path) ∧ e.targetFile = path.toText := by
  obtain ⟨r, -, x, hx, rfl⟩ := exists_of_mem_edgesOf he
  obtain ⟨b, hb, hfile⟩ := (file_of_mem_targets hx).resolve_left hother
  obtain ⟨i, hi, _, -, path, hpath, rfl⟩ := mem_bounds.mp hb
  exact ⟨i, hi, path, hpath, hfile⟩

/-- Every edge in the graph of a file comes from a use in the file, no two edges differ in their lines at
most, and an edge to a symbol of another source file is backed by a dependency of the file. -/
theorem symbol_edges_backed (hw : w.tree.WellFormed) (a : Atlas) (key : String) (o : Outline) :
    (∀ e ∈ (ofOutline a.resolver w.tree key o).edges, ∃ r ∈ o.references,
      e.source = symbolId key (userOf r)) ∧
    ((ofOutline a.resolver w.tree key o).edges.map fun e =>
      (e.source, e.target, e.typeOnly)).Nodup ∧
    ∀ e ∈ (ofOutline a.resolver w.tree key o).edges, e.targetFile ≠ key →
      (Language.ofPath? (.ofText e.targetFile)).isSome = true → ∃ i ∈ o.imports,
        ⟨key, e.targetFile, i.kind, i.line, i.specifier⟩ ∈ (a.nodeOf w key o).dependencies := by
  refine ⟨fun e he => ?_, ?_, fun e he hother hlanguage => ?_⟩
  · obtain ⟨r, hr, x, -, rfl⟩ := exists_of_mem_edgesOf he
    exact ⟨r, hr, rfl⟩
  · rw [List.Nodup, List.pairwise_map]
    refine (pairwise_edges a.resolver w.tree key o).imp fun {e f} hdiffers hsame => ?_
    simp_all [sameEdge]
  · obtain ⟨i, hi, path, hpath, hfile⟩ := exists_import_of_edge a he hother
    rw [hfile, (Resolve.Resolver.settled_of_resolve hw hpath).1] at hlanguage
    refine ⟨i, hi, mem_dependenciesOf.mpr (List.mem_map.mpr ⟨i, hi, ?_⟩)⟩
    rw [hfile]
    exact link_of_resolve hpath hlanguage (hfile ▸ hother)

theorem symbol_edges_backed_linked :
    Small.linked.tree.WellFormed ∧
      ⟨"/w/a.ts:g", "/w/b.ts:C", "/w/b.ts", false, 2⟩ ∈
        (ofOutline Small.atlas.resolver Small.linked.tree "/w/a.ts" Small.client).edges ∧
      ∃ i ∈ Small.client.imports, ⟨"/w/a.ts", "/w/b.ts", i.kind, i.line, i.specifier⟩ ∈
        (Small.atlas.nodeOf Small.linked "/w/a.ts" Small.client).dependencies := by
  have hw := Small.orderly_linked.wellFormed
  have hedge : ⟨"/w/a.ts:g", "/w/b.ts:C", "/w/b.ts", false, 2⟩ ∈
      (ofOutline Small.atlas.resolver Small.linked.tree "/w/a.ts" Small.client).edges := by
    decide +kernel
  obtain ⟨-, -, hbacked⟩ := symbol_edges_backed hw Small.atlas "/w/a.ts" Small.client
  exact ⟨hw, hedge, hbacked _ hedge (by decide) (by decide +kernel)⟩

end DepAtlas.Atlas
