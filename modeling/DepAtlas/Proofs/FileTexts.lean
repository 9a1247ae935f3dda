import DepAtlas.Proofs.ImportUses
import DepAtlas.Proofs.UseIndex
import DepAtlas.Proofs.Utf8

/-! # Files that are no texts

Nodes are made from the lenient reading of a file, where a replacement character stands for each fault.
Outlines and symbol graphs are made from the strict reading. The two agree on a file that holds the bytes
of a text. A file that does not still gets a node, with its dependencies, but has no outline and no symbol
graph.
-/

namespace DepAtlas

theorem FileTree.readText_encode {t : FileTree} {p : Path} {s : String}
    (h : t.read p = .ok (Text.encode s)) : t.readText p = .ok s := by
  simp only [readText, h, bind, Except.bind, Text.decode?_eq_some_iff.mpr rfl]
  rfl

theorem FileTree.readText_eq_notText {t : FileTree} {p : Path} {content : List UInt8}
    (h : t.read p = .ok content) (hnot : ¬ ∃ s, Text.encode s = content) :
    t.readText p = .error .notText := by
  have hnone : Text.decode? content = none := by
    cases hd : Text.decode? content with
    | none => rfl
    | some s => exact absurd ⟨s, Text.decode?_eq_some_iff.mp hd⟩ hnot
  simp only [readText, h, bind, Except.bind, hnone]
  rfl

namespace Atlas

variable {w : World} {a a' : Atlas} {p : Path} {content : List UInt8}

/-- The failure to read a file as a text. -/
def notText (key : String) : ToolError :=
  ((Failure.ofFault .notText).within ("read " ++ key)).toToolError

/-- A node that is made comes from the lenient reading of the content. -/
theorem analyze_eq_ok_of_unknown {node : FileNode} (hc : a.cache.get? (w.tree.key p) = none)
    (h : a.analyze w p = (.ok node, a')) :
    ∃ content o, w.tree.read (.ofText (w.tree.key p)) = .ok content ∧
      w.parsing.outlineIn a.closed (w.tree.key p) (Text.decodeLenient content) = .ok o ∧
      node = a.nodeOf w (w.tree.key p) o := by
  rcases a.analyze_cases w p with ⟨f, hf, -⟩ | ⟨content, n, hread, hbuild, he⟩ | ⟨e, he⟩
  · rw [hc] at hf
    cases hf
  · rw [he] at h
    obtain rfl := Except.ok.inj (Prod.mk.inj h).1
    obtain ⟨hopen, o, ho, hnode⟩ := build_eq_ok hbuild
    refine ⟨content, o, hread, ?_, hnode⟩
    rwa [hopen]
  · rw [he] at h
    cases (Prod.mk.inj h).1

/-- The strict reading of a text makes the outline that the lenient one makes. -/
theorem outline_of_text {s : String} {o : Outline}
    (hread : w.tree.read (.ofText (w.tree.key p)) = .ok (Text.encode s))
    (ho : w.parsing.outlineIn a.closed (w.tree.key p) (Text.decodeLenient (Text.encode s)) = .ok o) :
    a.outline w p = .ok o := by
  rw [Text.decodeLenient_of_decode? (Text.decode?_eq_some_iff.mpr rfl)] at ho
  simp only [outline, FileTree.isFile_of_read hread, FileTree.readText_encode hread, ho]
  rfl

theorem outline_of_not_text (hread : w.tree.read (.ofText (w.tree.key p)) = .ok content)
    (hnot : ¬ ∃ s, Text.encode s = content) :
    a.outline w p = .error (notText (w.tree.key p)) := by
  simp only [outline, FileTree.isFile_of_read hread, FileTree.readText_eq_notText hread hnot]
  rfl

/-- A file that a new atlas makes a node of has an outline and a symbol graph, before and after, exactly
if it holds the bytes of a text, and then the node has what the imports of the outline lead to. A file
that has an outline gets a node. -/
theorem nodes_outlined_iff_text {config : WorkspaceConfig} (h : Atlas.new w config = .ok a) (p : Path) :
    (∀ node a', a.analyze w p = (.ok node, a') →
      a'.outline w p = a.outline w p ∧ a'.symbolGraph w p = a.symbolGraph w p ∧
      ∃ content, w.tree.read (.ofText (w.tree.key p)) = .ok content ∧
        ((∃ s, Text.encode s = content) → ∃ o g, a.outline w p = .ok o ∧ a.symbolGraph w p = .ok g ∧
          node.dependencies = dependenciesOf (o.imports.map (a.link w (w.tree.key p))) ∧
          node.unresolved = unresolvedOf (o.imports.map (a.link w (w.tree.key p)))) ∧
        ((¬ ∃ s, Text.encode s = content) →
          a.outline w p = .error (notText (w.tree.key p)) ∧
          a.symbolGraph w p = .error (notText (w.tree.key p)))) ∧
    ∀ o, w.parsing.Candid → a.outline w p = .ok o → ∃ node, (a.analyze w p).1 = .ok node := by
  have hcache := (fresh_of_new h).cache
  constructor
  · intro node a' hn
    have halike : Alike a a' := by
      have hlearns := (learns_analyze (w := w) a p).alike
      rwa [hn] at hlearns
    obtain ⟨content, o, hread, ho, rfl⟩ := analyze_eq_ok_of_unknown (by rw [hcache]; rfl) hn
    refine ⟨?_, symbolGraph_congr halike.resolver halike.closed w p, content, hread, ?_, ?_⟩
    · simp only [outline, halike.closed]
    · rintro ⟨s, rfl⟩
      have houtline := outline_of_text hread ho
      exact ⟨o, _, houtline, by rw [symbolGraph, houtline]; rfl, rfl, rfl⟩
    · intro hnot
      have houtline := outline_of_not_text (a := a) hread hnot
      exact ⟨houtline, by rw [symbolGraph, houtline]; rfl⟩
  · intro o hcandid ho
    obtain ⟨hopen, content, hread, hout⟩ := outline_eq_ok ho
    rw [(faithful_of_empty hcache).analyze_eq hcandid hopen, judge_of_outline hcandid hopen hread hout]
    exact ⟨_, rfl⟩

end Atlas

/-- A workspace with a source that imports a file, with bytes in a comment. -/
def Small.commented (bytes : List UInt8) : FileTree :=
  ⟨[(["w"], .directory),
    (["w", "a.py"], .file ([105, 109, 112, 111, 114, 116, 32, 98, 10, 35] ++ bytes ++ [10])),
    (["w", "b.py"], .file [])], []⟩

theorem Small.new_commented :
    Atlas.new (world (commented [0xC3, 0xA9])) config = .ok atlas := rfl

namespace Atlas

/-- A text with a character of two bytes. -/
theorem nodes_outlined_iff_text_accent :
    let w := Small.world (Small.commented [0xC3, 0xA9])
    ∃ node o g, (Small.atlas.analyze w (.ofText "/w/a.py")).1 = .ok node ∧
      Small.atlas.outline w (.ofText "/w/a.py") = .ok o ∧
      Small.atlas.symbolGraph w (.ofText "/w/a.py") = .ok g ∧
      node.dependencies.map (·.target) = ["/w/b.py"] ∧
      node.dependencies = dependenciesOf (o.imports.map (Small.atlas.link w "/w/a.py")) := by
  intro w
  have hkey : w.tree.key (.ofText "/w/a.py") = "/w/a.py" := by decide +kernel
  have hread : w.tree.read (.ofText "/w/a.py") = .ok (Text.encode "import b\n#é\n") := by
    decide +kernel
  have htargets : ((Small.atlas.analyze w (.ofText "/w/a.py")).1.toOption.map fun node =>
      node.dependencies.map (·.target)) = some ["/w/b.py"] := by
    decide +kernel
  cases hnode : (Small.atlas.analyze w (.ofText "/w/a.py")).1 with
  | error e =>
    rw [hnode] at htargets
    cases htargets
  | ok node =>
    rw [hnode] at htargets
    obtain ⟨-, -, content, hcontent, htext, -⟩ :=
      (nodes_outlined_iff_text Small.new_commented (.ofText "/w/a.py")).1 node _ (Prod.ext hnode rfl)
    rw [hkey] at hcontent htext
    obtain ⟨o, g, ho, hg, hdeps, -⟩ := htext ⟨_, Except.ok.inj (hread.symm.trans hcontent)⟩
    exact ⟨node, o, g, rfl, ho, hg, Option.some.inj htargets, hdeps⟩

/-- A file with a byte that no text has gets a node with its dependency, and has no outline and no symbol
graph. -/
theorem faulty_file_has_node_only :
    let w := Small.world (Small.commented [0xFF])
    (Small.atlas.analyze w (.ofText "/w/a.py")).1.map (·.dependencies.map (·.target)) =
        .ok ["/w/b.py"] ∧
      (Small.atlas.outline w (.ofText "/w/a.py")).map (·.imports.length) =
        .error (notText "/w/a.py") ∧
      (Small.atlas.symbolGraph w (.ofText "/w/a.py")).map (·.edges.length) =
        .error (notText "/w/a.py") := by
  decide +kernel

end Atlas

end DepAtlas
