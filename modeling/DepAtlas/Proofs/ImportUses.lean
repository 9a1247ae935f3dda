import DepAtlas.Proofs.Mirror
import DepAtlas.Proofs.ModuleNames

/-! # Imports that are told to be unused

An import is used by the names it binds, or by the name of the module it declares. It is told to be
unused exactly if its file is there, there are such names and nothing speaks for a use of any of them.
So no import is told to be unused of which a name is referred to, and none that binds nothing.
-/

namespace DepAtlas

namespace Usage

variable {t : FileTree} {m : String → Bool} {i : Import} {p : Path}

theorem isFile_of_locate_error {fault : FileFault} (h : t.locate p = .error fault) :
    t.isFile p = false := by
  simp only [FileTree.isFile, FileTree.entry?, h]

/-- An entry of a report is about its import, whether or not it can be checked. -/
theorem checked_eq : ∃ used bound unbound error, checked t m i p =
    ⟨p.toText, i.specifier, i.kind, i.line, used, bound, unbound, error⟩ := by
  unfold checked check
  simp only
  split
  · rename_i u hu
    split at hu
    · cases hu
    · split at hu
      · cases hu
      · split at hu
        · cases hu
          exact ⟨_, _, _, _, rfl⟩
        · split at hu <;> cases hu <;> exact ⟨_, _, _, _, rfl⟩
  · exact ⟨_, _, _, _, rfl⟩

/-- The names that an import is used by. -/
def namesOf (i : Import) : List String :=
  if i.kind = .childModule then [moduleName i.specifier] else i.bindings.map (·.localName)

theorem namesOf_eq (h : Outline.BindsModule i) : namesOf i = i.bindings.map (·.localName) := by
  unfold namesOf
  split
  · rename_i hkind
    exact (h hkind).symm
  · rfl

theorem used_checked_eq_false_iff :
    (checked t m i p).used = false ↔ t.isFile p = true ∧ namesOf i ≠ [] ∧
      ∀ name ∈ namesOf i, m name = false := by
  unfold checked check
  cases hlocate : t.locate p with
  | error fault => simp [isFile_of_locate_error hlocate]
  | ok l =>
    cases hfile : t.isFile p with
    | false => simp
    | true =>
      by_cases hkind : i.kind = .childModule
      · simp [hkind, namesOf]
      · by_cases hnil : i.bindings = []
        · simp [hkind, hnil, namesOf]
        · simp [hkind, hnil, namesOf]

end Usage

/-- The imports of a file that lead to files of the workspace, with these files; all of them, or those
that lead to `targets`. -/
def Atlas.leading (a : Atlas) (w : World) (key : String) (targets : Option (List Path))
    (o : Outline) : List (Import × Path) :=
  o.imports.filterMap fun i =>
    ((a.resolver.file? w.tree key i.specifier).filter fun target =>
      targets.all fun ts => (ts.map w.tree.key).contains (w.tree.key target)).map (i, ·)

theorem Atlas.usage_eq_ok {a : Atlas} {w : World} {p : Path} {targets : Option (List Path)}
    {r : UsageReport} (h : a.usage w p targets = .ok r) :
    ∃ source o, w.tree.readText (.ofText r.file) = .ok source ∧
      w.parsing.outlineIn a.closed r.file source = .ok o ∧
      r.imports = (a.leading w r.file targets o).map fun x =>
        Usage.checked w.tree (Usage.evidence source o).contains x.1 x.2 := by
  unfold usage at h
  simp only at h
  split at h
  · cases h
  · split at h
    · cases h
    · rename_i source hsource
      split at h
      · cases h
      · rename_i o ho
        cases h
        refine ⟨source, o, hsource, ho, ?_⟩
        simp [leading, List.map_filterMap, Function.comp_def]

namespace Usage

/-- Nothing speaks for a use of the name: no reference names it, and it is no word in the lines outside
the imports. -/
def Unmentioned (source : String) (o : Outline) (name : String) : Prop :=
  (∀ r ∈ o.references, r.name ≠ name) ∧ name ∉ wordsOutside source o.imports

theorem contains_evidence_eq_false_iff {source : String} {o : Outline} {name : String} :
    (evidence source o).contains name = false ↔ Unmentioned source o name := by
  simp [evidence, Unmentioned]

/-- What a report tells of an import that leads to a file. It is unused exactly if the file is still
there, there are names to use it by and nothing speaks for a use of any of them. -/
structure Tells (t : FileTree) (source : String) (o : Outline) (u : ImportUsage)
    (x : Import × Path) : Prop where
  target : u.target = x.2.toText
  specifier : u.specifier = x.1.specifier
  kind : u.kind = x.1.kind
  line : u.line = x.1.line
  unused : u.used = false ↔ t.isFile x.2 = true ∧ namesOf x.1 ≠ [] ∧
    ∀ name ∈ namesOf x.1, Unmentioned source o name

theorem tells_checked (t : FileTree) (source : String) (o : Outline) (x : Import × Path) :
    Tells t source o (checked t (evidence source o).contains x.1 x.2) x := by
  have hunused := used_checked_eq_false_iff (t := t) (m := (evidence source o).contains)
    (i := x.1) (p := x.2)
  simp only [contains_evidence_eq_false_iff] at hunused
  obtain ⟨used, bound, unbound, error, heq⟩ :=
    checked_eq (t := t) (m := (evidence source o).contains) (i := x.1) (p := x.2)
  rw [heq] at hunused ⊢
  exact ⟨rfl, rfl, rfl, rfl, hunused⟩

end Usage

theorem Parsing.eq_outlineOf {closed : Bool} {path source : String} {o : Outline}
    (h : byGrammar.outlineIn closed path source = .ok o) :
    ∃ language, o = outlineOf language source := by
  unfold outlineIn byGrammar at h
  split at h
  · cases h
  · simp only at h
    split at h
    · rename_i language _
      exact ⟨language, (Except.ok.inj h).symm⟩
    · cases h

/-- A report tells of every import that leads to a file, in order. In outlines by the grammars, the
names that an import is used by are those it binds. -/
theorem Atlas.unused_iff_unmentioned {a : Atlas} {w : World} {p : Path}
    {targets : Option (List Path)} {r : UsageReport} (h : a.usage w p targets = .ok r) :
    ∃ source o, w.tree.readText (.ofText r.file) = .ok source ∧
      w.parsing.outlineIn a.closed r.file source = .ok o ∧
      List.Forall₂ (Usage.Tells w.tree source o) r.imports (a.leading w r.file targets o) ∧
      (w.parsing = .byGrammar →
        ∀ i ∈ o.imports, Usage.namesOf i = i.bindings.map (·.localName)) := by
  obtain ⟨source, o, hsource, ho, himports⟩ := usage_eq_ok h
  refine ⟨source, o, hsource, ho, ?_, fun hparsing i hi => ?_⟩
  · rw [himports, List.forall₂_map_left_iff, List.forall₂_same]
    intro x _
    exact Usage.tells_checked w.tree source o x
  · obtain ⟨language, rfl⟩ := Parsing.eq_outlineOf (hparsing ▸ ho)
    exact Usage.namesOf_eq (Outline.bindsModule_of_mem_outlineOf hi)

/-- A workspace with a source, and empty files next to it. -/
def Usage.workspace (name source : String) (others : List String) : FileTree :=
  ⟨(["w"], .directory) :: (["w", name], .file (Text.encode source)) ::
    others.map fun other => (["w", other], .file []), []⟩

/-- Of two modules one is used, and the other one is not. -/
theorem Atlas.unused_iff_unmentioned_module :
    let w := Small.world (Usage.workspace "a.py" "import b, c\nb.f()\n" ["b.py", "c.py"])
    ∃ r, Small.atlas.usage w (.ofText "/w/a.py") none = .ok r ∧
      r.imports.map (fun u => (u.specifier, u.used)) = [("b", true), ("c", false)] ∧
      ∃ source o, w.tree.readText (.ofText r.file) = .ok source ∧
        w.parsing.outlineIn Small.atlas.closed r.file source = .ok o ∧
        List.Forall₂ (Usage.Tells w.tree source o) r.imports
          (Small.atlas.leading w r.file none o) ∧
        (w.parsing = .byGrammar →
          ∀ i ∈ o.imports, Usage.namesOf i = i.bindings.map (·.localName)) := by
  intro w
  have hreport : ((Small.atlas.usage w (.ofText "/w/a.py") none).toOption.map fun r =>
      r.imports.map fun u => (u.specifier, u.used)) = some [("b", true), ("c", false)] := by
    decide +kernel
  cases hr : Small.atlas.usage w (.ofText "/w/a.py") none with
  | error e =>
    rw [hr] at hreport
    cases hreport
  | ok r =>
    rw [hr] at hreport
    exact ⟨r, rfl, Option.some.inj hreport, unused_iff_unmentioned hr⟩

/-- An import of all names binds a star, which nothing speaks for. So it is told to be unused, also
where it passes the names on. -/
theorem Atlas.wildcards_told_unused :
    ((Small.atlas.usage (Small.world (Usage.workspace "a.ts" "export * from './b'" ["b.ts"]))
        (.ofText "/w/a.ts") none).toOption.map fun r =>
      r.imports.map fun u => (u.kind, u.used, u.unusedBindings)) =
        some [(.reExport, false, ["*"])] ∧
    ((Small.atlas.usage (Small.world (Usage.workspace "a.py" "from b import *\n" ["b.py"]))
        (.ofText "/w/a.py") none).toOption.map fun r =>
      r.imports.map fun u => (u.kind, u.used, u.unusedBindings)) =
        some [(.plain, false, ["*"])] := by
  decide +kernel

end DepAtlas
