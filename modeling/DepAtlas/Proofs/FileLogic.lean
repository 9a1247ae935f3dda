import DepAtlas.Proofs.ImportUses

/-! # The logic of a file with and without other files

Uses of other files are left out of the calls unless they are asked for. They are counted all the same,
and which symbols are used inside the file does not depend on them. What does depend on them is whether
the file itself is an entry point: this is read off the calls that are listed.
-/

namespace DepAtlas

namespace SymbolGraph

variable (g : SymbolGraph)

theorem calls_logic_true : (g.logic true).calls = g.logicEdges := by
  simp [logic]

theorem calls_logic_false : (g.logic false).calls = g.logicEdges.filter (!·.external) := by
  simp [logic]

/-- Apart from the file itself, the entry points are the same for all calls that are listed. -/
theorem exists_entryPoints_logic : ∃ uncalled, ∀ includeExternal,
    (g.logic includeExternal).entryPoints =
      if (g.logic includeExternal).calls.any (·.source = symbolId g.file moduleName) then
        symbolId g.file moduleName :: uncalled
      else uncalled :=
  ⟨_, fun _ => rfl⟩

end SymbolGraph

namespace Atlas

variable {a : Atlas} {w : World} {p : Path}

theorem fileLogic_eq_ok {includeExternal : Bool} {l : FileLogic}
    (h : a.fileLogic w p includeExternal = .ok l) :
    ∃ g, a.symbolGraph w p = .ok g ∧ ∀ b, a.fileLogic w p b = .ok (g.logic b) := by
  unfold fileLogic at h ⊢
  cases hg : a.symbolGraph w p with
  | error e => simp [hg, Except.map] at h
  | ok g => exact ⟨g, rfl, fun b => rfl⟩

/-- Asking for the uses of other files adds them to the calls, in their places. It makes the file itself
an entry point if all that is used outside of its symbols is in other files, and changes nothing else. -/
theorem external_uses_add_calls {includeExternal : Bool} {l : FileLogic}
    (h : a.fileLogic w p includeExternal = .ok l) :
    ∃ shown hidden, a.fileLogic w p true = .ok shown ∧ a.fileLogic w p false = .ok hidden ∧
      hidden.file = shown.file ∧ hidden.symbols = shown.symbols ∧
      hidden.internalCalls = shown.internalCalls ∧ hidden.externalCalls = shown.externalCalls ∧
      hidden.calls = shown.calls.filter (!·.external) ∧
      (shown.entryPoints = hidden.entryPoints ∨
        shown.entryPoints = symbolId shown.file moduleName :: hidden.entryPoints) ∧
      (shown.entryPoints = hidden.entryPoints ↔
        ((∃ e ∈ shown.calls, e.source = symbolId shown.file moduleName) →
          ∃ e ∈ shown.calls, e.source = symbolId shown.file moduleName ∧ e.external = false)) := by
  obtain ⟨g, -, hlogic⟩ := fileLogic_eq_ok h
  refine ⟨g.logic true, g.logic false, hlogic true, hlogic false, rfl, rfl, rfl, rfl, ?_, ?_⟩
  · rw [g.calls_logic_true, g.calls_logic_false]
  obtain ⟨uncalled, hentry⟩ := g.exists_entryPoints_logic
  have hfile : (g.logic true).file = g.file := rfl
  -- the file is told by a use that is listed, and without other files only the internal ones are
  have hshown : (g.logic true).calls.any (·.source = symbolId g.file moduleName) = true ↔
      ∃ e ∈ (g.logic true).calls, e.source = symbolId g.file moduleName := by
    simp
  have hhidden : (g.logic false).calls.any (·.source = symbolId g.file moduleName) = true ↔
      ∃ e ∈ (g.logic true).calls, e.source = symbolId g.file moduleName ∧ e.external = false := by
    simp only [g.calls_logic_true, g.calls_logic_false, List.any_eq_true, List.mem_filter,
      Bool.not_eq_true', decide_eq_true_eq]
    grind
  have hless (h : ∃ e ∈ (g.logic true).calls,
      e.source = symbolId g.file moduleName ∧ e.external = false) :
      ∃ e ∈ (g.logic true).calls, e.source = symbolId g.file moduleName :=
    h.imp fun e he => ⟨he.1, he.2.1⟩
  rw [hentry true, hentry false, hfile]
  simp only [hshown, hhidden]
  split <;> split <;> rename_i hs hh
  · exact ⟨.inl rfl, iff_of_true rfl fun _ => hh⟩
  · exact ⟨.inr rfl, iff_of_false (List.cons_ne_self _ _) fun himp => hh (himp hs)⟩
  · exact absurd (hless hh) hs
  · exact ⟨.inl rfl, iff_of_true rfl fun h => absurd h hs⟩

/-- A file whose function uses another file, and is used outside of all functions. -/
theorem external_uses_add_calls_function :
    let w := Small.world (Usage.workspace "a.py" "from b import f\ndef g(): f()\ng()\n" ["b.py"])
    ∃ shown hidden, Small.atlas.fileLogic w (.ofText "/w/a.py") true = .ok shown ∧
      Small.atlas.fileLogic w (.ofText "/w/a.py") false = .ok hidden ∧
      shown.calls.length = 2 ∧ hidden.calls = shown.calls.filter (!·.external) ∧
      shown.entryPoints = hidden.entryPoints := by
  intro w
  have hcalls : ((Small.atlas.fileLogic w (.ofText "/w/a.py") true).toOption.map fun l =>
      (l.file, l.calls.map fun e => (e.source, e.external))) =
        some ("/w/a.py", [("/w/a.py:g", true), ("/w/a.py:<module>", false)]) := by
    decide +kernel
  cases hl : Small.atlas.fileLogic w (.ofText "/w/a.py") true with
  | error e =>
    rw [hl] at hcalls
    cases hcalls
  | ok l =>
    obtain ⟨shown, hidden, hshown, hhidden, -, -, -, -, hless, -, hentry⟩ :=
      external_uses_add_calls hl
    obtain rfl := Except.ok.inj (hl.symm.trans hshown)
    rw [hl] at hcalls
    obtain ⟨hfile, hlist⟩ := Prod.mk.inj (Option.some.inj hcalls)
    refine ⟨l, hidden, rfl, hhidden, ?_, hless, hentry.mpr fun _ => ?_⟩
    · simpa using congrArg List.length hlist
    · have hmem : ("/w/a.py:<module>", false) ∈ l.calls.map fun e => (e.source, e.external) := by
        rw [hlist]
        decide
      obtain ⟨e, he, heq⟩ := List.mem_map.mp hmem
      obtain ⟨hsource, hexternal⟩ := Prod.mk.inj heq
      exact ⟨e, he, by rw [hsource, hfile]; rfl, hexternal⟩

/-- A file that does nothing but use another one is an entry point only if this is asked for. -/
theorem file_enters_by_external_use :
    let w := Small.world (Usage.workspace "a.py" "from b import f\nf()\n" ["b.py"])
    ((Small.atlas.fileLogic w (.ofText "/w/a.py") true).toOption.map (·.entryPoints)) =
        some ["/w/a.py:<module>"] ∧
      ((Small.atlas.fileLogic w (.ofText "/w/a.py") false).toOption.map (·.entryPoints)) =
        some [] := by
  decide +kernel

end Atlas

end DepAtlas
