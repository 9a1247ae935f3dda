import DepAtlas.Proofs.Aliases
import Mathlib.Data.List.TakeWhile

/-! # Relative names of files

From the directory of a script, a file can be named by steps up to a directory above both of them and the
names from there down to it. Such a name leads to the file itself, whatever else stands in the tree: the
steps up take back the names of the directory one by one, and the path as it is written is the first
candidate.
-/

namespace DepAtlas

namespace Path

variable {done steps : List Step} {names : List String}

/-- Steps up take back the last steps of a clean path, one each. -/
theorem foldl_cleanStep_up (done steps : List Step) :
    (List.replicate steps.length .up).foldl cleanStep (done ++ steps) = done := by
  induction steps using List.reverseRecOn with
  | nil => simp
  | append_singleton steps s ih =>
    rw [List.length_append, List.length_singleton, List.replicate_succ, List.foldl_cons,
      ← List.append_assoc]
    simpa [cleanStep] using ih

/-- Steps up from a directory and names down from there lead to a place below a directory above it. -/
theorem clean_turn (base up rest : Location) :
    Path.clean ⟨true, (base ++ up).map Step.enter ++
      (List.replicate up.length Step.up ++ rest.map Step.enter)⟩ = Location.path (base ++ rest) := by
  have hback := foldl_cleanStep_up (base.map .enter) (up.map .enter)
  rw [List.length_map] at hback
  rw [clean, List.foldl_append, List.foldl_append, foldl_cleanStep_enter [], List.nil_append,
    List.map_append, hback, foldl_cleanStep_enter, Location.path, List.map_append]

end Path

namespace Resolve

open Path

/-- The name of a file in a script: so many steps up, or one that stays, and then the names down. -/
def relativeName (ups : Nat) (rest : Location) : String :=
  (if ups = 0 then "./" else String.join (List.replicate ups "../")) ++ "/".intercalate rest

section

variable {ups : Nat} {rest : Location} {c : Char}

theorem mem_relativeName (h : c ∈ (relativeName ups rest).toList) :
    c = '.' ∨ c = '/' ∨ ∃ n ∈ rest, c ∈ n.toList := by
  rw [relativeName, String.toList_append, List.mem_append] at h
  rcases h with h | h
  · have hdots : c ∈ ['.', '/'] ∨ c ∈ ['.', '.', '/'] := by
      split at h
      · exact Or.inl h
      · rw [String.toList_join, List.mem_flatMap] at h
        obtain ⟨step, hstep, hc⟩ := h
        obtain rfl := List.eq_of_mem_replicate hstep
        exact Or.inr hc
    simp only [List.mem_cons, List.not_mem_nil, or_false] at hdots
    tauto
  · exact Or.inr ((Text.mem_intercalate h).imp_left List.mem_singleton.mp)

/-- The first step of a relative name. -/
theorem relativeName_eq (ups : Nat) (rest : Location) :
    ∃ more, relativeName ups rest = "./" ++ more ∨ relativeName ups rest = "../" ++ more := by
  cases ups with
  | zero => exact ⟨"/".intercalate rest, Or.inl rfl⟩
  | succ n =>
    refine ⟨String.join (List.replicate n "../") ++ "/".intercalate rest, Or.inr ?_⟩
    rw [relativeName, if_neg n.succ_ne_zero, List.replicate_succ, String.join_cons, String.append_assoc]

theorem isRelative_relativeName (ups : Nat) (rest : Location) :
    Resolver.isRelative (relativeName ups rest) = true := by
  obtain ⟨more, h | h⟩ := relativeName_eq ups rest <;>
    simp [Resolver.isRelative, h, Text.stripOpening?_append]

theorem ofText_intercalate (h : ∀ n ∈ rest, IsName n) :
    Path.ofText ("/".intercalate rest) = ⟨false, rest.map .enter⟩ := by
  have hlegible : Path.Legible ⟨false, rest.map .enter⟩ := by
    intro n hn
    obtain ⟨m, hm, heq⟩ := List.mem_map.mp hn
    exact Step.enter.inj heq ▸ (h m hm).isPiece
  have htext := hlegible.ofText_toText_relative (by simp) rfl
  simpa [Path.toText, Function.comp_def, Step.text] using htext

theorem ofText_relativeName (h : ∀ n ∈ rest, IsName n) :
    Path.ofText (relativeName ups rest) =
      ⟨false, List.replicate ups Step.up ++ rest.map Step.enter⟩ := by
  have hnames := congrArg Path.steps (ofText_intercalate h)
  have hrooted : isRootedText (relativeName ups rest) = false := by
    obtain ⟨more, h | h⟩ := relativeName_eq ups rest <;> simp [h, isRootedText]
  have hsteps : (Path.ofText (relativeName ups rest)).steps =
      List.replicate ups Step.up ++ rest.map Step.enter := by
    cases ups with
    | zero =>
      have hstay := steps_ofText_append "." ("/".intercalate rest)
      rw [hnames] at hstay
      exact hstay
    | succ n =>
      rw [relativeName, if_neg n.succ_ne_zero]
      generalize n + 1 = k
      induction k with
      | zero => simpa using hnames
      | succ k ih =>
        have hup := steps_ofText_append ".." (String.join (List.replicate k "../") ++ "/".intercalate rest)
        rw [List.replicate_succ, String.join_cons, String.append_assoc]
        exact hup.trans (by rw [ih]; rfl)
  rw [← hsteps, ← hrooted]
  rfl

end

/-- The directory of a file that a path leads to by its text. -/
theorem directoryOf_eq {p : Path} {directory : Location} {name : String} (hname : p.name? ≠ none)
    (hp : p.clean = Location.path (directory ++ [name])) : directoryOf p = directory.path := by
  obtain ⟨rooted, steps⟩ := p
  obtain rfl : rooted = true := congrArg Path.rooted hp
  rcases List.eq_nil_or_concat steps with rfl | ⟨steps, last, rfl⟩
  · simp [Path.name?] at hname
  rw [List.concat_eq_append] at hname hp ⊢
  cases last with
  | here => simp [Path.name?] at hname
  | up => simp [Path.name?] at hname
  | enter last =>
    have hsteps := congrArg Path.steps hp
    simp only [Path.clean, List.foldl_append, List.foldl_cons, List.foldl_nil, Path.cleanStep,
      Location.path, List.map_append, List.map_cons, List.map_nil] at hsteps
    have hparent := (List.append_inj' hsteps rfl).1
    simp [directoryOf, Path.parent?, Path.clean, hparent, Location.path]

namespace Resolver

variable {t t₀ : FileTree} {root : Path} {table es : List (String × String)} {r : Resolver}
  {importer name : String} {base up rest : Location} {content : List UInt8}

theorem sound_relativeName (hi : Path.isRootedText importer = true) (ups : Nat)
    (hnul : ∀ n ∈ rest, '\x00' ∉ n.toList) : Sound importer (relativeName ups rest) where
  notBlank := by
    obtain ⟨more, h | h⟩ := relativeName_eq ups rest <;> simp [h, Text.isBlankText, Text.isBlank]
  noNul hmem := by
    rcases mem_relativeName hmem with h | h | ⟨n, hn, h⟩
    · exact absurd h (by decide)
    · exact absurd h (by decide)
    · exact hnul n hn h
  rooted := hi

/-- The first candidate for a relative name is the file it names. -/
theorem script_relativeName (hw : t.WellFormed) (hfile : t.lookup (base ++ rest) = some (.file content))
    {file : Path} (hdirectory : directoryOf file = Location.path (base ++ up))
    (hmarks : ∀ n ∈ rest, '?' ∉ n.toList ∧ '#' ∉ n.toList) :
    r.script t file (relativeName up.length rest) = .resolved (Location.path (base ++ rest)) := by
  have hnames : ∀ n ∈ rest, IsName n := fun n hn =>
    (hw.above (l := base ++ rest) (by simp [hfile])).1 n (List.mem_append_right _ hn)
  have huncut : (relativeName up.length rest).toList.takeWhile (fun c => c ≠ '?' && c ≠ '#') =
      (relativeName up.length rest).toList := by
    refine List.takeWhile_eq_self_iff.mpr fun c hc => ?_
    rcases mem_relativeName hc with rfl | rfl | ⟨n, hn, h⟩
    · decide
    · decide
    · have hq : c ≠ '?' := fun heq => (hmarks n hn).1 (heq ▸ h)
      have hh : c ≠ '#' := fun heq => (hmarks n hn).2 (heq ▸ h)
      simp [hq, hh]
  have hclean : ((directoryOf file).child (relativeName up.length rest)).clean =
      Location.path (base ++ rest) := by
    rw [hdirectory, Path.child, ofText_relativeName hnames, Path.join, if_neg (by simp)]
    exact Path.clean_turn base up rest
  have hcandidate : candidate? t ((directoryOf file).child (relativeName up.length rest)) .typeScript =
      some (Location.path (base ++ rest)) := by
    rw [candidate?, candidates, hclean, List.append_assoc, List.append_assoc, List.singleton_append,
      List.find?_cons_of_pos (hw.isFile_file hfile)]
  unfold script
  rw [huncut, String.ofList_toList, if_pos (isRelative_relativeName _ _), hcandidate]
  rfl

/-- In a script, the name of a file by the steps up to a directory above both and the names down from there
leads to that file, if it lies below the root, the name is not changed by trimming it, holds none of the
characters that end a name or may not stand in it, and is covered by no alias. -/
theorem relative_name_leads_to_file (hr : Collects t₀ root table r es) (hw : t.WellFormed)
    {language : Language} (hlanguage : Language.ofPath? (.ofText importer) = some language)
    (hscript : language.isScript = true)
    (himporter : (Path.ofText importer).clean = Location.path (base ++ up ++ [name]))
    (hfile : t.lookup (base ++ rest) = some (.file content))
    (hinside : (Location.path (base ++ rest)).isUnder (t₀.settle root) = true)
    (hchars : ∀ n ∈ rest, '?' ∉ n.toList ∧ '#' ∉ n.toList ∧ '\x00' ∉ n.toList)
    (htrim : Text.trim (relativeName up.length rest) = relativeName up.length rest)
    (halias : ∀ a ∈ r.aliases, ¬ Alias.Opens a.opening (relativeName up.length rest)) :
    r.resolve t importer (relativeName up.length rest) =
      .ok (.resolved (Location.path (base ++ rest))) := by
  have hrooted : Path.isRootedText importer = true := congrArg Path.rooted himporter
  have hnamed : (Path.ofText importer).name? ≠ none := by
    intro hnone
    simp [Language.ofPath?, Path.extension?, hnone] at hlanguage
  have hfound : r.found t (.ofText importer) (relativeName up.length rest) =
      .resolved (Location.path (base ++ rest)) := by
    have hnone : r.aliases.find? (·.covers (relativeName up.length rest)) = none :=
      List.find?_eq_none.mpr fun a ha hcovers => halias a ha (Alias.covers_iff.mp hcovers)
    have hread := script_relativeName (r := r) hw hfile (directoryOf_eq hnamed himporter)
      fun n hn => ⟨(hchars n hn).1, (hchars n hn).2.1⟩
    simp only [found, hlanguage, alias?, hnone, Option.getD_some, Option.map_none, Option.getD_none]
    cases language with
    | python | rust => cases hscript
    | typeScript | tsx | javaScript => exact hread
  have hsettle : t.settle (Location.path (base ++ rest)) = Location.path (base ++ rest) :=
    hw.settle_path (by simp [hfile]) (by simp [hfile])
  rw [(sound_relativeName hrooted _ fun n hn => (hchars n hn).2.2).resolve_eq, htrim, hfound, confined,
    hsettle, Path.isWithin, Location.clean_path, hr.root_eq, FileTree.clean_settle, if_pos hinside]

namespace Apart

/-- A script and a file that has a directory in common with it; other files stand where the search goes on. -/
def tree : FileTree where
  entries := [
    (["w"], .directory),
    (["w", "lib"], .directory),
    (["w", "lib", "a b.js"], .file []),
    (["w", "lib", "a b.js.ts"], .file []),
    (["w", "lib", "a b.ts"], .file []),
    (["w", "src"], .directory),
    (["w", "src", "app"], .directory),
    (["w", "src", "app", "main.ts"], .file [])]
  start := []

def resolver : Resolver := .new tree (.ofText "/w") [("lib/*", "src")]

end Apart

/-- The file itself comes before those with one more extension and before the source it may be made of. -/
theorem relative_name_leads_to_file_apart :
    Apart.tree.WellFormed ∧ relativeName 2 ["lib", "a b.js"] = "../../lib/a b.js" ∧
      Apart.resolver.resolve Apart.tree "/w/src/app/main.ts" "../../lib/a b.js" =
        .ok (.resolved (.ofText "/w/lib/a b.js")) := by
  have hw : Apart.tree.WellFormed := by decide +kernel
  have hname : relativeName 2 ["lib", "a b.js"] = "../../lib/a b.js" := by decide
  have hcollects : Collects Apart.tree (.ofText "/w") [("lib/*", "src")] Apart.resolver _ := .new
  have hresolve := relative_name_leads_to_file hcollects hw
    (show Language.ofPath? (.ofText "/w/src/app/main.ts") = some .typeScript by decide) rfl
    (show _ = Location.path (["w"] ++ ["src", "app"] ++ ["main.ts"]) by decide)
    (show Apart.tree.lookup (["w"] ++ ["lib", "a b.js"]) = some (.file []) by decide)
    (by decide) (by decide) (by decide) (by decide)
  rw [show ["src", "app"].length = 2 from rfl, hname,
    show Location.path (["w"] ++ ["lib", "a b.js"]) = .ofText "/w/lib/a b.js" by decide] at hresolve
  exact ⟨hw, hname, hresolve⟩

end Resolver

end Resolve

end DepAtlas
