import DepAtlas.Proofs.Order
import DepAtlas.Proofs.Trees
import DepAtlas.Scan

/-! # What a scan lists

A scan lists files of the tree by the paths of their locations, each once. In a well-formed tree each
of them can be read, and their keys tell them apart. None of them is excluded, if the root itself is
not.
-/

namespace DepAtlas

/-! ## Paths relative to a directory -/

theorem Text.stripOpening?_append (pre rest : String) :
    Text.stripOpening? pre (pre ++ rest) = some rest := by
  have h : Text.afterPrefix? pre.toList (pre ++ rest).toList = some rest.toList :=
    Text.afterPrefix?_eq_some_iff.mpr (by simp)
  rw [stripOpening?, h, Option.map_some, String.ofList_toList]

theorem Text.intercalate_append {base rest : List String} (hb : base ≠ []) (hr : rest ≠ []) :
    "/".intercalate (base ++ rest) = "/".intercalate base ++ ("/" ++ "/".intercalate rest) := by
  induction base with
  | nil => exact absurd rfl hb
  | cons n base ih =>
    cases base with
    | nil =>
      obtain ⟨m, rest, rfl⟩ := List.exists_cons_of_ne_nil hr
      simp [String.intercalate_cons_cons, String.append_assoc]
    | cons m base =>
      rw [List.cons_append, List.cons_append, String.intercalate_cons_cons, ← List.cons_append,
        ih (by simp), String.intercalate_cons_cons]
      simp [String.append_assoc]

/-- Without its first slash, a text of names has no opening to be taken off. -/
theorem Text.stripOpening?_slash_intercalate {names : List String} (h : ∀ n ∈ names, IsName n) :
    Text.stripOpening? "/" ("/".intercalate names) = none := by
  have hn : Text.afterPrefix? ['/'] ("/".intercalate names).toList = none := by
    cases names with
    | nil => rfl
    | cons n names =>
      rw [List.forall_mem_cons] at h
      obtain ⟨c, cs, hc⟩ := List.exists_cons_of_ne_nil
        (fun he => h.1.notHere.1 (String.toList_inj.mp he) : n.toList ≠ [])
      have hne : c ≠ '/' := by
        rintro rfl
        exact h.1.noSlash (by simp [hc])
      have ht : ∃ rest, ("/".intercalate (n :: names)).toList = c :: rest := by
        cases names with
        | nil => exact ⟨cs, by rw [String.intercalate_singleton, hc]⟩
        | cons m names =>
          refine ⟨cs ++ ("/" ++ "/".intercalate (m :: names)).toList, ?_⟩
          rw [String.intercalate_cons_cons, String.append_assoc, String.toList_append, hc]
          rfl
      obtain ⟨rest, ht⟩ := ht
      simp [ht, Text.afterPrefix?, Ne.symm hne]
  rw [stripOpening?, show "/".toList = ['/'] from rfl, hn]
  rfl

/-- What stands below a directory, relative to it. -/
theorem Ignore.relativeText_path {base rest : Location} (hr : rest ≠ [])
    (h : ∀ n ∈ rest, IsName n) :
    Ignore.relativeText (Location.path base).toText (Location.path (base ++ rest)).toText =
      "/".intercalate rest := by
  have hdot : Text.stripOpening? "./" (Location.path (base ++ rest)).toText = none := by
    rw [Location.toText_path]
    simp [Text.stripOpening?, Text.afterPrefix?]
  have hslash : (Location.path (base ++ rest)).toText.contains '/' = true := by
    rw [Location.toText_path]
    simp
  have htext : (Location.path (base ++ rest)).toText =
      (Location.path base).toText ++ (if base = [] then "" else "/") ++ "/".intercalate rest := by
    rw [Location.toText_path, Location.toText_path]
    by_cases hb : base = []
    · simp [hb]
    · rw [Text.intercalate_append hb hr]
      simp [hb, String.append_assoc]
  rw [Ignore.relativeText, hdot]
  simp only [Option.getD_none, hslash, if_true]
  rw [htext, String.append_assoc, Text.stripOpening?_append]
  by_cases hb : base = []
  · simp [hb, Text.stripOpening?_slash_intercalate h]
  · simp [hb, Text.stripOpening?_append]

/-! ## Lists of files -/

/-- The path of a location, as scans list them. -/
def Path.Plain (p : Path) : Prop := ∃ l : Location, p = l.path

namespace Scan

open Ignore

variable {t : FileTree} {root p : Path} {options : Options} {listed : List Path}

/-- The place of a file that a scan lists. -/
structure Listed (t : FileTree) (root : Path) (options : Options) (p : Path) : Prop where
  known : (Language.ofPath? p).isSome = true
  reached : ∃ e base l content, Exclusions.ofPatterns root options.exclude = .ok e ∧
    t.locate root = .ok base ∧ p = l.path ∧ (l, .file content) ∈ t.entries ∧
      reaches e (if options.respectIgnoreFiles then rulesOf t else []) base l false = true

/-- The files that are found, before they are put in order. -/
def found (t : FileTree) (e : Exclusions) (table : List (Location × DirectoryRules))
    (base : Location) : List Path :=
  t.entries.filterMap fun (l, entry) =>
    match entry with
    | .file _ =>
      let p := Location.path l
      if (Language.ofPath? p).isSome && reaches e table base l false then some p else none
    | _ => none

theorem mem_found {e : Exclusions} {table : List (Location × DirectoryRules)} {base : Location} :
    p ∈ found t e table base ↔ ∃ l content, (l, .file content) ∈ t.entries ∧ p = l.path ∧
      (Language.ofPath? p).isSome = true ∧ reaches e table base l false = true := by
  simp only [found, List.mem_filterMap]
  constructor
  · rintro ⟨⟨l, entry⟩, hm, hp⟩
    cases entry with
    | file content =>
      dsimp only at hp
      split at hp
      · rename_i h
        obtain rfl := Option.some.inj hp
        rw [Bool.and_eq_true] at h
        exact ⟨l, content, hm, rfl, h.1, h.2⟩
      · cases hp
    | directory => cases hp
    | link => cases hp
  · rintro ⟨l, content, hm, rfl, hk, hr⟩
    exact ⟨(l, .file content), hm, by simp [hk, hr]⟩

theorem nodup_found (h : t.WellFormed) (e : Exclusions)
    (table : List (Location × DirectoryRules)) (base : Location) :
    (found t e table base).Nodup := by
  refine List.pairwise_filterMap.mpr ((List.pairwise_map.mp h.distinct).imp ?_)
  rintro ⟨l, entry⟩ ⟨l', entry'⟩ hne p hp p' hp' rfl
  cases entry <;> cases entry' <;> simp only [Option.ite_none_right_eq_some, reduceCtorEq] at hp hp'
  exact hne (Location.path_injective ((Option.some.inj hp.2).trans (Option.some.inj hp'.2).symm))

/-- A scan that succeeds has put in order what it found, and kept as much as it may. -/
theorem files_eq_ok (h : files t root options = .ok listed) :
    ∃ e, Exclusions.ofPatterns root options.exclude = .ok e ∧
      ((listed = [] ∧ ∃ fault, t.locate root = .error fault) ∨
        ∃ base, t.locate root = .ok base ∧
          listed.Sublist ((found t e (if options.respectIgnoreFiles then rulesOf t else [])
            base).mergeSort Path.le)) := by
  unfold files at h
  cases he : Exclusions.ofPatterns root options.exclude with
  | error fault => simp [he, bind, Except.bind] at h
  | ok e =>
    refine ⟨e, rfl, ?_⟩
    simp only [he, bind, Except.bind] at h
    cases hl : t.locate root with
    | error fault =>
      rw [hl] at h
      exact Or.inl ⟨(Except.ok.inj h).symm, fault, rfl⟩
    | ok base =>
      rw [hl] at h
      refine Or.inr ⟨base, rfl, ?_⟩
      rw [← Except.ok.inj h]
      split
      · exact Text.eraseReps_sublist _
      · exact (List.take_sublist _ _).trans (Text.eraseReps_sublist _)

theorem listed_of_mem_files (h : files t root options = .ok listed) (hp : p ∈ listed) :
    Listed t root options p := by
  obtain ⟨e, he, ⟨rfl, -⟩ | ⟨base, hb, hs⟩⟩ := files_eq_ok h
  · cases hp
  · obtain ⟨l, content, hm, hl, hk, hr⟩ := mem_found.mp (List.mem_mergeSort.mp (hs.subset hp))
    exact ⟨hk, e, base, l, content, he, hb, hl, hm, hr⟩

/-- Only the patterns can keep a scan from a list. -/
theorem exists_files {e : Exclusions} (h : Exclusions.ofPatterns root options.exclude = .ok e) :
    ∃ listed, files t root options = .ok listed := by
  unfold files
  simp only [h, bind, Except.bind]
  split
  · exact ⟨_, rfl⟩
  · exact ⟨_, rfl⟩

/-- A scan without a bound lists all that has its place in the list. -/
theorem Listed.mem_files (h : Listed t root options p) (hs : files t root options = .ok listed)
    (hmax : options.maxFiles = 0) : p ∈ listed := by
  obtain ⟨hk, e, base, l, content, he, hb, hl, hm, hr⟩ := h
  unfold files at hs
  simp only [he, hb, hmax, bind, Except.bind, if_true] at hs
  rw [← Except.ok.inj hs, Text.mem_eraseReps, List.mem_mergeSort]
  exact mem_found.mpr ⟨l, content, hm, hl, hk, hr⟩

theorem Listed.plain (h : Listed t root options p) : p.Plain := by
  obtain ⟨-, e, base, l, content, -, -, hl, -⟩ := h
  exact ⟨l, hl⟩

theorem nodup_files (hw : t.WellFormed) (h : files t root options = .ok listed) :
    listed.Nodup := by
  obtain ⟨e, -, ⟨rfl, -⟩ | ⟨base, -, hs⟩⟩ := files_eq_ok h
  · exact List.nodup_nil
  · exact hs.nodup ((List.mergeSort_perm _ _).nodup_iff.mpr (nodup_found hw _ _ _))

/-- A file that is listed can be read, and its key leads to it. -/
theorem Listed.readable (hw : t.WellFormed) (h : Listed t root options p) :
    ∃ content, t.read p = .ok content ∧ t.isFile p = true ∧ t.key p = p.toText ∧
      Path.ofText (t.key p) = p := by
  obtain ⟨-, e, base, l, content, -, -, rfl, hm, -⟩ := h
  have hf := hw.lookup_of_mem hm
  exact ⟨content, hw.read_file hf, hw.isFile_file hf, hw.key_file hf, hw.ofText_key_file hf⟩

theorem Listed.eq_of_key {q : Path} (hw : t.WellFormed) (hp : Listed t root options p)
    (hq : Listed t root options q) (h : t.key p = t.key q) : p = q := by
  obtain ⟨-, -, -, -, hp'⟩ := hp.readable hw
  obtain ⟨-, -, -, -, hq'⟩ := hq.readable hw
  rw [← hp', h, hq']

/-! ## Files that are not excluded -/

/-- On the way to a place that a scan reaches, nothing is passed over. -/
theorem reaches_iff {e : Exclusions} {table : List (Location × DirectoryRules)}
    {base l : Location} : reaches e table base l false = true ↔
      ∃ rest, rest ≠ [] ∧ l = base ++ rest ∧ ∀ n < rest.length,
        passesOver e table base (base ++ rest.take (n + 1)) (n + 1 < rest.length) = false := by
  unfold reaches
  simp only [Bool.and_eq_true, List.isPrefixOf_iff_prefix, decide_eq_true_eq, List.all_eq_true,
    List.mem_range, Bool.not_eq_true', Bool.false_or]
  constructor
  · rintro ⟨⟨⟨rest, rfl⟩, hlt⟩, hall⟩
    refine ⟨rest, ?_, rfl, fun n hn => ?_⟩
    · rintro rfl
      simp at hlt
    · have hone := hall n (by simpa using hn)
      rw [Nat.add_assoc, List.take_length_add_append, List.length_append] at hone
      simpa [Nat.add_assoc] using hone
  · rintro ⟨rest, hne, rfl, hall⟩
    refine ⟨⟨List.prefix_append _ _, ?_⟩, fun n hn => ?_⟩
    · simpa using List.length_pos_iff.mpr hne
    · have hone := hall n (by simpa using hn)
      rw [Nat.add_assoc, List.take_length_add_append, List.length_append]
      simpa [Nat.add_assoc] using hone

theorem not_skipped_of_language {n : String} (h : (Path.splitName n).2 ≠ none) :
    n ∉ skippedNames := by
  intro hn
  have hall : ∀ m ∈ skippedNames, (Path.splitName m).2 = none := by decide +kernel
  exact h (hall n hn)

/-- The last name of a file of a known language is none to be skipped: its extension tells the language. -/
theorem not_skipped_of_getLast? {l : Location} {name : String}
    (hknown : (Language.ofPath? l.path).isSome = true) (hl : l.getLast? = some name) :
    name ∉ skippedNames := by
  have hname : l.path.name? = some name := by simp [Path.name?, Location.path, hl]
  refine not_skipped_of_language fun hnone => ?_
  simp [Language.ofPath?, Path.extension?, hname, hnone] at hknown

/-- The names below the root on the way to a file that is listed are no names to be skipped. -/
theorem not_skipped_of_reaches {e : Exclusions} {table : List (Location × DirectoryRules)}
    {base rest : Location}
    (hknown : (Language.ofPath? (Location.path (base ++ rest))).isSome = true)
    (hall : ∀ n < rest.length,
      passesOver e table base (base ++ rest.take (n + 1)) (n + 1 < rest.length) = false) :
    ∀ n ∈ rest, n ∉ skippedNames := by
  intro n hn
  obtain ⟨i, hi, rfl⟩ := List.mem_iff_getElem.mp hn
  by_cases hlast : i + 1 < rest.length
  · have hover := hall i hi
    have hname : (base ++ rest.take (i + 1)).getLast? = some rest[i] := by
      rw [List.take_succ_eq_append_getElem hi, ← List.append_assoc, List.getLast?_concat]
    simp only [passesOver, hname, hlast, Bool.or_eq_false_iff] at hover
    simpa using hover.2
  · have hl : rest.getLast? = some rest[i] := by
      rw [List.getLast?_eq_getElem?, List.getElem?_eq_some_iff]
      exact ⟨by omega, by congr; omega⟩
    exact not_skipped_of_getLast? hknown (by rw [List.getLast?_append, hl, Option.some_or])

theorem root_ofPatterns {e : Exclusions} {patterns : List String}
    (h : Exclusions.ofPatterns root patterns = .ok e) : e.root = root := by
  unfold Exclusions.ofPatterns at h
  cases hm : patterns.mapM Exclusions.rule? with
  | error fault => simp [hm, bind, Except.bind] at h
  | ok rules =>
    simp only [hm, bind, Except.bind] at h
    cases h
    rfl

/-- A file that is listed lies below the root and is not excluded, unless the way to the root leads
through a directory that is skipped. -/
theorem Listed.not_excluded (hw : t.WellFormed) (h : Listed t root options p) {e : Exclusions}
    (he : Exclusions.ofPatterns root options.exclude = .ok e) {base : Location}
    (hroot : root = base.path) (hb : t.locate root = .ok base) (hn : ∀ n ∈ base, n ∉ skippedNames) :
    Path.isWithin root p = true ∧ e.excludes p.toText false = false := by
  obtain ⟨hknown, e', base', l, content, he', hb', rfl, hm, hr⟩ := h
  obtain rfl : e = e' := Except.ok.inj (he.symm.trans he')
  obtain rfl : base = base' := Except.ok.inj (hb.symm.trans hb')
  obtain ⟨rest, hrest, rfl, hall⟩ := reaches_iff.mp hr
  have hnames : ∀ n ∈ base ++ rest, IsName n := hw.named _ hm
  have hskip : ∀ n ∈ base ++ rest, n ∉ skippedNames := fun n hmem =>
    (List.mem_append.mp hmem).elim (hn n) (not_skipped_of_reaches hknown hall n)
  subst hroot
  constructor
  · rw [Path.isWithin, Location.clean_path, Location.clean_path]
    simp [Path.isUnder, Location.path]
  · have hcovers : e.covers ("/".intercalate rest) false = false := by
      have hpos := List.length_pos_iff.mpr hrest
      have hlen : rest.length - 1 + 1 = rest.length := by omega
      have hover := hall (rest.length - 1) (by omega)
      simp only [passesOver, pathBelow, hlen, List.take_length, List.drop_left, lt_irrefl,
        decide_false, Bool.or_eq_false_iff] at hover
      exact hover.1.1
    rw [Exclusions.excludes, Location.ofText_toText hnames, root_ofPatterns he,
      relativeText_path hrest fun n hmem => hnames n (List.mem_append_right _ hmem), hcovers]
    simp only [Location.path, List.any_map, Bool.or_false, List.any_eq_false]
    intro n hmem
    simpa [Step.text] using hskip n hmem

end Scan

end DepAtlas
