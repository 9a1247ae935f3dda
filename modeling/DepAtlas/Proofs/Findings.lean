import DepAtlas.Proofs.Destinations

/-! # Names of modules lead to files that are there

A name of a module is understood by looking for files. The looks go to clean paths, so the file that is
found is still there when its path is settled. Only in Rust can a name, or the name of the importing file
itself, bring steps up into a path; then a link on the way may make the settled path another one.
-/

namespace DepAtlas

theorem Text.mem_of_mem_cut {α : Type} {p : α → Bool} {xs piece : List α} (h : piece ∈ cut p xs)
    {x : α} (hx : x ∈ piece) : x ∈ xs := by
  induction xs generalizing piece with
  | nil => simp_all [cut]
  | cons y xs ih =>
    unfold cut at h
    split at h
    · rcases List.mem_cons.mp h with rfl | h
      · cases hx
      · exact List.mem_cons_of_mem _ (ih h hx)
    · split at h
      · rename_i he
        exact absurd he (cut_ne_nil p xs)
      · rename_i q rest he
        rcases List.mem_cons.mp h with rfl | h
        · rcases List.mem_cons.mp hx with rfl | hx
          · exact List.mem_cons_self
          · exact List.mem_cons_of_mem _ (ih (he ▸ List.mem_cons_self) hx)
        · exact List.mem_cons_of_mem _ (ih (he ▸ List.mem_cons_of_mem _ h) hx)

namespace Path

variable {p q : Path} {steps more : List Step} {name : String}

/-! ## Paths that are made from clean ones -/

theorem tidy_of_clean (h : p.clean = p) : Tidy p.steps := h ▸ tidy_clean p

theorem Tidy.of_prefix (h : Tidy steps) (hp : more <+: steps) : Tidy more := by
  obtain ⟨rest, rfl⟩ := hp
  refine ⟨fun hm => h.1 (List.mem_append_left _ hm), fun hm => h.2 ?_⟩
  cases more with
  | nil => cases hm
  | cons s more => exact List.mem_append_left _ hm

theorem Tidy.append (h : Tidy steps) (hh : .here ∉ more) (hu : .up ∉ more) :
    Tidy (steps ++ more) := by
  refine ⟨by simp [h.1, hh], fun hm => ?_⟩
  cases steps with
  | nil => exact hu (List.mem_of_mem_tail hm)
  | cons s steps =>
    rcases List.mem_append.mp hm with hm | hm
    · exact h.2 hm
    · exact hu hm

theorem here_not_mem_ofText (s : String) : .here ∉ (ofText s).steps := by
  intro h
  simpa using List.of_mem_filter h

/-- Whether a text brings a step up into a path. -/
def climbs (s : String) : Bool := (ofText s).steps.contains .up

theorem Tidy.child (h : Tidy p.steps) (hn : climbs name = false) : Tidy (p.child name).steps := by
  have hu : .up ∉ (ofText name).steps := by simpa [climbs] using hn
  unfold Path.child join
  split
  · have hempty : Tidy [] := ⟨by simp, by simp⟩
    exact hempty.append (here_not_mem_ofText name) hu
  · exact h.append (here_not_mem_ofText name) hu

theorem Tidy.foldl_child {names : List String} (h : Tidy p.steps)
    (hn : ∀ n ∈ names, climbs n = false) : Tidy (names.foldl Path.child p).steps := by
  induction names generalizing p with
  | nil => exact h
  | cons n names ih =>
    rw [List.forall_mem_cons] at hn
    exact ih (h.child hn.1) hn.2

theorem Tidy.withName (h : Tidy p.steps) (name : String) : Tidy (p.withName name).steps :=
  (h.of_prefix (List.dropLast_prefix _)).append (by simp) (by simp)

theorem Tidy.withExtension (h : Tidy p.steps) (extension : String) :
    Tidy (p.withExtension extension).steps := by
  unfold Path.withExtension
  split
  · exact h
  · exact h.withName _

theorem Tidy.extended (h : Tidy p.steps) (ending : String) : Tidy (p.extended ending).steps := by
  unfold Path.extended
  split
  · exact ⟨by simp, by simp⟩
  · exact h.withName _

theorem Tidy.up (h : Tidy p.steps) : Tidy p.up.steps := by
  unfold Path.up parent?
  split
  · exact h
  · exact h.of_prefix (List.dropLast_prefix _)

theorem Tidy.repeat_up (h : Tidy p.steps) (n : Nat) : Tidy (Nat.repeat Path.up n p).steps := by
  induction n with
  | zero => exact h
  | succ n ih => exact ih.up

theorem tidy_of_mem_upTo {root : Path} (h : Tidy p.steps) (hq : q ∈ upTo root p) : Tidy q.steps := by
  unfold upTo at hq
  split at hq
  · obtain ⟨n, -, rfl⟩ := List.mem_map.mp hq
    exact h.of_prefix (List.take_prefix _ _)
  · cases hq

/-- A text without points has no steps up. -/
theorem climbs_of_no_point (h : '.' ∉ name.toList) : climbs name = false := by
  refine Bool.eq_false_iff.mpr fun hc => ?_
  have hm : .up ∈ (ofText name).steps := by simpa [climbs] using hc
  obtain ⟨piece, hp, he⟩ := List.mem_map.mp (List.mem_of_mem_filter hm)
  obtain ⟨chars, hchars, rfl⟩ := List.mem_map.mp hp
  have hup : String.ofList chars = ".." := by
    unfold Step.ofText at he
    split at he
    · cases he
    · split at he
      · rename_i hdots
        exact hdots
      · cases he
  have hpoint : '.' ∈ chars := by
    rw [← String.toList_ofList (l := chars), hup]
    decide
  exact h (Text.mem_of_mem_cut hchars hpoint)

/-- Names of directories and files that stand for a module or for more of them. -/
theorem climbs_moduleNames :
    ∀ n ∈ ["src", "__init__.py", "mod.rs", "lib.rs", "main.rs"], climbs n = false := by
  decide +kernel

end Path

namespace Resolve

open Path (Tidy climbs_moduleNames)

variable {t : FileTree} {p : Path}

/-! ## Files that are found -/

/-- All that is found is a file, also by its clean path. -/
abbrev Standing (t : FileTree) : Option Path → Prop := Finds fun p => t.isFile p.clean = true

theorem standing_find? {places : List Path} (h : ∀ p ∈ places, Tidy p.steps) :
    Standing t (places.find? t.isFile) := by
  intro p hp
  rw [Path.clean_of_tidy (h p (List.mem_of_find?_eq_some hp))]
  exact List.find?_some hp

theorem climbs_indexNames (language : Language) :
    ∀ n ∈ (extensionOrder language).map ("index." ++ ·) ++ ["__init__.py", "mod.rs"],
      Path.climbs n = false := by
  cases language <;> decide +kernel

theorem tidy_candidates (base : Path) (language : Language) :
    ∀ p ∈ candidates t base language, Tidy p.steps := by
  intro p hp
  have hbase := Path.tidy_clean base
  simp only [candidates, List.mem_append, List.mem_singleton, List.mem_map] at hp
  rcases hp with ((rfl | ⟨e, -, rfl⟩) | hp) | hp
  · exact hbase
  · exact hbase.extended _
  · unfold sourcesOf at hp
    split at hp
    · split at hp
      · obtain ⟨e, -, rfl⟩ := List.mem_map.mp hp
        exact hbase.withExtension e
      · cases hp
    · cases hp
  · split at hp
    · obtain ⟨n, hn, rfl⟩ := List.mem_map.mp hp
      exact hbase.child (climbs_indexNames language n hn)
    · cases hp

theorem standing_candidate? (base : Path) (language : Language) :
    Standing t (candidate? t base language) :=
  standing_find? (tidy_candidates base language)

theorem standing_settled (hw : t.WellFormed) {x : Option Path} (hx : Standing t x) :
    Standing t (x.map t.settle) := by
  intro p hp
  obtain ⟨q, hq, rfl⟩ := Option.map_eq_some_iff.mp hp
  have hfile : t.isFile q.clean = true := hx q hq
  rcases t.settle_cases q with ⟨l, hl, hs⟩ | ⟨⟨fault, hl⟩, -⟩
  · obtain ⟨hne, hlink⟩ := (hw.of_locate hl).2
    rw [FileTree.isFile, FileTree.entry?, hl] at hfile
    rw [hs, Location.clean_path, FileTree.isFile, FileTree.entry?, hw.locate_path hne hlink]
    exact hfile
  · simp [FileTree.isFile, FileTree.entry?, hl] at hfile

theorem tidy_directoryOf (p : Path) : Tidy (directoryOf p).steps := Path.tidy_clean _

/-! ## Python -/

theorem climbs_pythonNames (spec : String) :
    ∀ n ∈ (Text.pieces (· = '.') (Text.dropLeading (· = '.') spec)).filter (· ≠ ""),
      Path.climbs n = false := by
  intro n h
  obtain ⟨chars, hc, rfl⟩ := List.mem_map.mp (List.mem_of_mem_filter h)
  refine Path.climbs_of_no_point fun hm => ?_
  have := Text.not_mem_of_mem_cut hc '.' (by simpa using hm)
  simp at this

theorem tidy_pythonPlaces {base : Path} {names : List String} (hb : Tidy base.steps)
    (hn : ∀ n ∈ names, Path.climbs n = false) :
    let place := names.foldl Path.child base
    ∀ p ∈ (if names = [] then [] else pythonExtensions.map place.withExtension) ++
      [place.child "__init__.py"], Tidy p.steps := by
  intro place p hp
  have hplace : Tidy place.steps := hb.foldl_child hn
  rcases List.mem_append.mp hp with hp | hp
  · split at hp
    · cases hp
    · obtain ⟨e, -, rfl⟩ := List.mem_map.mp hp
      exact hplace.withExtension e
  · obtain rfl := List.mem_singleton.mp hp
    exact hplace.child (climbs_moduleNames _ (by simp))

theorem standing_pythonModule? {base : Path} {names : List String} (hb : Tidy base.steps)
    (hn : ∀ n ∈ names, Path.climbs n = false) :
    Standing t (Resolver.pythonModule? t base names) :=
  standing_find? (tidy_pythonPlaces hb hn)

theorem standing_pythonSearch? {start : Path} {names : List String} {directories : List Path}
    (hd : ∀ d ∈ directories, Tidy d.steps) (hn : ∀ n ∈ names, Path.climbs n = false) :
    Standing t (Resolver.pythonSearch? t start names directories) := by
  induction directories with
  | nil => exact .none
  | cons directory rest ih =>
    rw [List.forall_mem_cons] at hd
    have hsource : Tidy (directory.child "src").steps := hd.1.child (climbs_moduleNames _ (by simp))
    unfold Resolver.pythonSearch?
    exact (standing_pythonModule? hd.1 hn).or
      (.or (.ite (standing_pythonModule? hsource hn) .none) (.ite .none (ih hd.2)))

/-! ## Rust -/

/-- Whether a name in a Rust source, or the name of the source, brings steps up into a path. -/
def climbs (importer spec : String) : Bool :=
  Language.ofPath? (.ofText importer) = some .rust &&
    ((Path.ofText importer).stem?.getD "" :: rustNames (Text.trim spec)).any Path.climbs

theorem tidy_rustDirectory {file : Path} (h : Path.climbs (file.stem?.getD "") = false) :
    Tidy (Resolver.rustDirectory file).steps := by
  unfold Resolver.rustDirectory
  dsimp only
  split
  · exact tidy_directoryOf file
  · split
    · exact tidy_directoryOf file
    · exact (tidy_directoryOf file).child h

/-- The directory of a crate is on the way up from the file, or one of sources there; or it is the root. -/
theorem crateDirectory_cases (r : Resolver) (t : FileTree) (file : Path) :
    (∃ d ∈ Path.upTo r.root (directoryOf file),
      r.crateDirectory t file = d ∨ r.crateDirectory t file = d.child "src") ∨
      r.crateDirectory t file = r.root := by
  unfold Resolver.crateDirectory
  cases hf : List.findSome? _ (Path.upTo r.root (directoryOf file)) with
  | none => exact Or.inr rfl
  | some d =>
    obtain ⟨e, he, hd⟩ := List.exists_of_findSome?_eq_some hf
    refine Or.inl ⟨e, he, ?_⟩
    rw [Option.getD_some]
    split at hd
    · exact Or.inl (Option.some.inj hd).symm
    · split at hd
      · obtain rfl := Option.some.inj hd
        split
        · exact Or.inr rfl
        · exact Or.inl rfl
      · cases hd

theorem tidy_crateDirectory {r : Resolver} (hr : Tidy r.root.steps) (file : Path) :
    Tidy (r.crateDirectory t file).steps := by
  rcases crateDirectory_cases r t file with ⟨d, hd, h | h⟩ | h
  · exact h ▸ Path.tidy_of_mem_upTo (tidy_directoryOf file) hd
  · rw [h]
    exact (Path.tidy_of_mem_upTo (tidy_directoryOf file) hd).child (climbs_moduleNames _ (by simp))
  · exact h ▸ hr

theorem tidy_rustPlaces {base : Path} {names : List String} (hb : Tidy base.steps)
    (hn : ∀ n ∈ names, Path.climbs n = false) :
    let place := names.foldl Path.child base
    ∀ p ∈ [place.withExtension "rs", place.child "mod.rs"], Tidy p.steps := by
  intro place p hp
  have hplace : Tidy place.steps := hb.foldl_child hn
  rcases List.mem_cons.mp hp with rfl | hp
  · exact hplace.withExtension _
  · obtain rfl := List.mem_singleton.mp hp
    exact hplace.child (climbs_moduleNames _ (by simp))

theorem tidy_rustDirectoryPlaces {d : Path} (hd : Tidy d.steps) :
    ∀ p ∈ ["lib.rs", "main.rs", "mod.rs"].map d.child ++ [d.withExtension "rs"], Tidy p.steps := by
  intro p hp
  rcases List.mem_append.mp hp with hp | hp
  · obtain ⟨n, hn, rfl⟩ := List.mem_map.mp hp
    have hname : n ∈ ["src", "__init__.py", "mod.rs", "lib.rs", "main.rs"] := by
      simp only [List.mem_cons, List.not_mem_nil, or_false] at hn
      rcases hn with rfl | rfl | rfl <;> simp
    exact hd.child (climbs_moduleNames n hname)
  · obtain rfl := List.mem_singleton.mp hp
    exact hd.withExtension _

section

variable (hw : t.WellFormed)

include hw

theorem standing_rustModule? {base : Path} {names : List String} (hb : Tidy base.steps)
    (hn : ∀ n ∈ names, Path.climbs n = false) : Standing t (Resolver.rustModule? t base names) :=
  standing_settled hw (standing_find? (tidy_rustPlaces hb hn))

theorem standing_rustDirectoryModule? {d : Path} (hd : Tidy d.steps) :
    Standing t (Resolver.rustDirectoryModule? t d) :=
  standing_settled hw (standing_find? (tidy_rustDirectoryPlaces hd))

theorem Resolver.standing_rust {r : Resolver} (hr : Tidy r.root.steps) {importer : Path} {spec : String}
    (hn : ∀ n ∈ importer.stem?.getD "" :: rustNames spec, Path.climbs n = false) :
    Standing t (r.rust t importer spec).path? := by
  rw [List.forall_mem_cons] at hn
  obtain ⟨hstem, hn⟩ := hn
  exact finds_rust (Q := fun p => Tidy p.steps) (tidy_rustDirectory hstem)
    (tidy_crateDirectory hr importer) (fun _ hp => hp.up)
    (fun _ _ hb hs => standing_rustModule? hw hb fun n hm => hn n (hs n hm))
    fun _ hd => standing_rustDirectoryModule? hw hd

end

/-! ## All languages -/

namespace Resolver

theorem standing_python (r : Resolver) (importer : Path) (spec : String) :
    Standing t (r.python t importer spec).path? := by
  have hdirectory := tidy_directoryOf importer
  have hnames := climbs_pythonNames spec
  unfold python
  dsimp only
  split
  · have hbase := hdirectory.repeat_up ((spec.toList.takeWhile (· = '.')).length - 1)
    rw [Resolution.path?_ofFile?]
    exact (standing_pythonModule? hbase hnames).or (.ite .none
      (standing_pythonModule? hbase fun n hn => hnames n (List.dropLast_subset _ hn)))
  · split
    · exact .none
    · rw [Resolution.path?_ofFile?]
      exact standing_pythonSearch? (fun d hd => Path.tidy_of_mem_upTo hdirectory hd) hnames

theorem standing_found (hw : t.WellFormed) {r : Resolver} (hr : Tidy r.root.steps) {importer : String}
    {spec : String} (hn : climbs importer spec = false) :
    Standing t (r.found t (.ofText importer) (Text.trim spec)).path? := by
  refine finds_found standing_candidate? (standing_python r _ _) fun hl _ => standing_rust hw hr ?_
  simpa [climbs, hl] using hn

/-- What a name leads to is a file, unless the name goes up on its own. -/
theorem isFile_of_resolve (hw : t.WellFormed) {r : Resolver} (hc : r.root.clean = r.root)
    {importer spec : String} (hn : climbs importer spec = false)
    (h : r.resolve t importer spec = .ok (.resolved p)) : t.isFile (.ofText p.toText) = true := by
  obtain ⟨path, hpath, -, rfl⟩ := path?_of_resolve h
  have hstanding := standing_settled hw (standing_found hw (Path.tidy_of_clean hc) hn)
  rw [hpath] at hstanding
  have hfile : t.isFile (t.settle path).clean = true := hstanding (t.settle path) rfl
  rw [FileTree.clean_settle] at hfile
  rwa [(settled_of_resolve hw h).1]

end Resolver

end Resolve

end DepAtlas
