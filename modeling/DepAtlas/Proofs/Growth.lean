import DepAtlas.Proofs.Findings

/-! # What a new file changes for names of modules

When one file comes and all else stays, every path leads where it led, and a path that leads somewhere
else than before leads to the new file. A search tries its places in order, so it ends as before unless
the new file is the one that it finds. What is looked at besides, to tell where a project or a crate
begins, must not be the new file for that.
-/

namespace DepAtlas

namespace FileTree

variable {t t' : FileTree} {l m : Location} {p : Path}

/-- One file has come, at a place where nothing stood. -/
structure Gains (t : FileTree) (l : Location) (t' : FileTree) : Prop where
  free : t.lookup l = none
  file : ∃ content, t'.lookup l = some (.file content)
  other : ∀ m, m ≠ l → t'.lookup m = t.lookup m
  start : t'.start = t.start

/-- A file that is put where nothing stands is all that comes. -/
theorem gains_put (h : t.lookup l = none) (content : List UInt8) :
    t.Gains l (t.put l (.file content)) := by
  have hl : l ≠ [] := by
    rintro rfl
    simp [lookup] at h
  have hnone : t.entries.find? (·.1 = l) = none := by
    simpa [lookup, hl] using h
  have hput : t.put l (.file content) = { t with entries := t.entries ++ [(l, .file content)] } := by
    refine if_neg fun hany => ?_
    obtain ⟨x, hx, he⟩ := List.any_eq_true.mp hany
    exact List.find?_eq_none.mp hnone x hx he
  rw [hput]
  refine ⟨h, ⟨content, ?_⟩, fun m hm => ?_, rfl⟩
  · simp [lookup, hl, List.find?_append, hnone]
  · simp [lookup, List.find?_append, hm.symm]

/-- A way that led somewhere leads there still, and one that leads elsewhere than before leads to `l`. -/
structure Widens (l : Location) (before after : Except FileFault Location) : Prop where
  keeps : ∀ m, before = .ok m → after = .ok m
  only : ∀ m, after = .ok m → before = .ok m ∨ m = l

theorem widens_error (fault fault' : FileFault) : Widens l (.error fault) (.error fault') := by
  constructor <;> rintro m ⟨⟩

/-- A way that goes on from a file goes nowhere. -/
theorem eq_of_followWith_file {content : List UInt8} (h : t.lookup l = some (.file content))
    {onLink : Location → List Step → Except FileFault Location} {steps : List Step}
    (hm : t.followWith onLink l steps = .ok m) : m = l := by
  cases steps with
  | nil => exact (Except.ok.inj hm).symm
  | cons s steps =>
    unfold followWith at hm
    rw [h] at hm
    cases hm

namespace Gains

variable (h : t.Gains l t')

include h

theorem widens_followWith {onLink onLink' : Location → List Step → Except FileFault Location}
    (hlink : ∀ m steps, Widens l (onLink m steps) (onLink' m steps)) (steps : List Step)
    (m : Location) : Widens l (t.followWith onLink m steps) (t'.followWith onLink' m steps) := by
  obtain ⟨content, hfile⟩ := h.file
  induction steps generalizing m with
  | nil => exact ⟨fun _ hm => hm, fun _ hm => Or.inl hm⟩
  | cons s steps ih =>
    -- nothing stood at `l` and now a file does, so no way goes on from there
    by_cases hm : m = l
    · subst hm
      unfold followWith
      rw [h.free, hfile]
      exact widens_error ..
    unfold followWith
    rw [h.other m hm]
    cases t.lookup m with
    | none => exact widens_error ..
    | some e =>
      cases e with
      | file => exact widens_error ..
      | link => exact widens_error ..
      | directory =>
        cases s with
        | here => exact ih m
        | up => exact ih m.dropLast
        | enter name =>
          dsimp only
          split
          · exact widens_error ..
          · by_cases hn : m ++ [name] = l
            · rw [hn, h.free, hfile]
              constructor
              · rintro n ⟨⟩
              · exact fun n hn => Or.inr (eq_of_followWith_file hfile hn)
            · rw [h.other _ hn]
              cases t.lookup (m ++ [name]) with
              | none => exact widens_error ..
              | some e =>
                cases e with
                | file => exact ih _
                | directory => exact ih _
                | link target => exact hlink _ _

theorem widens_follow (links : Nat) (m : Location) (steps : List Step) :
    Widens l (t.follow links m steps) (t'.follow links m steps) := by
  induction links generalizing m steps with
  | zero => exact h.widens_followWith (fun _ _ => widens_error ..) steps m
  | succ links ih => exact h.widens_followWith ih steps m

theorem widens_locate (p : Path) : Widens l (t.locate p) (t'.locate p) := by
  unfold locate
  split
  · exact h.widens_follow ..
  · split
    · exact widens_error ..
    · rw [h.start]
      exact h.widens_follow ..

/-- A path that does not lead to the new file shows what it showed. -/
theorem entry?_eq (hp : t'.locate p ≠ .ok l) : FileTree.entry? t' p = t.entry? p := by
  have hwidens := h.widens_locate p
  unfold entry?
  cases hl' : t'.locate p with
  | ok m =>
    have hne : m ≠ l := fun he => hp (he ▸ hl')
    rw [(hwidens.only m hl').resolve_right hne]
    exact h.other m hne
  | error fault' =>
    cases hl : t.locate p with
    | ok m =>
      have hm := hwidens.keeps m hl
      rw [hl'] at hm
      cases hm
    | error fault => rfl

theorem isFile_eq (hp : t'.locate p ≠ .ok l) : t'.isFile p = t.isFile p := by
  rw [isFile, isFile, h.entry?_eq hp]

theorem entry?_of_locate (hp : t'.locate p = .ok l) :
    (∃ content, FileTree.entry? t' p = some (.file content)) ∧ t.entry? p = none := by
  unfold entry?
  constructor
  · rw [hp]
    exact h.file
  · cases hl : t.locate p with
    | error fault => rfl
    | ok m =>
      have hm := (h.widens_locate p).keeps m hl
      rw [hp] at hm
      obtain rfl := Except.ok.inj hm
      exact h.free

theorem isFile_of_locate (hp : t'.locate p = .ok l) : t'.isFile p = true := by
  obtain ⟨⟨content, hfile⟩, -⟩ := h.entry?_of_locate hp
  rw [isFile, hfile]

theorem isDirectory_eq : t'.isDirectory = t.isDirectory := by
  funext p
  by_cases hp : t'.locate p = .ok l
  · obtain ⟨⟨content, hfile⟩, hnone⟩ := h.entry?_of_locate hp
    simp [isDirectory, hfile, hnone]
  · rw [isDirectory, isDirectory, h.entry?_eq hp]

theorem readText_eq (hp : t'.locate p ≠ .ok l) (hfile : t.isFile p = true) :
    t'.readText p = t.readText p := by
  cases hl : t.locate p with
  | error fault => simp [isFile, entry?, hl] at hfile
  | ok m =>
    have hl' := (h.widens_locate p).keeps m hl
    have hne : m ≠ l := fun he => hp (he ▸ hl')
    simp only [readText, read, hl, hl', bind, Except.bind, h.other m hne]

theorem settle_eq (hp : t'.settle p ≠ l.path) : t'.settle p = t.settle p := by
  have hwidens := h.widens_locate p.clean
  rcases t'.settle_cases p with ⟨m, hl', hs⟩ | ⟨⟨fault, hl'⟩, hs⟩
  · have hne : m ≠ l := by
      rintro rfl
      exact hp hs
    rw [settle, settle, hl', (hwidens.only m hl').resolve_right hne]
  · rcases t.settle_cases p with ⟨m, hl, -⟩ | ⟨-, hs'⟩
    · have hm := hwidens.keeps m hl
      rw [hl'] at hm
      cases hm
    · rw [hs, hs']

/-- A file that was there settles as it did. -/
theorem settle_of_isFile (hfile : t.isFile p.clean = true) : t'.settle p = t.settle p := by
  cases hl : t.locate p.clean with
  | error fault => simp [isFile, entry?, hl] at hfile
  | ok m => rw [settle, settle, hl, (h.widens_locate p.clean).keeps m hl]

end Gains

end FileTree

namespace Resolve

open Path (Tidy)

variable {t t' : FileTree} {l : Location} {base : Path} {names : List String}

/-! ## Searches that the new file overtakes -/

/-- A search ends as before, or it ends at the new file. -/
def Overtakes (t' : FileTree) (l : Location) (before after : Option Path) : Prop :=
  after = before ∨ ∃ q ∈ after, t'.settle q = l.path

namespace Overtakes

variable {x x' y y' : Option Path}

theorem refl (x : Option Path) : Overtakes t' l x x := Or.inl rfl

theorem or (hx : Overtakes t' l x x') (hy : Overtakes t' l y y') :
    Overtakes t' l (x.or y) (x'.or y') := by
  rcases hx with rfl | ⟨q, hq, hs⟩
  · cases x' with
    | none => exact hy
    | some p => exact .refl _
  · obtain rfl := Option.mem_def.mp hq
    exact Or.inr ⟨q, rfl, hs⟩

theorem ite {c : Prop} [Decidable c] (hx : Overtakes t' l x x') (hy : Overtakes t' l y y') :
    Overtakes t' l (if c then x else y) (if c then x' else y') := by
  split
  · exact hx
  · exact hy

theorem bind {α : Type} (o : Option α) {f f' : α → Option Path}
    (h : ∀ a, Overtakes t' l (f a) (f' a)) : Overtakes t' l (o.bind f) (o.bind f') := by
  cases o with
  | none => exact .refl _
  | some a => exact h a

/-- A search that leaves out a file other than the new one. -/
theorem filter_ne (hx : Overtakes t' l x x') (hsettled : ∀ q ∈ x', t'.settle q = q) {itself : Path}
    (hne : itself ≠ l.path) :
    Overtakes t' l (x.filter (· ≠ itself)) (x'.filter (· ≠ itself)) := by
  rcases hx with rfl | ⟨q, hq, hs⟩
  · exact .refl _
  · refine Or.inr ⟨q, Option.filter_eq_some_iff.mpr ⟨hq, ?_⟩, hs⟩
    have hqn : q ≠ itself := by
      rintro rfl
      exact hne ((hsettled q hq).symm.trans hs)
    simpa using hqn

end Overtakes

theorem overtakes_findSome? {α : Type} {f f' : α → Option Path} {xs : List α}
    (h : ∀ x ∈ xs, Overtakes t' l (f x) (f' x)) :
    Overtakes t' l (xs.findSome? f) (xs.findSome? f') := by
  induction xs with
  | nil => exact .refl _
  | cons x xs ih =>
    rw [List.forall_mem_cons] at h
    have hor : ∀ g : α → Option Path, (x :: xs).findSome? g = (g x).or (xs.findSome? g) := by
      intro g
      rw [List.findSome?_cons]
      cases g x <;> rfl
    rw [hor, hor]
    exact h.1.or (ih h.2)

section

variable (h : t.Gains l t')

include h

theorem overtakes_find? {places : List Path} (hp : ∀ p ∈ places, Tidy p.steps) :
    Overtakes t' l (places.find? t.isFile) (places.find? t'.isFile) := by
  induction places with
  | nil => exact .refl _
  | cons p places ih =>
    rw [List.forall_mem_cons] at hp
    by_cases hl : t'.locate p = .ok l
    · refine Or.inr ⟨p, List.find?_cons_of_pos (h.isFile_of_locate hl), ?_⟩
      rw [FileTree.settle, Path.clean_of_tidy hp.1, hl]
    · rw [List.find?_cons, List.find?_cons, h.isFile_eq hl]
      split
      · exact .refl _
      · exact ih hp.2

theorem overtakes_candidate? (base : Path) (language : Language) :
    Overtakes t' l (candidate? t base language) (candidate? t' base language) := by
  have hplaces : candidates t' base language = candidates t base language := by
    simp only [candidates, h.isDirectory_eq]
  rw [candidate?, candidate?, hplaces]
  exact overtakes_find? h (tidy_candidates base language)

theorem overtakes_settled (hw' : t'.WellFormed) {x x' : Option Path} (hx : Overtakes t' l x x')
    (hstanding : Standing t x) : Overtakes t' l (x.map t.settle) (x'.map t'.settle) := by
  rcases hx with rfl | ⟨q, hq, hs⟩
  · cases x' with
    | none =>
      rw [Option.map_none, Option.map_none]
      exact .refl _
    | some p =>
      have hs := h.settle_of_isFile (hstanding p rfl)
      rw [Option.map_some, Option.map_some, hs]
      exact .refl _
  · refine Or.inr ⟨t'.settle q, Option.mem_map_of_mem _ hq, ?_⟩
    rw [hw'.settle_settle, hs]

/-! ## Scripts -/

theorem overtakes_packageFile? (spec : String) {directory : Path}
    (hm : t'.locate (directory.child "package.json") ≠ .ok l) :
    Overtakes t' l (Resolver.packageFile? t spec directory)
      (Resolver.packageFile? t' spec directory) := by
  have hread : t.isFile (directory.child "package.json") = true →
      Package.read? t' (directory.child "package.json") =
        Package.read? t (directory.child "package.json") := by
    intro hfile
    rw [Package.read?, Package.read?, h.readText_eq hm hfile]
  have hc := overtakes_candidate? h
  unfold Resolver.packageFile?
  dsimp only
  rw [h.isFile_eq hm]
  cases hfile : t.isFile (directory.child "package.json") with
  | false => exact .refl _
  | true =>
    rw [hread hfile]
    refine .bind _ fun _ => .bind _ fun package => .bind _ fun name => .bind _ fun part => ?_
    exact .ite (.or (.bind _ fun main => hc _ _) (.or (hc _ _) (hc _ _))) (.or (hc _ _) (hc _ _))

theorem overtakes_script (r : Resolver) {importer : Path}
    (hm : ∀ d ∈ Path.upTo r.root (directoryOf importer),
      t'.locate (d.child "package.json") ≠ .ok l) (spec : String) :
    Overtakes t' l (r.script t importer spec).path? (r.script t' importer spec).path? := by
  have hc := overtakes_candidate? h
  unfold Resolver.script
  dsimp only
  generalize String.ofList _ = spec
  split
  · rw [Resolution.path?_ofFile?, Resolution.path?_ofFile?]
    exact hc _ _
  · cases Text.stripOpening? "/" spec with
    | some rest =>
      rw [Resolution.path?_ofFile?, Resolution.path?_ofFile?]
      exact hc _ _
    | none =>
      dsimp only
      split
      · exact .refl _
      · rw [Resolution.path?_ofFile?, Resolution.path?_ofFile?]
        exact overtakes_findSome? fun d hd => overtakes_packageFile? h spec (hm d hd)

/-! ## Python -/

theorem overtakes_pythonModule? (hb : Tidy base.steps) (hn : ∀ n ∈ names, Path.climbs n = false) :
    Overtakes t' l (Resolver.pythonModule? t base names) (Resolver.pythonModule? t' base names) :=
  overtakes_find? h (tidy_pythonPlaces hb hn)

theorem overtakes_pythonSearch? {start : Path} {directories : List Path}
    (hd : ∀ d ∈ directories, Tidy d.steps) (hn : ∀ n ∈ names, Path.climbs n = false)
    (hm : ∀ d ∈ directories, ∀ m ∈ manifests, t'.locate (d.child m) ≠ .ok l) :
    Overtakes t' l (Resolver.pythonSearch? t start names directories)
      (Resolver.pythonSearch? t' start names directories) := by
  induction directories with
  | nil => exact .refl _
  | cons directory rest ih =>
    rw [List.forall_mem_cons] at hd hm
    have hsource : Tidy (directory.child "src").steps := hd.1.child
      (Path.climbs_moduleNames _ (by simp))
    have hmarked : (manifests.any fun m => t'.isFile (directory.child m)) =
        manifests.any fun m => t.isFile (directory.child m) := by
      rw [Bool.eq_iff_iff, List.any_eq_true, List.any_eq_true]
      exact exists_congr fun m => and_congr_right fun hmem => by rw [h.isFile_eq (hm.1 m hmem)]
    unfold Resolver.pythonSearch?
    dsimp only
    rw [hmarked, h.isDirectory_eq]
    exact (overtakes_pythonModule? h hd.1 hn).or
      (.or (.ite (overtakes_pythonModule? h hsource hn) (.refl _)) (.ite (.refl _) (ih hd.2 hm.2)))

theorem overtakes_python (r : Resolver) {importer : Path}
    (hm : ∀ d ∈ Path.upTo r.root (directoryOf importer), ∀ m ∈ manifests,
      t'.locate (d.child m) ≠ .ok l) (spec : String) :
    Overtakes t' l (r.python t importer spec).path? (r.python t' importer spec).path? := by
  have hdirectory := tidy_directoryOf importer
  have hnames := climbs_pythonNames spec
  unfold Resolver.python
  dsimp only
  split
  · have hbase := hdirectory.repeat_up ((spec.toList.takeWhile (· = '.')).length - 1)
    rw [Resolution.path?_ofFile?, Resolution.path?_ofFile?]
    exact (overtakes_pythonModule? h hbase hnames).or (.ite (.refl _)
      (overtakes_pythonModule? h hbase fun n hn => hnames n (List.dropLast_subset _ hn)))
  · split
    · exact .refl _
    · rw [Resolution.path?_ofFile?, Resolution.path?_ofFile?]
      exact overtakes_pythonSearch? h (fun d hd => Path.tidy_of_mem_upTo hdirectory hd) hnames hm

/-! ## Rust -/

theorem crateDirectory_eq (r : Resolver) {file : Path}
    (hm : ∀ d ∈ Path.upTo r.root (directoryOf file), ∀ n ∈ ["main.rs", "lib.rs", "Cargo.toml"],
      t'.locate (d.child n) ≠ .ok l) : r.crateDirectory t' file = r.crateDirectory t file := by
  unfold Resolver.crateDirectory
  rw [← List.head?_filterMap, ← List.head?_filterMap, List.filterMap_congr]
  intro d hd
  simp only [List.forall_mem_cons, List.not_mem_nil, false_imp_iff, implies_true, and_true] at hm
  obtain ⟨hmain, hlib, hcargo⟩ := hm d hd
  rw [h.isFile_eq hmain, h.isFile_eq hlib, h.isFile_eq hcargo, h.isDirectory_eq]

theorem overtakes_rustModule? (hw' : t'.WellFormed) (hb : Tidy base.steps)
    (hn : ∀ n ∈ names, Path.climbs n = false) :
    Overtakes t' l (Resolver.rustModule? t base names) (Resolver.rustModule? t' base names) :=
  overtakes_settled h hw' (overtakes_find? h (tidy_rustPlaces hb hn))
    (standing_find? (tidy_rustPlaces hb hn))

theorem overtakes_rustDirectoryModule? (hw' : t'.WellFormed) (hb : Tidy base.steps) :
    Overtakes t' l (Resolver.rustDirectoryModule? t base)
      (Resolver.rustDirectoryModule? t' base) :=
  overtakes_settled h hw' (overtakes_find? h (tidy_rustDirectoryPlaces hb))
    (standing_find? (tidy_rustDirectoryPlaces hb))

omit h in
theorem settle_of_mem_settled (hw' : t'.WellFormed) {x : Option Path} :
    ∀ q ∈ x.map t'.settle, t'.settle q = q := by
  intro q hq
  obtain ⟨p, -, rfl⟩ := Option.map_eq_some_iff.mp hq
  exact hw'.settle_settle p

theorem overtakes_rust (hw' : t'.WellFormed) {r : Resolver} (hr : Tidy r.root.steps)
    {importer : Path} (hm : ∀ d ∈ Path.upTo r.root (directoryOf importer),
      ∀ n ∈ ["main.rs", "lib.rs", "Cargo.toml"], t'.locate (d.child n) ≠ .ok l)
    (hapart : t'.settle importer ≠ l.path) {spec : String}
    (hn : ∀ n ∈ importer.stem?.getD "" :: rustNames spec, Path.climbs n = false) :
    Overtakes t' l (r.rust t importer spec).path? (r.rust t' importer spec).path? := by
  rw [List.forall_mem_cons] at hn
  obtain ⟨hstem, hn⟩ := hn
  have hown := tidy_rustDirectory hstem
  have htop := tidy_crateDirectory (t := t) hr importer
  -- the importing file is left out, and the new file is not left out with it
  have hdeep : ∀ {base part}, Tidy base.steps → (∀ n ∈ part, Path.climbs n = false) →
      Overtakes t' l ((Resolver.rustModule? t base part).filter (· ≠ t'.settle importer))
        ((Resolver.rustModule? t' base part).filter (· ≠ t'.settle importer)) :=
    fun hb hp => (overtakes_rustModule? h hw' hb hp).filter_ne (settle_of_mem_settled hw') hapart
  have hwhole : ∀ {d}, Tidy d.steps →
      Overtakes t' l ((Resolver.rustDirectoryModule? t d).filter (· ≠ t'.settle importer))
        ((Resolver.rustDirectoryModule? t' d).filter (· ≠ t'.settle importer)) :=
    fun hd => (overtakes_rustDirectoryModule? h hw' hd).filter_ne (settle_of_mem_settled hw') hapart
  unfold Resolver.rust
  have hnames : ((Text.splitText "::" spec).map Text.trim).filter (· ≠ "") = rustNames spec := rfl
  simp only [hnames, crateDirectory_eq h r hm, ← h.settle_eq hapart]
  cases heq : rustNames spec with
  | nil => exact .refl _
  | cons first others =>
    dsimp only
    have habove := hown.repeat_up ((first :: others).takeWhile (· = "super")).length
    have hplaces := forall_rustPlan (P := (Tidy ·.steps)) (rfl : first :: others = first :: others)
      ((first :: others).takeWhile (· = "super")).length hown htop habove
    generalize (if first = "crate" then _ else _ : List Path × List String) = plan at hplaces ⊢
    obtain ⟨bases, rest⟩ := plan
    rw [Resolution.path?_ofFile?, Resolution.path?_ofFile?]
    refine .or (overtakes_findSome? fun base hb => overtakes_findSome? fun part hp => ?_) ?_
    · obtain ⟨n, -, rfl⟩ := List.mem_map.mp hp
      refine hdeep (hplaces.1 base hb) fun m hm => ?_
      exact hn m (heq ▸ hplaces.2 m (List.mem_of_mem_take hm))
    · exact .ite (hwhole htop) (.ite (hwhole habove) (.refl _))

end

/-! ## All languages -/

/-- Files that tell a search in a language where a project or a crate begins, or what a package is. -/
def signposts : Language → List String
  | .python => manifests
  | .rust => ["main.rs", "lib.rs", "Cargo.toml"]
  | .typeScript | .tsx | .javaScript => ["package.json"]

namespace Resolver

variable {r : Resolver} {importer spec : String}

/-- A search that a new file at `l` can change only by being found. None of the files that are looked at
besides is the new one. In Rust it is not the importing file either, and no name brings a step up into
a path. -/
structure Undiverted (r : Resolver) (t' : FileTree) (l : Location) (importer spec : String) : Prop where
  unmarked : ∀ d ∈ Path.upTo r.root (directoryOf (.ofText importer)),
    ∀ n ∈ signposts ((Language.ofPath? (.ofText importer)).getD .typeScript),
      t'.locate (d.child n) ≠ .ok l
  apart : Language.ofPath? (.ofText importer) = some .rust → t'.settle (.ofText importer) ≠ l.path
  level : climbs importer spec = false

/-- The new file is what a name stands for, whether or not it is below the root. -/
def Finds (r : Resolver) (t' : FileTree) (l : Location) (importer spec : String) : Prop :=
  ∃ q ∈ (r.found t' (.ofText importer) (Text.trim spec)).path?, t'.settle q = l.path

theorem overtakes_found (h : t.Gains l t') (hw' : t'.WellFormed) (hr : Tidy r.root.steps)
    (hu : r.Undiverted t' l importer spec) :
    Overtakes t' l (r.found t (.ofText importer) (Text.trim spec)).path?
      (r.found t' (.ofText importer) (Text.trim spec)).path? := by
  have hmarks := hu.unmarked
  unfold found alias?
  dsimp only
  cases r.aliases.find? (·.covers (Text.trim spec)) with
  | some a =>
    rw [Option.map_some, Option.map_some, Option.getD_some, Option.getD_some,
      Resolution.path?_ofFile?, Resolution.path?_ofFile?]
    exact overtakes_candidate? h _ _
  | none =>
    rw [Option.map_none, Option.map_none, Option.getD_none, Option.getD_none]
    cases hl : Language.ofPath? (.ofText importer) with
    | none =>
      rw [hl] at hmarks
      exact overtakes_script h r (fun d hd => hmarks d hd _ (List.mem_singleton_self _)) _
    | some language =>
      rw [hl] at hmarks
      cases language with
      | python => exact overtakes_python h r hmarks _
      | rust =>
        refine overtakes_rust h hw' hr hmarks (hu.apart hl) ?_
        simpa [climbs, hl] using hu.level
      | typeScript | tsx | javaScript =>
        exact overtakes_script h r (fun d hd => hmarks d hd _ (List.mem_singleton_self _)) _

/-- Whether a name can be looked for at all. -/
def asks (importer spec : String) : Bool :=
  !Text.isBlankText spec && !spec.toList.contains '\x00' && Path.isRootedText importer

/-- What is told of a finding: it is resolved if it settles below the root. -/
def inside (r : Resolver) (t : FileTree) (spec : String) : Resolution → Resolution
  | .resolved path =>
    if Path.isWithin r.root (t.settle path) then .resolved (t.settle path)
    else .unresolved (.outsideRoot spec)
  | .unresolved reason => .unresolved reason

theorem file?_eq (r : Resolver) (t : FileTree) (importer spec : String) :
    r.file? t importer spec =
      if asks importer spec then
        ((r.found t (.ofText importer) (Text.trim spec)).path?.map t.settle).filter
          (Path.isWithin r.root)
      else none := by
  have hresolve : r.resolve t importer spec =
      if Text.isBlankText spec then .error ⟨"module specifier is empty"⟩
      else if spec.toList.contains '\x00' then .error ⟨"module specifier contains a NUL byte"⟩
      else if !Path.isRootedText importer then
        .error ⟨"importing file must be an absolute path: " ++ importer⟩
      else .ok (r.inside t (Text.trim spec) (r.found t (.ofText importer) (Text.trim spec))) := rfl
  rw [file?, hresolve, asks]
  cases Text.isBlankText spec with
  | true => rfl
  | false =>
    cases spec.toList.contains '\x00' with
    | true => rfl
    | false =>
      cases Path.isRootedText importer with
      | false => rfl
      | true =>
        cases r.found t (.ofText importer) (Text.trim spec) with
        | unresolved reason => rfl
        | resolved path =>
          cases hin : Path.isWithin r.root (t.settle path) <;>
            simp [inside, Resolution.path?, Option.filter, hin]

/-- A name stands for what it stood for, or it has come to stand for the new file. -/
theorem file?_eq_or_finds (h : t.Gains l t') (hw : t.WellFormed) (hw' : t'.WellFormed)
    (hr : Tidy r.root.steps) (hu : r.Undiverted t' l importer spec) :
    r.file? t' importer spec = r.file? t importer spec ∨ r.Finds t' l importer spec := by
  have hfound := overtakes_found h hw' hr hu
  rcases overtakes_settled h hw' hfound (standing_found hw hr hu.level) with heq | ⟨q, hq, hs⟩
  · left
    rw [file?_eq, file?_eq, heq]
  · right
    obtain ⟨p, hp, rfl⟩ := Option.map_eq_some_iff.mp hq
    rw [hw'.settle_settle] at hs
    exact ⟨p, hp, hs⟩

/-- What a name stood for was there, so it is not the new file. -/
theorem ne_path_of_file? (h : t.Gains l t') (hw : t.WellFormed) (hw' : t'.WellFormed)
    (hr : r.root.clean = r.root) (hlevel : climbs importer spec = false) {p : Path}
    (hp : r.file? t importer spec = some p) : p ≠ l.path := by
  rintro rfl
  rw [file?_eq_some_iff] at hp
  have hfile := isFile_of_resolve hw hr hlevel hp
  obtain ⟨content, hl⟩ := h.file
  rw [(settled_of_resolve hw hp).1, FileTree.isFile,
    (h.entry?_of_locate (hw'.locate_file hl)).2] at hfile
  cases hfile

theorem Finds.eq_path (h : r.Finds t' l importer spec) {p : Path}
    (hp : r.file? t' importer spec = some p) : p = l.path := by
  obtain ⟨q, hq, hs⟩ := h
  rw [file?_eq, Option.mem_def.mp hq] at hp
  split at hp
  · obtain ⟨hp, -⟩ := Option.filter_eq_some_iff.mp hp
    exact (Option.some.inj hp).symm.trans hs
  · cases hp

/-- A name that stood for a file stands for something else exactly if the new file is found for it. -/
theorem file?_ne_iff_finds (h : t.Gains l t') (hw : t.WellFormed) (hw' : t'.WellFormed)
    (hr : r.root.clean = r.root) (hu : r.Undiverted t' l importer spec) {p : Path}
    (hp : r.file? t importer spec = some p) :
    r.file? t' importer spec ≠ r.file? t importer spec ↔ r.Finds t' l importer spec := by
  constructor
  · exact (file?_eq_or_finds h hw hw' (Path.tidy_of_clean hr) hu).resolve_left
  · intro hfinds heq
    exact ne_path_of_file? h hw hw' hr hu.level hp (hfinds.eq_path (heq.trans hp))

end Resolver

end Resolve

end DepAtlas
