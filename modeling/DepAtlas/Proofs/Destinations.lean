import DepAtlas.Proofs.Settling
import DepAtlas.Resolve.Resolver

/-! # Where names of modules lead

However a name of a module is understood, by an alias, by a package or in the way of a language, what it
leads to was found in the tree as a file. So the path can be read back from its text, and the last
look, whether it is settled below the root, decides.
-/

namespace DepAtlas.Resolve

variable {t : FileTree} {p : Path}

/-- All that is found has a property. -/
def Finds (P : Path → Prop) (found : Option Path) : Prop := ∀ p ∈ found, P p

section

variable {P Q : Path → Prop} {x y : Option Path}

theorem Finds.none : Finds P .none := by
  intro p hp
  cases hp

theorem Finds.or (hx : Finds P x) (hy : Finds P y) : Finds P (x.or y) := by
  cases x with
  | none => exact hy
  | some p => exact hx

theorem Finds.filter (hx : Finds P x) (keep : Path → Bool) : Finds P (x.filter keep) := by
  intro p hp
  obtain ⟨hp, -⟩ := Option.filter_eq_some_iff.mp hp
  exact hx p hp

theorem Finds.ite {c : Prop} [Decidable c] (hx : Finds P x) (hy : Finds P y) :
    Finds P (if c then x else y) := by
  split
  · exact hx
  · exact hy

theorem finds_findSome? {α : Type} {f : α → Option Path} {xs : List α}
    (h : ∀ x ∈ xs, Finds P (f x)) : Finds P (xs.findSome? f) := by
  intro p hp
  obtain ⟨x, hm, hx⟩ := List.exists_of_findSome?_eq_some hp
  exact h x hm p hx

end

/-- A file of a package is found as a candidate. -/
theorem exists_candidate_of_packageFile? {spec : String} {directory : Path}
    (h : Resolver.packageFile? t spec directory = some p) :
    ∃ base, candidate? t base .typeScript = some p := by
  unfold Resolver.packageFile? at h
  obtain ⟨-, -, h⟩ := Option.bind_eq_some_iff.mp h
  obtain ⟨package, -, h⟩ := Option.bind_eq_some_iff.mp h
  obtain ⟨name, -, h⟩ := Option.bind_eq_some_iff.mp h
  obtain ⟨part, -, h⟩ := Option.bind_eq_some_iff.mp h
  split at h
  · rcases Option.or_eq_some_iff.mp h with h | ⟨-, h⟩
    · obtain ⟨main, -, h⟩ := Option.bind_eq_some_iff.mp h
      exact ⟨_, h⟩
    · rcases Option.or_eq_some_iff.mp h with h | ⟨-, h⟩ <;> exact ⟨_, h⟩
  · rcases Option.or_eq_some_iff.mp h with h | ⟨-, h⟩ <;> exact ⟨_, h⟩

/-- The names that a path of modules is made of. -/
def rustNames (spec : String) : List String :=
  ((Text.splitText "::" spec).map Text.trim).filter (· ≠ "")

/-- Where a search starts, and the names that it looks for from there. -/
theorem forall_rustPlan {P : Path → Prop} {own top above : Path} {first : String}
    {names others : List String} (hnames : names = first :: others) (ups : Nat) (hown : P own)
    (htop : P top) (habove : P above) :
    let plan : List Path × List String :=
      if first = "crate" then ([top], others)
      else if first = "self" then ([own], others)
      else if first = "super" then ([above], names.drop ups)
      else ([own, top], names)
    (∀ b ∈ plan.1, P b) ∧ ∀ n ∈ plan.2, n ∈ names := by
  intro plan
  have hothers : ∀ n ∈ others, n ∈ names := fun n hm => hnames ▸ List.mem_cons_of_mem _ hm
  unfold plan
  split
  · exact ⟨by simpa using htop, hothers⟩
  · split
    · exact ⟨by simpa using hown, hothers⟩
    · split
      · exact ⟨by simpa using habove, fun n hm => List.mem_of_mem_drop hm⟩
      · exact ⟨by simpa using ⟨hown, htop⟩, fun n hm => hm⟩

/-- The path of a resolution, if there is one. -/
def Resolution.path? : Resolution → Option Path
  | resolved path => some path
  | unresolved _ => none

@[simp] theorem Resolution.path?_ofFile? (reason : Reason) (found : Option Path) :
    (ofFile? reason found).path? = found := by
  cases found <;> rfl

namespace Resolver

/-- What a name stands for, before it is asked whether that is below the root. -/
def found (r : Resolver) (t : FileTree) (file : Path) (spec : String) : Resolution :=
  let language := (Language.ofPath? file).getD .typeScript
  (r.alias? t spec language).getD <|
    match language with
    | .python => r.python t file spec
    | .rust => r.rust t file spec
    | .typeScript | .tsx | .javaScript => r.script t file spec

/-! ## What holds of all that is found -/

section

variable {P Q : Path → Prop} {r : Resolver} {importer : Path} {spec : String}

theorem finds_alias? (h : ∀ base language, Finds P (candidate? t base language)) {found : Resolution}
    {language : Language} (hf : r.alias? t spec language = some found) : Finds P found.path? := by
  obtain ⟨a, -, rfl⟩ := Option.map_eq_some_iff.mp hf
  rw [Resolution.path?_ofFile?]
  exact h _ _

theorem finds_script (h : ∀ base language, Finds P (candidate? t base language)) :
    Finds P (r.script t importer spec).path? := by
  unfold script
  dsimp only
  split
  · rw [Resolution.path?_ofFile?]
    exact h _ _
  · split
    · rw [Resolution.path?_ofFile?]
      exact h _ _
    · split
      · exact .none
      · rw [Resolution.path?_ofFile?]
        refine finds_findSome? fun directory _ p hp => ?_
        obtain ⟨base, hbase⟩ := exists_candidate_of_packageFile? hp
        exact h _ _ p hbase

/-- A search finds what it finds from the directories where it starts. -/
theorem finds_rust (hown : Q (rustDirectory importer)) (htop : Q (r.crateDirectory t importer))
    (hup : ∀ p, Q p → Q p.up)
    (hmodule : ∀ base names, Q base → (∀ n ∈ names, n ∈ rustNames spec) →
      Finds P (rustModule? t base names))
    (hwhole : ∀ d, Q d → Finds P (rustDirectoryModule? t d)) :
    Finds P (r.rust t importer spec).path? := by
  have habove : ∀ n, Q (Nat.repeat Path.up n (rustDirectory importer)) := fun n => by
    induction n with
    | zero => exact hown
    | succ n ih => exact hup _ ih
  unfold rust
  have hnames : ((Text.splitText "::" spec).map Text.trim).filter (· ≠ "") = rustNames spec := rfl
  simp only [hnames]
  split
  · exact .none
  · rename_i first others heq
    have hplaces := forall_rustPlan heq ((rustNames spec).takeWhile (· = "super")).length hown htop
      (habove ((rustNames spec).takeWhile (· = "super")).length)
    generalize (if first = "crate" then _ else _ : List Path × List String) = plan at hplaces ⊢
    obtain ⟨bases, rest⟩ := plan
    rw [Resolution.path?_ofFile?]
    refine .or (finds_findSome? fun base hb => finds_findSome? fun part hp => ?_) ?_
    · obtain ⟨n, -, rfl⟩ := List.mem_map.mp hp
      refine (hmodule base _ (hplaces.1 base hb) fun m hm => ?_).filter _
      exact hplaces.2 m (List.mem_of_mem_take hm)
    · exact .ite ((hwhole _ htop).filter _) (.ite ((hwhole _ (habove _)).filter _) .none)

/-- In Rust, only names that no alias covers are searched for. -/
theorem finds_found (h : ∀ base language, Finds P (candidate? t base language))
    (hpython : Finds P (r.python t importer spec).path?)
    (hrust : Language.ofPath? importer = some .rust → r.alias? t spec .rust = none →
      Finds P (r.rust t importer spec).path?) :
    Finds P (r.found t importer spec).path? := by
  unfold found
  dsimp only
  cases ha : r.alias? t spec ((Language.ofPath? importer).getD .typeScript) with
  | some resolution => exact finds_alias? h ha
  | none =>
    rw [Option.getD_none]
    cases hl : Language.ofPath? importer with
    | none => exact finds_script h
    | some language =>
      cases language with
      | python => exact hpython
      | rust => exact hrust hl (by rwa [hl] at ha)
      | typeScript | tsx | javaScript => exact finds_script h

end

/-! ## Texts of paths -/

variable (hw : t.WellFormed)

include hw

theorem legible_find? (places : List Path) : Finds Path.Legible (places.find? t.isFile) :=
  fun _ hp => hw.legible_of_isFile (List.find?_some hp)

theorem legible_settled (places : List Path) :
    Finds Path.Legible ((places.find? t.isFile).map t.settle) := by
  intro p hp
  obtain ⟨q, hq, rfl⟩ := Option.map_eq_some_iff.mp hp
  exact hw.legible_settle (legible_find? hw places q hq)

theorem legible_pythonSearch? (start : Path) (names : List String) (directories : List Path) :
    Finds Path.Legible (pythonSearch? t start names directories) := by
  induction directories with
  | nil => exact .none
  | cons directory rest ih =>
    unfold pythonSearch?
    exact .or (legible_find? hw _) (.or (.ite (legible_find? hw _) .none) (.ite .none ih))

theorem legible_python (r : Resolver) (importer : Path) (spec : String) :
    Finds Path.Legible (r.python t importer spec).path? := by
  unfold python
  dsimp only
  split
  · rw [Resolution.path?_ofFile?]
    exact .or (legible_find? hw _) (.ite .none (legible_find? hw _))
  · split
    · exact .none
    · rw [Resolution.path?_ofFile?]
      exact legible_pythonSearch? hw _ _ _

theorem legible_found (r : Resolver) (file : Path) (spec : String) :
    Finds Path.Legible (r.found t file spec).path? :=
  finds_found (fun _ _ => legible_find? hw _) (legible_python hw r file spec) fun _ _ =>
    finds_rust (Q := fun _ => True) trivial trivial (fun _ h => h)
      (fun _ _ _ _ => legible_settled hw _) fun _ _ => legible_settled hw _

omit hw in
theorem path?_of_resolve {r : Resolver} {importer spec : String}
    (h : r.resolve t importer spec = .ok (.resolved p)) :
    ∃ path, (r.found t (.ofText importer) (Text.trim spec)).path? = some path ∧
      Path.isWithin r.root (t.settle path) = true ∧ p = t.settle path := by
  unfold resolve at h
  split at h
  · cases h
  · split at h
    · cases h
    · split at h
      · cases h
      · have hf := Except.ok.inj h
        split at hf
        · rename_i path hpath
          split at hf
          · rename_i hin
            exact ⟨path, congrArg Resolution.path? hpath, hin, (Resolution.resolved.inj hf).symm⟩
          · cases hf
        · cases hf

omit hw in
theorem file?_eq_some_iff {r : Resolver} {importer spec : String} :
    r.file? t importer spec = some p ↔ r.resolve t importer spec = .ok (.resolved p) := by
  unfold file?
  split
  · rename_i h
    simp [h]
  · rename_i h
    constructor
    · rintro ⟨⟩
    · intro hp
      exact absurd hp (h p)

/-- What a name leads to is settled, and can be read back from its text. -/
theorem settled_of_resolve {r : Resolver} {importer spec : String}
    (h : r.resolve t importer spec = .ok (.resolved p)) :
    Path.ofText p.toText = p ∧ t.key p = p.toText := by
  obtain ⟨path, hpath, -, rfl⟩ := path?_of_resolve h
  exact ⟨hw.ofText_key (legible_found hw r _ _ path hpath),
    congrArg Path.toText (hw.settle_settle path)⟩

/-- What a name leads to is inside the root. -/
theorem inside_of_resolve {r : Resolver} (hc : r.root.clean = r.root)
    {importer spec : String} (h : r.resolve t importer spec = .ok (.resolved p)) :
    t.Inside r.root p.toText := by
  obtain ⟨path, hpath, hin, rfl⟩ := path?_of_resolve h
  refine hw.inside_key (legible_found hw r _ _ path hpath) ?_
  rwa [Path.isWithin, FileTree.clean_settle, hc] at hin

end Resolver

end DepAtlas.Resolve
