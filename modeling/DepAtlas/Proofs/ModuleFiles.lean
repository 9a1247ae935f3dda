import DepAtlas.Proofs.Findings
import DepAtlas.Proofs.Histories

/-! # Names of modules lead to files of the workspace

What a name of a module leads to is the settled path of something below the root, and it is a file unless
a name goes up in a Rust source. There the file is looked for along the path as it stands, and the path
that is told has its steps up taken back by the text. The two agree where no link leads to a directory;
a link on the way can make them differ, and then the path that is told need not exist.
-/

namespace DepAtlas

namespace FileTree

variable {t : FileTree} {i j k : Nat} {l m d : Location} {xs ys zs steps : List Step} {p : Path}

/-! ## Walks -/

/-- Following steps from one location leads to another. Of the links that the walk may pass, so many are
left in the end. -/
inductive Walks (t : FileTree) : Nat → Location → List Step → Nat → Location → Prop where
  | nil {k : Nat} {l : Location} : Walks t k l [] k l
  | here {k j : Nat} {l m : Location} {steps : List Step} (hl : t.lookup l = some .directory)
      (h : Walks t k l steps j m) : Walks t k l (.here :: steps) j m
  | up {k j : Nat} {l m : Location} {steps : List Step} (hl : t.lookup l = some .directory)
      (h : Walks t k l.dropLast steps j m) : Walks t k l (.up :: steps) j m
  | enter {k j : Nat} {l m : Location} {steps : List Step} {name : String}
      (hl : t.lookup l = some .directory) (hn : name.utf8ByteSize ≤ nameLimit)
      (hs : t.Stands (l ++ [name])) (h : Walks t k (l ++ [name]) steps j m) :
      Walks t k l (.enter name :: steps) j m
  | pass {k j : Nat} {l m : Location} {steps : List Step} {name target : String}
      (hl : t.lookup l = some .directory) (hn : name.utf8ByteSize ≤ nameLimit)
      (ht : t.lookup (l ++ [name]) = some (.link target))
      (h : Walks t k (if Path.isRootedText target then [] else l) (Step.allOf target ++ steps) j m) :
      Walks t (k + 1) l (.enter name :: steps) j m

theorem walks_of_followWith {onLink : Location → List Step → Except FileFault Location}
    (hlink : ∀ l steps m, onLink l steps = .ok m → ∃ i j, k = i + 1 ∧ t.Walks i l steps j m)
    (h : t.followWith onLink l steps = .ok m) : ∃ j, t.Walks k l steps j m := by
  induction steps generalizing l with
  | nil =>
    obtain rfl := Except.ok.inj h
    exact ⟨k, .nil⟩
  | cons s steps ih =>
    unfold followWith at h
    split at h
    · cases h
    · cases h
    · cases h
    · rename_i hl
      split at h
      · obtain ⟨j, hwalk⟩ := ih h
        exact ⟨j, .here hl hwalk⟩
      · obtain ⟨j, hwalk⟩ := ih h
        exact ⟨j, .up hl hwalk⟩
      · split at h
        · cases h
        · rename_i hn
          split at h
          · cases h
          all_goals rename_i he
          · obtain ⟨j, hwalk⟩ := ih h
            exact ⟨j, .enter hl (Nat.not_lt.mp hn) (by simp [Stands, he]) hwalk⟩
          · obtain ⟨j, hwalk⟩ := ih h
            exact ⟨j, .enter hl (Nat.not_lt.mp hn) (by simp [Stands, he]) hwalk⟩
          · obtain ⟨i, j, rfl, hwalk⟩ := hlink _ _ _ h
            exact ⟨j, .pass hl (Nat.not_lt.mp hn) he hwalk⟩

theorem walks_of_follow (h : t.follow k l steps = .ok m) : ∃ j, t.Walks k l steps j m := by
  induction k generalizing l steps m with
  | zero => exact walks_of_followWith (fun _ _ _ h => by cases h) h
  | succ k ih =>
    refine walks_of_followWith (fun _ _ _ h => ?_) h
    obtain ⟨j, hwalk⟩ := ih h
    exact ⟨k, j, rfl, hwalk⟩

namespace Walks

theorem follow (h : t.Walks k l steps j m) : t.follow k l steps = .ok m := by
  induction h with
  | @nil k => cases k <;> rfl
  | @here k _ _ _ _ hl _ ih => cases k <;> simpa [FileTree.follow, followWith, hl] using ih
  | @up k _ _ _ _ hl _ ih => cases k <;> simpa [FileTree.follow, followWith, hl] using ih
  | @enter k _ l _ _ name hl hn hs _ ih =>
    have hnot := Nat.not_lt.mpr hn
    cases he : t.lookup (l ++ [name]) with
    | none => exact absurd he hs.1
    | some e =>
      cases e with
      | link target => exact absurd he (hs.2 target)
      | file content => cases k <;> simpa [FileTree.follow, followWith, hl, hnot, he] using ih
      | directory => cases k <;> simpa [FileTree.follow, followWith, hl, hnot, he] using ih
  | pass hl hn ht _ ih => simpa [FileTree.follow, followWith, hl, Nat.not_lt.mpr hn, ht] using ih

theorem le (h : t.Walks k l steps j m) : j ≤ k := by
  induction h with
  | nil => exact le_rfl
  | here _ _ ih | up _ _ ih | enter _ _ _ _ ih => exact ih
  | pass _ _ _ _ ih => exact Nat.le_succ_of_le ih

/-- A walk that may pass more links passes the same ones. -/
theorem add (h : t.Walks k l steps j m) (n : Nat) : t.Walks (k + n) l steps (j + n) m := by
  induction h with
  | nil => exact .nil
  | here hl _ ih => exact .here hl ih
  | up hl _ ih => exact .up hl ih
  | enter hl hn hs _ ih => exact .enter hl hn hs ih
  | pass hl hn ht _ ih =>
    rw [Nat.add_right_comm]
    exact .pass hl hn ht ih

theorem append (h : t.Walks k l xs i d) (h' : t.Walks i d ys j m) : t.Walks k l (xs ++ ys) j m := by
  induction h with
  | nil => exact h'
  | here hl _ ih => exact .here hl (ih h')
  | up hl _ ih => exact .up hl (ih h')
  | enter hl hn hs _ ih => exact .enter hl hn hs (ih h')
  | pass hl hn ht _ ih => exact .pass hl hn ht (by simpa using ih h')

/-- A walk along some steps and then along others is a walk to a place in between, and one from there. -/
theorem split (h : t.Walks k l (xs ++ ys) j m) : ∃ i d, t.Walks k l xs i d ∧ t.Walks i d ys j m := by
  generalize hs : xs ++ ys = steps at h
  induction h generalizing xs with
  | nil =>
    obtain ⟨rfl, rfl⟩ := List.append_eq_nil_iff.mp hs
    exact ⟨_, _, .nil, .nil⟩
  | here hl hwalk ih =>
    rcases List.append_eq_cons_iff.mp hs with ⟨rfl, rfl⟩ | ⟨xs, rfl, hrest⟩
    · exact ⟨_, _, .nil, .here hl hwalk⟩
    · obtain ⟨i, d, hfirst, hsecond⟩ := ih hrest.symm
      exact ⟨i, d, .here hl hfirst, hsecond⟩
  | up hl hwalk ih =>
    rcases List.append_eq_cons_iff.mp hs with ⟨rfl, rfl⟩ | ⟨xs, rfl, hrest⟩
    · exact ⟨_, _, .nil, .up hl hwalk⟩
    · obtain ⟨i, d, hfirst, hsecond⟩ := ih hrest.symm
      exact ⟨i, d, .up hl hfirst, hsecond⟩
  | enter hl hn hstands hwalk ih =>
    rcases List.append_eq_cons_iff.mp hs with ⟨rfl, rfl⟩ | ⟨xs, rfl, hrest⟩
    · exact ⟨_, _, .nil, .enter hl hn hstands hwalk⟩
    · obtain ⟨i, d, hfirst, hsecond⟩ := ih hrest.symm
      exact ⟨i, d, .enter hl hn hstands hfirst, hsecond⟩
  | @pass _ _ _ _ _ _ target hl hn ht hwalk ih =>
    rcases List.append_eq_cons_iff.mp hs with ⟨rfl, rfl⟩ | ⟨xs, rfl, hrest⟩
    · exact ⟨_, _, .nil, .pass hl hn ht hwalk⟩
    · obtain ⟨i, d, hfirst, hsecond⟩ := @ih (Step.allOf target ++ xs) (by simp [hrest])
      exact ⟨i, d, .pass hl hn ht hfirst, hsecond⟩

/-- Steps at the end of a walk can be replaced by others that lead to the same place. -/
theorem replace (h : t.Walks k l (xs ++ ys) j m)
    (hr : ∀ i ≤ k, ∀ d, t.Walks i d ys j m → t.Walks i d zs j m) : t.Walks k l (xs ++ zs) j m := by
  obtain ⟨i, d, hfirst, hsecond⟩ := h.split
  exact hfirst.append (hr i hfirst.le d hsecond)

/-- A walk that goes on is in a directory. -/
theorem directory {s : Step} (h : t.Walks k l (s :: steps) j m) : t.lookup l = some .directory := by
  cases h <;> assumption

theorem enter_all {names : List String} (hn : ∀ n ∈ names, n.utf8ByteSize ≤ nameLimit)
    (hd : ∀ i ≤ names.length, t.lookup (l ++ names.take i) = some .directory) :
    t.Walks k l (names.map .enter) k (l ++ names) := by
  induction names generalizing l with
  | nil => simpa using Walks.nil
  | cons n names ih =>
    rw [List.forall_mem_cons] at hn
    have hfirst : t.lookup (l ++ [n]) = some .directory := by simpa using hd 1 (by simp)
    refine .enter (by simpa using hd 0 (by simp)) hn.1 (stands_of_directory hfirst) ?_
    have hrest := @ih (l ++ [n]) hn.2 fun i hi => by simpa using hd (i + 1) (by simpa using hi)
    simpa using hrest

end Walks

/-! ## Steps that are taken back by the text -/

/-- No link leads to a directory. -/
def NoDirectoryLinks (t : FileTree) : Prop :=
  ∀ l target, t.lookup l = some (.link target) → t.isDirectory l.path = false

section

variable (hw : t.WellFormed)

include hw

/-- A link from which a walk goes on leads to a directory. -/
theorem isDirectory_of_walks {name target : String}
    (ht : t.lookup (l ++ [name]) = some (.link target)) (hk : k < linkLimit) {s : Step}
    (h : t.Walks k (if Path.isRootedText target then [] else l) (Step.allOf target ++ s :: steps) j m) :
    t.isDirectory (Location.path (l ++ [name])) = true := by
  obtain ⟨i, d, hwalk, hrest⟩ := h.split
  obtain ⟨hnames, habove⟩ := hw.above (l := l ++ [name]) (by simp [ht])
  have hl : ∀ i ≤ l.length, t.lookup ([] ++ l.take i) = some .directory := by
    intro i hi
    have hi' := habove i (by simpa using Nat.lt_succ_of_le hi)
    rwa [List.take_append_of_le_length hi] at hi'
  -- the walk past the link is also one from the top of the tree
  have hmore : t.Walks (linkLimit - 1) (if Path.isRootedText target then [] else l)
      (Step.allOf target ++ []) (i + (linkLimit - 1 - k)) d := by
    have hadd := hwalk.add (linkLimit - 1 - k)
    rwa [Nat.add_sub_cancel' (Nat.le_sub_one_of_lt hk), ← List.append_nil (Step.allOf target)] at hadd
  have hpass : t.Walks linkLimit l [.enter name] (i + (linkLimit - 1 - k)) d :=
    .pass (by simpa using hl l.length le_rfl) (hnames name (by simp)).short ht hmore
  have htop : t.Walks linkLimit [] (l.map .enter) linkLimit ([] ++ l) :=
    Walks.enter_all (fun n hn => (hnames n (by simp [hn])).short) hl
  have hlocate : t.locate (Location.path (l ++ [name])) = .ok d := by
    simpa [locate, Location.path] using (htop.append hpass).follow
  simp [isDirectory, entry?, hlocate, hrest.directory]

variable (hlinks : t.NoDirectoryLinks)

include hlinks

/-- Without links to directories a step up leads back to where the step before it was taken. -/
theorem Walks.of_enter_up {name : String} (hk : k ≤ linkLimit)
    (h : t.Walks k l (.enter name :: .up :: steps) j m) : t.Walks k l steps j m := by
  cases h with
  | enter hl hn hs h =>
    cases h with
    | up _ h => simpa using h
  | pass hl hn ht h =>
    have hdirectory := isDirectory_of_walks hw ht hk h
    rw [hlinks _ _ ht] at hdirectory
    cases hdirectory

theorem Walks.cleanStep {done : List Step} {s : Step} (hdone : Path.Tidy done) (hk : k ≤ linkLimit)
    (h : t.Walks k [] (done ++ s :: steps) j m) :
    t.Walks k [] (Path.cleanStep done s ++ steps) j m := by
  cases s with
  | here =>
    refine h.replace fun i _ d hwalk => ?_
    cases hwalk with
    | here _ hwalk => exact hwalk
  | enter name => simpa [Path.cleanStep] using h
  | up =>
    rcases List.eq_nil_or_concat done with rfl | ⟨done, last, rfl⟩
    · exact h
    · simp only [Path.cleanStep, List.concat_eq_append, List.append_eq_nil_iff, List.cons_ne_nil,
        and_false, if_false, List.dropLast_concat, List.append_assoc, List.singleton_append] at h ⊢
      cases last with
      | here => exact absurd (by simp) hdone.1
      | enter name =>
        exact h.replace fun i hi d hwalk => hwalk.of_enter_up hw hlinks (hi.trans hk)
      | up =>
        -- the path above the top of the tree is the top itself
        cases done with
        | cons s done => exact absurd (by simp) hdone.2
        | nil =>
          cases h with
          | up _ h =>
            cases h with
            | up _ h => exact h

theorem Walks.foldl_cleanStep {done : List Step} (hdone : Path.Tidy done) (hk : k ≤ linkLimit)
    (h : t.Walks k [] (done ++ steps) j m) :
    t.Walks k [] (steps.foldl Path.cleanStep done) j m := by
  induction steps generalizing done with
  | nil => simpa using h
  | cons s steps ih => exact ih (hdone.cleanStep s) (h.cleanStep hw hlinks hdone hk)

/-- Without links to directories a rooted path leads where its clean path leads. -/
theorem isFile_clean (hp : p.rooted = true) (h : t.isFile p = true) : t.isFile p.clean = true := by
  cases hl : t.locate p with
  | error fault => simp [isFile, entry?, hl] at h
  | ok l =>
    rw [isFile, entry?, hl] at h
    rw [locate, if_pos hp] at hl
    obtain ⟨j, hwalk⟩ := walks_of_follow hl
    have hclean : t.Walks linkLimit [] p.clean.steps j l :=
      Walks.foldl_cleanStep hw hlinks ⟨by simp, by simp⟩ le_rfl (by simpa using hwalk)
    have hlocate : t.locate p.clean = .ok l := by
      rw [locate, show p.clean.rooted = true from hp, if_pos rfl]
      exact hclean.follow
    rwa [isFile, entry?, hlocate]

end

theorem rooted_settle (t : FileTree) (h : p.rooted = true) : (t.settle p).rooted = true := by
  rcases t.settle_cases p with ⟨l, -, hs⟩ | ⟨-, hs⟩
  · rw [hs]
    rfl
  · rw [hs]
    exact h

end FileTree

/-! ## Rooted paths -/

namespace Path

variable {p q : Path}

theorem rooted_child (h : p.rooted = true) (name : String) : (p.child name).rooted = true := by
  unfold Path.child join
  split
  · assumption
  · exact h

theorem rooted_foldl_child (h : p.rooted = true) (names : List String) :
    (names.foldl Path.child p).rooted = true := by
  induction names generalizing p with
  | nil => exact h
  | cons n names ih => exact ih (rooted_child h n)

theorem rooted_withExtension (h : p.rooted = true) (extension : String) :
    (p.withExtension extension).rooted = true := by
  unfold Path.withExtension
  split <;> exact h

theorem rooted_up (h : p.rooted = true) : p.up.rooted = true := by
  unfold Path.up parent?
  split <;> exact h

theorem rooted_of_mem_upTo {root : Path} (h : p.rooted = true) (hq : q ∈ upTo root p) :
    q.rooted = true := by
  unfold upTo at hq
  split at hq
  · obtain ⟨n, -, rfl⟩ := List.mem_map.mp hq
    exact h
  · cases hq

end Path

namespace Resolve

variable {t t₀ : FileTree} {p : Path} {r : Resolver}

theorem rooted_directoryOf (h : p.rooted = true) : (directoryOf p).rooted = true := by
  unfold directoryOf Path.parent?
  split
  · rfl
  · exact h

theorem rooted_rustDirectory (h : p.rooted = true) : (Resolver.rustDirectory p).rooted = true := by
  have hd := rooted_directoryOf h
  unfold Resolver.rustDirectory
  dsimp only
  split
  · exact hd
  · split
    · exact hd
    · exact Path.rooted_child hd _

theorem rooted_crateDirectory (hr : r.root.rooted = true) (h : p.rooted = true) :
    (r.crateDirectory t p).rooted = true := by
  rcases crateDirectory_cases r t p with ⟨d, hd, heq | heq⟩ | heq
  · exact heq ▸ Path.rooted_of_mem_upTo (rooted_directoryOf h) hd
  · exact heq ▸ Path.rooted_child (Path.rooted_of_mem_upTo (rooted_directoryOf h) hd) _
  · exact heq ▸ hr

section

variable (hw : t.WellFormed) (hlinks : t.NoDirectoryLinks)

include hw hlinks

theorem standing_find?_of_rooted {places : List Path} (h : ∀ p ∈ places, p.rooted = true) :
    Standing t (places.find? t.isFile) := fun p hp =>
  FileTree.isFile_clean hw hlinks (h p (List.mem_of_find?_eq_some hp)) (List.find?_some hp)

/-- Without links to directories names may go up. -/
theorem Resolver.standing_rust_of_rooted (hr : r.root.rooted = true) (hp : p.rooted = true)
    (spec : String) : Standing t (r.rust t p spec).path? := by
  refine finds_rust (Q := fun p => p.rooted = true) (rooted_rustDirectory hp)
    (rooted_crateDirectory hr hp) (fun _ => Path.rooted_up) (fun base names hb _ => ?_) fun d hd => ?_
  · have hplace := Path.rooted_foldl_child hb names
    refine standing_settled hw (standing_find?_of_rooted hw hlinks ?_)
    simp [Path.rooted_withExtension hplace, Path.rooted_child hplace]
  · refine standing_settled hw (standing_find?_of_rooted hw hlinks ?_)
    simp [Path.rooted_withExtension hd, Path.rooted_child hd]

end

namespace Resolver

/-- What a resolver was made of says where its root is. -/
theorem root_eq {root : Path} {table : List (String × String)}
    (hr : r = .new t₀ root table ∨
      ∃ t₁ n, (Resolver.new t₀ root table).withCompilerPaths t₁ = .ok (n, r)) :
    r.root = t₀.settle root := by
  rcases hr with rfl | ⟨t₁, n, hr⟩
  · rfl
  · exact root_withCompilerPaths hr

theorem rooted_of_resolve {importer spec : String}
    (h : r.resolve t importer spec = .ok (.resolved p)) : (Path.ofText importer).rooted = true := by
  unfold resolve at h
  split at h
  · cases h
  · split at h
    · cases h
    · split at h
      · cases h
      · rename_i hrooted
        rw [Bool.not_eq_true, Bool.not_eq_false'] at hrooted
        exact hrooted

/-- What a name leads to is a file where no step up is taken past a link. -/
theorem standing_found_of_straight (hw : t.WellFormed) (hc : r.root.clean = r.root)
    {importer spec : String} (hi : (Path.ofText importer).rooted = true)
    (h : climbs importer spec = false ∨ r.aliases.any (·.covers (Text.trim spec)) = true ∨
      t.NoDirectoryLinks ∧ r.root.rooted = true) :
    ∀ q ∈ (r.found t (.ofText importer) (Text.trim spec)).path?, t.isFile q.clean = true := by
  have hcare := finds_found (t := t) standing_candidate?
    (standing_python r (.ofText importer) (Text.trim spec))
  rcases h with h | h | ⟨hlinks, hr⟩
  · exact standing_found hw (Path.tidy_of_clean hc) h
  · refine hcare fun _ hnone => ?_
    obtain ⟨a, ha, hcovers⟩ := List.any_eq_true.mp h
    exact absurd hcovers (List.find?_eq_none.mp (Option.map_eq_none_iff.mp hnone) a ha)
  · exact hcare fun _ _ => standing_rust_of_rooted hw hlinks hr hi _

/-- What a name leads to is known by its own path and lies below the root. It is a file if the importing
file is no Rust source, if an alias covers the name, if neither the name nor that of the importing file
goes up, or if no link leads to a directory. -/
theorem names_lead_to_files (hw : t.WellFormed) {root : Path} {table : List (String × String)}
    (hr : r = .new t₀ root table ∨
      ∃ t₁ n, (Resolver.new t₀ root table).withCompilerPaths t₁ = .ok (n, r))
    {importer spec : String} (h : r.resolve t importer spec = .ok (.resolved p)) :
    t.settle p = p ∧ t.key p = p.toText ∧ Path.ofText p.toText = p ∧
      p.isUnder (t₀.settle root) = true ∧
      ((climbs importer spec = false ∨ r.aliases.any (·.covers (Text.trim spec)) = true ∨
          t.NoDirectoryLinks ∧ root.rooted = true) →
        ∃ l content, t.lookup l = some (.file content) ∧ p = l.path) := by
  have hroot := root_eq hr
  have hclean : r.root.clean = r.root := by rw [hroot, FileTree.clean_settle]
  obtain ⟨hread, hkey⟩ := settled_of_resolve hw h
  have hunder := (inside_of_resolve hw hclean h).under
  rw [hread, hroot] at hunder
  obtain ⟨path, hpath, -, hp⟩ := path?_of_resolve h
  refine ⟨?_, hkey, hread, hunder, fun hstraight => ?_⟩
  · rw [hp, hw.settle_settle]
  · have hrooted : root.rooted = true → r.root.rooted = true := fun h => by
      rw [hroot]
      exact t₀.rooted_settle h
    have hstanding := standing_found_of_straight hw hclean (rooted_of_resolve h)
      (hstraight.imp_right (Or.imp_right (And.imp_right hrooted))) path hpath
    rcases t.settle_cases path with ⟨l, hl, hs⟩ | ⟨⟨fault, hl⟩, -⟩
    · rw [FileTree.isFile, FileTree.entry?, hl] at hstanding
      dsimp only at hstanding
      split at hstanding
      · rename_i content hfile
        exact ⟨l, content, hfile, hp.trans hs⟩
      · cases hstanding
    · simp [FileTree.isFile, FileTree.entry?, hl] at hstanding

/-! ## A name that goes up past a link -/

namespace Linked

/-- The modules below the source `/w/src/a.rs` stand in another directory, to which a link leads. -/
def tree : FileTree where
  entries := [
    (["w"], .directory),
    (["w", "o"], .directory),
    (["w", "o", "x.rs"], .file []),
    (["w", "o", "d"], .directory),
    (["w", "o", "d", "x.rs"], .file []),
    (["w", "src"], .directory),
    (["w", "src", "a.rs"], .file []),
    (["w", "src", "a"], .link "../o/d")]
  start := []

def resolver : Resolver := .new tree (.ofText "/w") []

end Linked

/-- A name of a module behind a link leads to the file where it stands. -/
theorem names_lead_to_files_linked :
    Linked.tree.WellFormed ∧
      Linked.resolver.resolve Linked.tree "/w/src/a.rs" "self::x" =
        .ok (.resolved (.ofText "/w/o/d/x.rs")) ∧
      ∃ l content, Linked.tree.lookup l = some (.file content) ∧
        Path.ofText "/w/o/d/x.rs" = l.path := by
  have hw : Linked.tree.WellFormed := by decide +kernel
  have hr := file?_eq_some_iff.mp (show Linked.resolver.file? Linked.tree "/w/src/a.rs" "self::x" =
    some (.ofText "/w/o/d/x.rs") by decide +kernel)
  exact ⟨hw, hr, (names_lead_to_files hw (Or.inl rfl) hr).2.2.2.2
    (Or.inl (by decide +kernel))⟩

/-- A name that goes up past a link leads to a path where nothing stands. -/
theorem climbing_name_leads_nowhere :
    ¬ ∀ (t : FileTree) (root : Path) (table : List (String × String)) (importer spec : String)
      (p : Path), t.WellFormed →
      (Resolver.new t root table).resolve t importer spec = .ok (.resolved p) →
      ∃ l content, t.lookup l = some (.file content) ∧ p = l.path := by
  intro h
  have hw : Linked.tree.WellFormed := by decide +kernel
  have hr := file?_eq_some_iff.mp (show Linked.resolver.file? Linked.tree "/w/src/a.rs" "self::..::x" =
    some (.ofText "/w/src/x.rs") by decide +kernel)
  obtain ⟨l, content, hfile, hp⟩ := h _ _ _ _ _ _ hw hr
  have hthere := hw.isFile_file hfile
  rw [← hp] at hthere
  exact absurd hthere (by decide +kernel)

end Resolver

end Resolve

end DepAtlas
