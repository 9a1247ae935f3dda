import DepAtlas.Confine
import DepAtlas.Proofs.Trees

/-! # Settled paths

The path by which a file is known has no steps that stay and no way back, and where something stands it
passes no link. Settling it again changes nothing, and it can be read back from its text as long as its
names can. The names on a path that leads somewhere can: they are names of the tree.
-/

namespace DepAtlas

/-- A text that is read as a name when it stands in a path. -/
structure IsPiece (n : String) : Prop where
  entered : Step.ofText n = .enter n
  noSlash : '/' ∉ n.toList

theorem IsName.isPiece {n : String} (h : IsName n) : IsPiece n := ⟨h.step_ofText, h.noSlash⟩

namespace Path

variable {p q : Path} {n : String}

/-- The names of a path can be read back from its text. -/
def Legible (p : Path) : Prop := ∀ n, .enter n ∈ p.steps → IsPiece n

theorem legible_path {l : Location} (h : ∀ n ∈ l, IsName n) : l.path.Legible := by
  intro n hn
  obtain ⟨m, hm, he⟩ := List.mem_map.mp hn
  obtain rfl := Step.enter.inj he
  exact (h m hm).isPiece

theorem legible_ofText (s : String) : (ofText s).Legible := by
  intro n hn
  obtain ⟨piece, hp, he⟩ := List.mem_map.mp (List.mem_of_mem_filter hn)
  obtain ⟨chars, hc, rfl⟩ := List.mem_map.mp hp
  have hn : n = String.ofList chars := by
    unfold Step.ofText at he
    split at he
    · cases he
    · split at he
      · cases he
      · exact (Step.enter.inj he).symm
  subst hn
  refine ⟨he, fun hs => ?_⟩
  have := Text.not_mem_of_mem_cut hc '/' (by simpa using hs)
  simp at this

theorem Legible.join (hp : p.Legible) (hq : q.Legible) : (p.join q).Legible := by
  unfold Path.join
  split
  · exact hq
  · intro n hn
    rcases List.mem_append.mp hn with h | h
    · exact hp n h
    · exact hq n h

theorem Legible.child (hp : p.Legible) (name : String) : (p.child name).Legible :=
  hp.join (legible_ofText name)

theorem Legible.step_ofText (h : p.Legible) {s : Step} (hs : s ∈ p.steps) :
    s = .here ∨ Step.ofText s.text = s ∧ '/' ∉ s.text.toList := by
  cases s with
  | here => exact Or.inl rfl
  | up => exact Or.inr (by decide)
  | enter n => exact Or.inr ⟨(h n hs).entered, (h n hs).noSlash⟩

theorem pieces_of_isRootedText {s : String} (h : isRootedText s = true) :
    ∃ pieces, Text.pieces (· = '/') s = "" :: pieces := by
  obtain ⟨chars, hc⟩ : ∃ chars, s.toList = '/' :: chars := by
    cases hs : s.toList with
    | nil => simp [isRootedText, hs] at h
    | cons c chars =>
      obtain rfl : c = '/' := by simpa [isRootedText, hs] using h
      exact ⟨chars, rfl⟩
  exact ⟨(Text.cut (· = '/') chars).map String.ofList, by simp [Text.pieces, Text.cut, hc]⟩

section

variable (h : p.Legible) (hh : .here ∉ p.steps)

include h hh

theorem Legible.ofText_text {s : Step} (hs : s ∈ p.steps) :
    Step.ofText s.text = s ∧ '/' ∉ s.text.toList :=
  (h.step_ofText hs).resolve_left fun he => hh (he ▸ hs)

/-- Nothing is lost of the steps when they are written and read again. -/
theorem Legible.filter_ofText_text :
    ((p.steps.map Step.text).map Step.ofText).filter (· ≠ .here) = p.steps := by
  have hmap : (p.steps.map Step.text).map Step.ofText = p.steps := by
    rw [List.map_map]
    exact (List.map_congr_left fun s hm => (h.ofText_text hh hm).1).trans (List.map_id p.steps)
  rw [hmap]
  refine List.filter_eq_self.mpr fun s hm => ?_
  have hne : s ≠ .here := by
    rintro rfl
    exact hh hm
  simpa using hne

theorem Legible.pieces_intercalate (hn : p.steps ≠ []) :
    Text.pieces (· = '/') ("/".intercalate (p.steps.map Step.text)) = p.steps.map Step.text := by
  refine Text.pieces_intercalate (by simpa using hn) fun n hm => ?_
  obtain ⟨s, hs, rfl⟩ := List.mem_map.mp hm
  exact (h.ofText_text hh hs).2

/-- A legible path from the root can be read back from its text. -/
theorem Legible.ofText_toText (hr : p.rooted = true) : ofText p.toText = p := by
  have hroot : isRootedText p.toText = true := by
    simp [isRootedText, Path.toText, hr]
  have hsteps : (Step.allOf p.toText).filter (· ≠ .here) = p.steps := by
    by_cases hn : p.steps = []
    · simp only [Path.toText, hr, hn]
      decide
    · have hp := Text.pieces_slash_append "" ("/".intercalate (p.steps.map Step.text)) (by simp)
      rw [h.pieces_intercalate hh hn, String.empty_append] at hp
      rw [Step.allOf, Path.toText, hr, if_pos rfl, hp, List.map_cons,
        List.filter_cons_of_neg (by decide)]
      exact h.filter_ofText_text hh
  rw [ofText, hroot, hsteps, ← hr]

/-- A legible path from wherever one stands can be read back from its text. -/
theorem Legible.ofText_toText_relative (hr : p.rooted = false) : ofText p.toText = p := by
  have htext : p.toText = "/".intercalate (p.steps.map Step.text) := by
    simp [Path.toText, hr]
  by_cases hn : p.steps = []
  · obtain ⟨rooted, steps⟩ := p
    obtain rfl : rooted = false := hr
    obtain rfl : steps = [] := hn
    decide
  · have hp := h.pieces_intercalate hh hn
    rw [← htext] at hp
    -- the text does not start with a slash: its first piece would be empty, and no step is written so
    have hroot : isRootedText p.toText = false := by
      refine Bool.eq_false_iff.mpr fun hrooted => ?_
      obtain ⟨pieces, he⟩ := pieces_of_isRootedText hrooted
      have hempty : "" ∈ p.steps.map Step.text := by
        rw [← hp, he]
        exact List.mem_cons_self
      obtain ⟨s, hm, hs⟩ := List.mem_map.mp hempty
      obtain rfl : .here = s := by
        rw [← (h.ofText_text hh hm).1, hs]
        rfl
      exact hh hm
    rw [ofText, hroot, Step.allOf, hp, h.filter_ofText_text hh, ← hr]

end

/-! ## Clean paths -/

/-- Steps as they stand in a clean path: none stays, and only the first may lead up. -/
def Tidy (steps : List Step) : Prop := .here ∉ steps ∧ .up ∉ steps.tail

theorem Tidy.cleanStep {done : List Step} (h : Tidy done) (s : Step) :
    Tidy (cleanStep done s) := by
  cases s with
  | here => exact h
  | up =>
    by_cases hd : done = []
    · simp [Path.cleanStep, hd, Tidy]
    · simp only [Path.cleanStep, hd, if_false]
      refine ⟨fun hm => h.1 (List.dropLast_subset _ hm), fun hm => h.2 ?_⟩
      rw [List.tail_dropLast] at hm
      exact List.dropLast_subset _ hm
  | enter n =>
    unfold Path.cleanStep
    refine ⟨by simpa using h.1, ?_⟩
    cases done with
    | nil => simp
    | cons d done => simpa using h.2

theorem tidy_foldl (steps : List Step) {done : List Step} (h : Tidy done) :
    Tidy (steps.foldl cleanStep done) := by
  induction steps generalizing done with
  | nil => exact h
  | cons s steps ih => exact ih (h.cleanStep s)

theorem tidy_clean (p : Path) : Tidy p.clean.steps := tidy_foldl p.steps ⟨by simp, by simp⟩

theorem foldl_cleanStep_of_tidy (steps : List Step) {done : List Step} (h : Tidy (done ++ steps)) :
    steps.foldl cleanStep done = done ++ steps := by
  induction steps generalizing done with
  | nil => simp
  | cons s steps ih =>
    have hs : cleanStep done s = done ++ [s] := by
      cases s with
      | here => exact absurd (by simp) h.1
      | up =>
        cases done with
        | nil => rfl
        | cons d done => exact absurd (by simp) h.2
      | enter n => rfl
    rw [List.foldl_cons, hs, ih (by simpa using h)]
    simp

theorem clean_of_tidy (h : Tidy p.steps) : p.clean = p := by
  have ht : Tidy ([] ++ p.steps) := by simpa using h
  exact congrArg (Path.mk p.rooted) (foldl_cleanStep_of_tidy p.steps ht)

@[simp] theorem clean_clean (p : Path) : p.clean.clean = p.clean := clean_of_tidy (tidy_clean p)

theorem mem_foldl_cleanStep {steps done : List Step}
    (h : .enter n ∈ steps.foldl cleanStep done) : .enter n ∈ done ∨ .enter n ∈ steps := by
  induction steps generalizing done with
  | nil => exact Or.inl h
  | cons s steps ih =>
    rcases ih h with hd | hs
    · cases s with
      | here => exact Or.inl hd
      | up =>
        by_cases he : done = []
        · simp [cleanStep, he] at hd
        · simp only [cleanStep, he, if_false] at hd
          exact Or.inl (List.dropLast_subset _ hd)
      | enter m =>
        rcases List.mem_append.mp hd with hd | hd
        · exact Or.inl hd
        · exact Or.inr (by simpa using Or.inl hd)
    · exact Or.inr (List.mem_cons_of_mem _ hs)

theorem Legible.clean (h : p.Legible) : p.clean.Legible := by
  intro n hn
  rcases mem_foldl_cleanStep hn with hd | hs
  · cases hd
  · exact h n hs

end Path

/-! ## Places that paths lead to -/

namespace FileTree

variable {t : FileTree} {l m : Location} {p root : Path} {steps : List Step}

/-- A file or a directory is there. -/
def Stands (t : FileTree) (l : Location) : Prop :=
  t.lookup l ≠ none ∧ ∀ target, t.lookup l ≠ some (.link target)

theorem stands_of_directory (h : t.lookup l = some .directory) : t.Stands l := by
  simp [Stands, h]

theorem WellFormed.directory_dropLast (hw : t.WellFormed) (h : t.lookup l = some .directory) :
    t.lookup l.dropLast = some .directory := by
  by_cases hl : l = []
  · simpa [hl] using h
  · rw [List.dropLast_eq_take]
    exact (hw.above (by simp [h])).2 _ (by have := List.length_pos_iff.mpr hl; omega)

/-- What following steps gives: the names among them are names of the tree, and the end is there if the
beginning is. -/
structure Leads (t : FileTree) (l : Location) (steps : List Step) (m : Location) : Prop where
  named : ∀ n, .enter n ∈ steps → IsName n
  stands : t.Stands l → t.Stands m

theorem WellFormed.leads_followWith (hw : t.WellFormed)
    {onLink : Location → List Step → Except FileFault Location}
    (hlink : ∀ l steps m, onLink l steps = .ok m → t.Leads l steps m)
    (h : t.followWith onLink l steps = .ok m) : t.Leads l steps m := by
  induction steps generalizing l with
  | nil =>
    obtain rfl := Except.ok.inj h
    exact ⟨by simp, id⟩
  | cons s steps ih =>
    unfold followWith at h
    split at h
    · cases h
    · cases h
    · cases h
    · rename_i hdir
      split at h
      · have hl := ih h
        exact ⟨by simpa using hl.named, hl.stands⟩
      · have hl := ih h
        exact ⟨by simpa using hl.named,
          fun _ => hl.stands (stands_of_directory (hw.directory_dropLast hdir))⟩
      · rename_i name
        split at h
        · cases h
        · have hname : t.lookup (l ++ [name]) ≠ none → IsName name := fun hne =>
            (hw.above hne).1 name (by simp)
          split at h
          · cases h
          all_goals rename_i he
          · have hl := ih h
            exact ⟨by simpa using ⟨hname (by simp [he]), hl.named⟩,
              fun _ => hl.stands (by simp [Stands, he])⟩
          · have hl := ih h
            exact ⟨by simpa using ⟨hname (by simp [he]), hl.named⟩,
              fun _ => hl.stands (by simp [Stands, he])⟩
          · have hl := hlink _ _ _ h
            refine ⟨?_, fun _ => hl.stands ?_⟩
            · intro n hn
              rcases List.mem_cons.mp hn with hn | hn
              · obtain rfl := Step.enter.inj hn
                exact hname (by simp [he])
              · exact hl.named n (List.mem_append_right _ hn)
            · split
              · exact stands_of_directory (by simp [lookup])
              · exact stands_of_directory hdir

theorem WellFormed.leads_follow (hw : t.WellFormed) (links : Nat)
    (h : t.follow links l steps = .ok m) : t.Leads l steps m := by
  induction links generalizing l steps m with
  | zero => exact hw.leads_followWith (fun _ _ _ h => by cases h) h
  | succ links ih => exact hw.leads_followWith (fun _ _ _ h => ih h) h

theorem directory_of_follow {links : Nat} {s : Step} (h : t.follow links l (s :: steps) = .ok m) :
    t.lookup l = some .directory := by
  cases hl : t.lookup l with
  | none => cases links <;> simp [follow, followWith, hl] at h
  | some e =>
    cases e with
    | directory => rfl
    | file content => cases links <;> simp [follow, followWith, hl] at h
    | link target => cases links <;> simp [follow, followWith, hl] at h

/-- A path that leads somewhere is made of names of the tree, and something is there. -/
theorem WellFormed.of_locate (hw : t.WellFormed) (h : t.locate p = .ok l) :
    p.Legible ∧ t.Stands l := by
  unfold locate at h
  split at h
  · have hl := hw.leads_follow linkLimit h
    exact ⟨fun n hn => (hl.named n hn).isPiece, hl.stands (stands_of_directory (by simp [lookup]))⟩
  · split at h
    · cases h
    · rename_i hne
      have hl := hw.leads_follow linkLimit h
      obtain ⟨s, steps, hs⟩ := List.exists_cons_of_ne_nil hne
      exact ⟨fun n hn => (hl.named n hn).isPiece,
        hl.stands (stands_of_directory (directory_of_follow (hs ▸ h)))⟩

theorem WellFormed.legible_of_isFile (hw : t.WellFormed) (h : t.isFile p = true) : p.Legible := by
  cases hl : t.locate p with
  | error fault => simp [isFile, entry?, hl] at h
  | ok l => exact (hw.of_locate hl).1

/-! ## Settling -/

theorem settle_cases (t : FileTree) (p : Path) :
    (∃ l, t.locate p.clean = .ok l ∧ t.settle p = l.path) ∨
      (∃ fault, t.locate p.clean = .error fault) ∧ t.settle p = p.clean := by
  unfold settle
  cases h : t.locate p.clean with
  | ok l => exact Or.inl ⟨l, rfl, rfl⟩
  | error fault => exact Or.inr ⟨⟨fault, rfl⟩, rfl⟩

@[simp] theorem clean_settle (t : FileTree) (p : Path) : (t.settle p).clean = t.settle p := by
  rcases t.settle_cases p with ⟨l, -, h⟩ | ⟨-, h⟩ <;> simp [h]

theorem WellFormed.settle_settle (hw : t.WellFormed) (p : Path) :
    t.settle (t.settle p) = t.settle p := by
  rcases t.settle_cases p with ⟨l, hl, h⟩ | ⟨⟨fault, hl⟩, h⟩
  · obtain ⟨hne, hlink⟩ := (hw.of_locate hl).2
    rw [h, hw.settle_path hne hlink]
  · rw [h, settle, Path.clean_clean, hl]

theorem WellFormed.legible_settle (hw : t.WellFormed) (hp : p.Legible) : (t.settle p).Legible := by
  rcases t.settle_cases p with ⟨l, hl, h⟩ | ⟨-, h⟩
  · rw [h]
    exact Path.legible_path (hw.above (hw.of_locate hl).2.1).1
  · rw [h]
    exact hp.clean

/-- The text by which a legible path is known is that of the settled path. -/
theorem WellFormed.ofText_key (hw : t.WellFormed) (hp : p.Legible) :
    Path.ofText (t.key p) = t.settle p := by
  have hh : .here ∉ (t.settle p).steps := by
    have := (Path.tidy_clean (t.settle p)).1
    rwa [clean_settle] at this
  cases hr : (t.settle p).rooted with
  | true => exact (hw.legible_settle hp).ofText_toText hh hr
  | false => exact (hw.legible_settle hp).ofText_toText_relative hh hr

theorem WellFormed.key_ofText_key (hw : t.WellFormed) (hp : p.Legible) :
    t.key (.ofText (t.key p)) = t.key p := by
  rw [hw.ofText_key hp, key, hw.settle_settle, key]

/-! ## Below a root -/

/-- The text is the one by which something below the root is known. -/
structure Inside (t : FileTree) (root : Path) (key : String) : Prop where
  under : (Path.ofText key).isUnder root = true
  settled : t.key (.ofText key) = key

theorem Inside.key {k : String} (h : t.Inside root k) : t.Inside root (t.key (.ofText k)) := by
  rwa [h.settled]

theorem WellFormed.inside_key (hw : t.WellFormed) (hp : p.Legible)
    (hu : (t.settle p).isUnder root = true) : t.Inside root (t.key p) := by
  refine ⟨?_, hw.key_ofText_key hp⟩
  rwa [hw.ofText_key hp]

/-- What a client may name is inside. -/
theorem WellFormed.inside_of_confine (hw : t.WellFormed) (hroot : t.settle root = root)
    (hl : root.Legible) {raw : String} (h : t.confine root raw = .ok p) :
    t.Inside root (t.key p) ∧ p.toText = t.key p := by
  unfold confine at h
  dsimp only at h
  split at h
  · cases h
  · split at h
    · cases h
    · split at h
      · rename_i hu
        obtain rfl := Except.ok.inj h
        rw [hroot] at hu
        have hk : t.key (t.settle (root.child (Text.trim raw))) =
            t.key (root.child (Text.trim raw)) := by
          rw [key, hw.settle_settle, key]
        rw [hk]
        exact ⟨hw.inside_key (hl.child _) hu, rfl⟩
      · cases h

end FileTree

end DepAtlas
