import DepAtlas.FileTree
import Mathlib.Data.List.Nodup

/-! # Well-formed file trees

In a well-formed tree each location has one entry, the places above an entry are directories, and all
names can be written in paths. There the path of a location leads to it, is the path by which what
stands there is known, and can be read back from its text.
-/

namespace DepAtlas

namespace Text

variable {p : Char → Bool} {xs : List Char}

theorem cut_of_forall (h : ∀ c ∈ xs, p c = false) : cut p xs = [xs] := by
  induction xs with
  | nil => rfl
  | cons c xs ih =>
    rw [List.forall_mem_cons] at h
    simp [cut, h.1, ih h.2]

/-- A separator cuts a list, whatever stands before it. -/
theorem cut_append_separator {s : Char} (hs : p s = true) (xs ys : List Char) :
    cut p (xs ++ s :: ys) = cut p xs ++ cut p ys := by
  induction xs with
  | nil => simp [cut, hs]
  | cons c xs ih =>
    rw [List.cons_append, cut, cut]
    by_cases hc : p c = true
    · simp [hc, ih]
    · obtain ⟨piece, more, hcut⟩ := List.exists_cons_of_ne_nil (cut_ne_nil p xs)
      simp [hc, ih, hcut]

theorem cut_append_cons (h : ∀ c ∈ xs, p c = false) {s : Char} (hs : p s = true) (ys : List Char) :
    cut p (xs ++ s :: ys) = xs :: cut p ys := by
  rw [cut_append_separator hs, cut_of_forall h, List.singleton_append]

theorem pieces_slash_append (name rest : String) (h : '/' ∉ name.toList) :
    pieces (· = '/') (name ++ "/" ++ rest) = name :: pieces (· = '/') rest := by
  have hn : ∀ c ∈ name.toList, decide (c = '/') = false := fun c hc =>
    decide_eq_false (by rintro rfl; exact h hc)
  have ht : (name ++ "/" ++ rest).toList = name.toList ++ '/' :: rest.toList := by simp
  rw [pieces, ht, cut_append_cons hn (by simp)]
  simp [pieces]

theorem pieces_slash_of_not_mem {name : String} (h : '/' ∉ name.toList) :
    pieces (· = '/') name = [name] := by
  have hn : ∀ c ∈ name.toList, decide (c = '/') = false := fun c hc =>
    decide_eq_false (by rintro rfl; exact h hc)
  rw [pieces, cut_of_forall hn]
  simp

/-- Names joined by slashes are told apart again. -/
theorem pieces_intercalate {names : List String} (hn : names ≠ [])
    (h : ∀ n ∈ names, '/' ∉ n.toList) : pieces (· = '/') ("/".intercalate names) = names := by
  induction names with
  | nil => exact absurd rfl hn
  | cons n names ih =>
    rw [List.forall_mem_cons] at h
    cases names with
    | nil => rw [String.intercalate_singleton, pieces_slash_of_not_mem h.1]
    | cons m names =>
      rw [String.intercalate_cons_cons, pieces_slash_append _ _ h.1, ih (by simp) h.2]

theorem mem_intercalate {separator : String} {names : List String} {c : Char}
    (h : c ∈ (separator.intercalate names).toList) :
    c ∈ separator.toList ∨ ∃ n ∈ names, c ∈ n.toList := by
  induction names with
  | nil => simp at h
  | cons n names ih =>
    cases names with
    | nil => exact Or.inr ⟨n, List.mem_cons_self, by simpa using h⟩
    | cons m names =>
      rw [String.intercalate_cons_cons, String.toList_append, String.toList_append, List.mem_append,
        List.mem_append] at h
      rcases h with (h | h) | h
      · exact Or.inr ⟨n, List.mem_cons_self, h⟩
      · exact Or.inl h
      · exact (ih h).imp_right fun ⟨k, hk, hc⟩ => ⟨k, List.mem_cons_of_mem _ hk, hc⟩

end Text

/-- A text that can stand as a name in a directory. -/
structure IsName (n : String) : Prop where
  notHere : n ≠ "" ∧ n ≠ "."
  notUp : n ≠ ".."
  noSlash : '/' ∉ n.toList
  short : n.utf8ByteSize ≤ FileTree.nameLimit

instance (n : String) : Decidable (IsName n) :=
  decidable_of_iff ((n ≠ "" ∧ n ≠ ".") ∧ n ≠ ".." ∧ '/' ∉ n.toList ∧
      n.utf8ByteSize ≤ FileTree.nameLimit)
    ⟨fun ⟨h, u, s, l⟩ => ⟨h, u, s, l⟩, fun h => ⟨h.notHere, h.notUp, h.noSlash, h.short⟩⟩

theorem IsName.step_ofText {n : String} (h : IsName n) : Step.ofText n = .enter n := by
  simp [Step.ofText, h.notHere.1, h.notHere.2, h.notUp]

theorem Path.foldl_cleanStep_enter (done : List Step) (names : List String) :
    (names.map Step.enter).foldl cleanStep done = done ++ names.map Step.enter := by
  induction names generalizing done with
  | nil => simp
  | cons n names ih =>
    rw [List.map_cons, List.foldl_cons, cleanStep, ih, List.append_assoc]
    rfl

namespace Location

variable {l : Location}

@[simp] theorem clean_path (l : Location) : l.path.clean = l.path := by
  rw [Path.clean, path, Path.foldl_cleanStep_enter, List.nil_append]

theorem toText_path (l : Location) : l.path.toText = "/" ++ "/".intercalate l := by
  have h : l.map (Step.text ∘ Step.enter) = l := by
    rw [show Step.text ∘ Step.enter = id from rfl, List.map_id]
  simp [path, Path.toText, h]

theorem isRootedText_path (l : Location) : Path.isRootedText l.path.toText = true := by
  rw [toText_path]
  simp [Path.isRootedText]

theorem allOf_path (h : ∀ n ∈ l, IsName n) (hl : l ≠ []) :
    Step.allOf l.path.toText = .here :: l.map Step.enter := by
  have hp : Text.pieces (· = '/') l.path.toText = "" :: l := by
    have hs := Text.pieces_slash_append "" ("/".intercalate l) (by simp)
    rw [Text.pieces_intercalate hl fun n hn => (h n hn).noSlash] at hs
    rwa [toText_path, ← String.empty_append (s := "/")]
  rw [Step.allOf, hp, List.map_cons]
  congr 1
  exact List.map_congr_left fun n hn => (h n hn).step_ofText

/-- A location can be read back from the text of its path. -/
theorem ofText_toText (h : ∀ n ∈ l, IsName n) : Path.ofText l.path.toText = l.path := by
  rw [Path.ofText, isRootedText_path]
  by_cases hl : l = []
  · subst hl
    decide
  · rw [allOf_path h hl, path, List.filter_cons_of_neg (by simp)]
    congr 1
    exact List.filter_eq_self.mpr fun s hs => by
      obtain ⟨n, -, rfl⟩ := List.mem_map.mp hs
      simp

theorem path_injective : Function.Injective path := by
  intro l m h
  have hs : l.map Step.enter = m.map Step.enter := congrArg Path.steps h
  exact List.map_injective_iff.mpr (fun a b h => Step.enter.inj h) hs

end Location

namespace FileTree

/-- The tree is one that a file system can hold. -/
structure WellFormed (t : FileTree) : Prop where
  distinct : (t.entries.map (·.1)).Nodup
  below : ∀ x ∈ t.entries, x.1 ≠ []
  named : ∀ x ∈ t.entries, ∀ n ∈ x.1, IsName n
  nested : ∀ x ∈ t.entries, ∀ n < x.1.length, t.lookup (x.1.take n) = some .directory

instance (t : FileTree) : Decidable t.WellFormed :=
  decidable_of_iff ((t.entries.map (·.1)).Nodup ∧ (∀ x ∈ t.entries, x.1 ≠ []) ∧
      (∀ x ∈ t.entries, ∀ n ∈ x.1, IsName n) ∧
      ∀ x ∈ t.entries, ∀ n < x.1.length, t.lookup (x.1.take n) = some .directory)
    ⟨fun ⟨d, b, m, n⟩ => ⟨d, b, m, n⟩, fun h => ⟨h.distinct, h.below, h.named, h.nested⟩⟩

variable {t : FileTree} {l : Location}

theorem WellFormed.lookup_of_mem (h : t.WellFormed) {e : Entry} (hm : (l, e) ∈ t.entries) :
    t.lookup l = some e := by
  obtain ⟨x, hx⟩ : ∃ x, t.entries.find? (·.1 = l) = some x := by
    rw [← Option.isSome_iff_exists, List.find?_isSome]
    exact ⟨(l, e), hm, by simp⟩
  have hl : x.1 = l := by simpa using List.find?_some hx
  have he : x = (l, e) :=
    List.inj_on_of_nodup_map h.distinct (List.mem_of_find?_eq_some hx) hm hl
  have hn : l ≠ [] := h.below _ hm
  simp [lookup, hn, hx, he]

theorem mem_of_lookup {e : Entry} (hl : l ≠ []) (h : t.lookup l = some e) :
    (l, e) ∈ t.entries := by
  rw [lookup, if_neg hl] at h
  obtain ⟨x, hx, rfl⟩ := Option.map_eq_some_iff.mp h
  obtain rfl : x.1 = l := by simpa using List.find?_some hx
  exact List.mem_of_find?_eq_some hx

/-- Names lead from directory to directory down to the place of the last one. -/
theorem followWith_enter (onLink : Location → List Step → Except FileFault Location)
    (names : List String) (l : Location) (hn : ∀ n ∈ names, n.utf8ByteSize ≤ nameLimit)
    (hd : ∀ n < names.length, t.lookup (l ++ names.take n) = some .directory)
    (hl : ∀ target, t.lookup (l ++ names) ≠ some (.link target)) (he : t.lookup (l ++ names) ≠ none) :
    t.followWith onLink l (names.map .enter) = .ok (l ++ names) := by
  induction names generalizing l with
  | nil => simp [followWith]
  | cons n names ih =>
    rw [List.forall_mem_cons] at hn
    have hdir : t.lookup l = some .directory := by simpa using hd 0 (by simp)
    have hnext : t.followWith onLink (l ++ [n]) (names.map .enter) = .ok (l ++ n :: names) := by
      rw [ih (l ++ [n]) hn.2 (fun k hk => ?_) (by simpa using hl) (by simpa using he)]
      · simp
      · simpa using hd (k + 1) (by simpa using hk)
    -- the place of the first name is a directory, or the last place
    have hplace : t.lookup (l ++ [n]) ≠ none ∧ ∀ target, t.lookup (l ++ [n]) ≠ some (.link target) := by
      cases names with
      | nil => exact ⟨he, hl⟩
      | cons m names =>
        have hk : t.lookup (l ++ [n]) = some .directory := by simpa using hd 1 (by simp)
        simp [hk]
    rw [List.map_cons, followWith]
    simp only [hdir, Nat.not_lt.mpr hn.1, if_false]
    split
    · rename_i hnone
      exact absurd hnone hplace.1
    · exact hnext
    · exact hnext
    · rename_i target hlink
      exact absurd hlink (hplace.2 target)

theorem follow_enter (links : Nat) (names : List String) (l : Location)
    (hn : ∀ n ∈ names, n.utf8ByteSize ≤ nameLimit)
    (hd : ∀ n < names.length, t.lookup (l ++ names.take n) = some .directory)
    (hl : ∀ target, t.lookup (l ++ names) ≠ some (.link target)) (he : t.lookup (l ++ names) ≠ none) :
    t.follow links l (names.map .enter) = .ok (l ++ names) := by
  cases links <;> exact followWith_enter _ names l hn hd hl he

/-- What stands at a location, link or not, has directories above it. -/
theorem WellFormed.above (h : t.WellFormed) (he : t.lookup l ≠ none) :
    (∀ n ∈ l, IsName n) ∧ ∀ n < l.length, t.lookup (l.take n) = some .directory := by
  by_cases hl : l = []
  · subst hl
    exact ⟨by simp, by simp⟩
  · obtain ⟨e, he⟩ := Option.ne_none_iff_exists'.mp he
    have hm := mem_of_lookup hl he
    exact ⟨h.named _ hm, h.nested _ hm⟩

theorem WellFormed.locate_path (h : t.WellFormed) (he : t.lookup l ≠ none)
    (hl : ∀ target, t.lookup l ≠ some (.link target)) : t.locate l.path = .ok l := by
  obtain ⟨hn, hd⟩ := h.above he
  have hf := follow_enter linkLimit l [] (fun n hm => (hn n hm).short) (by simpa using hd)
    (by simpa using hl) (by simpa using he)
  simpa [locate, Location.path] using hf

theorem follow_here (t : FileTree) (links : Nat) (steps : List Step) :
    t.follow links [] (.here :: steps) = t.follow links [] steps := by
  cases links <;> simp [follow, followWith, lookup]

theorem locateText_path (t : FileTree) (hn : ∀ n ∈ l, IsName n) (hl : l ≠ []) :
    t.locateText l.path.toText = t.locate l.path := by
  have htext : l.path.toText ≠ "" := by
    intro he
    have := Location.isRootedText_path l
    rw [he] at this
    cases this
  simp only [locateText, htext, Location.isRootedText_path, Location.allOf_path hn hl, if_true,
    if_false, follow_here]
  rfl

theorem WellFormed.settle_path (h : t.WellFormed) (he : t.lookup l ≠ none)
    (hl : ∀ target, t.lookup l ≠ some (.link target)) : t.settle l.path = l.path := by
  rw [settle, Location.clean_path, h.locate_path he hl]

section File

variable {content : List UInt8}

theorem WellFormed.locate_file (h : t.WellFormed) (hf : t.lookup l = some (.file content)) :
    t.locate l.path = .ok l :=
  h.locate_path (by simp [hf]) (by simp [hf])

theorem WellFormed.read_file (h : t.WellFormed) (hf : t.lookup l = some (.file content)) :
    t.read l.path = .ok content := by
  simp [read, h.locate_file hf, hf, bind, Except.bind, pure, Except.pure]

theorem WellFormed.isFile_file (h : t.WellFormed) (hf : t.lookup l = some (.file content)) :
    t.isFile l.path = true := by
  simp [isFile, entry?, h.locate_file hf, hf]

theorem WellFormed.key_file (h : t.WellFormed) (hf : t.lookup l = some (.file content)) :
    t.key l.path = l.path.toText := by
  rw [key, h.settle_path (by simp [hf]) (by simp [hf])]

/-- The key of a file leads to the file. -/
theorem WellFormed.ofText_key_file (h : t.WellFormed) (hf : t.lookup l = some (.file content)) :
    Path.ofText (t.key l.path) = l.path := by
  rw [h.key_file hf, Location.ofText_toText (h.above (by simp [hf])).1]

theorem exists_of_read {p : Path} (h : t.read p = .ok content) :
    ∃ m, t.locate p = .ok m ∧ t.lookup m = some (.file content) := by
  cases hm : t.locate p with
  | error fault => simp [read, hm, bind, Except.bind] at h
  | ok m =>
    refine ⟨m, rfl, ?_⟩
    simp only [read, hm, bind, Except.bind] at h
    split at h
    · rename_i hf
      rw [hf, Except.ok.inj h]
    · cases h
    · cases h

theorem isFile_of_read {p : Path} (h : t.read p = .ok content) : t.isFile p = true := by
  obtain ⟨m, hm, hf⟩ := exists_of_read h
  simp [isFile, entry?, hm, hf]

/-- What a plain path leads to is what its key leads to. -/
theorem WellFormed.read_key (h : t.WellFormed) (hr : t.read l.path = .ok content) :
    t.read (.ofText (t.key l.path)) = .ok content := by
  obtain ⟨m, hm, hf⟩ := exists_of_read hr
  have hk : t.key l.path = m.path.toText := by rw [key, settle, Location.clean_path, hm]
  rw [hk, Location.ofText_toText (h.above (by simp [hf])).1, h.read_file hf]

end File

end FileTree

end DepAtlas
