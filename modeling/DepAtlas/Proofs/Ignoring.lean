import DepAtlas.Proofs.Scanning
import DepAtlas.Watch.PathFilter

/-! # Scans and changes of files

A scan walks down and asks all rules about each place it comes to; a change names a file, and the nearest
directory with rules about the way to it decides. Both come to the same in the end as far as they read
the same rules, except where a rule takes back what another one ignores, and where an exclusion covers a
directory: the names of changed files are held against the exclusions, and those of their directories are
not.
-/

namespace DepAtlas

open Ignore

namespace Ignore

/-! ## The nearest answer -/

variable {α : Type} {f g : Nat → Option α} {n : Nat} {x : α}

/-- The answer for the greatest number below a bound for which there is one. -/
def nearest? (n : Nat) (f : Nat → Option α) : Option α := (List.range n).reverse.findSome? f

theorem nearest?_succ (n : Nat) (f : Nat → Option α) : nearest? (n + 1) f = (f n).or (nearest? n f) := by
  simp only [nearest?, List.range_succ, List.reverse_append, List.reverse_singleton,
    List.singleton_append, List.findSome?_cons]
  cases f n <;> rfl

theorem nearest?_eq_none_iff : nearest? n f = none ↔ ∀ m < n, f m = none := by
  simp [nearest?]

theorem nearest?_eq_some_iff :
    nearest? n f = some x ↔ ∃ m < n, f m = some x ∧ ∀ k, m < k → k < n → f k = none := by
  induction n with
  | zero => simp [nearest?]
  | succ n ih =>
    rw [nearest?_succ, Option.or_eq_some_iff, ih]
    constructor
    · rintro (hn | ⟨hn, m, hm, hx, hnone⟩)
      · exact ⟨n, n.lt_succ_self, hn, fun k hk hk' => absurd hk (by omega)⟩
      · refine ⟨m, by omega, hx, fun k hk hk' => ?_⟩
        rcases Nat.lt_succ_iff_lt_or_eq.mp hk' with hlt | rfl
        · exact hnone k hk hlt
        · exact hn
    · rintro ⟨m, hm, hx, hnone⟩
      rcases Nat.lt_succ_iff_lt_or_eq.mp hm with hlt | rfl
      · exact Or.inr ⟨hnone n hlt n.lt_succ_self, m, hlt, hx, fun k hk hk' => hnone k hk (by omega)⟩
      · exact Or.inl hx

theorem nearest?_congr (h : ∀ m < n, f m = g m) : nearest? n f = nearest? n g := by
  induction n with
  | zero => rfl
  | succ n ih =>
    rw [nearest?_succ, nearest?_succ, h n n.lt_succ_self, ih fun m hm => h m (by omega)]

/-- Counted from a lower bound on. -/
theorem eq_none_of_nearest?_add {b m : Nat} (h : nearest? n (fun i => f (b + i)) = none) (hb : b ≤ m)
    (hm : m < b + n) : f m = none := by
  have := nearest?_eq_none_iff.mp h (m - b) (by omega)
  rwa [show b + (m - b) = m by omega] at this

/-- Where there is an answer for one number at most, it is the nearest. -/
theorem nearest?_eq_of_only {b : Nat} (hb : b < n) (h : ∀ m < n, m ≠ b → f m = none) :
    nearest? n f = f b := by
  cases hx : f b with
  | none =>
    refine nearest?_eq_none_iff.mpr fun m hm => ?_
    by_cases he : m = b
    · rw [he, hx]
    · exact h m hm he
  | some x => exact nearest?_eq_some_iff.mpr ⟨b, hb, hx, fun k hk hkn => h k hkn (by omega)⟩

/-! ## Rules -/

theorem Rules.verdict?_append (a b : Rules) (path : String) (isDirectory : Bool) :
    Rules.verdict? (a ++ b) path isDirectory =
      (b.verdict? path isDirectory).or (a.verdict? path isDirectory) := by
  simp only [Rules.verdict?, List.reverse_append, List.find?_append, Option.map_or]

/-- The paths above a text of names. -/
theorem above_intercalate {names : List String} (hne : names ≠ []) (h : ∀ n ∈ names, IsName n) :
    above ("/".intercalate names) =
      (List.range names.length).reverse.map fun k => "/".intercalate (names.take k) := by
  obtain ⟨first, rest, rfl⟩ := List.exists_cons_of_ne_nil hne
  rw [above, Text.pieces_intercalate hne fun n hn => (h n hn).noSlash]
  rw [List.forall_mem_cons] at h
  have hrest : rest.filter (fun s => s ≠ "" && s ≠ ".") = rest :=
    List.filter_eq_self.mpr fun n hn => by simp [(h.2 n hn).notHere]
  simp only [h.1.notHere.1, if_false, hrest, List.singleton_append]

/-- Rules speak of a file or else of the nearest directory above it of which they speak, their own
included. -/
theorem Rules.verdictAbove?_intercalate (rules : Rules) {names : List String} (hne : names ≠ [])
    (h : ∀ n ∈ names, IsName n) :
    rules.verdictAbove? ("/".intercalate names) false = nearest? (names.length + 1) fun k =>
      rules.verdict? ("/".intercalate (names.take k)) (k < names.length) := by
  rw [nearest?_succ, List.take_length, Rules.verdictAbove?, above_intercalate hne h,
    List.findSome?_map]
  simp only [lt_irrefl, decide_false]
  congr 1
  exact nearest?_congr fun k hk => by simp [hk]

end Ignore

/-- The text of a path below a directory, without that of the directory. -/
theorem relativeText_of_isPrefix {base l : Location} (hn : ∀ n ∈ l, IsName n) (hbelow : base <+: l)
    (hlt : base.length < l.length) :
    relativeText base.path.toText l.path.toText = Scan.pathBelow base l := by
  obtain ⟨rest, rfl⟩ := hbelow
  have hne : rest ≠ [] := by
    rintro rfl
    simp at hlt
  rw [Scan.pathBelow, List.drop_left]
  exact relativeText_path hne fun n h => hn n (List.mem_append_right _ h)

/-! ## What rule files say on the way to a place -/

namespace FileTree

variable {t : FileTree} {l base : Location} {file : String} {m n : Nat}

/-- What a rule file `m` steps down says of the place `n` steps down on the way to `l`. -/
def tells (t : FileTree) (l : Location) (file : String) (m n : Nat) : Option Verdict :=
  (Rules.ofFile t ((Location.path (l.take m)).child file)).verdict?
    (Scan.pathBelow (l.take m) (l.take n)) (n < l.length)

/-- What the two ignore files of one directory say together. -/
def tellsBoth (t : FileTree) (l : Location) (m n : Nat) : Option Verdict :=
  (t.tells l ".ignore" m n).or (t.tells l ".gitignore" m n)

/-- What the ignore files of the directory `m` steps down say of the way from there on: of the last place of
which they speak. -/
def tellsWay (t : FileTree) (l : Location) (m : Nat) : Option Verdict :=
  nearest? (l.length - m + 1) fun k => t.tellsBoth l m (m + k)

theorem verdict?_rulesAt (t : FileTree) (l : Location) (m n : Nat) :
    (Watch.PathFilter.rulesAt t (Location.path (l.take m))).verdict?
      (Scan.pathBelow (l.take m) (l.take n)) (n < l.length) = t.tellsBoth l m n :=
  Rules.verdict?_append ..

end FileTree

/-! ## The scan -/

namespace Scan

variable {t : FileTree} {l d : Location} {n : Nat}

theorem findSome?_filterMap {α β γ : Type} (f : α → Option β) (g : β → Option γ) (xs : List α) :
    (xs.filterMap f).findSome? g = xs.findSome? fun x => (f x).bind g := by
  rw [← List.head?_filterMap, List.filterMap_filterMap, List.head?_filterMap]

/-- The rules of a directory are found, unless it has none. -/
theorem bind_find?_rulesOf (hd : t.lookup d = some .directory) {kind : DirectoryRules → Rules}
    (hkind : ∀ r, r.isEmpty = true → kind r = []) (path : String) (isDirectory : Bool) :
    (((rulesOf t).find? (·.1 = d)).bind fun x => (kind x.2).verdict? path isDirectory) =
      (kind (.read t d.path)).verdict? path isDirectory := by
  have hmem : d ∈ [] :: (t.entries.filter (·.2 = .directory)).map (·.1) := by
    by_cases hnil : d = []
    · simp [hnil]
    · exact List.mem_cons_of_mem _ (List.mem_map.mpr
        ⟨(d, .directory), List.mem_filter.mpr ⟨FileTree.mem_of_lookup hnil hd, by simp⟩, rfl⟩)
  cases hfind : (rulesOf t).find? (·.1 = d) with
  | some x =>
    obtain ⟨hx, -⟩ := List.mem_filter.mp (List.mem_of_find?_eq_some hfind)
    obtain ⟨d', -, rfl⟩ := List.mem_map.mp hx
    obtain rfl : d' = d := by simpa using List.find?_some hfind
    rfl
  | none =>
    have hempty : (DirectoryRules.read t d.path).isEmpty = true := by
      by_contra hne
      have hin : (d, DirectoryRules.read t d.path) ∈ rulesOf t :=
        List.mem_filter.mpr ⟨List.mem_map_of_mem hmem, by simpa using hne⟩
      simpa using List.find?_eq_none.mp hfind _ hin
    rw [hkind _ hempty]
    rfl

/-- Of each place, the scan asks the rule files kind by kind, and of each kind the nearest one. -/
theorem verdict?_take (hw : t.WellFormed) (hl : t.lookup l ≠ none) (hn : n ≤ l.length) :
    verdict? (rulesOf t) (l.take n) (n < l.length) =
      (nearest? n fun m => t.tells l ".ignore" m n).or
        ((nearest? n fun m => t.tells l ".gitignore" m n).or
          (nearest? n fun m => t.tells l ".git/info/exclude" m n)) := by
  have hlen : (l.take n).length = n := by simp [hn]
  have hsay : ∀ (kind : DirectoryRules → Rules) (file : String),
      (∀ r, r.isEmpty = true → kind r = []) →
      (∀ d, kind (.read t d) = Rules.ofFile t (d.child file)) →
      (((List.range (l.take n).length).reverse.filterMap fun m =>
        (rulesOf t).find? (·.1 = (l.take n).take m)).findSome? fun x =>
          (kind x.2).verdict? (pathBelow x.1 (l.take n)) (n < l.length)) =
        nearest? n fun m => t.tells l file m n := by
    intro kind file hkind hfile
    rw [findSome?_filterMap, hlen]
    refine nearest?_congr fun m hm => ?_
    have htake : (l.take n).take m = l.take m := by rw [List.take_take, Nat.min_eq_left hm.le]
    have hdir := (hw.above hl).2 m (by omega)
    -- what is found is about the directory that was looked for
    have hown : ∀ x ∈ (rulesOf t).find? (·.1 = l.take m), x.1 = l.take m := fun x hx => by
      simpa using List.find?_some hx
    rw [htake]
    rw [FileTree.tells, ← hfile, ← bind_find?_rulesOf hdir hkind]
    exact Option.bind_congr fun x hx => by rw [hown x hx]
  unfold verdict?
  dsimp only
  rw [hsay (·.ignoreFile) ".ignore" (by simp +contextual [DirectoryRules.isEmpty]) fun _ => rfl,
    hsay (·.gitIgnore) ".gitignore" (by simp +contextual [DirectoryRules.isEmpty]) fun _ => rfl,
    hsay (·.gitExclude) ".git/info/exclude" (by simp +contextual [DirectoryRules.isEmpty])
      fun _ => rfl]

end Scan

/-! ## The filter -/

namespace Watch.PathFilter

variable {t : FileTree} {l base : Location} {m : Nat} {e : Exclusions} {respect : Bool}
  {content : List UInt8}

/-- The last word of the rules about the file at a path. -/
def lastWord? (f : PathFilter) (t : FileTree) (p : Path) : Option Verdict :=
  (p.below? f.root).bind fun below =>
    ((f.rulesFor t below).filterMap fun x =>
      x.2.verdictAbove? (relativeText x.1.toText p.toText) false).getLast?

theorem verdictAbove?_take (rules : Rules) (hn : ∀ n ∈ l, IsName n) (hm : m < l.length) :
    rules.verdictAbove? (relativeText (Location.path (l.take m)).toText l.path.toText) false =
      nearest? (l.length - m + 1) fun k =>
        rules.verdict? (Scan.pathBelow (l.take m) (l.take (m + k))) (m + k < l.length) := by
  have hne : l.drop m ≠ [] := by simpa using hm
  have hnames : ∀ n ∈ l.drop m, IsName n := fun n h => hn n (List.mem_of_mem_drop h)
  have hlen : (l.take m).length = m := by simp [hm.le]
  rw [relativeText_of_isPrefix hn (List.take_prefix m l) (by omega), Scan.pathBelow, hlen,
    rules.verdictAbove?_intercalate hne hnames, List.length_drop]
  refine nearest?_congr fun k _ => ?_
  rw [Scan.pathBelow, hlen, List.drop_take, Nat.add_sub_cancel_left]
  congr 1
  exact decide_eq_decide.mpr (by omega)

theorem below?_path (hbelow : base <+: l) :
    l.path.below? base.path = some ⟨false, (l.drop base.length).map .enter⟩ := by
  obtain ⟨rest, rfl⟩ := hbelow
  simp [Path.below?, Path.isUnder, Location.path]

/-- Of the directories on the way to a file the nearest one with rules about the way decides, and last
of all the rules of the repository. -/
theorem lastWord?_eq (hn : ∀ n ∈ l, IsName n) (hbelow : base <+: l) (hlt : base.length < l.length) :
    lastWord? ⟨base.path, respect, e⟩ t l.path =
      (nearest? (l.length - base.length) fun i => t.tellsWay l (base.length + i)).or
        (nearest? (l.length - base.length + 1) fun k =>
          t.tells l ".git/info/exclude" base.length (base.length + k)) := by
  have hbase : l.take base.length = base := (List.prefix_iff_eq_take.mp hbelow).symm
  have hlen : ((l.drop base.length).map Step.enter).length - 1 + 1 = l.length - base.length := by
    simp only [List.length_map, List.length_drop]
    omega
  rw [lastWord?, below?_path hbelow, Option.bind_some, List.getLast?_filterMap, rulesFor,
    List.reverse_cons, List.findSome?_append, ← List.map_reverse, List.findSome?_map, hlen]
  congr 1
  · refine nearest?_congr fun i hi => ?_
    have hdir : (⟨true, base.path.steps ++ ((l.drop base.length).map Step.enter).take i⟩ : Path) =
        Location.path (l.take (base.length + i)) := by
      rw [List.take_add, hbase]
      simp [Location.path, List.map_take]
    simp only [Function.comp]
    rw [show base.path.rooted = true from rfl, hdir, verdictAbove?_take _ hn (by omega)]
    exact nearest?_congr fun k _ => t.verdict?_rulesAt l _ _
  · simp only [List.findSome?_cons, List.findSome?_nil]
    have hex := verdictAbove?_take (l := l)
      (Rules.ofFile t ((Location.path base).child ".git/info/exclude")) hn hlt
    rw [hbase] at hex
    rw [hex]
    simp only [FileTree.tells, hbase]
    cases nearest? _ _ <;> rfl

/-- A file is told to be ignored if it is excluded, or if this is the last word of the rules. -/
theorem ignores_file (hw : t.WellFormed) (hfile : t.lookup l = some (.file content))
    (hlanguage : (Language.ofPath? l.path).isSome = true) (hbelow : base <+: l) :
    ignores ⟨base.path, respect, e⟩ t l.path.toText = true ↔
      e.excludes l.path.toText false = true ∨
        respect = true ∧ lastWord? ⟨base.path, respect, e⟩ t l.path = some .ignore := by
  have hn := (hw.above (l := l) (by simp [hfile])).1
  have hne : l ≠ [] := by
    rintro rfl
    cases hfile
  have hlocate : t.locateText l.path.toText = .ok l := by
    rw [t.locateText_path hn hne, hw.locate_file hfile]
  have hnone : (Language.ofPath? l.path).isNone = false := by
    simpa [Option.isSome_iff_ne_none] using hlanguage
  simp only [ignores, lastWord?, Location.ofText_toText hn, below?_path hbelow, hlocate, hfile, hnone,
    Option.bind_some]
  by_cases hx : e.excludes l.path.toText false = true <;> cases respect <;> simp [hx]

end Watch.PathFilter

/-! ## Both together -/

/-- On the way from a directory to a place below it, all rules that a scan heeds are in the ignore files
of the directories on the way and in the one of the repository, and it makes no difference whether the two
kinds of ignore files are asked one after the other or directory by directory. Rules that speak of their
own directory speak of a place on the way too. -/
structure FileTree.Harmonious (t : FileTree) (base l : Location) : Prop where
  above : ∀ m < base.length, ∀ n ≤ l.length, base.length < n →
    t.tellsBoth l m n = none ∧ t.tells l ".git/info/exclude" m n = none
  nested : ∀ n ≤ l.length, ∀ m < n, base.length < m → t.tells l ".git/info/exclude" m n = none
  kinds : ∀ n ≤ l.length, base.length < n →
    ((nearest? n fun m => t.tells l ".ignore" m n).or (nearest? n fun m => t.tells l ".gitignore" m n)) =
      nearest? n fun m => t.tellsBoth l m n
  own : ∀ m < l.length, base.length ≤ m → t.tellsBoth l m m ≠ none →
    ∃ n ≤ l.length, m < n ∧ t.tellsBoth l m n ≠ none
  ownExclude : t.tells l ".git/info/exclude" base.length base.length ≠ none →
    ∃ n ≤ l.length, base.length < n ∧ t.tells l ".git/info/exclude" base.length n ≠ none

namespace FileTree.Harmonious

variable {t : FileTree} {l base : Location} {v : Verdict} {m n : Nat}

/-- Of a place on the way, the nearest directory that speaks of it decides. -/
theorem verdict?_eq (h : t.Harmonious base l) (hw : t.WellFormed) (hl : t.lookup l ≠ none)
    (hb : base.length < n) (hn : n ≤ l.length) :
    Scan.verdict? (Scan.rulesOf t) (l.take n) (n < l.length) =
      (nearest? n fun m => t.tellsBoth l m n).or (t.tells l ".git/info/exclude" base.length n) := by
  have hex : (nearest? n fun m => t.tells l ".git/info/exclude" m n) =
      t.tells l ".git/info/exclude" base.length n := by
    refine nearest?_eq_of_only hb fun m hm hne => ?_
    rcases Nat.lt_or_gt_of_ne hne with hlt | hgt
    · exact (h.above m hlt n hn hb).2
    · exact h.nested n hn m hm hgt
  rw [Scan.verdict?_take hw hl hn, ← Option.or_assoc, h.kinds n hn hb, hex]

/-- A directory that says nothing of the places below it on the way is silent as a whole. -/
theorem tells_of_nearest {f : Nat → Nat → Option Verdict}
    (hown : f m m ≠ none → ∃ n ≤ l.length, m < n ∧ f m n ≠ none) (hm : m ≤ l.length)
    (hv : nearest? (l.length - m + 1) (fun k => f m (m + k)) = some v) :
    ∃ n, m < n ∧ n ≤ l.length ∧ f m n = some v := by
  obtain ⟨k, hk, hx, hnone⟩ := nearest?_eq_some_iff.mp hv
  refine ⟨m + k, ?_, by omega, hx⟩
  by_contra hle
  obtain rfl : k = 0 := by omega
  obtain ⟨n, hn, hmn, hf⟩ := hown (by rw [show f m m = some v from hx]; simp)
  refine hf ?_
  have := hnone (n - m) (by omega) (by omega)
  rwa [show m + (n - m) = n by omega] at this

/-- Where no directory on the way says anything of the way, nothing is said of a place on it. -/
theorem nearest?_eq_none (h : t.Harmonious base l)
    (hnone : (nearest? (l.length - base.length) fun i => t.tellsWay l (base.length + i)) = none)
    (hb : base.length < n) (hn : n ≤ l.length) : (nearest? n fun m => t.tellsBoth l m n) = none := by
  refine nearest?_eq_none_iff.mpr fun m hm => ?_
  by_cases hlt : m < base.length
  · exact (h.above m hlt n hn hb).1
  · have hsilent : t.tellsWay l m = none := eq_none_of_nearest?_add hnone (by omega) (by omega)
    exact eq_none_of_nearest?_add hsilent (by omega) (by omega)

section

variable {respect : Bool} {e : Exclusions} (h : t.Harmonious base l) (hw : t.WellFormed)
  (hl : t.lookup l ≠ none) (hbelow : base <+: l) (hlt : base.length < l.length)

include h hw hl hbelow hlt

/-- The last word about a file is what the scan is told of some place on the way to it. -/
theorem exists_verdict?_eq
    (hv : Watch.PathFilter.lastWord? ⟨base.path, respect, e⟩ t l.path = some v) :
    ∃ n, base.length < n ∧ n ≤ l.length ∧
      Scan.verdict? (Scan.rulesOf t) (l.take n) (n < l.length) = some v := by
  rw [Watch.PathFilter.lastWord?_eq (hw.above hl).1 hbelow hlt, Option.or_eq_some_iff] at hv
  rcases hv with hv | ⟨hnone, hv⟩
  · obtain ⟨i, hi, hword, hnearer⟩ := nearest?_eq_some_iff.mp hv
    obtain ⟨n, hmn, hn, hx⟩ := tells_of_nearest (h.own _ (by omega) (by omega)) (by omega) hword
    refine ⟨n, by omega, hn, ?_⟩
    -- no directory nearer to the file says anything, so that this one decides about the place too
    have hdecides : (nearest? n fun m => t.tellsBoth l m n) = some v := by
      refine nearest?_eq_some_iff.mpr ⟨base.length + i, hmn, hx, fun k hk hkn => ?_⟩
      have hsilent : t.tellsWay l k = none := by
        have := hnearer (k - base.length) (by omega) (by omega)
        rwa [show base.length + (k - base.length) = k by omega] at this
      exact eq_none_of_nearest?_add hsilent (by omega) (by omega)
    rw [h.verdict?_eq hw hl (by omega) hn, hdecides, Option.some_or]
  · obtain ⟨n, hb, hn, hx⟩ := tells_of_nearest h.ownExclude hlt.le hv
    refine ⟨n, hb, hn, ?_⟩
    rw [h.verdict?_eq hw hl hb hn, h.nearest?_eq_none hnone hb hn, Option.none_or, hx]

/-- Without a last word the scan is told nothing of any place on the way. -/
theorem verdict?_eq_none
    (hv : Watch.PathFilter.lastWord? ⟨base.path, respect, e⟩ t l.path = none)
    (hb : base.length < n) (hn : n ≤ l.length) :
    Scan.verdict? (Scan.rulesOf t) (l.take n) (n < l.length) = none := by
  rw [Watch.PathFilter.lastWord?_eq (hw.above hl).1 hbelow hlt, Option.or_eq_none_iff] at hv
  obtain ⟨hnone, hex⟩ := hv
  have hx : t.tells l ".git/info/exclude" base.length n = none :=
    eq_none_of_nearest?_add hex hb.le (by omega)
  rw [h.verdict?_eq hw hl hb hn, h.nearest?_eq_none hnone hb hn, Option.none_or, hx]

end

end FileTree.Harmonious

namespace Scan

variable {t : FileTree} {l base : Location} {e : Exclusions} {n : Nat}
  {table : List (Location × DirectoryRules)}

theorem reaches_iff_take : reaches e table base l false = true ↔
    base <+: l ∧ base.length < l.length ∧
      ∀ n, base.length < n → n ≤ l.length → passesOver e table base (l.take n) (n < l.length) = false := by
  unfold reaches
  simp only [Bool.and_eq_true, List.isPrefixOf_iff_prefix, decide_eq_true_eq, List.all_eq_true,
    List.mem_range, Bool.not_eq_true', Bool.false_or, and_assoc]
  refine and_congr_right fun _ => and_congr_right fun _ => ⟨fun h n hb hn => ?_, fun h n hn => ?_⟩
  · have := h (n - base.length - 1) (by omega)
    rwa [show base.length + (n - base.length - 1) + 1 = n by omega] at this
  · exact h _ (by omega) (by omega)

theorem passesOver_eq_false_iff {isDirectory : Bool} :
    passesOver e table base l isDirectory = false ↔
      e.covers (pathBelow base l) isDirectory = false ∧ verdict? table l isDirectory ≠ some .ignore ∧
        (isDirectory = true → l.getLast?.getD "" ∉ skippedNames) := by
  simp [passesOver, and_assoc]

/-- The names on the way to a file of a known language, if none of those above the root is skipped. -/
theorem not_skipped_iff (hnames : ∀ n ∈ base, n ∉ skippedNames) (hbelow : base <+: l)
    (hlanguage : (Language.ofPath? l.path).isSome = true) :
    (∀ n, base.length < n → n < l.length → (l.take n).getLast?.getD "" ∉ skippedNames) ↔
      ∀ x ∈ l, x ∉ skippedNames := by
  have hlast : ∀ i (hi : i < l.length), (l.take (i + 1)).getLast?.getD "" = l[i] := by
    intro i hi
    rw [List.take_succ_eq_append_getElem hi, List.getLast?_concat]
    rfl
  constructor
  · intro h x hx
    obtain ⟨i, hi, rfl⟩ := List.mem_iff_getElem.mp hx
    by_cases hb : i < base.length
    · rw [← hbelow.getElem hb]
      exact hnames _ (List.getElem_mem hb)
    · by_cases hend : i + 1 < l.length
      · rw [← hlast i hi]
        exact h (i + 1) (by omega) hend
      · refine not_skipped_of_getLast? hlanguage ?_
        rw [List.getLast?_eq_getElem?, List.getElem?_eq_some_iff]
        exact ⟨by omega, by congr; omega⟩
  · intro h n hb hn
    have := hlast (n - 1) (by omega)
    rw [show n - 1 + 1 = n by omega] at this
    rw [this]
    exact h _ (List.getElem_mem _)

theorem excludes_eq_false_iff (hn : ∀ n ∈ l, IsName n) (hbelow : base <+: l)
    (hlt : base.length < l.length) (hroot : e.root = base.path) :
    e.excludes l.path.toText false = false ↔
      (∀ x ∈ l, x ∉ skippedNames) ∧ e.covers (pathBelow base l) false = false := by
  rw [Exclusions.excludes, Location.ofText_toText hn, hroot, relativeText_of_isPrefix hn hbelow hlt]
  simp [Location.path, Step.text]

/-- A scan without a bound lists the files that it reaches. -/
theorem mem_files_iff (hw : t.WellFormed) {options : Options} {content : List UInt8}
    {listed : List Path} (hbase : t.lookup base = some .directory)
    (hfile : t.lookup l = some (.file content)) (hlanguage : (Language.ofPath? l.path).isSome = true)
    (he : Exclusions.ofPatterns base.path options.exclude = .ok e) (hmax : options.maxFiles = 0)
    (hs : files t base.path options = .ok listed) :
    l.path ∈ listed ↔
      reaches e (if options.respectIgnoreFiles then rulesOf t else []) base l false = true := by
  have hlocate := hw.locate_path (l := base) (by simp [hbase]) (by simp [hbase])
  constructor
  · intro hmem
    obtain ⟨-, e', base', l', content', he', hb', hl', -, hr⟩ := listed_of_mem_files hs hmem
    obtain rfl := Except.ok.inj (he.symm.trans he')
    obtain rfl := Except.ok.inj (hlocate.symm.trans hb')
    rwa [Location.path_injective hl']
  · intro hr
    have hne : l ≠ [] := by
      rintro rfl
      cases hfile
    exact Listed.mem_files ⟨hlanguage, e, base, l, content, he, hlocate, rfl,
      FileTree.mem_of_lookup hne hfile, hr⟩ hs hmax

end Scan

namespace Watch.PathFilter

end Watch.PathFilter

namespace Small

/-- Sources that are ignored at the root, of which a directory takes one back. -/
def ruled : FileTree :=
  ⟨[(["w"], .directory), (["w", ".gitignore"], .file [47, 115, 47, 107, 46, 116, 115]),
    (["w", "s"], .directory), (["w", "s", ".gitignore"], .file [33, 47, 107, 46, 116, 115]),
    (["w", "s", "k.ts"], .file [])], []⟩

theorem harmonious_ruled : ruled.Harmonious ["w"] ["w", "s", "k.ts"] where
  above := by decide +kernel
  nested := by decide +kernel
  kinds := by decide +kernel
  own := by decide +kernel
  ownExclude := by decide +kernel

end Small

namespace Small

/-- A source in a directory that is excluded by its name. -/
def generated : FileTree :=
  ⟨[(["w"], .directory), (["w", "gen"], .directory), (["w", "gen", "x.ts"], .file [])], []⟩

def generatedRule : Rule := ⟨[.deepStart, .literal 'g', .literal 'e', .literal 'n'], true, false⟩

theorem ofPatterns_gen (root : Path) :
    Exclusions.ofPatterns root ["gen"] = .ok ⟨root, [generatedRule]⟩ := by
  have hanchored : Rule.anchored false "gen" = "**/gen" := by cbv
  have hline : Rule.ofLine false "!gen" =
      (Glob.parse false (Rule.anchored false "gen")).map fun g => some ⟨g, true, false⟩ := rfl
  have htrim : Text.trim "gen" = "gen" := by decide +kernel
  have hrule : Exclusions.rule? "gen" = .ok (some generatedRule) := by
    simp only [Exclusions.rule?, htrim]
    rw [show "!" ++ "gen" = "!gen" from rfl, hline, hanchored]
    rfl
  simp [Exclusions.ofPatterns, hrule, bind, Except.bind, pure, Except.pure]

end Small

end DepAtlas
