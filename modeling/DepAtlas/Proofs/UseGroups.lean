import DepAtlas.Proofs.Growth
import DepAtlas.Proofs.Regrouping
import DepAtlas.Proofs.SymbolUses
import DepAtlas.Proofs.Utf8
import Mathlib.Data.List.TakeWhile

/-! # Groups and items

A path of names is looked for in a file of its own and then, without its last names, in the files of the
modules before. An item has no such file, so its path leads where the path of its module leads. A group of
items can therefore be split into one declaration for each, or joined, and the file keeps what it depends
on. A group of modules cannot: together they lead to the module around them, and one by one to their own
files.
-/

namespace DepAtlas

/-! ## Names in paths -/

namespace Text

/-- A text that can stand as a name between double colons. -/
structure IsWord (n : String) : Prop where
  nonempty : n ≠ ""
  noColon : ':' ∉ n.toList
  noNul : '\x00' ∉ n.toList
  noBlank : ∀ c ∈ n.toList, isBlank c = false

instance (n : String) : Decidable (IsWord n) :=
  decidable_of_iff (n ≠ "" ∧ ':' ∉ n.toList ∧ '\x00' ∉ n.toList ∧ n.toList.any isBlank = false)
    ⟨fun ⟨h, c, z, b⟩ => ⟨h, c, z, by simpa using b⟩,
      fun h => ⟨h.nonempty, h.noColon, h.noNul, by simpa using h.noBlank⟩⟩

theorem trim_of_noBlank {s : String} (h : ∀ c ∈ s.toList, isBlank c = false) : trim s = s := by
  have hdrop : ∀ cs : List Char, (∀ c ∈ cs, isBlank c = false) → cs.dropWhile isBlank = cs := by
    intro cs hcs
    cases cs with
    | nil => rfl
    | cons c cs => simp [hcs c List.mem_cons_self]
  rw [trim, stripBy, hdrop _ h, hdrop _ fun c hc => h c (List.mem_reverse.mp hc), List.reverse_reverse,
    String.ofList_toList]

theorem cutAt_colons_append {cs : List Char} (h : ':' ∉ cs) (piece rest : List Char) :
    cutAt [':', ':'] piece (cs ++ ':' :: ':' :: rest) =
      (piece.reverse ++ cs) :: cutAt [':', ':'] [] rest := by
  induction cs generalizing piece with
  | nil => simp [cutAt]
  | cons c cs ih =>
    obtain ⟨hc, hcs⟩ := not_or.mp (mt List.mem_cons.mpr h)
    rw [List.cons_append, cutAt, if_neg (by simp [hc]), ih hcs]
    simp

/-- Names joined by double colons are told apart again. -/
theorem splitText_intercalate {names : List String} (hne : names ≠ [])
    (h : ∀ n ∈ names, ':' ∉ n.toList) : splitText "::" ("::".intercalate names) = names := by
  induction names with
  | nil => exact absurd rfl hne
  | cons n names ih =>
    obtain ⟨hn, hnames⟩ := List.forall_mem_cons.mp h
    cases names with
    | nil =>
      have hcut := cutAt_of_not_mem (x := ':') (s := [':', ':']) (by simp) hn []
      simp [splitText, hcut]
    | cons m names =>
      have hrest := ih (by simp) hnames
      rw [splitText] at hrest ⊢
      rw [String.intercalate_cons_cons, String.append_assoc, String.toList_append, String.toList_append]
      change (cutAt [':', ':'] [] (n.toList ++ ':' :: ':' :: _)).map String.ofList = _
      rw [cutAt_colons_append hn, List.map_cons]
      exact congrArg₂ List.cons (by simp) hrest

section

variable {names : List String} (h : ∀ n ∈ names, IsWord n)

include h

theorem isBlank_of_mem_path {c : Char} (hc : c ∈ ("::".intercalate names).toList) :
    isBlank c = false := by
  rcases mem_intercalate hc with hcolon | ⟨n, hn, hc⟩
  · obtain rfl : c = ':' := by simpa using hcolon
    decide
  · exact (h n hn).noBlank c hc

theorem nul_not_mem_path : '\x00' ∉ ("::".intercalate names).toList := by
  intro hc
  rcases mem_intercalate hc with hcolon | ⟨n, hn, hc⟩
  · simp at hcolon
  · exact (h n hn).noNul hc

theorem trim_path : trim ("::".intercalate names) = "::".intercalate names :=
  trim_of_noBlank fun _ => isBlank_of_mem_path h

theorem isBlankText_path (hne : names ≠ []) : isBlankText ("::".intercalate names) = false := by
  have hsome : ("::".intercalate names).toList ≠ [] := by
    cases names with
    | nil => exact absurd rfl hne
    | cons n names =>
      have hn := (h n List.mem_cons_self).nonempty
      cases names <;> simp [hn]
  obtain ⟨c, hc⟩ := List.exists_mem_of_ne_nil _ hsome
  rw [isBlankText, List.all_eq_false]
  exact ⟨c, hc, by simp [isBlank_of_mem_path h hc]⟩

/-- The names that are read from a path are those that it was made of. -/
theorem rustNames_path (hne : names ≠ []) : Resolve.rustNames ("::".intercalate names) = names := by
  rw [Resolve.rustNames, splitText_intercalate hne fun n hn => (h n hn).noColon]
  have htrim : names.map trim = names :=
    (List.map_congr_left fun n hn => trim_of_noBlank (h n hn).noBlank).trans (List.map_id _)
  rw [htrim, List.filter_eq_self]
  exact fun n hn => by simp [(h n hn).nonempty]

end

end Text

/-! ## Where items lead -/

namespace Resolve.Resolver

variable {r : Resolver} {t : FileTree}

/-- How many modules a path goes up. -/
def ups (names : List String) : Nat := (names.takeWhile (· = "super")).length

/-- The directories from which the modules of a path are looked for, and the names of the modules. -/
def origin (r : Resolver) (t : FileTree) (importer : Path) : List String → List Path × List String
  | [] => ([], [])
  | first :: others =>
    let own := rustDirectory importer
    let names := first :: others
    if first = "crate" then ([r.crateDirectory t importer], others)
    else if first = "self" then ([own], others)
    else if first = "super" then ([Nat.repeat Path.up (ups names) own], names.drop (ups names))
    else ([own, r.crateDirectory t importer], names)

/-- The file of the module that a path starts from, if the path says no more or starts at the top, and if
it is not the importing file. -/
def startModule? (r : Resolver) (t : FileTree) (importer : Path) (names : List String) : Option Path :=
  if names.head? = some "crate" then
    (rustDirectoryModule? t (r.crateDirectory t importer)).filter (· ≠ t.settle importer)
  else if names.head? = some "super" && (names.drop (ups names)).isEmpty then
    (rustDirectoryModule? t (Nat.repeat Path.up (ups names) (rustDirectory importer))).filter
      (· ≠ t.settle importer)
  else none

/-- The file of a module in a directory, other than the importing one. -/
def otherModule? (t : FileTree) (importer base : Path) (part : List String) : Option Path :=
  (rustModule? t base part).filter (· ≠ t.settle importer)

/-- The file of a path: that of the longest beginning that has one, or else that of its start. -/
def pathFile? (r : Resolver) (t : FileTree) (importer : Path) (names : List String) : Option Path :=
  ((r.origin t importer names).1.findSome? fun base =>
    (beginnings (r.origin t importer names).2).findSome? (otherModule? t importer base)).or
    (r.startModule? t importer names)

theorem path?_rust (importer : Path) (spec : String) :
    (r.rust t importer spec).path? = r.pathFile? t importer (rustNames spec) := by
  have hnames : ((Text.splitText "::" spec).map Text.trim).filter (· ≠ "") = rustNames spec := rfl
  unfold rust
  simp only [hnames]
  cases rustNames spec with
  | nil => simp [pathFile?, origin, startModule?, Resolution.path?]
  | cons first others =>
    rw [Resolution.path?_ofFile?]
    by_cases hcrate : first = "crate"
    · subst hcrate
      rfl
    by_cases hself : first = "self"
    · subst hself
      rfl
    by_cases hsuper : first = "super"
    · subst hsuper
      rfl
    · simp only [pathFile?, origin, startModule?, hcrate, hself, hsuper, if_false, List.head?_cons,
        Option.some.injEq, decide_false, Bool.false_and, Bool.false_eq_true]
      rfl

theorem beginnings_concat (names : List String) (x : String) :
    beginnings (names ++ [x]) = (names ++ [x]) :: beginnings names := by
  have htake : ∀ n ∈ (List.range names.length).reverse,
      (names ++ [x]).take (n + 1) = names.take (n + 1) := by
    intro n hn
    have hlt : n < names.length := by simpa using hn
    exact List.take_append_of_le_length hlt
  simp only [beginnings, List.length_append, List.length_singleton, List.range_succ, List.reverse_append,
    List.reverse_singleton, List.singleton_append, List.map_cons, List.map_congr_left htake]
  rw [List.take_of_length_le (by simp)]

section

variable {m : List String} (h : ∃ n ∈ m, n ≠ "super")

include h

theorem ups_lt_length : ups m < m.length := by
  have hsub := List.takeWhile_sublist (l := m) (fun n => decide (n = "super"))
  refine Nat.lt_of_le_of_ne hsub.length_le fun heq => ?_
  obtain ⟨n, hn, hne⟩ := h
  exact hne (of_decide_eq_true (List.takeWhile_eq_self_iff.mp (hsub.eq_of_length heq) n hn))

theorem ups_concat (x : String) : ups (m ++ [x]) = ups m := by
  have hlt : (m.takeWhile (· = "super")).length ≠ m.length := Nat.ne_of_lt (ups_lt_length h)
  rw [ups, List.takeWhile_append, if_neg hlt, ups]

theorem origin_concat (importer : Path) (x : String) : r.origin t importer (m ++ [x]) =
    ((r.origin t importer m).1, (r.origin t importer m).2 ++ [x]) := by
  have hups := ups_concat h x
  have hlt := ups_lt_length h
  cases m with
  | nil => simp at hlt
  | cons first others =>
    rw [List.cons_append] at hups
    simp only [List.cons_append, origin, hups]
    split
    · rfl
    · split
      · rfl
      · split
        · rw [← List.cons_append, List.drop_append_of_le_length (Nat.le_of_lt hlt)]
        · rfl

theorem startModule?_concat (importer : Path) (x : String) :
    r.startModule? t importer (m ++ [x]) = r.startModule? t importer m := by
  have hlt := ups_lt_length h
  have hhead : (m ++ [x]).head? = m.head? := by
    cases m with
    | nil => simp at hlt
    | cons first others => rfl
  have hmore : (m.drop (ups m)).isEmpty = false := by
    rw [List.isEmpty_eq_false_iff, ← List.length_pos_iff, List.length_drop]
    omega
  have hmore' : ((m ++ [x]).drop (ups m)).isEmpty = false := by
    rw [List.drop_append_of_le_length (Nat.le_of_lt hlt)]
    simp
  simp only [startModule?, hhead, ups_concat h x, hmore, hmore']

/-- A name without a file of its own adds nothing to a path. -/
theorem pathFile?_concat {importer : Path} {x : String}
    (hnone : ∀ base ∈ (r.origin t importer (m ++ [x])).1,
      otherModule? t importer base (r.origin t importer (m ++ [x])).2 = none) :
    r.pathFile? t importer (m ++ [x]) = r.pathFile? t importer m := by
  rw [origin_concat h] at hnone
  simp only [pathFile?, origin_concat h, startModule?_concat h, beginnings_concat]
  congr 1
  generalize (r.origin t importer m).1 = bases at hnone
  induction bases with
  | nil => rfl
  | cons base bases ih =>
    obtain ⟨hbase, hbases⟩ := List.forall_mem_cons.mp hnone
    rw [List.findSome?_cons, List.findSome?_cons, List.findSome?_cons, hbase, ih hbases]

end

/-- Where a path of names leads. -/
theorem file?_path {importer : String} (hrust : Language.ofPath? (.ofText importer) = some .rust)
    {names : List String} (hnames : ∀ n ∈ names, Text.IsWord n) (hne : names ≠ [])
    (hcovers : ∀ a ∈ r.aliases, a.covers ("::".intercalate names) = false) :
    r.file? t importer ("::".intercalate names) = if Path.isRootedText importer then
      ((r.pathFile? t (.ofText importer) names).map t.settle).filter (Path.isWithin r.root)
      else none := by
  have halias : r.alias? t ("::".intercalate names) .rust = none := by
    rw [alias?, List.find?_eq_none.mpr fun a ha => by simp [hcovers a ha], Option.map_none]
  have hfound : r.found t (.ofText importer) ("::".intercalate names) =
      r.rust t (.ofText importer) ("::".intercalate names) := by
    simp only [found, hrust, Option.getD_some, halias, Option.getD_none]
  have hasks : asks importer ("::".intercalate names) = Path.isRootedText importer := by
    rw [asks, Text.isBlankText_path hnames hne]
    simpa using fun _ => Text.nul_not_mem_path hnames
  rw [file?_eq, hasks, Text.trim_path hnames, hfound, path?_rust, Text.rustNames_path hnames hne]

/-- The name `x` of the module `m` is an item, as far as files tell: no file holds a module with its path, no
alias is for its path or for that of its module, and its module is more than a way up. -/
structure IsItem (r : Resolver) (t : FileTree) (importer : String) (m : List String) (x : String) :
    Prop where
  words : ∀ n ∈ m ++ [x], Text.IsWord n
  unaliased : ∀ a ∈ r.aliases, a.covers ("::".intercalate m) = false ∧
    a.covers ("::".intercalate (m ++ [x])) = false
  below : (∃ n ∈ m, n ≠ "super") ∨ m = [] ∧ x ≠ "crate" ∧ x ≠ "super"
  noFile : ∀ base ∈ (r.origin t (.ofText importer) (m ++ [x])).1,
    otherModule? t (.ofText importer) base (r.origin t (.ofText importer) (m ++ [x])).2 = none

theorem pathFile?_singleton {importer : Path} {x : String} (hcrate : x ≠ "crate") (hsuper : x ≠ "super")
    (hnone : ∀ base ∈ (r.origin t importer [x]).1,
      otherModule? t importer base (r.origin t importer [x]).2 = none) :
    r.pathFile? t importer [x] = none := by
  have hstart : r.startModule? t importer [x] = none := by simp [startModule?, hcrate, hsuper]
  rw [pathFile?, hstart, Option.or_none, List.findSome?_eq_none_iff]
  intro base hbase
  have hbase := hnone base hbase
  by_cases hself : x = "self"
  · subst hself
    rfl
  · have horigin : (r.origin t importer [x]).2 = [x] := by simp [origin, hcrate, hself, hsuper]
    rw [horigin] at hbase ⊢
    have hparts : beginnings [x] = [[x]] := rfl
    rw [hparts, List.findSome?_singleton, hbase]

/-- An item leads where its module leads. -/
theorem IsItem.file?_eq {importer : String} {m : List String} {x : String}
    (h : r.IsItem t importer m x) (hrust : Language.ofPath? (.ofText importer) = some .rust) :
    r.file? t importer ("::".intercalate (m ++ [x])) = r.file? t importer ("::".intercalate m) := by
  rw [file?_path hrust h.words (by simp) fun a ha => (h.unaliased a ha).2]
  rcases h.below with hm | ⟨rfl, hcrate, hsuper⟩
  · have hne : m ≠ [] := fun hnil => by simp [hnil] at hm
    have hwords : ∀ n ∈ m, Text.IsWord n := fun n hn => h.words n (List.mem_append_left _ hn)
    rw [file?_path hrust hwords hne fun a ha => (h.unaliased a ha).1, pathFile?_concat hm h.noFile]
  · rw [List.nil_append, pathFile?_singleton hcrate hsuper h.noFile]
    have hempty : r.file? t importer ("::".intercalate []) = none := rfl
    rw [hempty]
    simp

end Resolve.Resolver

/-! ## The contents of files -/

/-- The entry with an empty file in the place of a file. -/
def Entry.emptied : Entry → Entry
  | .file _ => .file []
  | e => e

namespace FileTree

/-- The tree with all files empty. -/
def emptied (t : FileTree) : FileTree :=
  { t with entries := t.entries.map fun x => (x.1, x.2.emptied) }

variable (t : FileTree)

theorem lookup_emptied (l : Location) : t.emptied.lookup l = (t.lookup l).map Entry.emptied := by
  unfold lookup
  split
  · rfl
  · rw [emptied, List.find?_map, Option.map_map, Option.map_map]
    rfl

theorem followWith_emptied (onLink : Location → List Step → Except FileFault Location) (l : Location)
    (steps : List Step) : t.emptied.followWith onLink l steps = t.followWith onLink l steps := by
  induction steps generalizing l with
  | nil => rfl
  | cons step rest ih =>
    simp only [followWith, lookup_emptied]
    cases t.lookup l with
    | none => rfl
    | some e =>
      cases e with
      | file content => rfl
      | link target => rfl
      | directory =>
        cases step with
        | here => exact ih l
        | up => exact ih l.dropLast
        | enter name =>
          simp only [Option.map_some, Entry.emptied]
          split
          · rfl
          · cases t.lookup (l ++ [name]) with
            | none => rfl
            | some e =>
              cases e with
              | file content => exact ih _
              | directory => exact ih _
              | link target => rfl

theorem follow_emptied (links : Nat) : t.emptied.follow links = t.follow links := by
  induction links with
  | zero =>
    funext l steps
    exact t.followWith_emptied _ l steps
  | succ links ih =>
    funext l steps
    rw [follow, follow, ih, followWith_emptied]

@[simp] theorem locate_emptied : t.emptied.locate = t.locate := by
  funext p
  simp only [locate, follow_emptied]
  rfl

theorem entry?_emptied (p : Path) : t.emptied.entry? p = Option.map Entry.emptied ( t.entry? p) := by
  simp only [ entry?, locate_emptied]
  cases t.locate p with
  | error fault => rfl
  | ok l => exact t.lookup_emptied l

@[simp] theorem isFile_emptied : t.emptied.isFile = t.isFile := by
  funext p
  rw [isFile, isFile, entry?_emptied]
  cases t.entry? p with
  | none => rfl
  | some e => cases e <;> rfl

@[simp] theorem isDirectory_emptied : t.emptied.isDirectory = t.isDirectory := by
  funext p
  rw [isDirectory, isDirectory, entry?_emptied]
  cases t.entry? p with
  | none => rfl
  | some e => cases e <;> simp [Entry.emptied]

@[simp] theorem settle_emptied : t.emptied.settle = t.settle := by
  funext p
  rw [settle, settle, locate_emptied]

end FileTree

namespace Resolve

variable (r : Resolver) (t : FileTree)

theorem candidate?_emptied (base : Path) (language : Language) :
    candidate? t.emptied base language = candidate? t base language := by
  simp only [candidate?, candidates, FileTree.isFile_emptied, FileTree.isDirectory_emptied]

namespace Resolver

theorem alias?_emptied (spec : String) (language : Language) :
    r.alias? t.emptied spec language = r.alias? t spec language := by
  simp only [alias?, candidate?_emptied]

theorem rust_emptied (importer : Path) (spec : String) :
    r.rust t.emptied importer spec = r.rust t importer spec := by
  have hmodule : rustModule? t.emptied = rustModule? t := by
    funext base names
    simp only [rustModule?, FileTree.isFile_emptied, FileTree.settle_emptied]
  have hstart : rustDirectoryModule? t.emptied = rustDirectoryModule? t := by
    funext d
    simp only [rustDirectoryModule?, FileTree.isFile_emptied, FileTree.settle_emptied]
  have htop : r.crateDirectory t.emptied = r.crateDirectory t := by
    funext file
    simp only [crateDirectory, FileTree.isFile_emptied, FileTree.isDirectory_emptied]
  unfold rust
  rw [hmodule, hstart, htop, FileTree.settle_emptied]

/-- Names in a source of this language are looked up without reading files. -/
theorem resolve_emptied {importer : String} (h : Language.ofPath? (.ofText importer) = some .rust)
    (spec : String) : r.resolve t.emptied importer spec = r.resolve t importer spec := by
  simp only [resolve, h, Option.getD_some, alias?_emptied, rust_emptied, FileTree.settle_emptied]

end Resolver

end Resolve

/-! ## Dependencies -/

namespace Atlas

open Outline.Rust

variable {a : Atlas} {w w' : World} {p : Path} {key y : String} {t t' d : Node} {parts : List Node}

/-- The path of the source file that a name leads to, other than the importing file. -/
def target? (a : Atlas) (w : World) (key spec : String) : Option String :=
  ((a.resolver.file? w.tree key spec).filter fun q =>
    (Language.ofPath? q).isSome && q.toText ≠ key).map Path.toText

theorem mem_targets_nodeOf {o : Outline} : y ∈ (a.nodeOf w key o).dependencies.map (·.target) ↔
    ∃ i ∈ o.imports, a.target? w key i.specifier = some y := by
  have hlink : ∀ i : Import, (∃ x, a.link w key i = .dependency x ∧ x.target = y) ↔
      a.target? w key i.specifier = some y := by
    intro i
    constructor
    · rintro ⟨x, hx, rfl⟩
      obtain ⟨q, hq, hlanguage, hother, rfl⟩ := link_eq_dependency hx
      rw [target?, Resolve.Resolver.file?_eq_some_iff.mpr hq]
      simp [hlanguage, hother]
    · intro hy
      obtain ⟨q, hq, rfl⟩ := Option.map_eq_some_iff.mp hy
      obtain ⟨hfile, hcounts⟩ := Option.filter_eq_some_iff.mp hq
      obtain ⟨hlanguage, hother⟩ := Bool.and_eq_true_iff.mp hcounts
      exact ⟨_, link_of_resolve (Resolve.Resolver.file?_eq_some_iff.mp hfile) hlanguage
        (of_decide_eq_true hother), rfl⟩
  simp only [nodeOf, List.mem_map, mem_dependenciesOf, ← hlink]
  constructor
  · rintro ⟨x, ⟨i, hi, hx⟩, hy⟩
    exact ⟨i, hi, x, hx, hy⟩
  · rintro ⟨i, hi, x, hx, hy⟩
    exact ⟨x, ⟨i, hi, hx⟩, hy⟩

/-- The file at a path holds a source with the given tree. -/
structure HasSource (w : World) (p : Path) (t : Node) : Prop where
  parsing : w.parsing = .byGrammar
  language : Language.ofPath? (.ofText (w.tree.key p)) = some .rust
  source : ∃ s, w.tree.read (.ofText (w.tree.key p)) = .ok (Text.encode s) ∧
    Syntax.Rust.grammar.parse? s = some t

theorem analyze_source (h : HasSource w p t) (hopen : a.closed = false)
    (hunknown : a.cache.get? (w.tree.key p) = none) :
    (a.analyze w p).1 = .ok (a.nodeOf w (w.tree.key p)
      ((Syntax.Tree.walk enter .top t .empty).finish .rust)) := by
  obtain ⟨s, hread, hparse⟩ := h.source
  have houtline : w.parsing.outline (w.tree.key p) (Text.decodeLenient (Text.encode s)) =
      .ok ((Syntax.Tree.walk enter .top t .empty).finish .rust) := by
    rw [h.parsing, Text.decodeLenient_of_decode? (Text.decode?_eq_some_iff.mpr rfl)]
    simp [Parsing.byGrammar, h.language, Parsing.outlineOf, outline?, hparse]
  have hsupports : w.parsing.supportsIn a.closed (.ofText (w.tree.key p)) = true := by
    simp [Parsing.supportsIn, h.parsing, hopen, Parsing.byGrammar, Parsing.knowsLanguage, h.language]
  have hbuild : a.build w (w.tree.key p) (Text.encode s) = .ok (a.nodeOf w (w.tree.key p)
      ((Syntax.Tree.walk enter .top t .empty).finish .rust)) := by
    simp only [build, Parsing.outlineIn, hopen, houtline]
    rfl
  simp only [analyze, hunknown, FileTree.isFile_of_read hread, hsupports, hread, hbuild]
  rfl

end Atlas

namespace Small

/-- A crate with two modules, and a file with the given source. -/
def crate (source : String) : FileTree :=
  ⟨[(["w"], .directory), (["w", "main.rs"], .file []), (["w", "a.rs"], .file []),
    (["w", "b.rs"], .file []), (["w", "x.rs"], .file (Text.encode source))], []⟩

def crateFile : Path := .ofText "/w/x.rs"

open Outline.Rust

/-- What is seen of a node: its label, its part, and what is written after `use`. -/
structure Seen where
  label : Syntax.Label Syntax.Rust.Kind
  field : Option Syntax.Field
  used : Option UseTree
  deriving DecidableEq

/-- The root of a source and its children. -/
def seen (source : String) : Option (List Seen) :=
  (Syntax.Rust.grammar.parse? source).map fun t =>
    (t :: t.children).map fun c => ⟨c.label, c.field, used? c⟩

theorem exists_of_seen {source : String} {x : Seen} {xs : List Seen} (h : seen source = some (x :: xs)) :
    ∃ e cs, Syntax.Rust.grammar.parse? source = some (.node x.label x.field e cs) ∧
      cs.map (fun c => (⟨c.label, c.field, used? c⟩ : Seen)) = xs := by
  obtain ⟨⟨l, f, e, cs⟩, ht, hseen⟩ := Option.map_eq_some_iff.mp h
  obtain ⟨rfl, hrest⟩ := List.cons.inj hseen
  exact ⟨e, cs, ht, hrest⟩

/-- Two items of a module in a group. -/
def grouped : String := "use a::\x7bf,g\x7d;"

/-- The same items one by one. -/
def single : String := "use a::f;use a::g;"

theorem seen_items :
    seen grouped = some [⟨.kind .program, none, none⟩,
      ⟨.kind .useDeclaration, none, some (.group ["a"] [.name ["f"], .name ["g"]])⟩] ∧
    seen single = some [⟨.kind .program, none, none⟩,
      ⟨.kind .useDeclaration, none, some (.name ["a", "f"])⟩,
      ⟨.kind .useDeclaration, none, some (.name ["a", "g"])⟩] := by
  decide +kernel

theorem isUse_of_seen {c : Node} {u : Option UseTree}
    (h : (⟨c.label, c.field, used? c⟩ : Seen) = ⟨.kind .useDeclaration, none, u⟩) :
    IsUse c ∧ used? c = u := by
  obtain ⟨hlabel, hfield, hused⟩ := Seen.mk.inj h
  exact ⟨⟨by rw [Syntax.Tree.kind?, hlabel], hfield⟩, hused⟩

theorem read_crate : ∀ source ∈ [grouped, single], (crate source).key crateFile = "/w/x.rs" ∧
    (crate source).read (.ofText "/w/x.rs") = .ok (Text.encode source) := by
  decide +kernel

theorem hasSource_crate {source : String} (hs : source ∈ [grouped, single]) {t : Node}
    (ht : Syntax.Rust.grammar.parse? source = some t) :
    Atlas.HasSource (world (crate source)) crateFile t := by
  obtain ⟨hkey, hread⟩ := read_crate source hs
  refine ⟨rfl, ?_, source, ?_, ht⟩
  · change Language.ofPath? (.ofText ((crate source).key crateFile)) = _
    rw [hkey]
    decide
  · change (crate source).read (.ofText ((crate source).key crateFile)) = _
    rw [hkey, hread]

theorem isItem_of_mem {x : String} (h : x ∈ ["f", "g"]) :
    atlas.resolver.IsItem (crate grouped) "/w/x.rs" ["a"] x := by
  have hnone : ∀ x ∈ ["f", "g"], Text.IsWord x ∧
      ∀ base ∈ (atlas.resolver.origin (crate grouped) (.ofText "/w/x.rs") ["a", x]).1,
        Resolve.Resolver.otherModule? (crate grouped) (.ofText "/w/x.rs") base
          (atlas.resolver.origin (crate grouped) (.ofText "/w/x.rs") ["a", x]).2 = none := by
    decide +kernel
  obtain ⟨hword, hnone⟩ := hnone x h
  have hwords : ∀ n ∈ ["a", x], Text.IsWord n := by
    simpa using ⟨(by decide : Text.IsWord "a"), hword⟩
  exact ⟨hwords, by simp [atlas], .inl ⟨"a", by simp, by decide⟩, hnone⟩

/-- The parts of the group set apart its items. -/
theorem mem_of_setApart {u v : Node} (hf : used? u = some (.name ["a", "f"]))
    (hg : used? v = some (.name ["a", "g"])) {m : List String} {x : String}
    (h : SetApart ([u, v].map namesOf) m x) : m = ["a"] ∧ x ∈ ["f", "g"] := by
  have hnames : [u, v].map namesOf =
      [[(["a"], ⟨"f", "f", false, true⟩)], [(["a"], ⟨"g", "g", false, true⟩)]] := by
    simp only [List.map_cons, List.map_nil, namesOf_eq, hf, hg]
    decide
  rw [hnames] at h
  obtain ⟨names, hmem, b, hb, rfl, -, -⟩ := h
  have hmodule : m = ["a"] := by
    have hb := hb ▸ List.mem_singleton_self b
    obtain ⟨c, hc, rfl⟩ := List.mem_map.mp hb
    obtain ⟨hc, hm⟩ := List.mem_filter.mp hc
    simp only [List.mem_cons, List.not_mem_nil, or_false] at hmem
    rcases hmem with rfl | rfl <;> rw [List.mem_singleton.mp hc] at hm <;>
      exact (of_decide_eq_true hm).symm
  subst hmodule
  simp only [List.mem_cons, List.not_mem_nil, or_false] at hmem
  rcases hmem with rfl | rfl <;> obtain rfl := List.singleton_inj.mp hb <;> simp

end Small

namespace Atlas

open Outline.Rust

end Atlas

end DepAtlas
