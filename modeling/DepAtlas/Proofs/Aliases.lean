import DepAtlas.Proofs.Destinations
import DepAtlas.Proofs.Histories

/-! # The longest alias decides

A resolver is asked to add aliases one after another. What it keeps is told by these entries alone: for
each opening, without the stars at its end, the first entry counts. The aliases that it keeps are tried
from the longest opening down. All openings that stand at the start of one name are openings of each
other, so one of them is the longest, and what stands for the name is looked for there and nowhere else.
-/

namespace DepAtlas

namespace Text

variable {s pre rest : String}

theorem stripOpening?_eq_some_iff : stripOpening? pre s = some rest ↔ s = pre ++ rest := by
  constructor
  · intro h
    obtain ⟨cs, hcs, rfl⟩ := Option.map_eq_some_iff.mp h
    apply String.toList_inj.mp
    simpa using afterPrefix?_eq_some_iff.mp hcs
  · rintro rfl
    exact stripOpening?_append pre rest

end Text

namespace Path

theorem steps_ofText_append (p q : String) :
    (ofText (p ++ "/" ++ q)).steps = (ofText p).steps ++ (ofText q).steps := by
  have htext : (p ++ "/" ++ q).toList = p.toList ++ '/' :: q.toList := by simp
  have hall : Step.allOf (p ++ "/" ++ q) = Step.allOf p ++ Step.allOf q := by
    simp [Step.allOf, Text.pieces, htext, Text.cut_append_separator]
  rw [ofText, hall, List.filter_append]
  rfl

theorem isRootedText_append {p : String} (hp : p ≠ "") (q : String) :
    isRootedText (p ++ q) = isRootedText p := by
  obtain ⟨c, cs, hc⟩ := List.exists_cons_of_ne_nil fun h => hp (String.toList_inj.mp h)
  simp [isRootedText, hc]

theorem ofText_eq {s : String} {rooted : Bool} (h : isRootedText s = rooted) :
    ofText s = ⟨rooted, (ofText s).steps⟩ := by
  subst h
  rfl

theorem ofText_empty : ofText "" = ⟨false, []⟩ := by decide

/-- The text of a path that goes on leads where the two paths lead one after the other. -/
theorem ofText_joinText (p q : String) : ofText (joinText p q) = (ofText p).join (ofText q) := by
  unfold joinText
  by_cases hq : isRootedText q = true
  · simp [hq, join, ofText]
  have hjoin : (ofText p).join (ofText q) =
      ⟨isRootedText p, (ofText p).steps ++ (ofText q).steps⟩ := if_neg hq
  rw [hjoin]
  by_cases hp : p = ""
  · subst hp
    rw [if_pos (by simp), ofText_empty, List.nil_append, ofText, Bool.eq_false_iff.mpr hq]
    rfl
  rw [if_neg (by simp [hq, hp])]
  split
  · rename_i hlast
    obtain ⟨cs, hcs⟩ : ∃ cs, p.toList = cs ++ ['/'] := List.getLast?_eq_some_iff.mp hlast
    obtain rfl : p = String.ofList cs ++ "/" := String.toList_inj.mp (by simp [hcs])
    -- the slash at the end of `p` is one with the slash that joins
    have hsteps := steps_ofText_append (String.ofList cs) ""
    rw [String.append_empty, ofText_empty, List.append_nil] at hsteps
    rw [hsteps, ← steps_ofText_append]
    exact ofText_eq (isRootedText_append hp q)
  · rw [← steps_ofText_append, String.append_assoc]
    exact ofText_eq (isRootedText_append hp ("/" ++ q))

end Path

namespace Resolve

namespace Alias

variable {a : Alias} {spec rest : String}

/-- An opening stands at the start of a name, and a whole part of the name ends there. -/
def Opens (opening spec : String) : Prop :=
  ∃ rest, spec = opening ++ rest ∧
    (opening.toList.getLast? = some '/' ∨ rest = "" ∨ rest.toList.head? = some '/')

theorem covers_iff : a.covers spec = true ↔ Opens a.opening spec := by
  unfold covers Opens
  split
  · rename_i hnone
    constructor
    · intro h
      cases h
    · rintro ⟨rest, heq, -⟩
      rw [Text.stripOpening?_eq_some_iff.mpr heq] at hnone
      cases hnone
  · rename_i rest hrest
    have heq := Text.stripOpening?_eq_some_iff.mp hrest
    rw [Bool.or_eq_true, Bool.or_eq_true, decide_eq_true_eq, decide_eq_true_eq, decide_eq_true_eq,
      or_assoc]
    constructor
    · exact fun h => ⟨rest, heq, h⟩
    · rintro ⟨rest', heq', h⟩
      obtain rfl : rest' = rest := by
        have hrest' := Text.stripOpening?_eq_some_iff.mpr heq'
        rw [hrest] at hrest'
        exact (Option.some.inj hrest').symm
      exact h

instance (opening spec : String) : Decidable (Opens opening spec) :=
  decidable_of_iff ((Alias.mk opening "").covers spec = true) covers_iff

/-- What stands for a name is looked for under the target, by what follows the opening. -/
theorem ofText_apply (h : spec = a.opening ++ rest) :
    Path.ofText (a.apply spec) =
      (Path.ofText a.target).child (Text.dropLeading (· = '/') rest) := by
  unfold apply
  rw [Text.stripOpening?_eq_some_iff.mpr h, Option.getD_some]
  dsimp only
  split
  · rename_i hempty
    simp [hempty, Path.ofText_empty, Path.child, Path.join]
  · exact Path.ofText_joinText _ _

end Alias

namespace Aliases

variable {as : Aliases} {a b : Alias} {es : List (String × String)}

/-! ## What adding keeps -/

theorem insertSorted_perm (a : Alias) (as : Aliases) : (insertSorted a as).Perm (a :: as) := by
  induction as with
  | nil => exact .refl _
  | cons c as ih =>
    unfold insertSorted
    split
    · exact .refl _
    · exact (ih.cons c).trans (.swap _ _ _)

theorem size_le_of_before (h : a.before b = true) : b.opening.utf8ByteSize ≤ a.opening.utf8ByteSize := by
  unfold Alias.before at h
  rcases Bool.or_eq_true_iff.mp h with h | h
  · exact (of_decide_eq_true h).le
  · exact (of_decide_eq_true (Bool.and_eq_true_iff.mp h).1).ge

theorem size_le_of_not_before (h : a.before b = false) :
    a.opening.utf8ByteSize ≤ b.opening.utf8ByteSize := by
  rw [Alias.before, Bool.or_eq_false_iff] at h
  exact not_lt.mp (of_decide_eq_false h.1)

/-- The first entry for an opening, without the stars at its end. -/
def firstFor? (es : List (String × String)) (opening : String) : Option (String × String) :=
  es.find? fun e => withoutStars e.1 = opening

/-- Aliases that are what entries ask for, in the order in which they are tried: one for each opening,
by the first entry for it, and the longer openings before the shorter ones. -/
structure Keeps (as : Aliases) (es : List (String × String)) : Prop where
  distinct : (as.map (·.opening)).Nodup
  descending : as.Pairwise fun a b => b.opening.utf8ByteSize ≤ a.opening.utf8ByteSize
  mem_iff : ∀ a, a ∈ as ↔ a.opening ≠ "" ∧ (firstFor? es a.opening).map (·.2) = some a.target

theorem Keeps.nil : Keeps [] [] where
  distinct := .nil
  descending := .nil
  mem_iff a := by simp [firstFor?]

theorem descending_insertSorted
    (h : as.Pairwise fun a b => b.opening.utf8ByteSize ≤ a.opening.utf8ByteSize) (a : Alias) :
    (insertSorted a as).Pairwise fun a b => b.opening.utf8ByteSize ≤ a.opening.utf8ByteSize := by
  induction as with
  | nil => exact List.pairwise_singleton _ _
  | cons c as ih =>
    obtain ⟨hc, has⟩ := List.pairwise_cons.mp h
    unfold insertSorted
    split
    · rename_i hbefore
      have hle := size_le_of_before hbefore
      exact List.pairwise_cons.mpr
        ⟨List.forall_mem_cons.mpr ⟨hle, fun b hb => (hc b hb).trans hle⟩, h⟩
    · rename_i hbefore
      refine List.pairwise_cons.mpr ⟨fun b hb => ?_, ih has⟩
      rcases List.mem_cons.mp ((insertSorted_perm a as).mem_iff.mp hb) with rfl | hb
      · exact size_le_of_not_before (Bool.not_eq_true _ ▸ hbefore)
      · exact hc b hb

theorem firstFor?_concat (es : List (String × String)) (opening target o : String) :
    firstFor? (es ++ [(opening, target)]) o =
      (firstFor? es o).or (if withoutStars opening = o then some (opening, target) else none) := by
  rw [firstFor?, List.find?_append]
  by_cases ho : withoutStars opening = o <;> simp [firstFor?, ho]

/-- There is an alias for an opening if some entry asks for it. -/
theorem Keeps.any_eq (h : as.Keeps es) {opening : String} (ho : opening ≠ "") :
    as.any (·.opening = opening) = (firstFor? es opening).isSome := by
  rw [Bool.eq_iff_iff, List.any_eq_true, Option.isSome_iff_exists]
  constructor
  · rintro ⟨a, ha, heq⟩
    obtain ⟨e, he, -⟩ := Option.map_eq_some_iff.mp ((h.mem_iff a).mp ha).2
    exact ⟨e, of_decide_eq_true heq ▸ he⟩
  · rintro ⟨e, he⟩
    exact ⟨⟨opening, e.2⟩, (h.mem_iff _).mpr ⟨ho, by rw [he]; rfl⟩, by simp⟩

/-- One more entry adds an alias if it is the first one for its opening. -/
theorem Keeps.add (h : as.Keeps es) (opening target : String) :
    (as.add opening target).Keeps (es ++ [(opening, target)]) := by
  unfold Aliases.add
  dsimp only
  by_cases hempty : withoutStars opening = ""
  · rw [if_pos (by simp [hempty])]
    refine ⟨h.distinct, h.descending, fun a => ?_⟩
    rw [h.mem_iff, firstFor?_concat, hempty]
    refine and_congr_right fun ha => ?_
    rw [if_neg (Ne.symm ha), Option.or_none]
  rw [h.any_eq hempty]
  cases hfirst : firstFor? es (withoutStars opening) with
  | some e =>
    rw [if_pos (by simp)]
    refine ⟨h.distinct, h.descending, fun a => ?_⟩
    rw [h.mem_iff, firstFor?_concat]
    by_cases ho : withoutStars opening = a.opening
    · rw [← ho, hfirst, Option.some_or]
    · rw [if_neg ho, Option.or_none]
  | none =>
    rw [if_neg (by simp [hempty])]
    have hperm := insertSorted_perm ⟨withoutStars opening, target⟩ as
    have hnew : ∀ a ∈ as, a.opening ≠ withoutStars opening := by
      have hany := h.any_eq hempty
      simpa [hfirst] using hany
    refine ⟨?_, descending_insertSorted h.descending _, fun a => ?_⟩
    · rw [(hperm.map _).nodup_iff, List.map_cons, List.nodup_cons, List.mem_map]
      exact ⟨fun ⟨a, ha, heq⟩ => hnew a ha heq, h.distinct⟩
    · rw [hperm.mem_iff, List.mem_cons, firstFor?_concat]
      by_cases ho : withoutStars opening = a.opening
      · have hnot : a ∉ as := fun ha => hnew a ha ho.symm
        rw [← ho, hfirst, Option.none_or, if_pos rfl, or_iff_left hnot]
        constructor
        · rintro rfl
          exact ⟨hempty, rfl⟩
        · rintro ⟨-, htarget⟩
          cases a with
          | mk o goal =>
            obtain rfl : withoutStars opening = o := ho
            obtain rfl : target = goal := Option.some.inj htarget
            rfl
      · have hne : a ≠ ⟨withoutStars opening, target⟩ := fun heq => ho (by rw [heq])
        rw [if_neg ho, Option.or_none, ← h.mem_iff, or_iff_right hne]

/-- Adds aliases one after another. -/
def addAll (as : Aliases) (es : List (String × String)) : Aliases :=
  es.foldl (fun as e => as.add e.1 e.2) as

theorem addAll_cons (as : Aliases) (e : String × String) (es : List (String × String)) :
    as.addAll (e :: es) = (as.add e.1 e.2).addAll es := by
  simp only [addAll, List.foldl_cons]

theorem Keeps.addAll (h : as.Keeps es) (more : List (String × String)) :
    (as.addAll more).Keeps (es ++ more) := by
  induction more generalizing as es with
  | nil => rwa [List.append_nil]
  | cons e more ih =>
    have hstep := ih (h.add e.1 e.2)
    rwa [List.append_assoc, ← addAll_cons] at hstep

/-! ## The entries of a resolver -/

/-- The entries of a table of configured aliases; their targets start at the root. -/
def tableEntries (root : Path) (table : List (String × String)) : List (String × String) :=
  table.map fun e => (e.1, Path.joinText root.toText (withoutStars e.2))

theorem ofTable_eq (root : Path) (table : List (String × String)) :
    ofTable root table = addAll [] (tableEntries root table) := by
  rw [addAll, tableEntries, List.foldl_map, ofTable]

/-- The entries of a compiler's configuration: each pattern leads to its first target. -/
def CompilerPaths.entries (c : CompilerPaths) (root : Path) : List (String × String) :=
  c.paths.filterMap fun e => e.2.head?.map fun first =>
    (e.1, Path.joinText (Path.joinText root.toText (c.baseUrl.getD ".")) (withoutStars first))

/-- What the configuration of a compiler says at the root, if there is one that can be read. -/
def compilerPaths? (t : FileTree) (root : Path) : Option CompilerPaths := do
  let file ← configuration? t root
  let source ← (t.readText file).toOption
  let j ← Json.Relaxed.read? source
  (CompilerPaths.ofJson j).toOption

/-- The entries that loading the configuration of a compiler adds. -/
def compilerEntries (t : FileTree) (root : Path) : List (String × String) :=
  match compilerPaths? t root with
  | none => []
  | some c => c.entries root

theorem addCompilerPaths_eq {t : FileTree} {root : Path} {bs : Aliases}
    (h : as.addCompilerPaths t root = .ok bs) : bs = as.addAll (compilerEntries t root) := by
  unfold addCompilerPaths at h
  split at h
  · rename_i hnone
    obtain rfl := Except.ok.inj h
    simp [compilerEntries, compilerPaths?, hnone, addAll]
  · rename_i file hfile
    split at h
    · cases h
    · rename_i source hsource
      split at h
      · rename_i c hc
        obtain ⟨j, hj, hc⟩ := Option.map_eq_some_iff.mp hc
        have hpaths : compilerPaths? t root = some c := by
          simp [compilerPaths?, hfile, hsource, hj, hc, Except.toOption]
        obtain rfl := Except.ok.inj h
        rw [compilerEntries, hpaths, addAll]
        dsimp only
        rw [CompilerPaths.entries, List.foldl_filterMap]
        congr 1
        funext as e
        obtain ⟨pattern, targets⟩ := e
        cases targets with
        | nil => simp only [List.head?_nil, Option.map_none]
        | cons first more => simp only [List.head?_cons, Option.map_some]
      · cases h
      · cases h

end Aliases

namespace Resolver

variable {t t₀ : FileTree} {root : Path} {table es : List (String × String)} {r : Resolver}
  {importer spec : String} {a b : Alias}

/-- How a resolver comes by its aliases: it is made with a table of them, and may then load the
configuration of a compiler. The entries are listed in the order in which they are added. -/
inductive Collects (t₀ : FileTree) (root : Path) (table : List (String × String)) :
    Resolver → List (String × String) → Prop where
  | new : Collects t₀ root table (.new t₀ root table) (Aliases.tableEntries (t₀.settle root) table)
  | load {r r' : Resolver} {es : List (String × String)} {t : FileTree} {n : Nat}
      (h : Collects t₀ root table r es) (hload : r.withCompilerPaths t = .ok (n, r')) :
      Collects t₀ root table r' (es ++ Aliases.compilerEntries t r.root)

theorem aliases_of_withCompilerPaths {r' : Resolver} {n : Nat}
    (h : r.withCompilerPaths t = .ok (n, r')) :
    r'.aliases = r.aliases.addAll (Aliases.compilerEntries t r.root) := by
  unfold withCompilerPaths at h
  cases has : r.aliases.addCompilerPaths t r.root with
  | error failure => simp [has, bind, Except.bind] at h
  | ok as =>
    rw [has] at h
    obtain ⟨-, rfl⟩ := Prod.mk.inj (Except.ok.inj h)
    exact Aliases.addCompilerPaths_eq has

theorem Collects.root_eq (h : Collects t₀ root table r es) : r.root = t₀.settle root := by
  induction h with
  | new => rfl
  | load _ hload ih => rw [root_withCompilerPaths hload, ih]

theorem Collects.keeps (h : Collects t₀ root table r es) : r.aliases.Keeps es := by
  induction h with
  | new =>
    have hnew := Aliases.Keeps.nil.addAll (Aliases.tableEntries (t₀.settle root) table)
    rwa [← Aliases.ofTable_eq] at hnew
  | load _ hload ih =>
    rw [aliases_of_withCompilerPaths hload]
    exact ih.addAll _

/-! ## The longest opening -/

theorem length_lt_of_opens {p q spec : String} (hp : Alias.Opens p spec) (hq : Alias.Opens q spec)
    (hne : p ≠ q) (hle : p.utf8ByteSize ≤ q.utf8ByteSize) : p.length < q.length := by
  obtain ⟨pr, rfl, -⟩ := hp
  obtain ⟨qr, hspec, -⟩ := hq
  have hlists : p.toList ++ pr.toList = q.toList ++ qr.toList := by
    simpa using congrArg String.toList hspec
  rw [← String.length_toList, ← String.length_toList]
  refine lt_of_not_ge fun hlen => hne ?_
  -- the opening that is not shorter starts with the other one
  obtain ⟨more, hmore⟩ : q.toList <+: p.toList :=
    List.prefix_of_prefix_length_le ⟨_, hlists.symm⟩ (List.prefix_append _ _) hlen
  obtain rfl : p = q ++ String.ofList more := String.toList_inj.mp (by simp [← hmore])
  rw [String.utf8ByteSize_append] at hle
  have hnothing : String.ofList more = "" := String.utf8ByteSize_eq_zero_iff.mp (by omega)
  rw [hnothing, String.append_empty]

/-- What is found first among the aliases has the longest opening of all that open a name. -/
theorem longest_of_find? (h : r.aliases.Keeps es) (ha : r.aliases.find? (·.covers spec) = some a) :
    ∀ b ∈ r.aliases, Alias.Opens b.opening spec → b ≠ a → b.opening.length < a.opening.length := by
  obtain ⟨hcovers, before, after, haliases, hbefore⟩ := List.find?_eq_some_iff_append.mp ha
  intro b hb hopens hne
  have hmem := hb
  rw [haliases, List.mem_append, List.mem_cons] at hb
  rcases hb with hb | rfl | hb
  · have hnot := hbefore b hb
    rw [Alias.covers_iff.mpr hopens] at hnot
    cases hnot
  · exact absurd rfl hne
  · have hsizes := h.descending
    rw [haliases, List.pairwise_append, List.pairwise_cons] at hsizes
    refine length_lt_of_opens hopens (Alias.covers_iff.mp hcovers) (fun heq => hne ?_)
      (hsizes.2.1.1 b hb)
    exact List.inj_on_of_nodup_map h.distinct hmem (List.mem_of_find?_eq_some ha) heq

/-- The last look at what a name stands for: it must lie below the root. -/
def confined (r : Resolver) (t : FileTree) (spec : String) : Resolution → Resolution
  | .resolved path =>
    if Path.isWithin r.root (t.settle path) then .resolved (t.settle path)
    else .unresolved (.outsideRoot spec)
  | .unresolved reason => .unresolved reason

/-- A name in a file that can be asked for: it is not blank, holds no NUL character, and the path of the
file starts at the root. -/
structure Sound (importer spec : String) : Prop where
  notBlank : Text.isBlankText spec = false
  noNul : '\x00' ∉ spec.toList
  rooted : Path.isRootedText importer = true

instance (importer spec : String) : Decidable (Sound importer spec) :=
  decidable_of_iff (Text.isBlankText spec = false ∧ '\x00' ∉ spec.toList ∧
      Path.isRootedText importer = true)
    ⟨fun ⟨b, n, h⟩ => ⟨b, n, h⟩, fun h => ⟨h.notBlank, h.noNul, h.rooted⟩⟩

theorem Sound.resolve_eq (h : Sound importer spec) (r : Resolver) (t : FileTree) :
    r.resolve t importer spec =
      .ok (r.confined t (Text.trim spec) (r.found t (.ofText importer) (Text.trim spec))) := by
  unfold resolve
  rw [if_neg (by simp [h.notBlank]), if_neg (by simpa using h.noNul), if_neg (by simp [h.rooted])]
  rfl

/-- The aliases of a resolver have openings that differ, are not empty and end in no star; for each one the
first entry counts, so that those of the table come before those of a compiler's configuration. If some
alias opens a name, the one with the longest opening decides alone: the name stands for the first candidate
under its target, or for nothing, as long as what is found lies below the root. -/
theorem longest_alias_decides (hr : Collects t₀ root table r es) :
    (r.aliases.map (·.opening)).Nodup ∧
      (∀ a, a ∈ r.aliases ↔ a.opening ≠ "" ∧
        (Aliases.firstFor? es a.opening).map (·.2) = some a.target) ∧
      ∀ (t : FileTree) (importer spec : String), Sound importer spec →
        (∃ a ∈ r.aliases, Alias.Opens a.opening (Text.trim spec)) →
        ∃ a ∈ r.aliases, Alias.Opens a.opening (Text.trim spec) ∧
          (∀ b ∈ r.aliases, Alias.Opens b.opening (Text.trim spec) → b ≠ a →
            b.opening.length < a.opening.length) ∧
          ∃ rest, Text.trim spec = a.opening ++ rest ∧
            r.resolve t importer spec = .ok (r.confined t (Text.trim spec)
              (.ofFile? (.aliasWithoutFile a.opening (a.apply (Text.trim spec)))
                (candidate? t
                  ((Path.ofText a.target).child (Text.dropLeading (· = '/') rest))
                  ((Language.ofPath? (.ofText importer)).getD .typeScript)))) := by
  have hkeeps := hr.keeps
  refine ⟨hkeeps.distinct, hkeeps.mem_iff, ?_⟩
  rintro t importer spec hsound ⟨c, hc, hopens⟩
  obtain ⟨a, ha⟩ : ∃ a, r.aliases.find? (·.covers (Text.trim spec)) = some a := by
    rw [← Option.isSome_iff_exists, List.find?_isSome]
    exact ⟨c, hc, Alias.covers_iff.mpr hopens⟩
  have hcovers := List.find?_some ha
  have hopens := Alias.covers_iff.mp hcovers
  obtain ⟨rest, hrest, -⟩ := id hopens
  refine ⟨a, List.mem_of_find?_eq_some ha, hopens, longest_of_find? hkeeps ha, rest, hrest, ?_⟩
  rw [hsound.resolve_eq, found, alias?, ha, ← Alias.ofText_apply hrest]
  simp only [Option.map_some, Option.getD_some]

namespace Shadowed

/-- A workspace whose compiler is told about `@app/*` too, and about the longer `@app/lib/*`. -/
def tree : FileTree where
  entries := [
    (["w"], .directory),
    (["w", "tsconfig.json"], .file (Text.encode
      ("\x7bcompilerOptions: \x7bpaths: \x7b'@app/*': ['other/*'], '@app/lib/*': ['special/*']" ++
        "\x7d\x7d\x7d"))),
    (["w", "src"], .directory),
    (["w", "src", "lib"], .directory),
    (["w", "src", "lib", "y.ts"], .file [])]
  start := []

def configured : Resolver := .new tree (.ofText "/w") [("@app/", "src/")]

end Shadowed

/-- The table comes before the compiler's configuration, and the longer opening decides although only the
shorter one leads to a file. -/
theorem longest_alias_decides_shadowed :
    ∃ n r, Shadowed.configured.withCompilerPaths Shadowed.tree = .ok (n, r) ∧
      r.aliases = [⟨"@app/lib/", "/w/./special/"⟩, ⟨"@app/", "/w/src/"⟩] ∧
      Sound "/w/src/a.ts" "@app/lib/y" ∧
      r.resolve Shadowed.tree "/w/src/a.ts" "@app/lib/y" =
        .ok (.unresolved (.aliasWithoutFile "@app/lib/" "/w/./special/y")) := by
  have hload : (Shadowed.configured.withCompilerPaths Shadowed.tree).toOption.map (·.2.aliases) =
      some [⟨"@app/lib/", "/w/./special/"⟩, ⟨"@app/", "/w/src/"⟩] := by decide +kernel
  obtain ⟨⟨n, r⟩, hr, haliases⟩ := Option.map_eq_some_iff.mp hload
  replace hr : Shadowed.configured.withCompilerPaths Shadowed.tree = .ok (n, r) := by
    cases h : Shadowed.configured.withCompilerPaths Shadowed.tree with
    | error failure => simp [h, Except.toOption] at hr
    | ok loaded =>
      rw [h] at hr
      rw [Option.some.inj hr]
  replace haliases : r.aliases = [⟨"@app/lib/", "/w/./special/"⟩, ⟨"@app/", "/w/src/"⟩] := haliases
  have hsound : Sound "/w/src/a.ts" "@app/lib/y" := by decide
  have hlonger : Alias.Opens "@app/lib/" (Text.trim "@app/lib/y") := by decide
  obtain ⟨a, ha, -, hlongest, rest, hrest, hresolve⟩ :=
    (longest_alias_decides (.load .new hr)).2.2 Shadowed.tree _ _ hsound
      ⟨_, haliases ▸ List.mem_cons_self, hlonger⟩
  refine ⟨n, r, hr, haliases, hsound, ?_⟩
  rw [haliases, List.forall_mem_cons] at hlongest
  rw [haliases, List.mem_cons, List.mem_singleton] at ha
  rcases ha with rfl | rfl
  · obtain rfl : rest = "y" := by
      have hstrip := Text.stripOpening?_eq_some_iff.mpr hrest
      exact (Option.some.inj (hstrip.symm.trans (by decide)))
    rw [hresolve, show candidate? Shadowed.tree _ _ = none by decide +kernel]
    rfl
  · exact absurd (hlongest.1 hlonger (by decide)) (by decide)

end Resolver

end Resolve

end DepAtlas
