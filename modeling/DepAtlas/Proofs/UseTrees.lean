import DepAtlas.Outline.Rust
import Mathlib.Data.List.Induction

/-! # Use declarations

A use declaration names paths, alone or in groups of clauses below a path. Its leaves do not depend on
how clauses are grouped. The imports of a declaration do: the names that come from one module make one
import, of the module, and a name that is alone makes an import of its own path.
-/

namespace DepAtlas.Outline.Rust

open DepAtlas.Syntax.Rust (Kind)

/-- What is written after `use`: a path, a path under another name, everything in a path, or clauses in
a group below a path. -/
inductive UseTree where
  | name (path : List String)
  | renamed (path : List String) (asName : Option String)
  | all (path : List String)
  | group (path : List String) (clauses : List UseTree)

mutual

def useTree : Node → UseTree
  | .node l f e cs =>
    let t : Node := .node l f e cs
    match t.kind? with
    | some .scopedUseList =>
      .group (((t.child? .path).map fun p => segments p.text).getD []) (listedClauses cs)
    | some .useList => .group [] (clauses cs)
    | some .useAsClause =>
      match t.child? .path with
      | some p => .renamed (segments p.text) ((t.child? .asName).map (·.text))
      | none => .group [] []
    | some .useWildcard => .all (segments (withoutStar t.text))
    | _ => .name (segments t.text)

/-- The clauses among the nodes of a list. -/
def clauses : List Node → List UseTree
  | [] => []
  | c :: cs => if c.isNamed then useTree c :: clauses cs else clauses cs

/-- The clauses of the list among the parts of a group. -/
def listedClauses : List Node → List UseTree
  | [] => []
  | .node l f e cs :: rest =>
    if f = some .list then
      (if l = .kind .useList then clauses cs else [useTree (.node l f e cs)]) ++ listedClauses rest
    else listedClauses rest

end

namespace UseTree

/-- The same below a path. -/
def under (lead : List String) : UseTree → UseTree
  | name path => name (lead ++ path)
  | renamed path asName => renamed (lead ++ path) asName
  | all path => all (lead ++ path)
  | group path cs => group (lead ++ path) cs

/-- A path without a last `self`, which stands for the path before it. -/
def withoutSelf (path : List String) : List String :=
  if path.length > 1 && path.getLast? = some "self" then path.dropLast else path

mutual

/-- The names that are brought in, in order. -/
def leaves (lead : List String) : UseTree → List UseLeaf
  | name path =>
    let path := withoutSelf (lead ++ path)
    if path.isEmpty then [] else [⟨path, none, false⟩]
  | renamed path asName => [⟨lead ++ path, asName, false⟩]
  | all path => [⟨lead ++ path, none, true⟩]
  | group path cs => leavesAll (lead ++ path) cs

def leavesAll (lead : List String) : List UseTree → List UseLeaf
  | [] => []
  | c :: cs => leaves lead c ++ leavesAll lead cs

end

mutual

def same : UseTree → UseTree → Bool
  | name p, name q => p = q
  | renamed p x, renamed q y => p = q && x = y
  | all p, all q => p = q
  | group p us, group q vs => p = q && sameAll us vs
  | _, _ => false

def sameAll : List UseTree → List UseTree → Bool
  | [], [] => true
  | u :: us, v :: vs => same u v && sameAll us vs
  | _, _ => false

end

mutual

theorem same_iff : (u v : UseTree) → (same u v = true ↔ u = v)
  | name _, v => by cases v <;> simp [same]
  | renamed _ _, v => by cases v <;> simp [same]
  | all _, v => by cases v <;> simp [same]
  | group _ us, v => by
    cases v with
    | group _ vs => simp [same, sameAll_iff us vs]
    | _ => simp [same]

theorem sameAll_iff : (us vs : List UseTree) → (sameAll us vs = true ↔ us = vs)
  | [], vs => by cases vs <;> simp [sameAll]
  | u :: us, vs => by
    cases vs with
    | nil => simp [sameAll]
    | cons v vs => simp [sameAll, same_iff u v, sameAll_iff us vs]

end

instance : DecidableEq UseTree := fun u v => decidable_of_iff _ (same_iff u v)

theorem leaves_under (lead path : List String) (u : UseTree) :
    leaves lead (u.under path) = leaves (lead ++ path) u := by
  cases u <;> simp [under, leaves]

theorem leavesAll_eq_flatMap (lead : List String) (cs : List UseTree) :
    leavesAll lead cs = cs.flatMap (leaves lead) := by
  induction cs with
  | nil => rfl
  | cons c cs ih => rw [leavesAll, ih, List.flatMap_cons]

theorem leavesAll_append (lead : List String) (cs ds : List UseTree) :
    leavesAll lead (cs ++ ds) = leavesAll lead cs ++ leavesAll lead ds := by
  simp [leavesAll_eq_flatMap]

end UseTree

/-! ## Leaves -/

open UseTree

theorem walkAll_none {κ γ σ : Type} (enter : Syntax.Tree.Enter κ γ σ) (cs : List (Syntax.Tree κ)) (s : σ) :
    Syntax.Tree.walkAll enter (fun _ _ => none) cs s = s := by
  induction cs with
  | nil => rw [Syntax.Tree.walkAll]
  | cons c cs ih => rw [Syntax.Tree.walkAll, ih]

mutual

/-- The walk over what is written after `use` gathers its leaves, last first. -/
theorem walk_enterUse (lead : List String) (acc : List UseLeaf) : (t : Node) →
    Syntax.Tree.walk enterUse lead t acc = (leaves lead (useTree t)).reverse ++ acc
  | .node l f e cs => by
    rw [useTree, Syntax.Tree.walk]
    split
    · rename_i hk
      have hstep : enterUse lead (.node l f e cs) acc = (acc, fun c _ => if c.inPart .list then
          some (lead ++
            (((Syntax.Tree.node l f e cs : Node).child? .path).map fun p => segments p.text).getD [])
          else none) := by
        simp only [enterUse, hk]
        cases (Syntax.Tree.node l f e cs : Node).child? .path <;> simp
      rw [hstep, leaves, walkAll_listed]
    · rename_i hk
      have hstep : enterUse lead (.node l f e cs) acc =
          (acc, fun c _ => if c.isNamed then some lead else none) := by
        simp only [enterUse, hk]
      rw [hstep, leaves, List.append_nil, walkAll_named]
    · rename_i hk
      cases hp : (Syntax.Tree.node l f e cs : Node).child? .path with
      | none =>
        have hstep : enterUse lead (.node l f e cs) acc = (acc, fun _ _ => none) := by
          simp only [enterUse, hk, hp]
        rw [hstep, walkAll_none]
        simp [leaves, leavesAll]
      | some p =>
        have hstep : enterUse lead (.node l f e cs) acc = (⟨lead ++ segments p.text,
            ((Syntax.Tree.node l f e cs : Node).child? .asName).map (·.text), false⟩ :: acc,
            fun _ _ => none) := by
          simp only [enterUse, hk, hp]
        rw [hstep, walkAll_none]
        simp [leaves]
    · rename_i hk
      have hstep : enterUse lead (.node l f e cs) acc = (⟨lead ++
          segments (withoutStar (Syntax.Tree.node l f e cs : Node).text), none, true⟩ :: acc,
          fun _ _ => none) := by
        simp only [enterUse, hk]
      rw [hstep, walkAll_none]
      simp [leaves]
    · rename_i hscoped hlist has hall
      have hstep : enterUse lead (.node l f e cs) acc =
          ((leaves lead (.name (segments (Syntax.Tree.node l f e cs : Node).text))).reverse ++ acc,
            fun _ _ => none) := by
        unfold enterUse
        split
        · exact absurd ‹_› hscoped
        · exact absurd ‹_› hlist
        · exact absurd ‹_› has
        · exact absurd ‹_› hall
        · have hpath : withoutSelf (lead ++ segments (Syntax.Tree.node l f e cs : Node).text) =
              leafPath lead (Syntax.Tree.node l f e cs : Node).text := rfl
          by_cases hempty : (leafPath lead (Syntax.Tree.node l f e cs : Node).text).isEmpty = true <;>
            simp [leaves, hpath, hempty]
      rw [hstep, walkAll_none]

theorem walkAll_named (lead : List String) (acc : List UseLeaf) : (cs : List Node) →
    Syntax.Tree.walkAll enterUse (fun c _ => if c.isNamed then some lead else none) cs acc =
      (leavesAll lead (clauses cs)).reverse ++ acc
  | [] => by simp [Syntax.Tree.walkAll, clauses, leavesAll]
  | c :: cs => by
    rw [Syntax.Tree.walkAll, clauses]
    cases hc : c.isNamed with
    | false => simp [walkAll_named lead acc cs]
    | true => simp [walk_enterUse lead acc c, walkAll_named lead _ cs, leavesAll]

theorem walkAll_listed (path : List String) (acc : List UseLeaf) : (cs : List Node) →
    Syntax.Tree.walkAll enterUse (fun c _ => if c.inPart .list then some path else none) cs acc =
      (leavesAll path (listedClauses cs)).reverse ++ acc
  | [] => by simp [Syntax.Tree.walkAll, listedClauses, leavesAll]
  | .node l f e cs :: rest => by
    rw [Syntax.Tree.walkAll, listedClauses]
    by_cases hf : f = some .list
    · have hpart : (Syntax.Tree.node l f e cs : Node).inPart .list = true := by
        simp [Syntax.Tree.inPart, Syntax.Tree.field, hf]
      rw [hpart, if_pos hf]
      simp only [if_true]
      rw [walkAll_listed path _ rest, leavesAll_append, List.reverse_append, List.append_assoc]
      congr 1
      split
      · rename_i hl
        have htree : useTree (.node l f e cs) = .group [] (clauses cs) := by
          rw [useTree, hl]
          rfl
        rw [walk_enterUse, htree, leaves, List.append_nil]
      · rw [walk_enterUse]
        simp [leavesAll]
    · have hpart : (Syntax.Tree.node l f e cs : Node).inPart .list = false := by
        simp [Syntax.Tree.inPart, Syntax.Tree.field, hf]
      simp [hpart, hf, walkAll_listed path acc rest]

end

/-! ## Groups by module -/

/-- The names that a declaration brings in, each with the module it comes from. -/
def namesOf (t : Node) : List (List String × Binding) :=
  (((t.child? .argument).map fun a => leaves [] (useTree a)).getD []).filterMap leafBinding?

/-- The names that come from a module. -/
def namesIn (names : List (List String × Binding)) (m : List String) : List Binding :=
  (names.filter (·.1 = m)).map (·.2)

theorem namesIn_concat (names : List (List String × Binding)) (m n : List String) (b : Binding) :
    namesIn (names ++ [(m, b)]) n = if m = n then namesIn names n ++ [b] else namesIn names n := by
  by_cases h : m = n <;> simp [namesIn, h]

theorem namesIn_sublist {names more : List (List String × Binding)} (h : names.Sublist more)
    (m : List String) : (namesIn names m).Sublist (namesIn more m) :=
  (h.filter _).map _

theorem keys_addToGroup (m : List String) (b : Binding) (gs : List (List String × List Binding)) :
    (addToGroup m b gs).map (·.1) =
      if m ∈ gs.map (·.1) then gs.map (·.1) else gs.map (·.1) ++ [m] := by
  induction gs with
  | nil => rfl
  | cons g gs ih =>
    obtain ⟨n, bs⟩ := g
    rw [addToGroup]
    by_cases h : n = m
    · simp [h]
    · simp only [h, if_false, List.map_cons, ih, List.mem_cons, Ne.symm h, false_or]
      split <;> simp_all

theorem mem_addToGroup_iff {m n : List String} {b : Binding} {gs : List (List String × List Binding)}
    {bs : List Binding} (h : (gs.map (·.1)).Nodup) :
    (n, bs) ∈ addToGroup m b gs ↔ if m = n
      then ∃ old, bs = old ++ [b] ∧ ((m, old) ∈ gs ∨ old = [] ∧ m ∉ gs.map (·.1))
      else (n, bs) ∈ gs := by
  induction gs with
  | nil =>
    rw [addToGroup]
    grind
  | cons g gs ih =>
    obtain ⟨k, ks⟩ := g
    obtain ⟨hk, hgs⟩ := List.nodup_cons.mp h
    have hnot : ∀ cs, (k, cs) ∉ gs := fun cs hcs => hk (List.mem_map.mpr ⟨_, hcs, rfl⟩)
    rw [addToGroup]
    by_cases hkm : k = m
    · subst hkm
      rw [if_pos rfl]
      grind
    · rw [if_neg hkm, List.mem_cons, ih hgs]
      grind

/-- The names in groups by module. -/
def groupsOf (names : List (List String × Binding)) : List (List String × List Binding) :=
  names.foldl (fun gs (m, b) => addToGroup m b gs) []

/-- There is one group for each module that names come from, and it has all of them. -/
theorem mem_groupsOf_iff (names : List (List String × Binding)) :
    ((groupsOf names).map (·.1)).Nodup ∧
      ∀ m bs, (m, bs) ∈ groupsOf names ↔ bs ≠ [] ∧ bs = namesIn names m := by
  induction names using List.reverseRecOn with
  | nil => simp [groupsOf, namesIn]
  | append_singleton names x ih =>
    obtain ⟨n, b⟩ := x
    obtain ⟨hnodup, hmem⟩ := ih
    have hstep : groupsOf (names ++ [(n, b)]) = addToGroup n b (groupsOf names) := by
      simp [groupsOf]
    have hkey : n ∈ (groupsOf names).map (·.1) ↔ namesIn names n ≠ [] := by
      simp [hmem]
    constructor
    · rw [hstep, keys_addToGroup]
      split
      · exact hnodup
      · rename_i hn
        refine List.nodup_append.mpr ⟨hnodup, by simp, fun k hk l hl => ?_⟩
        rw [List.mem_singleton.mp hl]
        exact fun h => hn (h ▸ hk)
    · intro m bs
      rw [hstep, mem_addToGroup_iff hnodup, namesIn_concat]
      by_cases hm : n = m
      · subst hm
        simp only [if_true, hkey, hmem]
        constructor
        · rintro ⟨old, rfl, ⟨-, rfl⟩ | ⟨rfl, hnone⟩⟩
          · simp
          · simp [not_not.mp hnone]
        · rintro ⟨-, rfl⟩
          refine ⟨_, rfl, ?_⟩
          by_cases hnone : namesIn names n = []
          · exact .inr ⟨hnone, not_not.mpr hnone⟩
          · exact .inl ⟨hnone, rfl⟩
      · simp only [hm, if_false, hmem]

/-- The path that the names of a module make an import of. -/
def groupPath (m : List String) (bs : List Binding) : List String :=
  match bs with
  | [b] => if b.imported ≠ "*" then m ++ [b.imported] else m
  | _ => m

/-- Names bring in an import of the path. -/
def Brings (names : List (List String × Binding)) (path : List String) : Prop :=
  path ≠ [] ∧ ∃ m, namesIn names m ≠ [] ∧ groupPath m (namesIn names m) = path

theorem mem_useImports_iff {t : Node} {spec : String} :
    spec ∈ (useImports t).map (·.specifier) ↔
      ∃ path, Brings (namesOf t) path ∧ spec = String.intercalate "::" path := by
  have himports : useImports t = (groupsOf (namesOf t)).filterMap fun g =>
      groupImport? t.line g.1 g.2 := by
    unfold useImports namesOf groupsOf
    cases t.child? .argument with
    | none => rfl
    | some a => simp [walk_enterUse]
  have hgroup : ∀ m bs, groupImport? t.line m bs = if groupPath m bs = [] then none
      else some ⟨String.intercalate "::" (groupPath m bs), .plain, t.line, bs⟩ := by
    intro m bs
    simp only [groupImport?, ← List.isEmpty_iff]
    rfl
  simp only [himports, List.mem_map, List.mem_filterMap, Prod.exists, (mem_groupsOf_iff _).2, hgroup]
  constructor
  · rintro ⟨i, ⟨m, bs, ⟨hne, rfl⟩, hi⟩, rfl⟩
    obtain ⟨hpath, hi⟩ := Option.ite_none_left_eq_some.mp hi
    exact ⟨_, ⟨hpath, m, hne, rfl⟩, by rw [← Option.some.inj hi]⟩
  · rintro ⟨path, ⟨hpath, m, hne, rfl⟩, rfl⟩
    exact ⟨_, ⟨m, _, ⟨hne, rfl⟩, if_neg hpath⟩, rfl⟩

/-! ## Splitting a declaration -/

/-- The name `x` of the module `m` is the only one of it in its part, but not in all parts. -/
def SetApart (parts : List (List (List String × Binding))) (m : List String) (x : String) : Prop :=
  ∃ names ∈ parts, ∃ b, namesIn names m = [b] ∧ b.imported = x ∧ x ≠ "*" ∧
    namesIn parts.flatten m ≠ [b]

section

variable {parts : List (List (List String × Binding))} {names : List (List String × Binding)}
  {m path : List String}

theorem namesIn_part_sublist (h : names ∈ parts) (m : List String) :
    (namesIn names m).Sublist (namesIn parts.flatten m) :=
  namesIn_sublist (List.sublist_flatten_of_mem h) m

/-- Where a part lacks names of a module that it has some of, all parts make an import of the module. -/
theorem groupPath_flatten (h : names ∈ parts) (hne : namesIn names m ≠ [])
    (hless : namesIn names m ≠ namesIn parts.flatten m) :
    groupPath m (namesIn parts.flatten m) = m := by
  have hsub := namesIn_part_sublist h m
  have hlength : (namesIn names m).length < (namesIn parts.flatten m).length :=
    Nat.lt_of_le_of_ne hsub.length_le fun heq => hless (hsub.eq_of_length heq)
  have hpos := List.length_pos_iff.mpr hne
  unfold groupPath
  split
  · rename_i b hb
    rw [hb, List.length_singleton] at hlength
    omega
  · rfl

/-- A part makes an import of its module, or of the only name that it has of it. -/
theorem groupPath_cases (m : List String) (bs : List Binding) :
    groupPath m bs = m ∨ ∃ b, bs = [b] ∧ b.imported ≠ "*" ∧ groupPath m bs = m ++ [b.imported] := by
  unfold groupPath
  split
  · rename_i b
    split
    · rename_i hb
      exact .inr ⟨b, rfl, hb, rfl⟩
    · exact .inl rfl
  · exact .inl rfl

theorem Brings.of_part (h : names ∈ parts) (hb : Brings names path) :
    Brings parts.flatten path ∨ ∃ m x, SetApart parts m x ∧ path = m ++ [x] ∧
      (m ≠ [] → Brings parts.flatten m) := by
  obtain ⟨hpath, m, hne, rfl⟩ := hb
  have hall : namesIn parts.flatten m ≠ [] := fun hnil =>
    hne (List.eq_nil_of_sublist_nil (hnil ▸ namesIn_part_sublist h m))
  by_cases hsame : namesIn names m = namesIn parts.flatten m
  · exact .inl ⟨hpath, m, hall, by rw [hsame]⟩
  · have hflat := groupPath_flatten h hne hsame
    rcases groupPath_cases m (namesIn names m) with heq | ⟨b, hb, hstar, heq⟩
    · rw [heq] at hpath ⊢
      exact .inl ⟨hpath, m, hall, hflat⟩
    · exact .inr ⟨m, b.imported, ⟨names, h, b, hb, rfl, hstar, fun hflat => hsame (hb.trans hflat.symm)⟩,
        heq, fun hm => ⟨hm, m, hall, hflat⟩⟩

theorem Brings.in_parts (hb : Brings parts.flatten path) :
    (∃ names ∈ parts, Brings names path) ∨
      ∃ m x, SetApart parts m x ∧ path = m ∧ ∃ names ∈ parts, Brings names (m ++ [x]) := by
  obtain ⟨hpath, m, hall, rfl⟩ := hb
  obtain ⟨names, h, hne⟩ : ∃ names ∈ parts, namesIn names m ≠ [] := by
    obtain ⟨b, hb⟩ := List.exists_mem_of_ne_nil _ hall
    obtain ⟨x, hx, rfl⟩ := List.mem_map.mp hb
    obtain ⟨hx, hm⟩ := List.mem_filter.mp hx
    obtain ⟨names, h, hmem⟩ := List.mem_flatten.mp hx
    exact ⟨names, h, List.ne_nil_of_mem (List.mem_map_of_mem (List.mem_filter.mpr ⟨hmem, hm⟩))⟩
  by_cases hsame : namesIn names m = namesIn parts.flatten m
  · exact .inl ⟨names, h, hpath, m, hne, by rw [hsame]⟩
  · have hflat := groupPath_flatten h hne hsame
    rw [hflat] at hpath ⊢
    rcases groupPath_cases m (namesIn names m) with heq | ⟨b, hb, hstar, heq⟩
    · exact .inl ⟨names, h, hpath, m, hne, heq⟩
    · exact .inr ⟨m, b.imported, ⟨names, h, b, hb, rfl, hstar, fun hflat => hsame (hb.trans hflat.symm)⟩,
        rfl, names, h, by simp, m, hne, heq⟩

/-- The parts lead to what all of them together lead to, but for what only one of a name that is set apart
and its module leads to. -/
theorem leads_parts_iff {α : Type} {lead : List String → Option α} {y : α} (hnil : lead [] = none)
    (h : ∀ m x, SetApart parts m x → (lead (m ++ [x]) = some y ↔ lead m = some y)) :
    (∃ names ∈ parts, ∃ path, Brings names path ∧ lead path = some y) ↔
      ∃ path, Brings parts.flatten path ∧ lead path = some y := by
  constructor
  · rintro ⟨names, hnames, path, hpath, hy⟩
    rcases hpath.of_part hnames with hall | ⟨m, x, hapart, rfl, hm⟩
    · exact ⟨path, hall, hy⟩
    · have hy := (h m x hapart).mp hy
      refine ⟨m, hm fun hempty => ?_, hy⟩
      rw [hempty, hnil] at hy
      cases hy
  · rintro ⟨path, hpath, hy⟩
    rcases hpath.in_parts with ⟨names, hnames, hpart⟩ | ⟨m, x, hapart, rfl, names, hnames, hpart⟩
    · exact ⟨names, hnames, path, hpart, hy⟩
    · exact ⟨names, hnames, _, hpart, (h _ x hapart).mpr hy⟩

end

end DepAtlas.Outline.Rust
