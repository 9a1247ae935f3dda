import DepAtlas.Atlas.Usage
import DepAtlas.Proofs.PythonImports

/-! # The names of declared modules

A module that is in a file of its own is imported where it is declared. The import binds one name,
the last one of its specifier: it is a word of the source, and words have no colons. No other import
is of this kind.
-/

namespace DepAtlas.Text

theorem mem_of_mem_stripBy {α : Type} {p : α → Bool} {x : α} {xs : List α}
    (h : x ∈ stripBy p xs) : x ∈ xs := by
  have h := (List.dropWhile_sublist p).subset (List.mem_reverse.mp h)
  exact (List.dropWhile_sublist p).subset (List.mem_reverse.mp h)

theorem cutAt_of_not_mem {x : Char} {s : List Char} (hs : x ∈ s) {cs : List Char}
    (h : x ∉ cs) (piece : List Char) : cutAt s piece cs = [piece.reverse ++ cs] := by
  induction cs generalizing piece with
  | nil => simp [cutAt]
  | cons c cs ih =>
    have hpre : ¬ (s ≠ [] ∧ s.isPrefixOf (c :: cs) = true) :=
      fun hpre => h ((List.isPrefixOf_iff_prefix.mp hpre.2).subset hs)
    rw [cutAt, if_neg hpre, ih fun hx => h (List.mem_cons_of_mem _ hx)]
    simp

end DepAtlas.Text

namespace DepAtlas

theorem Usage.moduleName_self {name : String} (h : ':' ∉ name.toList) :
    Usage.moduleName ("self::" ++ name) = name := by
  have hcut : Text.cutAt "::".toList [] ("self::" ++ name).toList =
      ["self".toList, name.toList] := by
    have hlast := Text.cutAt_of_not_mem (x := ':') (s := [':', ':']) (by simp) h []
    simp [Text.cutAt, hlast]
  rw [Usage.moduleName, Text.splitText, hcut]
  simp

end DepAtlas

/-! ## How modules are formed -/

namespace DepAtlas.Syntax.Rust

theorem constructions_anyOp (k : Kind) : (l : List String) → (anyOp l).constructions k = []
  | [] | [_] => rfl
  | _ :: b :: l => constructions_anyOp k (b :: l)

/-- The parts of a module. -/
def moduleBody : Expr :=
  optVisibility ++ .opt (word "unsafe") ++ word "mod" ++ .field .name identifier ++
    (op ";" <|> .field .body declarations)

theorem eq_module_of_mem {r : Rule} {p : Expr} (h : p ∈ (rule r).constructions .modItem) :
    p = .node .modItem moduleBody := by
  cases r with
  | item => exact List.mem_singleton.mp h
  | binary n structs =>
    change p ∈ (binary n structs).constructions _ at h
    unfold binary at h
    split at h <;> simp [Peg.chain, Peg.constructions, constructions_anyOp, word] at h
  | expression structs | range structs | unary structs | suffixed structs | primary structs =>
    cases structs <;> exact (List.not_mem_nil h).elim
  | _ => exact (List.not_mem_nil h).elim

theorem grows_rule (r : Rule) : (rule r).grows = [] := by
  cases r with
  | expression structs | range structs | unary structs | suffixed structs | primary structs =>
    cases structs <;> rfl
  | binary n structs =>
    change (binary n structs).grows = []
    unfold binary
    split <;> rfl
  | _ => rfl

/-- The rules of which no tree plays a part. -/
def isBareRule : Rule → Bool
  | .visibility => true
  | _ => false

theorem isBare_rule (r : Rule) (h : isBareRule r = true) :
    (grammar.rule r).isBare isBareRule = true := by
  cases r <;> first | rfl | cases h

theorem skip_module (c : Cursor) (n : Nat) : grammar.skip c ≠ some (n, some .modItem) := by
  intro h
  change skip c = _ at h
  unfold skip at h
  split at h
  · cases h
  · cases h
  · obtain ⟨m, -, heq⟩ := Option.map_eq_some_iff.mp h
    cases heq

theorem skipsText : grammar.SkipsText := by
  intro c k m h
  change skip c = _ at h
  unfold skip at h
  split at h
  · rename_i heq
    cases h
    simp [heq, Lexeme.countWhile]
  · rename_i heq
    cases h
    simp [heq]
  · obtain ⟨n, hn, heq⟩ := Option.map_eq_some_iff.mp h
    cases heq
    obtain ⟨hne, hn⟩ := Option.ite_none_left_eq_some.mp hn
    cases hn
    refine ⟨Nat.pos_of_ne_zero hne, fun hnil => hne ?_⟩
    rw [hnil]
    rfl

/-! ## Words have no colons -/

theorem all_take_countWhile (p : Char → Bool) (cs : List Char) :
    ∀ x ∈ cs.take (Lexeme.countWhile p cs), p x = true := by
  induction cs with
  | nil => simp
  | cons c cs ih =>
    rw [Lexeme.countWhile]
    split
    · rename_i hc
      simpa [hc] using ih
    · simp

theorem isWordChar_of_mem_plainWord {cs : List Char} {x : Char}
    (h : x ∈ cs.take (plainWordLength cs)) : isWordChar x = true := by
  cases cs with
  | nil => simp at h
  | cons c cs =>
    simp only [plainWordLength] at h
    split at h
    · rename_i hc
      rw [Nat.add_comm, List.take_succ_cons] at h
      rcases List.mem_cons.mp h with rfl | h
      · exact (Bool.and_eq_true_iff.mp hc).1
      · exact all_take_countWhile _ _ _ h
    · simp at h

theorem colon_not_mem_word (cs : List Char) : ':' ∉ cs.take (wordLength cs) := by
  have hplain : ∀ {cs : List Char}, ':' ∉ cs.take (plainWordLength cs) := fun h =>
    absurd (isWordChar_of_mem_plainWord h) (by decide)
  unfold wordLength
  split
  · rename_i cs
    split
    · simp
    · rename_i n hn
      have hrest : ':' ∉ cs.take (plainWordLength cs) := hplain
      rw [hn] at hrest
      simp [hrest]
  · exact hplain

theorem scan_identifier {c : Cursor} {n : Nat} {y : Layout}
    (h : scan .identifier c = some (n, y)) : n = wordLength c.rest ∧ n ≠ 0 := by
  obtain ⟨k, hk, heq⟩ := Option.map_eq_some_iff.mp h
  cases heq
  obtain ⟨hne, hk⟩ := Option.ite_none_left_eq_some.mp hk
  obtain rfl := Option.some.inj hk
  exact ⟨rfl, fun hzero => hne (by simp [hzero])⟩

variable {blanks : Nat} {t n : Tree Kind}

/-- The name of a module is a word. -/
theorem child?_name_of_module (h : grammar.Formed blanks t) (ht : t.hasKind .modItem = true) :
    ∃ c : Cursor, t.child? .name = some (.node (.kind .identifier) (some .name)
      (c.extentTo (c.advance (wordLength c.rest))) []) := by
  obtain ⟨c₀, s', hlen, hreads, hchildren⟩ := h.exists_reads ht skip_module
    fun r p hp => eq_module_of_mem hp
  obtain ⟨s₁, hnamed, htail⟩ := hreads.seq_inv
  obtain ⟨s₂, hhead, hname⟩ := hnamed.seq_inv
  obtain ⟨c, ts, s₃, hskip, hword, rfl⟩ := hname.field_inv
  -- Blanks and comments have been passed over, so the word comes next.
  have hc : grammar.skip c = none := by
    have hlen₂ := Nat.lt_of_le_of_lt hhead.onward.length_le hlen
    have hnone := Grammar.skip_skipAll skipsText hlen₂ s₂.trees
    rwa [hskip] at hnone
  obtain ⟨k, y, hscan, htrees⟩ := Grammar.Reads.leaf_of_skip hc hword
  obtain ⟨rfl, hk⟩ := scan_identifier hscan
  replace htrees := htrees.resolve_left hk
  obtain ⟨new, hnew⟩ := htail.exists_append grows_rule rfl
  have hlist : t.children = ts.reverse ++ .node (.kind .identifier) (some .name)
      (c.extentTo (c.advance (wordLength c.rest))) [] :: new.reverse := by
    simp [hchildren, hnew, htrees, Tree.inField]
  -- What stands before it plays no part, so it is the first one that is found.
  have hts := Grammar.forall_mem_skipAll (fun _ => Grammar.IsComment.field) hskip
    (hhead.field_eq_none isBare_rule rfl (by simp))
  have hfirst : ts.reverse.find? (·.field = some .name) = none :=
    List.find?_eq_none.mpr fun t ht => by simp [hts t (List.mem_reverse.mp ht)]
  refine ⟨c, ?_⟩
  rw [Tree.child?, hlist, List.find?_append, hfirst, Option.none_or,
    List.find?_cons_of_pos (by rfl)]

theorem colon_not_mem_name (h : grammar.Formed blanks t) (ht : t.hasKind .modItem = true)
    (hn : t.child? .name = some n) : ':' ∉ n.text.toList := by
  obtain ⟨c, hc⟩ := child?_name_of_module h ht
  obtain rfl := Option.some.inj (hc.symm.trans hn)
  intro hmem
  have hmem := Text.mem_of_mem_stripBy (String.toList_ofList ▸ hmem)
  exact colon_not_mem_word c.rest (Cursor.mem_take_of_mem_extentTo hmem)

end DepAtlas.Syntax.Rust

/-! ## Imports of declared modules -/

namespace DepAtlas.Outline

/-- A declared module is bound by the name that its specifier ends in, and it binds nothing else. -/
def BindsModule (i : Import) : Prop :=
  i.kind = .childModule → i.bindings.map (·.localName) = [Usage.moduleName i.specifier]

namespace Draft

/-- The imports that come in addition bind modules by their names. -/
def Binds (d d' : Draft) : Prop := ∀ i ∈ d'.imports, i ∈ d.imports ∨ BindsModule i

variable {d d₁ d₂ d₃ : Draft}

theorem binds_of_eq {d' : Draft} (h : d'.imports = d.imports) : d.Binds d' := by
  intro i hi
  exact .inl (h ▸ hi)

theorem binds_ite {c : Prop} [Decidable c] {α : Type} {plan : α} {r : Draft × α}
    (h : r.1.imports = d.imports) : d.Binds (if c then (d, plan) else r).1 := by
  split
  · exact binds_of_eq rfl
  · exact binds_of_eq h

theorem Binds.trans (h : d₁.Binds d₂) (h' : d₂.Binds d₃) : d₁.Binds d₃ := by
  intro i hi
  rcases h' i hi with hi | hi
  · exact h i hi
  · exact .inr hi

theorem binds_addImport {i : Import} (h : BindsModule i) : d.Binds (d.addImport i) := by
  intro j hj
  rcases List.mem_cons.mp hj with rfl | hj
  · exact .inr h
  · exact .inl hj

theorem binds_addImports {is : List Import} (h : ∀ i ∈ is, BindsModule i) :
    d.Binds (d.addImports is) := by
  induction is generalizing d with
  | nil => exact binds_of_eq rfl
  | cons i is ih =>
    have hfirst : d.Binds (d.addImport i) := binds_addImport (h i List.mem_cons_self)
    exact hfirst.trans (ih fun j hj => h j (List.mem_cons_of_mem _ hj))

end Draft

section Walk

variable {κ γ : Type} {enter : Syntax.Tree.Enter κ γ Draft} {F : γ → Syntax.Spot κ → Prop}

/-- What holds of every step holds of a whole walk. -/
theorem binds_walk (hstep : ∀ p x d, F p x → Draft.Binds d (enter p x.node d).1)
    (hvisit : ∀ p x d c cs q, F p x → c ∈ x.node.children →
      (enter p x.node d).2 c cs = some q → F q (x.child c)) {p : γ} {t : Syntax.Tree κ}
    (ht : F p ⟨t, []⟩) : Draft.Binds .empty (Syntax.Tree.walk enter p t .empty) := by
  have hleads : Syntax.Tree.Leads enter (fun p x _ => F p x) Draft.Binds :=
    { refl := fun d => Draft.binds_of_eq rfl
      trans := Draft.Binds.trans
      keeps := fun h _ => h
      step := fun h => hstep _ _ _ h
      visit := fun h hc hq => hvisit _ _ _ _ _ _ h hc hq }
  exact hleads.walk_root ht

end Walk

/-- What a walk from nothing gathers. -/
theorem Draft.Binds.finish {d : Draft} (h : Draft.Binds .empty d) (language : Language) :
    ∀ i ∈ (d.finish language).imports, BindsModule i :=
  fun i hi => (h i (List.mem_reverse.mp hi)).resolve_left List.not_mem_nil

namespace Python

open Draft (binds_of_eq)

theorem binds_enter {blanks : Nat} {p : Place} {x : Syntax.Spot Syntax.Python.Kind} {d : Draft}
    (h : Fits blanks p x) : d.Binds (enter p x.node d).1 := by
  intro i hi
  by_cases hk : i.kind = .dynamic
  · exact .inr fun hchild => ImportKind.noConfusion (hk.symm.trans hchild)
  · have hstatic : i ∈ static (enter p x.node d).1 := List.mem_filter.mpr ⟨hi, decide_eq_true hk⟩
    rw [(steps_enter h.formed h.inside d).1] at hstatic
    rcases List.mem_append.mp hstatic with hi | hi
    · right
      intro hchild
      rw [(of_mem_statementImports (List.mem_reverse.mp hi)).1, importKind] at hchild
      split at hchild <;> cases hchild
    · exact .inl (List.mem_filter.mp hi).1

theorem bindsModule_of_mem {source : String} {o : Outline} (h : outline? source = some o) :
    ∀ i ∈ o.imports, BindsModule i := by
  obtain ⟨t, ht, rfl⟩ := Option.map_eq_some_iff.mp h
  have hbinds := binds_walk (F := Fits (source.length + 1)) (fun _ _ _ => binds_enter)
    (fun _ _ _ _ _ _ => gathers.visit) (fits_top ht)
  simp only
  split <;> exact hbinds.finish .python

end Python

namespace Script

open Draft (binds_of_eq)

variable (p : Place) (t : Node) (d : Draft)

theorem kind_importOf? {i : Import} (h : importOf? t = some i) : i.kind ≠ .childModule := by
  obtain ⟨s, -, rfl⟩ := Option.map_eq_some_iff.mp h
  simp only
  split
  · simp
  · split <;> simp

theorem kind_requireImport? {target : Node} {i : Import} (h : requireImport? t target = some i) :
    i.kind = .required := by
  obtain ⟨-, h⟩ := Option.ite_none_left_eq_some.mp h
  obtain ⟨f, -, h⟩ := Option.bind_eq_some_iff.mp h
  obtain ⟨-, h⟩ := Option.ite_none_left_eq_some.mp h
  obtain ⟨s, -, h⟩ := Option.bind_eq_some_iff.mp h
  cases h
  rfl

theorem imports_addExports (names : List String) :
    (names.foldl Draft.addExport d).imports = d.imports := by
  induction names generalizing d with
  | nil => rfl
  | cons n names ih => exact ih (d.addExport n)

theorem binds_enterExport : d.Binds (enterExport p t d).1 := by
  unfold enterExport
  split
  · split
    · refine Draft.binds_addImport fun hk => ?_
      simp only [reExport] at hk
      split at hk <;> cases hk
    · exact binds_of_eq rfl
  · split
    · exact binds_of_eq rfl
    · split
      · simp only
        split <;> exact binds_of_eq rfl
      · simp only
        rw [← List.foldl_map (f := Binding.imported) (g := Draft.addExport)]
        exact binds_of_eq (imports_addExports d _)

theorem imports_enterFunction : (enterFunction p t d).1.imports = d.imports := by
  unfold enterFunction
  split <;> rfl

theorem imports_enterClass : (enterClass p t d).1.imports = d.imports := by
  unfold enterClass
  split <;> rfl

theorem imports_enterField (owner : String) (exported : Bool) :
    (enterField p t owner exported d).1.imports = d.imports := by
  unfold enterField
  simp only
  split <;> rfl

theorem imports_enterTypeItem (kind : SymbolKind) :
    (enterTypeItem p t kind d).1.imports = d.imports := by
  unfold enterTypeItem
  split
  · rfl
  · simp only
    split <;> split <;> rfl

theorem imports_enterMember (isCall : Bool) : (enterMember p t isCall d).1.imports = d.imports := by
  unfold enterMember
  simp only
  split
  · rfl
  · split
    · rfl
    · simp only
      split <;> rfl
    · rfl

theorem binds_enterDeclarator (isConst : Bool) : d.Binds (enterDeclarator p t isConst d).1 := by
  unfold enterDeclarator
  split
  · exact binds_of_eq rfl
  · simp only
    split
    · rename_i i hi
      obtain ⟨v, -, hi⟩ := Option.bind_eq_some_iff.mp hi
      exact Draft.binds_addImport fun hk =>
        ImportKind.noConfusion ((kind_requireImport? v hi).symm.trans hk)
    · split <;> exact binds_of_eq rfl

theorem binds_enterCall : d.Binds (enterCall p t d).1 := by
  unfold enterCall
  split
  · exact binds_of_eq rfl
  · simp only
    split
    · simp only
      split
      · exact Draft.binds_addImport fun hk => ImportKind.noConfusion hk
      · exact binds_of_eq rfl
    · split
      · exact Draft.binds_addImport fun hk => ImportKind.noConfusion hk
      · exact binds_of_eq rfl

theorem binds_enterPlain : d.Binds (enterPlain p t d).1 := by
  unfold enterPlain
  split
  · exact binds_of_eq rfl
  -- What is left are the kinds of nodes at which more is done than going on.
  · split <;> try exact binds_of_eq rfl
    · simp only
      split
      · rename_i i hi
        exact Draft.binds_addImport fun hk => absurd hk (kind_importOf? t hi)
      · exact binds_of_eq rfl
    · exact binds_enterExport p t d
    iterate 3 exact Draft.binds_ite (imports_enterFunction p t d)
    iterate 2 exact Draft.binds_ite (imports_enterClass p t d)
    iterate 3 exact binds_of_eq (imports_enterTypeItem p t d _)
    · exact binds_enterCall p t d
    · exact binds_of_eq (imports_enterMember p t d false)
    · exact binds_of_eq (imports_addExports d _)
    · simp only
      split <;> exact binds_of_eq rfl
    · simp only
      split
      · split <;> exact binds_of_eq rfl
      · exact binds_of_eq rfl

theorem binds_enter : d.Binds (enter p t d).1 := by
  unfold enter
  split
  · exact binds_enterPlain p t d
  · exact binds_of_eq rfl
  · split
    · exact binds_of_eq rfl
    · exact binds_of_eq (imports_enterMember p t d _)
    · exact binds_enterPlain p t d
  · exact binds_of_eq rfl
  · exact binds_of_eq rfl
  · split
    iterate 3
      split <;> exact binds_of_eq rfl
    iterate 2 exact binds_of_eq (imports_enterField p t d _ _)
    · exact binds_enterPlain p t d
  · exact binds_enterDeclarator p t d _

theorem bindsModule_of_mem {language : Language} {source : String} {o : Outline}
    (h : outline? language source = some o) : ∀ i ∈ o.imports, BindsModule i := by
  obtain ⟨t, -, rfl⟩ := Option.map_eq_some_iff.mp h
  have hbinds := binds_walk (F := fun _ _ => True) (t := t) (p := Place.top)
    (fun p x d _ => binds_enter p x.node d) (fun _ _ _ _ _ _ _ _ _ => trivial) trivial
  exact hbinds.finish language

end Script

namespace Rust

open Draft (binds_of_eq)

variable (p : Place) (t : Node) (d : Draft)

theorem kind_of_mem_useImports {i : Import} (h : i ∈ useImports t) : i.kind = .plain := by
  unfold useImports at h
  split at h
  · cases h
  · obtain ⟨⟨m, bs⟩, -, hi⟩ := List.mem_filterMap.mp h
    obtain ⟨-, hi⟩ := Option.ite_none_left_eq_some.mp hi
    cases hi
    rfl

theorem binds_enterModule {blanks : Nat} {t : Node} (h : Syntax.Rust.grammar.Formed blanks t)
    (ht : t.hasKind .modItem = true) : d.Binds (enterModule p t d).1 := by
  unfold enterModule
  split
  · exact binds_of_eq rfl
  · rename_i n hn
    simp only
    split
    · simp only
      split
      · refine Draft.binds_addImport fun _ => ?_
        rw [Usage.moduleName_self (Syntax.Rust.colon_not_mem_name h ht hn)]
        rfl
      · exact binds_of_eq rfl
    · exact binds_of_eq rfl

theorem imports_enterFunction : (enterFunction p t d).1.imports = d.imports := by
  unfold enterFunction
  split <;> rfl

theorem imports_enterItem (kind : SymbolKind) : (enterItem p t kind d).1.imports = d.imports := by
  unfold enterItem
  split <;> rfl

theorem imports_enterImpl : (enterImpl p t d).1.imports = d.imports := by
  unfold enterImpl
  split <;> rfl

theorem imports_enterField (isCall : Bool) : (enterField p t isCall d).1.imports = d.imports := by
  unfold enterField
  simp only
  split
  · rfl
  · split
    · simp only
      split <;> rfl
    · rfl
    · rfl

theorem imports_enterScoped (isCall : Bool) : (enterScoped p t isCall d).imports = d.imports := by
  unfold enterScoped
  simp only
  split
  · rfl
  · split <;> rfl

theorem imports_enterTypeName : (enterTypeName p t d).imports = d.imports := by
  unfold enterTypeName
  split
  · rfl
  · split <;> rfl
  · rfl

theorem binds_enterPlain {blanks : Nat} {t : Node} (h : Syntax.Rust.grammar.Formed blanks t) :
    d.Binds (enterPlain p t d).1 := by
  unfold enterPlain
  split
  · exact binds_of_eq rfl
  · rename_i k hk
    simp only
    -- As above, the kinds of nodes at which more is done are left.
    split <;> try exact binds_of_eq rfl
    · exact Draft.binds_addImports fun i hi hchild =>
        ImportKind.noConfusion ((kind_of_mem_useImports t hi).symm.trans hchild)
    · exact binds_enterModule p d h (by simp [Syntax.Tree.hasKind_of_kind? hk])
    iterate 2 exact Draft.binds_ite (imports_enterFunction p t d)
    iterate 7 exact Draft.binds_ite (imports_enterItem p t d _)
    · exact Draft.binds_ite (imports_enterImpl p t d)
    · exact binds_of_eq (imports_enterField p t d false)
    · exact binds_of_eq (imports_enterScoped p t d false)
    iterate 2 exact binds_of_eq (imports_enterTypeName p.typed t d)
    · simp only
      split <;> exact binds_of_eq rfl

theorem binds_enter {blanks : Nat} {t : Node} (h : Syntax.Rust.grammar.Formed blanks t) :
    d.Binds (enter p t d).1 := by
  unfold enter
  split
  · exact binds_enterPlain p d h
  · exact binds_of_eq rfl
  · split
    · exact binds_of_eq rfl
    · exact binds_of_eq (imports_enterScoped p t d _)
    · exact binds_of_eq (imports_enterField p t d _)
    · exact binds_of_eq rfl
    · exact binds_enterPlain p d h
  · split
    iterate 2 exact binds_of_eq (imports_enterTypeName p t d)
    · exact binds_of_eq rfl
    · exact binds_enterPlain p d h

theorem bindsModule_of_mem {source : String} {o : Outline} (h : outline? source = some o) :
    ∀ i ∈ o.imports, BindsModule i := by
  obtain ⟨t, ht, rfl⟩ := Option.map_eq_some_iff.mp h
  have hbinds := binds_walk
    (F := fun _ x => Syntax.Rust.grammar.Formed (source.length + 1) x.node)
    (fun p x d hx => binds_enter p d hx) (fun _ _ _ _ _ _ hx hc _ => hx.of_mem hc)
    (p := Place.top) (Syntax.Grammar.formed_of_parse ht)
  exact hbinds.finish .rust

end Rust

/-- In every outline, declared modules are bound by their names. -/
theorem bindsModule_of_mem_outlineOf {language : Language} {source : String} {i : Import}
    (h : i ∈ (Parsing.outlineOf language source).imports) : BindsModule i := by
  have hread : ∀ o : Option Outline, (∀ o', o = some o' → ∀ i ∈ o'.imports, BindsModule i) →
      ∀ i ∈ (o.getD (.empty language)).imports, BindsModule i := by
    intro o ho i hi
    cases o with
    | none => cases hi
    | some o => exact ho o rfl i hi
  refine hread _ (fun o ho => ?_) i h
  cases language with
  | python => exact Python.bindsModule_of_mem ho
  | typeScript | tsx | javaScript => exact Script.bindsModule_of_mem ho
  | rust => exact Rust.bindsModule_of_mem ho

end DepAtlas.Outline
