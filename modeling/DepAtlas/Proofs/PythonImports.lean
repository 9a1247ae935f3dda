import DepAtlas.Outline.Parsing
import DepAtlas.Proofs.Formation
import DepAtlas.Proofs.Sorting
import DepAtlas.Proofs.Walks

/-! # The imports of a Python source

Import statements can stand wherever statements can, at any depth. The walk that outlines a source
meets all of them, apart from those in the further branches of a condition that only type checkers
take. Each one that is met adds at least one import with its line, unless it imports all names of a
package by dots alone. No other statement adds an import.
-/

namespace DepAtlas.Syntax.Python

/-! ## Where statements stand -/

/-- Whether a construct may have statements in the given part. -/
def holdsStatements : Kind → Option Field → Bool
  | .program, _ | .block, _ | .elifClause, _ | .elseClause, _ | .forStatement, _
  | .whileStatement, _ | .tryStatement, _ | .exceptClause, _ | .finallyClause, _
  | .withStatement, _ | .matchStatement, _ | .caseClause, _ => true
  | .ifStatement, f => f = some .consequence || f = some .alternative
  | .functionDefinition, f | .classDefinition, f => f = some .body
  | .decoratedDefinition, f => f = some .definition
  | _, _ => false

/-- The import statements and the constructs that may have statements below. -/
def isStatementLike : Kind → Bool
  | .program | .block | .elifClause | .elseClause | .forStatement | .whileStatement
  | .tryStatement | .exceptClause | .finallyClause | .withStatement | .matchStatement
  | .caseClause | .ifStatement | .functionDefinition | .classDefinition | .decoratedDefinition
  | .importStatement | .importFromStatement => true
  | _ => false

def statements : Sorting Kind Rule Unit where
  sort k := if isStatementLike k then some () else none
  allowed k f _ := holdsStatements k f
  adds
    | .program | .statement | .simple | .compound | .block | .decorated | .functionDefinition
    | .classDefinition => [(none, ())]
    | _ => []

theorem fits_anyOp (ok : Option Field → Unit → Bool) : (l : List String) →
    statements.fits ok (anyOp l) = true
  | [] | [_] => rfl
  | _ :: b :: l => fits_anyOp ok (b :: l)

theorem constructions_anyOp (k : Kind) : (l : List String) → (anyOp l).constructions k = []
  | [] | [_] => rfl
  | _ :: b :: l => constructions_anyOp k (b :: l)

theorem eq_comment_of_skip {c : Cursor} {n : Nat} {k : Kind}
    (h : grammar.skip c = some (n, some k)) : k = .comment := by
  change skip c = _ at h
  unfold skip at h
  split at h
  · cases h
    rfl
  · cases h
  · cases h
  · simp only at h
    split at h <;> cases h

theorem sorted : grammar.Sorted statements where
  fits r := by
    cases r with
    | binary n =>
      change statements.fits _ (binary n) = true
      unfold binary
      split <;> exact Bool.and_eq_true_iff.mpr ⟨fits_anyOp _ _, rfl⟩
    | parameter typed => cases typed <;> rfl
    | _ => rfl
  grows r := by
    cases r with
    | parameter typed => cases typed <;> rfl
    | _ => rfl
  comments c k kind h := by
    rw [eq_comment_of_skip h]
    rfl

theorem isStatementLike_of_holds {k : Kind} {f : Option Field}
    (h : holdsStatements k f = true) : isStatementLike k = true := by
  cases k <;> first | rfl | cases h

/-- Below what is no statement there are none. -/
theorem sortOf_of_mem_spotsIn {t : Tree Kind} (h : statements.Follows t)
    (ht : statements.sortOf t = none) {as : List (Tree Kind)} {y : Spot Kind}
    (hy : y ∈ Tree.spotsIn as t) : statements.sortOf y.node = none := by
  induction h generalizing as with
  | token =>
    rcases Tree.mem_spotsIn_iff.mp hy with rfl | ⟨c, hc, -⟩
    · exact ht
    · cases hc
  | @kind k f e cs hallowed hs ih =>
    rcases Tree.mem_spotsIn_iff.mp hy with rfl | ⟨c, hc, hy⟩
    · exact ht
    · refine ih c hc ?_ hy
      by_contra hsort
      obtain ⟨x, hx⟩ := Option.ne_none_iff_exists'.mp hsort
      have hlike := isStatementLike_of_holds (hallowed c hc x hx)
      simp [Sorting.sortOf, Tree.kind?, Tree.label, statements, hlike] at ht

/-! ## How names and imports are formed -/

theorem skipsText : grammar.SkipsText := by
  intro c k m h
  change skip c = _ at h
  unfold skip at h
  split at h
  · rename_i heq
    cases h
    simp [heq, Lexeme.lineLength, Lexeme.countWhile]
  · rename_i heq
    cases h
    simp [heq]
  · rename_i heq
    cases h
    simp [heq]
  · simp only at h
    split at h
    · cases h
    · rename_i hn
      cases h
      refine ⟨by omega, fun hnil => ?_⟩
      rw [hnil] at hn
      cases hn

/-- Tokens that have some length. -/
def solid : Token → Bool
  | .identifier => true
  | .op text => !text.isEmpty
  | _ => false

theorem grammar_solid : grammar.Solid solid := by
  intro t c y ht hscan
  change scan t c = _ at hscan
  cases t with
  | identifier =>
    simp only [scan] at hscan
    split at hscan
    · cases hscan
    · rename_i hn
      injection hscan with hscan
      injection hscan with hzero _
      simp [hzero] at hn
  | op text =>
    simp only [scan, Lexeme.operator?] at hscan
    split at hscan
    · cases hscan
    · split at hscan
      · cases hscan
      · simp_all [solid]
  | _ => cases ht

variable {blanks : Nat} {t : Tree Kind}

/-- Definitions and import statements have a name. -/
theorem exists_name (h : grammar.Formed blanks t) {k : Kind}
    (hk : k = .importStatement ∨ k = .functionDefinition ∨ k = .classDefinition)
    (ht : t.hasKind k = true) : ∃ c ∈ t.children, c.field = some .name := by
  refine h.exists_part grammar_solid sorted.grows (fun c n hskip => ?_) (fun r => ?_) ht
  · rcases hk with rfl | rfl | rfl <;> cases eq_comment_of_skip hskip
  · rcases hk with rfl | rfl | rfl
    all_goals
      cases r with
      | binary n =>
        change ((binary n).constructions _).all _ = true
        simp [binary, Peg.chain, Peg.constructions, constructions_anyOp]
      | parameter typed => cases typed <;> rfl
      | _ => rfl

theorem eq_importFrom_of_mem {r : Rule} {p : Expr}
    (h : p ∈ (rule r).constructions .importFromStatement) : p = importFrom := by
  cases r with
  | simple => exact List.mem_singleton.mp h
  | binary n =>
    change p ∈ (binary n).constructions _ at h
    simp [binary, Peg.chain, Peg.constructions, constructions_anyOp] at h
  | parameter typed => cases typed <;> exact (List.not_mem_nil h).elim
  | _ => exact (List.not_mem_nil h).elim

theorem not_isBlank_of_isWordChar {x : Char} (h : isWordChar x = true) :
    Text.isBlank x = false := by
  simp only [isWordChar, Bool.or_eq_true, Bool.and_eq_true, decide_eq_true_eq,
    Bool.not_eq_true', isPythonBlank, Bool.or_eq_false_iff] at h
  rcases h with (h | rfl) | ⟨-, ⟨⟨h, -⟩, -⟩, -⟩
  · change (decide (65 ≤ x.val ∧ x.val ≤ 90) || (decide (97 ≤ x.val) && decide (x.val ≤ 122)) ||
      (decide (48 ≤ x.val) && decide (x.val ≤ 57))) = true at h
    simp only [Bool.or_eq_true, Bool.and_eq_true, decide_eq_true_eq, UInt32.le_iff_toNat_le] at h
    simp only [Text.isBlank, Char.toNat]
    simp at h ⊢
    omega
  · decide
  · exact h

theorem exists_cons_of_scan_identifier {c : Cursor} {n : Nat} {y : Layout}
    (h : scan .identifier c = some (n, y)) : ∃ x xs, c.rest = x :: xs ∧ isWordChar x = true := by
  simp only [scan] at h
  split at h
  · cases h
  · rename_i hn
    cases hrest : c.rest with
    | nil => simp [hrest, wordLength] at hn
    | cons x xs =>
      refine ⟨x, xs, rfl, ?_⟩
      by_contra hx
      simp [hrest, wordLength, hx] at hn

/-- The text of a dotted name is more than blanks. -/
theorem trim_dottedName {c st : Cursor} {s' : Grammar.State Kind} (hc : grammar.skip c = none)
    (h : Grammar.Reads grammar blanks dottedName ⟨c, st, []⟩ s') :
    ∃ e cs, s'.trees = [.node (.kind .dottedName) none e cs] ∧ Text.trim e.text ≠ "" := by
  obtain ⟨s₁, hparts, rfl⟩ := h.node_of_skip hc
  refine ⟨_, _, rfl, ?_⟩
  obtain ⟨s₂, hfirst, hrest⟩ := hparts.seq_inv
  obtain ⟨c₁, y, hscan, -⟩ | ⟨c₁, new, k, y, honward, -, hscan, rfl⟩ :=
    Grammar.read_cases hfirst.leaf_inv
  · exact absurd hscan (grammar_solid _ _ _ rfl)
  · obtain ⟨x, xs, hx, hword⟩ := exists_cons_of_scan_identifier hscan
    have hmem := Cursor.mem_text_extentTo honward hx
      ((c₁.advance_one_onward k).trans hrest.onward)
    exact Text.trim_ne_empty hmem (not_isBlank_of_isWordChar hword)

end DepAtlas.Syntax.Python

namespace DepAtlas.Outline.Python

open DepAtlas.Syntax (Tree Spot Sorting Grammar)
open DepAtlas.Syntax.Python (Kind grammar statements holdsStatements)

variable {blanks : Nat} {t : Node}

/-- A list of imported names has a name. -/
theorem exists_importedName {s s' : Grammar.State Kind}
    (h : Grammar.Reads grammar blanks Syntax.Python.importList s s')
    (hlen : s.cursor.rest.length < blanks) :
    ∃ n ∈ s'.trees, n.field = some .name ∧ (importedName n).1 ≠ "" := by
  obtain ⟨s₁, h₁, hcomma⟩ := h.seq_inv
  obtain ⟨s₂, hname, hmore⟩ := h₁.seq_inv
  suffices hsome : ∃ n ∈ s₂.trees, n.field = some .name ∧ (importedName n).1 ≠ "" by
    obtain ⟨n, hn, hprop⟩ := hsome
    have hn₁ := hmore.mem_of_mem Syntax.Python.sorted.grows rfl hn
    exact ⟨n, hcomma.mem_of_mem Syntax.Python.sorted.grows rfl hn₁, hprop⟩
  obtain ⟨c, ts, s₃, hskip, hparts, rfl⟩ := hname.field_inv
  have hc : grammar.skip c = none := by
    have hnone := Grammar.skip_skipAll Syntax.Python.skipsText hlen s.trees
    rwa [hskip] at hnone
  rcases hparts.alt_inv with halias | hdotted
  · obtain ⟨s₄, hbody, rfl⟩ := halias.node_of_skip hc
    obtain ⟨s₅, hnamed, hasName⟩ := hbody.seq_inv
    obtain ⟨s₆, hname, has⟩ := hnamed.seq_inv
    obtain ⟨s₇, hdotted, rfl⟩ := hname.field_of_skip hc
    obtain ⟨e, cs, htrees, htext⟩ := Syntax.Python.trim_dottedName hc hdotted
    obtain ⟨new, hnew⟩ := has.exists_append Syntax.Python.sorted.grows rfl
    obtain ⟨new', hnew'⟩ := hasName.exists_append Syntax.Python.sorted.grows rfl
    -- The dotted name is the first part of the aliased import, so it is the one looked up.
    refine ⟨_, List.mem_append_left _ (List.mem_map_of_mem List.mem_cons_self), rfl, ?_⟩
    simpa [importedName, Tree.hasKind, Tree.label, Tree.inField, Tree.child?, Tree.children,
      hnew, hnew', htrees, Tree.field, Tree.text, Tree.extent] using htext
  · obtain ⟨e, cs, htrees, htext⟩ := Syntax.Python.trim_dottedName hc hdotted
    refine ⟨.node (.kind .dottedName) (some .name) e cs, ?_, rfl, htext⟩
    simp [htrees, Tree.inField]

theorem not_skip_importFrom (c : Syntax.Cursor) (n : Nat) :
    grammar.skip c ≠ some (n, some .importFromStatement) :=
  fun hskip => Kind.noConfusion (Syntax.Python.eq_comment_of_skip hskip)

theorem exists_moduleName (h : grammar.Formed blanks t)
    (ht : t.hasKind .importFromStatement = true) :
    ∃ c ∈ t.children, c.field = some .moduleName := by
  refine h.exists_part Syntax.Python.grammar_solid Syntax.Python.sorted.grows not_skip_importFrom
    (fun r => List.all_eq_true.mpr fun p hp => ?_) ht
  rw [Syntax.Python.eq_importFrom_of_mem hp]
  rfl

/-- An import of names has a wildcard or a name. -/
theorem exists_importedName_of_importFrom (h : grammar.Formed blanks t)
    (ht : t.hasKind .importFromStatement = true) (hwild : t.hasChild .wildcardImport = false) :
    ∃ n ∈ t.childrenIn .name, (importedName n).1 ≠ "" := by
  obtain ⟨c, s', hlen, hreads, hchildren⟩ := h.exists_reads ht not_skip_importFrom
    fun r p hp => Syntax.Python.eq_importFrom_of_mem hp
  obtain ⟨s₁, hmodule, hnames⟩ := hreads.seq_inv
  have hlen₁ : s₁.cursor.rest.length < blanks := Nat.lt_of_le_of_lt hmodule.onward.length_le hlen
  suffices hsome : ∃ n ∈ s'.trees, n.field = some .name ∧ (importedName n).1 ≠ "" by
    obtain ⟨n, hn, hfield, hname⟩ := hsome
    refine ⟨n, List.mem_filter.mpr ⟨?_, decide_eq_true hfield⟩, hname⟩
    rw [hchildren]
    exact List.mem_reverse.mpr hn
  rcases hnames.alt_inv with hleaf | hlist
  · obtain ⟨c₁, y, hscan, -⟩ | ⟨c₁, new, k, y, -, -, -, rfl⟩ :=
      Grammar.read_cases hleaf.leaf_inv
    · exact absurd hscan (Syntax.Python.grammar_solid _ _ _ rfl)
    · simp [Tree.hasChild, hchildren, Tree.hasKind, Tree.label] at hwild
  · rcases hlist.alt_inv with hbrackets | hplain
    · obtain ⟨s₂, hopen, hinner⟩ := hbrackets.seq_inv
      have hlen₂ := Nat.lt_of_le_of_lt hopen.onward.length_le hlen₁
      cases hinner with
      | enclosed hinner =>
        obtain ⟨s₃, hnames, hclose⟩ := hinner.seq_inv
        obtain ⟨n, hn, hprop⟩ := exists_importedName hnames hlen₂
        exact ⟨n, hclose.mem_of_mem Syntax.Python.sorted.grows rfl hn, hprop⟩
    · exact exists_importedName hplain hlen₁

/-! ## What the walk does at a node -/

def isImport (t : Node) : Bool := t.hasKind .importStatement || t.hasKind .importFromStatement

/-- Whether all names of a package are imported that is named by dots alone. -/
def isWholePackage (t : Node) : Bool :=
  t.hasKind .importFromStatement && t.hasChild .wildcardImport &&
    (t.child? .moduleName).any fun m => m.text.toList.all (· = '.')

/-- Whether `c` is a part of a condition for type checkers other than its first branch. -/
def isPassedOver (t c : Node) : Bool :=
  t.hasKind .ifStatement && isTypeCheckingGuard t && !c.inPart .consequence

/-- The imports that a statement stands for. -/
def statementImports (p : Place) (t : Node) : List Import :=
  if t.hasKind .importStatement then moduleImports p t
  else if t.hasKind .importFromStatement then nameImports p t
  else []

/-- The imports of statements so far, last first. -/
def static (d : Draft) : List Import := d.imports.filter (·.kind ≠ .dynamic)

theorem importKind_ne_dynamic (p : Place) : importKind p ≠ .dynamic := by
  unfold importKind
  split <;> simp

theorem of_mem_statementImports {p : Place} {i : Import} (h : i ∈ statementImports p t) :
    i.kind = importKind p ∧ i.line = t.line := by
  unfold statementImports at h
  split at h
  · obtain ⟨n, -, rfl⟩ := List.mem_map.mp h
    exact ⟨rfl, rfl⟩
  · split at h
    · unfold nameImports at h
      split at h
      · cases h
      · simp only at h
        split at h
        · obtain ⟨b, -, rfl⟩ := List.mem_map.mp h
          exact ⟨rfl, rfl⟩
        · obtain rfl := List.mem_singleton.mp h
          exact ⟨rfl, rfl⟩
    · cases h

theorem imports_addImports (d : Draft) (is : List Import) :
    (d.addImports is).imports = is.reverse ++ d.imports := by
  induction is generalizing d with
  | nil => rfl
  | cons i is ih =>
    change ((d.addImport i).addImports is).imports = _
    simp [ih, Draft.addImport]

theorem static_addImports (p : Place) (d : Draft) :
    static (d.addImports (statementImports p t)) = (statementImports p t).reverse ++ static d := by
  have hall : (statementImports p t).reverse.filter (·.kind ≠ .dynamic) =
      (statementImports p t).reverse := by
    refine List.filter_eq_self.mpr fun i hi => decide_eq_true ?_
    rw [(of_mem_statementImports (List.mem_reverse.mp hi)).1]
    exact importKind_ne_dynamic p
  rw [static, imports_addImports, List.filter_append, hall, static]

/-- What is decided about a child: parts that may hold statements are met, if they are not passed
over, and only decorators are looked at for what is inside them alone. -/
def Decides (t c : Node) : Option Place → Prop
  | none => c.isNamed = true → t.kind?.any (holdsStatements · c.field) = true →
      isPassedOver t c = true
  | some p => (p.mode = .inside → c.hasKind .decorator = true) ∧ isPassedOver t c = false

/-- What happens at a node. -/
def Steps (p : Place) (t : Node) (d : Draft) (r : Draft × Plan) : Prop :=
  static r.1 = (statementImports p t).reverse ++ static d ∧ ∀ c cs, Decides t c (r.2 c cs)

theorem decides_stop {k : Kind} (hk : t.kind? = some k) (h : ∀ f, holdsStatements k f = false)
    (c : Node) (cs : List Node) : Decides t c (stop c cs) := by
  intro _ hholds
  simp [hk, h] at hholds

theorem decides_inward (h : ∀ c, isPassedOver t c = false) (p : Place) (c : Node) (cs : List Node) :
    Decides t c (inward t p c cs) := by
  unfold inward
  split
  · exact ⟨fun hmode => Mode.noConfusion hmode, h c⟩
  · rename_i hnamed
    exact fun hc => absurd hc hnamed

theorem decides_byField {k : Kind} (hk : t.kind? = some k) {place : Syntax.Field → Option Place}
    (hplace : ∀ f p, place f = some p →
      p.mode ≠ .inside ∧ ∀ c : Node, c.field = some f → isPassedOver t c = false)
    (hrest : ∀ c : Node, c.field.bind place = none → holdsStatements k c.field = true →
      isPassedOver t c = true) (c : Node) (cs : List Node) :
    Decides t c (byField t place c cs) := by
  unfold byField
  cases hp : c.field.bind place with
  | none =>
    intro _ hholds
    simp only [hk, Option.any_some] at hholds
    exact hrest c hp hholds
  | some p =>
    obtain ⟨f, hf, hp⟩ := Option.bind_eq_some_iff.mp hp
    obtain ⟨hmode, hmet⟩ := hplace f p hp
    exact ⟨fun h => absurd h hmode, hmet c hf⟩

theorem isPassedOver_of_kind {k : Kind} (hk : t.kind? = some k) (h : k ≠ .ifStatement) (c : Node) :
    isPassedOver t c = false := by
  simp [isPassedOver, Tree.hasKind_of_kind? hk, h]

theorem decides_byField_of_kind {k : Kind} (hk : t.kind? = some k) (h : k ≠ .ifStatement)
    {place : Syntax.Field → Option Place} (hplace : ∀ f p, place f = some p → p.mode ≠ .inside)
    (hholds : ∀ f, (f.bind place).isNone = true → holdsStatements k f = false) (c : Node)
    (cs : List Node) : Decides t c (byField t place c cs) := by
  refine decides_byField hk (fun f p hp => ⟨hplace f p hp, fun c _ => isPassedOver_of_kind hk h c⟩)
    (fun c hnone hc => ?_) c cs
  rw [hholds c.field (by rw [hnone]; rfl)] at hc
  cases hc

theorem statementImports_of_kind {k : Kind} (hk : t.kind? = some k)
    (h : k ≠ .importStatement ∧ k ≠ .importFromStatement) (p : Place) :
    statementImports p t = [] := by
  simp [statementImports, Tree.hasKind_of_kind? hk, h]

/-- A node that is no import adds none. -/
theorem steps_of_static {k : Kind} (hk : t.kind? = some k)
    (h : k ≠ .importStatement ∧ k ≠ .importFromStatement) {p : Place} {d : Draft}
    {r : Draft × Plan} (hstatic : static r.1 = static d)
    (hdecides : ∀ c cs, Decides t c (r.2 c cs)) : Steps p t d r := by
  refine ⟨?_, hdecides⟩
  rw [hstatic, statementImports_of_kind hk h]
  rfl

theorem child?_ne_none {f : Syntax.Field} (h : ∃ c ∈ t.children, c.field = some f) :
    t.child? f ≠ none := by
  obtain ⟨c, hc, hf⟩ := h
  intro hnone
  exact List.find?_eq_none.mp hnone c hc (decide_eq_true hf)

theorem steps_enterFunction (hformed : grammar.Formed blanks t)
    (hk : t.kind? = some .functionDefinition) (p : Place) (d : Draft) :
    Steps p t d (enterFunction p t d) := by
  unfold enterFunction
  split
  · rename_i hnone
    refine absurd hnone (child?_ne_none ?_)
    exact Syntax.Python.exists_name hformed (.inr (.inl rfl)) (by simp [Tree.hasKind_of_kind? hk])
  · refine steps_of_static hk (by simp) ?_ (decides_byField_of_kind hk (by simp) ?_ ?_)
    · simp only
      split <;> rfl
    · intro f q hq
      cases f <;> cases hq <;> simp [Place.typed]
    · rintro (_ | f) h
      · rfl
      · cases f <;> first | rfl | cases h

theorem steps_enterClass (hformed : grammar.Formed blanks t)
    (hk : t.kind? = some .classDefinition) (p : Place) (d : Draft) :
    Steps p t d (enterClass p t d) := by
  unfold enterClass
  split
  · rename_i hnone
    refine absurd hnone (child?_ne_none ?_)
    exact Syntax.Python.exists_name hformed (.inr (.inr rfl)) (by simp [Tree.hasKind_of_kind? hk])
  · simp only
    split
    all_goals
      refine steps_of_static hk (by simp) rfl (decides_byField_of_kind hk (by simp) ?_ ?_)
      · intro f q hq
        cases f <;> cases hq <;> simp [Place.within]
      · rintro (_ | f) h
        · rfl
        · cases f <;> first | rfl | cases h

theorem steps_enterAttribute (hk : t.kind? = some .attribute) (p : Place) (isCall : Bool)
    (d : Draft) : Steps p t d (enterAttribute p t isCall d) := by
  have hstop := decides_stop hk fun f => rfl
  unfold enterAttribute
  split
  · exact steps_of_static hk (by simp) rfl hstop
  · split
    · split
      · refine steps_of_static hk (by simp) ?_ hstop
        simp only
        split <;> rfl
      · exact steps_of_static hk (by simp) rfl hstop
    · refine steps_of_static hk (by simp) rfl (decides_byField_of_kind hk (by simp) ?_ fun f _ => rfl)
      intro f q hq
      cases f <;> cases hq
      exact Mode.noConfusion

theorem kind_of_dynamicImport {call f : Node} {i : Import}
    (h : dynamicImport? call f = some i) : i.kind = .dynamic := by
  obtain ⟨-, h⟩ := Option.ite_none_right_eq_some.mp h
  obtain ⟨s, -, rfl⟩ := Option.map_eq_some_iff.mp h
  rfl

theorem steps_enterCall (hk : t.kind? = some .call) (p : Place) (d : Draft) :
    Steps p t d (enterCall p t d) := by
  unfold enterCall
  refine steps_of_static hk (by simp) ?_ (decides_byField_of_kind hk (by simp) ?_ fun f _ => rfl)
  · simp only
    split
    · rename_i i hi
      obtain ⟨f, -, hf⟩ := Option.bind_eq_some_iff.mp hi
      simp [static, Draft.addImport, kind_of_dynamicImport hf]
    · rfl
  · intro f q hq
    cases f <;> cases hq <;> simp [Place.within]

theorem static_declareAll (d : Draft) (xs : List Declaration) :
    static (xs.foldl Draft.declare d) = static d := by
  induction xs generalizing d with
  | nil => rfl
  | cons x xs ih => exact ih (d.declare x)

theorem steps_enterPlain (hformed : grammar.Formed blanks t) (p : Place) (d : Draft) :
    Steps p t d (enterPlain p t d) := by
  unfold enterPlain
  split
  · rename_i hk
    refine ⟨?_, fun c cs _ hholds => ?_⟩
    · have himport : ∀ k, t.hasKind k = false := by
        intro k
        by_contra h
        rw [Tree.kind?_of_hasKind (by simpa using h)] at hk
        cases hk
      simp [statementImports, himport]
    · simp [hk] at hholds
  · rename_i k hk
    split
    · refine ⟨?_, decides_stop hk fun f => rfl⟩
      have heq : moduleImports p t = statementImports p t := by
        simp [statementImports, Tree.hasKind_of_kind? hk]
      rw [heq, static_addImports]
    · refine ⟨?_, decides_stop hk fun f => rfl⟩
      have heq : nameImports p t = statementImports p t := by
        simp [statementImports, Tree.hasKind_of_kind? hk]
      rw [heq, static_addImports]
    iterate 4 exact steps_of_static hk (by simp) rfl (decides_stop hk fun f => rfl)
    · split
      · rename_i hguard
        refine steps_of_static hk (by simp) rfl (decides_byField hk ?_ fun c hnone _ => ?_)
        · intro f q hq
          cases f <;> cases hq
          exact ⟨Mode.noConfusion, fun c hc => by simp [isPassedOver, Tree.inPart, hc]⟩
        · have hc : c.inPart .consequence = false := decide_eq_false fun hf => by simp [hf] at hnone
          simp [isPassedOver, Tree.hasKind_of_kind? hk, hguard, hc]
      · rename_i hguard
        exact steps_of_static hk (by simp) rfl
          (decides_inward (fun c => by simp [isPassedOver, hguard]) p)
    · refine steps_of_static hk (by simp) rfl fun c cs => ?_
      simp only
      have hpassed := isPassedOver_of_kind hk (by simp) c
      split
      · exact ⟨fun _ => ‹_›, hpassed⟩
      · split
        · exact ⟨fun hmode => Mode.noConfusion hmode, hpassed⟩
        · rename_i hpart
          intro _ hholds
          simp [hk, holdsStatements] at hholds
          simp [Tree.inPart, hholds] at hpart
    · exact steps_enterFunction hformed hk p d
    · exact steps_enterClass hformed hk p d
    · refine steps_of_static hk (by simp) ?_ (decides_inward (isPassedOver_of_kind hk (by simp)) p)
      simp only
      split
      · exact static_declareAll d _
      · rfl
    · exact steps_enterCall hk p d
    · exact steps_enterAttribute hk p false d
    · exact steps_of_static hk (by simp) rfl
        (decides_inward (isPassedOver_of_kind hk (by simp)) p.typed)
    · refine steps_of_static hk (by simp) ?_ (decides_stop hk fun f => rfl)
      simp only
      split <;> rfl
    · exact steps_of_static hk ⟨‹_›, ‹_›⟩ rfl (decides_inward (isPassedOver_of_kind hk ‹_›) p)

theorem steps_enter (hformed : grammar.Formed blanks t) {p : Place}
    (hinside : p.mode = .inside → t.hasKind .decorator = true) (d : Draft) :
    Steps p t d (enter p t d) := by
  unfold enter
  split
  · exact steps_enterPlain hformed p d
  · rename_i hmode
    have hk := Tree.kind?_of_hasKind (hinside hmode)
    exact steps_of_static hk (by simp) rfl (decides_inward (isPassedOver_of_kind hk (by simp)) p)
  · split
    · rename_i hk
      exact steps_of_static hk (by simp) rfl (decides_stop hk fun f => rfl)
    · rename_i hk
      exact steps_enterAttribute hk p true d
    · exact steps_enterPlain hformed p d

/-! ## The imports of a source -/

/-- Whether the walk gets to a spot. -/
def isMet (x : Spot Kind) : Bool := x.steps.all fun s => !isPassedOver s.2.node s.1

/-- Whether an import statement is met. -/
def isMetImport (x : Spot Kind) : Bool := isImport x.node && isMet x

structure Fits (blanks : Nat) (p : Place) (x : Spot Kind) : Prop where
  follows : statements.Follows x.node
  formed : grammar.Formed blanks x.node
  inside : p.mode = .inside → x.node.hasKind .decorator = true
  met : isMet x = true

/-- The share of a statement in the imports: they have its line, and there are some, unless all names
of a package are imported. -/
def IsShare (x : Spot Kind) (is : List Import) : Prop :=
  (∀ i ∈ is, i.line = x.node.line) ∧ (is = [] → isWholePackage x.node = true)

theorem moduleImports_ne_nil (h : grammar.Formed blanks t)
    (ht : t.hasKind .importStatement = true) (p : Place) : moduleImports p t ≠ [] := by
  obtain ⟨c, hc, hf⟩ := Syntax.Python.exists_name h (.inl rfl) ht
  have hmem : c ∈ t.childrenIn .name := List.mem_filter.mpr ⟨hc, decide_eq_true hf⟩
  simpa [moduleImports] using List.ne_nil_of_mem hmem

theorem isWholePackage_of_nameImports (h : grammar.Formed blanks t)
    (ht : t.hasKind .importFromStatement = true) {p : Place} (hnil : nameImports p t = []) :
    isWholePackage t = true := by
  obtain ⟨m, hm⟩ := Option.ne_none_iff_exists'.mp (child?_ne_none (exists_moduleName h ht))
  simp only [nameImports, hm] at hnil
  split at hnil
  · rename_i hdots
    have hwild : t.hasChild .wildcardImport = true := by
      by_contra hwild
      obtain ⟨n, hn, hname⟩ :=
        exists_importedName_of_importFrom h ht (eq_false_of_ne_true hwild)
      have hnone := List.filterMap_eq_nil_iff.mp (List.map_eq_nil_iff.mp hnil) n hn
      simp [hname] at hnone
    simp only [isWholePackage, ht, hwild, hm, hdots, Option.any_some, Bool.and_self]
  · cases hnil

theorem isShare_statementImports (h : grammar.Formed blanks t) (ht : isImport t = true) (p : Place)
    (as : List Node) : IsShare ⟨t, as⟩ (statementImports p t) := by
  refine ⟨fun i hi => (of_mem_statementImports hi).2, fun hnil => ?_⟩
  unfold statementImports at hnil
  split at hnil
  · rename_i hk
    exact absurd hnil (moduleImports_ne_nil h hk p)
  · rename_i hk
    have hfrom : t.hasKind .importFromStatement = true := by simpa [isImport, hk] using ht
    rw [if_pos hfrom] at hnil
    exact isWholePackage_of_nameImports h hfrom hnil

theorem statementImports_of_not_isImport (ht : isImport t = false) (p : Place) :
    statementImports p t = [] := by
  obtain ⟨hmodule, hnames⟩ := Bool.or_eq_false_iff.mp ht
  simp [statementImports, hmodule, hnames]

theorem sortOf_of_isImport (ht : isImport t = true) : statements.sortOf t = some () := by
  rcases Bool.or_eq_true_iff.mp ht with hk | hk
  all_goals
    rw [Sorting.sortOf, Tree.kind?_of_hasKind hk]
    rfl

/-- Below a child that is not met, no import statement would be. -/
theorem not_isMet_of_passed {x : Spot Kind} {c : Node} (hfollows : statements.Follows x.node)
    (hc : c ∈ x.node.children) (hnone : Decides x.node c none) {y : Spot Kind}
    (hy : y ∈ Tree.spotsIn (x.node :: x.around) c) : isMetImport y = false := by
  obtain ⟨hbelow, k, hk, hallowed⟩ := hfollows.of_mem hc
  cases hsort : statements.sortOf c with
  | none =>
    have himport : isImport y.node = false := by
      by_contra h
      have hy := Syntax.Python.sortOf_of_mem_spotsIn hbelow hsort hy
      rw [sortOf_of_isImport (eq_true_of_ne_false h)] at hy
      cases hy
    simp [isMetImport, himport]
  | some s =>
    have hnamed : c.isNamed = true := by
      unfold Tree.isNamed
      cases hkind : c.kind? with
      | none => simp [Sorting.sortOf, hkind] at hsort
      | some k => rfl
    have hholds : x.node.kind?.any (holdsStatements · c.field) = true := by
      rw [hk]
      exact hallowed s hsort
    have hstep : (c, x) ∈ y.steps :=
      Tree.mem_steps_of_mem_spotsIn c hy (List.mem_cons_self)
    have hmet : isMet y = false := by
      refine List.all_eq_false.mpr ⟨(c, x), hstep, ?_⟩
      simp [hnone hnamed hholds]
    simp [isMetImport, hmet]

theorem gathers : Tree.Gathers enter (Fits blanks) static
    (fun is x => if isMetImport x then IsShare x is else is = []) isMetImport where
  step := by
    intro p x d hx
    refine ⟨statementImports p x.node, (steps_enter hx.formed hx.inside d).1, ?_⟩
    split
    · rename_i h
      exact isShare_statementImports hx.formed (Bool.and_eq_true_iff.mp h).1 p x.around
    · rename_i h
      refine statementImports_of_not_isImport (eq_false_of_ne_true fun himport => h ?_) p
      exact Bool.and_eq_true_iff.mpr ⟨himport, hx.met⟩
  visit := by
    intro p x d c cs p' hx hc hplan
    have hdecides := (steps_enter hx.formed hx.inside d).2 c cs
    rw [hplan] at hdecides
    refine ⟨(hx.follows.of_mem hc).1, hx.formed.of_mem hc, hdecides.1, ?_⟩
    have hmet := hx.met
    simp only [isMet, Spot.steps_child, List.all_cons, Bool.and_eq_true] at hmet ⊢
    exact ⟨by rw [hdecides.2]; rfl, hmet⟩
  pass := by
    intro p x d c cs hx hc hplan y hy
    have hdecides := (steps_enter hx.formed hx.inside d).2 c cs
    rw [hplan] at hdecides
    exact not_isMet_of_passed hx.follows hc hdecides hy

theorem fits_top {source : String} (h : grammar.parse? source = some t) :
    Fits (source.length + 1) Place.top ⟨t, []⟩ :=
  ⟨(Syntax.Python.sorted.suits_of_parse h).1, Syntax.Grammar.formed_of_parse h, Mode.noConfusion,
    rfl⟩

/-- Some import statement of the source has a line that no import has. -/
def LosesImport (source : String) : Prop :=
  ∃ t, grammar.parse? source = some t ∧ ∃ x ∈ t.spots, isImport x.node = true ∧
    ∀ i ∈ (Parsing.outlineOf .python source).imports, i.line ≠ x.node.line

instance (source : String) : Decidable (LosesImport source) :=
  decidable_of_iff (∃ t ∈ grammar.parse? source, ∃ x ∈ t.spots, isImport x.node = true ∧
    ∀ i ∈ (Parsing.outlineOf .python source).imports, i.line ≠ x.node.line) .rfl

end DepAtlas.Outline.Python
