import DepAtlas.Outline.Parsing
import DepAtlas.Proofs.Sorting
import DepAtlas.Proofs.Walks

/-! # Locals of scripts

What is declared in the body of a function is local to it and no symbol of the file. The walk that
outlines a script knows that it is inside a function from the functions and class members it has
passed, so nothing that it declares stands in the body of one. The exception are methods of objects
and of class expressions, which it passes as any other construct.
-/

namespace DepAtlas.Syntax.Script

/-! ## Where functions and methods stand -/

/-- The constructs whose place in the tree matters for what is local. -/
inductive Group where
  | function | method | classDeclaration | classBody
  deriving DecidableEq

def groupOf : Kind → Option Group
  | .functionDeclaration | .generatorFunctionDeclaration | .functionExpression
  | .generatorFunction | .arrowFunction => some .function
  | .methodDefinition => some .method
  | .classDeclaration | .abstractClassDeclaration => some .classDeclaration
  | .classBody => some .classBody
  | _ => none

/-- Types hold no functions, methods stand in objects and in the bodies of classes. -/
def groups : Sorting Kind Rule Group where
  sort := groupOf
  allowed k f x :=
    f ≠ some .type && f ≠ some .returnType && f ≠ some .typeArguments &&
    match x with
    | .function | .classDeclaration => true
    | .method => k = .object || k = .classBody
    | .classBody => k = .classDeclaration || k = .abstractClassDeclaration || k = .classExpression
  adds
    | .statement | .declaration => [(none, .function), (none, .classDeclaration)]
    | .functionDeclaration | .expression | .expressions | .ternary | .binary _ | .unary | .chain
    | .heritage | .primary | .newTarget | .arrow => [(none, .function)]
    | .classDeclaration => [(none, .classDeclaration)]
    | .method | .classMember => [(none, .method)]
    | .classTail => [(some .body, .classBody)]
    | .objectType k => ((groupOf k).map (none, ·)).toList
    | _ => []

theorem fits_operators (ok : Option Field → Group → Bool) : (l m : List String) →
    groups.fits ok (.oneOf (l.map op ++ m.map word)) = true
  | [], [] | [_], [] | [], [_] => rfl
  | [], _ :: b :: m => fits_operators ok [] (b :: m)
  | [_], b :: m => fits_operators ok [] (b :: m)
  | _ :: b :: l, m => fits_operators ok (b :: l) m

theorem sorted (d : Dialect) : (grammar d).Sorted groups where
  fits r := by
    obtain ⟨typed, markup⟩ := d
    cases r with
    | binary n =>
      change groups.fits _ (binary typed n) = true
      unfold binary
      split
      · rfl
      · simp only
        split
        · refine Bool.and_eq_true_iff.mpr ⟨Bool.and_eq_true_iff.mpr ⟨rfl, ?_⟩, rfl⟩
          exact Bool.and_eq_true_iff.mpr ⟨fits_operators _ _ _, rfl⟩
        · exact Bool.and_eq_true_iff.mpr ⟨fits_operators _ _ _, rfl⟩
    | pattern targets => cases targets <;> rfl
    | objectType k =>
      change groups.fits _ (objectType k) = true
      refine Bool.and_eq_true_iff.mpr ⟨?_, rfl⟩
      change (groupOf k).all _ = true
      cases h : groupOf k with
      | none => rfl
      | some x => simp [groups, h]
    | _ => cases typed <;> cases markup <;> rfl
  grows r := by
    obtain ⟨typed, markup⟩ := d
    cases r with
    | binary n =>
      change (binary typed n).grows = []
      unfold binary
      split <;> rfl
    | pattern targets => cases targets <;> rfl
    | _ => cases typed <;> cases markup <;> rfl
  comments c k kind h := by
    change skip c = _ at h
    unfold skip at h
    split at h
    · cases h
      rfl
    · cases h
      rfl
    · obtain ⟨n, -, hn⟩ := Option.map_eq_some_iff.mp h
      cases hn

end DepAtlas.Syntax.Script

namespace DepAtlas.Outline.Script

open DepAtlas.Syntax (Tree Spot)
open DepAtlas.Syntax.Script (Kind Group groups groupOf)

/-! ## What a declaration stands for -/

/-- Functions, methods, accessors and constructors. -/
def isFunctionLike (t : Node) : Bool :=
  groups.sortOf t = some .function || groups.sortOf t = some .method

/-- A method of an object or of a class expression. -/
def isLooseMethod (x : Spot Kind) : Bool :=
  x.node.hasKind .methodDefinition &&
    match x.around with
    | [] => false
    | a :: as => a.hasKind .object ||
        (a.hasKind .classBody && as.head?.any (·.hasKind .classExpression))

/-- The spot is in the body of no function but of such methods. -/
def Exposed (x : Spot Kind) : Prop :=
  ∀ s ∈ x.steps, isFunctionLike s.2.node = true → s.1.inPart .body = true →
    isLooseMethod s.2 = true

/-- The kinds of symbols that a construct declares. -/
def declares : Kind → List SymbolKind
  | .functionDeclaration | .generatorFunctionDeclaration | .functionSignature => [.function]
  | .classDeclaration | .abstractClassDeclaration => [.classType]
  | .interfaceDeclaration => [.interface]
  | .typeAliasDeclaration => [.typeAlias]
  | .enumDeclaration => [.enum]
  | .variableDeclarator => [.function, .constant, .varBinding]
  | .methodDefinition | .methodSignature | .abstractMethodSignature | .publicFieldDefinition
  | .fieldDefinition => [.method]
  | _ => []

/-- The declaration has its kind, name and lines from the node. -/
structure StandsFor (x : Declaration) (t : Node) : Prop where
  kind : ∃ k, t.kind? = some k ∧ x.kind ∈ declares k
  name : ∃ n ∈ t.children, (n.field = some .name ∨ n.field = some .property) ∧ x.name = n.text
  lines : x.line = t.line ∧ x.endLine = t.endLine

/-! ## What the walk does at a node -/

/-- The mode in which a node is looked at for what it is. -/
def isPlain : Mode → Bool
  | .plain | .callee _ => true
  | _ => false

/-- What holds of a child and its place after a step. Outside functions the step leaves none, nor a
method that is the member of a class, and the body of a declared class is met as such. -/
structure Enters (p : Place) (t c : Node) (q : Place) : Prop where
  outside : q.inFunction = false → p.inFunction = false ∧ groups.sortOf t ≠ some .function ∧
    (groups.sortOf t = some .method → isPlain p.mode = true)
  mode : match q.mode with
    | .plain | .callee _ => q.inFunction = false →
        (groups.sortOf t = some .classDeclaration → groups.sortOf c ≠ some .classBody) ∧
        (groups.sortOf t = some .classBody → isPlain p.mode = true)
    | .inside => c.field = some .type ∨ c.field = some .returnType ∨ c.field = some .typeArguments
    | .declarator _ => c.hasKind .variableDeclarator = true
    | .functionParts => q.inFunction = true
    | .classBody _ _ => q.inFunction = false ∧ groups.sortOf c = some .classBody
    | .classMember _ _ => q.inFunction = false ∧ groups.sortOf t = some .classBody

/-- What happens at a node: at most one declaration is added, which stands for the node, and only
outside functions. -/
def Steps (p : Place) (t : Node) (d : Draft) (r : Draft × Plan) : Prop :=
  (r.1.declarations = d.declarations ∨
    p.inFunction = false ∧ ∃ x, r.1.declarations = x :: d.declarations ∧ StandsFor x t) ∧
  ∀ c cs q, r.2 c cs = some q → Enters p t c q

variable {t : Node} {p q : Place} {d d' : Draft}

theorem steps_stop (h : d'.declarations = d.declarations) : Steps p t d (d', stop) := by
  refine ⟨.inl h, fun _ _ _ hq => ?_⟩
  cases hq

/-- A part of a function or of a declaration, by its place: it is met as a plain node, for its parts,
or as a type. -/
def IsPart (f : Option Syntax.Field) (q : Place) : Prop :=
  isPlain q.mode = true ∨ (q.mode = .functionParts ∧ q.inFunction = true) ∨
    (q.mode = .inside ∧ (f = some .type ∨ f = some .returnType ∨ f = some .typeArguments))

/-- Inside a function, all parts may be met. -/
theorem IsPart.enters_inFunction {c : Node} (hpart : IsPart c.field q) (hq : q.inFunction = true) :
    Enters p t c q := by
  refine ⟨fun hout => absurd (hq.symm.trans hout) (by simp), ?_⟩
  cases hm : q.mode with
  | plain | callee => exact fun hout => absurd (hq.symm.trans hout) (by simp)
  | functionParts => exact hq
  | inside => simpa [IsPart, hm, isPlain] using hpart
  | _ => simp [IsPart, hm, isPlain] at hpart

/-- The node is no function and no declared class, and if it is a method or the body of a class, it
is met as a plain node. -/
structure Ordinary (p : Place) (t : Node) : Prop where
  function : groups.sortOf t ≠ some .function
  classDeclaration : groups.sortOf t ≠ some .classDeclaration
  plain : groups.sortOf t = some .method ∨ groups.sortOf t = some .classBody →
    isPlain p.mode = true

theorem ordinary_of_kind {k : Kind} (hk : t.kind? = some k) (h : groupOf k = none) :
    Ordinary p t := by
  have hsort : groups.sortOf t = none := by
    rw [Syntax.Sorting.sortOf, hk]
    exact h
  constructor <;> simp [hsort]

theorem Ordinary.enters (h : Ordinary p t) {c : Node} (hpart : IsPart c.field q)
    (hin : q.inFunction = false → p.inFunction = false) : Enters p t c q := by
  refine ⟨fun hq => ⟨hin hq, h.function, fun ht => h.plain (.inl ht)⟩, ?_⟩
  cases hm : q.mode with
  | plain | callee =>
    exact fun _ => ⟨fun ht => absurd ht h.classDeclaration, fun ht => h.plain (.inr ht)⟩
  | functionParts => simpa [IsPart, hm, isPlain] using hpart
  | inside => simpa [IsPart, hm, isPlain] using hpart
  | _ => simp [IsPart, hm, isPlain] at hpart

theorem steps_inward (h : q.inFunction = false → p.inFunction = false ∧ Ordinary p t)
    (hd : d'.declarations = d.declarations) : Steps p t d (d', inward t q) := by
  refine ⟨.inl hd, fun c cs q' hq' => ?_⟩
  obtain ⟨-, hq'⟩ := Option.ite_none_right_eq_some.mp hq'
  cases hq'
  cases hin : q.inFunction with
  | true => exact IsPart.enters_inFunction (.inl rfl) rfl
  | false => exact (h hin).2.enters (.inl rfl) fun _ => (h hin).1

/-- A step to the parts of an ordinary node that have a place. -/
theorem enters_byField (h : Ordinary p t) {place : Syntax.Field → Option Place}
    (hplace : ∀ f q, place f = some q →
      IsPart (some f) q ∧ (q.inFunction = false → p.inFunction = false)) (c : Node)
    (cs : List Node) (q : Place) (hq : byField t place c cs = some q) : Enters p t c q := by
  obtain ⟨q', hq', rfl⟩ := Option.map_eq_some_iff.mp hq
  obtain ⟨f, hf, hq'⟩ := Option.bind_eq_some_iff.mp hq'
  obtain ⟨hpart, hin⟩ := hplace f q' hq'
  rw [← hf] at hpart
  exact h.enters hpart hin

theorem enters_functionParts (hq : q.inFunction = true) (c : Node) (cs : List Node) (q' : Place)
    (hq' : functionParts t q c cs = some q') : Enters p t c q' := by
  obtain ⟨r, hr, rfl⟩ := Option.map_eq_some_iff.mp hq'
  obtain ⟨f, hf, hr⟩ := Option.bind_eq_some_iff.mp hr
  have hpart : IsPart (some f) r ∧ r.inFunction = true := by
    cases f <;> cases hr
    all_goals first | exact ⟨.inl rfl, hq⟩ | exact ⟨.inr (.inr ⟨rfl, .inr (.inl rfl)⟩), hq⟩
  rw [← hf] at hpart
  exact IsPart.enters_inFunction hpart.1 hpart.2

/-! ### Declarations -/

theorem mem_of_child? {f : Syntax.Field} {n : Node} (h : t.child? f = some n) :
    n ∈ t.children ∧ n.field = some f := by
  have hfield := List.find?_some h
  exact ⟨List.mem_of_find?_eq_some h, of_decide_eq_true hfield⟩

/-- A node that a declaration is named after. -/
def IsNameOf (n t : Node) : Prop :=
  n ∈ t.children ∧ (n.field = some .name ∨ n.field = some .property)

theorem isNameOf_of_child? {n : Node} (h : t.child? .name = some n) : IsNameOf n t :=
  (mem_of_child? h).imp_right .inl

theorem isNameOf_of_orElse {n : Node} (h : (t.child? .name <|> t.child? .property) = some n) :
    IsNameOf n t := by
  cases hname : t.child? .name with
  | none =>
    rw [hname] at h
    exact (mem_of_child? h).imp_right .inr
  | some n' =>
    rw [hname] at h
    exact isNameOf_of_child? (hname.trans h)

theorem standsFor {x : Declaration} {k : Kind} {n : Node} (hk : t.kind? = some k)
    (hn : IsNameOf n t) (hkind : x.kind ∈ declares k) (hname : x.name = n.text)
    (hlines : x.line = t.line ∧ x.endLine = t.endLine) : StandsFor x t :=
  ⟨⟨k, hk, hkind⟩, ⟨n, hn.1, hn.2, hname⟩, hlines⟩

theorem steps_enterFunction {k : Kind} (hk : t.kind? = some k) (hfun : .function ∈ declares k)
    (hp : p.inFunction = false) : Steps p t d (enterFunction p t d) := by
  unfold enterFunction
  split
  · exact steps_stop rfl
  · rename_i n hn
    exact ⟨.inr ⟨hp, _, rfl, standsFor hk (isNameOf_of_child? hn) hfun rfl ⟨rfl, rfl⟩⟩,
      enters_functionParts rfl⟩

theorem steps_enterClass {k : Kind} (hk : t.kind? = some k)
    (hclass : groupOf k = some .classDeclaration) (hp : p.inFunction = false) :
    Steps p t d (enterClass p t d) := by
  have hsort : groups.sortOf t = some .classDeclaration := by
    rw [Syntax.Sorting.sortOf, hk]
    exact hclass
  have hdeclares : .classType ∈ declares k := by
    cases k <;> cases hclass <;> simp [declares]
  unfold enterClass
  split
  · exact steps_stop rfl
  · rename_i n hn
    refine ⟨.inr ⟨hp, _, rfl, standsFor hk (isNameOf_of_child? hn) hdeclares rfl ⟨rfl, rfl⟩⟩,
      fun c cs q hq => ?_⟩
    simp only at hq
    split at hq
    · rename_i hc
      cases hq
      refine ⟨fun _ => ⟨hp, by simp [hsort], by simp [hsort]⟩, fun _ => ⟨fun _ => ?_, by simp [hsort]⟩⟩
      rw [Syntax.Sorting.sortOf, hc]
      exact fun h => by cases h
    · rename_i hc
      cases hq
      refine ⟨fun _ => ⟨hp, by simp [hsort], by simp [hsort]⟩, rfl, ?_⟩
      rw [Syntax.Sorting.sortOf, hc]
      rfl
    · cases hq

theorem steps_enterField {k : Kind} (hk : t.kind? = some k) (hmethod : .method ∈ declares k)
    (hnone : groupOf k = none) (hp : p.inFunction = false) {owner : String} {exported : Bool} :
    Steps p t d (enterField p t owner exported d) := by
  unfold enterField
  simp only
  split
  · rename_i f n hf hn
    refine ⟨.inr ⟨hp, _, rfl, standsFor hk (isNameOf_of_orElse hn) hmethod rfl ⟨rfl, rfl⟩⟩,
      enters_byField (ordinary_of_kind hk hnone) fun f q hq => ?_⟩
    cases f <;> cases hq
    exact ⟨.inr (.inl ⟨rfl, rfl⟩), fun h => Bool.noConfusion h⟩
  · exact steps_stop rfl
  · refine ⟨.inl rfl, enters_byField (ordinary_of_kind hk hnone) fun f q hq => ?_⟩
    cases f <;> cases hq
    · exact ⟨.inr (.inr ⟨rfl, .inl rfl⟩), id⟩
    · exact ⟨.inl rfl, id⟩

theorem steps_enterTypeItem {k : Kind} {kind : SymbolKind} (hk : t.kind? = some k)
    (hkind : kind ∈ declares k) (hnone : groupOf k = none) :
    Steps p t d (enterTypeItem p t kind d) := by
  unfold enterTypeItem
  split
  · exact steps_stop rfl
  · rename_i n hn
    have hdeclared : ∀ d', d' = (if p.inFunction then d else d.declare
        ⟨n.text, n.text, kind, t.line, t.endLine, p.exported, none, none⟩) →
        d'.declarations = d.declarations ∨ p.inFunction = false ∧
          ∃ x, d'.declarations = x :: d.declarations ∧ StandsFor x t := by
      rintro d' rfl
      split
      · exact .inl rfl
      · rename_i hp
        exact .inr ⟨eq_false_of_ne_true hp, _, rfl,
          standsFor hk (isNameOf_of_child? hn) hkind rfl ⟨rfl, rfl⟩⟩
    simp only
    split
    · refine ⟨hdeclared _ rfl, fun c cs q hq => ?_⟩
      cases hq
    · refine ⟨hdeclared _ rfl, fun c cs q hq => ?_⟩
      obtain ⟨-, hq⟩ := Option.ite_none_right_eq_some.mp hq
      cases hq
      exact (ordinary_of_kind hk hnone).enters (.inl rfl) id

theorem steps_enterVariables {k : Kind} (hk : t.kind? = some k) (hnone : groupOf k = none) :
    Steps p t d (enterVariables p t d) := by
  have hordinary : Ordinary p t := ordinary_of_kind hk hnone
  refine ⟨.inl rfl, fun c cs q hq => ?_⟩
  obtain ⟨hc, hq⟩ := Option.ite_none_right_eq_some.mp hq
  cases hq
  exact ⟨fun hq => ⟨hq, hordinary.function, fun ht => hordinary.plain (.inl ht)⟩, hc⟩

theorem steps_enterDeclarator (hk : t.kind? = some .variableDeclarator) {isConst : Bool} :
    Steps p t d (enterDeclarator p t isConst d) := by
  have hordinary : Ordinary p t := ordinary_of_kind hk rfl
  unfold enterDeclarator
  split
  · exact steps_stop rfl
  · rename_i n hn
    simp only
    split
    · exact steps_stop rfl
    · split
      · refine ⟨.inl rfl, enters_byField hordinary fun f q hq => ?_⟩
        cases f <;> cases hq
        · exact ⟨.inr (.inr ⟨rfl, .inl rfl⟩), id⟩
        · exact ⟨.inl rfl, id⟩
      · rename_i hp
        have hp : p.inFunction = false := by
          cases h : p.inFunction with
          | true => simp [h] at hp
          | false => rfl
        refine ⟨.inr ⟨hp, _, rfl, standsFor hk (isNameOf_of_child? hn) ?_ rfl ⟨rfl, rfl⟩⟩,
          enters_byField hordinary fun f q hq => ?_⟩
        · simp only
          split
          · simp [declares]
          · split <;> simp [declares]
        · refine ⟨?_, fun _ => hp⟩
          cases f <;> cases hq
          · exact .inr (.inr ⟨rfl, .inl rfl⟩)
          · cases hf : ((t.child? .value).filter isFunctionValue).isSome with
            | true => exact .inr (.inl ⟨by simp [Place.within], by simp [Place.within]⟩)
            | false => exact .inl (by simp [Place.within, isPlain])

theorem declarations_foldl_addExport {α : Type} (name : α → String) (xs : List α) :
    (xs.foldl (fun d x => d.addExport (name x)) d).declarations = d.declarations := by
  induction xs generalizing d with
  | nil => rfl
  | cons x xs ih => exact ih

theorem steps_enterExport (hk : t.kind? = some .exportStatement) :
    Steps p t d (enterExport p t d) := by
  have hordinary : Ordinary p t := ordinary_of_kind hk rfl
  unfold enterExport
  split
  · split <;> exact steps_stop rfl
  · split
    · refine ⟨.inl rfl, enters_byField hordinary fun f q hq => ?_⟩
      cases f <;> cases hq
      exact ⟨.inl rfl, id⟩
    · split
      · refine ⟨.inl ?_, enters_byField hordinary fun f q hq => ?_⟩
        · simp only
          split <;> rfl
        · cases f <;> cases hq
          exact ⟨.inl rfl, id⟩
      · exact steps_stop (declarations_foldl_addExport _ _)

theorem steps_enterCall (hk : t.kind? = some .callExpression) :
    Steps p t d (enterCall p t d) := by
  have hordinary : Ordinary p t := ordinary_of_kind hk rfl
  unfold enterCall
  split
  · exact steps_inward (fun hp => ⟨hp, hordinary⟩) rfl
  · simp only
    split
    · refine steps_stop ?_
      split <;> rfl
    · split
      · exact steps_stop rfl
      · refine ⟨.inl rfl, enters_byField hordinary fun f q hq => ?_⟩
        cases f <;> cases hq
        · exact ⟨.inl rfl, id⟩
        · exact ⟨.inl rfl, id⟩
        · exact ⟨.inr (.inr ⟨rfl, .inr (.inr rfl)⟩), id⟩

theorem steps_enterMember (hk : t.kind? = some .memberExpression) (isCall : Bool) :
    Steps p t d (enterMember p t isCall d) := by
  have hordinary : Ordinary p t := ordinary_of_kind hk rfl
  unfold enterMember
  simp only
  split
  · exact steps_stop rfl
  · split
    · exact steps_stop rfl
    · refine steps_stop ?_
      split <;> rfl
    · refine ⟨.inl rfl, enters_byField hordinary fun f q hq => ?_⟩
      cases f <;> cases hq
      exact ⟨.inl rfl, id⟩

/-- Inside a function, functions and classes are not declared. -/
theorem steps_ite_inFunction {r : Draft × Plan} (h : p.inFunction = false → Steps p t d r) :
    Steps p t d (if p.inFunction then (d, inward t p) else r) := by
  split
  · rename_i hp
    exact steps_inward (fun hout => absurd (hp.symm.trans hout) (by simp)) rfl
  · rename_i hp
    exact h (eq_false_of_ne_true hp)

/-- A node that is met for what it is; methods and bodies of classes are met so only as plain nodes. -/
theorem steps_enterPlain
    (hplain : groups.sortOf t = some .method ∨ groups.sortOf t = some .classBody →
      isPlain p.mode = true) : Steps p t d (enterPlain p t d) := by
  unfold enterPlain
  split
  · exact steps_stop rfl
  · rename_i k hk
    split
    · refine steps_stop ?_
      split <;> rfl
    · exact steps_enterExport hk
    iterate 3 exact steps_ite_inFunction (steps_enterFunction hk (by simp [declares]))
    iterate 2 exact steps_ite_inFunction (steps_enterClass hk rfl)
    iterate 3 exact steps_enterTypeItem hk (by simp [declares]) rfl
    iterate 2 exact steps_enterVariables hk rfl
    · exact steps_enterCall hk
    · refine ⟨.inl rfl, enters_byField (ordinary_of_kind hk rfl) fun f q hq => ?_⟩
      cases f <;> cases hq <;> exact ⟨.inl rfl, id⟩
    · exact steps_enterMember hk false
    · exact steps_inward (fun hp => ⟨hp, ordinary_of_kind hk rfl⟩)
        (declarations_foldl_addExport id _)
    · refine steps_stop ?_
      split <;> rfl
    · exact steps_stop rfl
    · refine steps_stop ?_
      split
      · split <;> rfl
      · rfl
    iterate 3 exact steps_inward (fun hp => ⟨hp, ordinary_of_kind hk rfl⟩) rfl
    iterate 3 exact steps_inward (fun hp => Bool.noConfusion hp) rfl
    iterate 7 exact steps_stop rfl
    · have hgroup : groups.sortOf t = groupOf k := by
        rw [Syntax.Sorting.sortOf, hk]
        rfl
      refine steps_inward (fun hp => ⟨hp, ?_, ?_, hplain⟩) rfl
      all_goals
        rw [hgroup]
        intro h
        cases k <;> cases h <;> contradiction

theorem kind?_of_sortOf_method (h : groups.sortOf t = some .method) :
    t.kind? = some .methodDefinition := by
  obtain ⟨k, hk, hgroup⟩ := Option.bind_eq_some_iff.mp h
  rw [hk]
  cases k <;> cases hgroup
  rfl

/-! ## What the walk knows -/

/-- What a node is, by the mode in which it is met. A method and the body of a class that are met as
plain nodes outside functions belong to an object or to a class expression. -/
def MetAs (p : Place) (x : Spot Kind) : Prop :=
  match p.mode with
  | .plain | .callee _ => p.inFunction = false →
      (groups.sortOf x.node = some .method → isLooseMethod x = true) ∧
      (groups.sortOf x.node = some .classBody →
        x.around.head?.any (·.hasKind .classExpression) = true)
  | .inside => groups.sortOf x.node = none
  | .declarator _ => x.node.hasKind .variableDeclarator = true
  | .functionParts => p.inFunction = true
  | .classBody _ _ => p.inFunction = false ∧ groups.sortOf x.node = some .classBody
  | .classMember _ _ => p.inFunction = false ∧ groups.sortOf x.node ≠ some .classBody

theorem steps_enter {x : Spot Kind} (h : MetAs p x) : Steps p x.node d (enter p x.node d) := by
  unfold MetAs at h
  unfold enter
  cases hm : p.mode with
  | plain => exact steps_enterPlain fun _ => by simp [hm, isPlain]
  | inside =>
    rw [hm] at h
    refine steps_inward (fun hp => ⟨hp, ?_, ?_, ?_⟩) rfl <;> simp [h]
  | callee isCall =>
    simp only
    split
    · exact steps_stop rfl
    · rename_i hk
      exact steps_enterMember hk isCall
    · exact steps_enterPlain fun _ => by simp [hm, isPlain]
  | functionParts =>
    rw [hm] at h
    exact ⟨.inl rfl, enters_functionParts h⟩
  | classBody owner exported =>
    rw [hm] at h
    obtain ⟨hp, hbody⟩ := h
    refine ⟨.inl rfl, fun c cs q hq => ?_⟩
    obtain ⟨-, hq⟩ := Option.ite_none_right_eq_some.mp hq
    cases hq
    exact ⟨fun _ => ⟨hp, by simp [hbody], by simp [hbody]⟩, hp, hbody⟩
  | classMember owner exported =>
    rw [hm] at h
    obtain ⟨hp, hbody⟩ := h
    simp only
    split
    iterate 3
      split
      · exact steps_stop rfl
      · rename_i hk _ n hn
        exact ⟨.inr ⟨hp, _, rfl,
          standsFor hk (isNameOf_of_child? hn) (by simp [declares]) rfl ⟨rfl, rfl⟩⟩,
          enters_functionParts rfl⟩
    iterate 2
      rename_i hk
      exact steps_enterField hk (by simp [declares]) rfl hp
    · rename_i hmethod _ _ _ _
      refine steps_enterPlain fun hsort => ?_
      rcases hsort with hsort | hsort
      · exact absurd (kind?_of_sortOf_method hsort) hmethod
      · exact absurd hsort hbody
  | declarator isConst =>
    rw [hm] at h
    exact steps_enterDeclarator (Tree.kind?_of_hasKind h)

structure Fits (p : Place) (x : Spot Kind) : Prop where
  follows : groups.Follows x.node
  exposed : p.inFunction = false → Exposed x
  met : MetAs p x

theorem MetAs.of_isPlain {x : Spot Kind} (h : MetAs p x) (hmode : isPlain p.mode = true)
    (hp : p.inFunction = false) :
    (groups.sortOf x.node = some .method → isLooseMethod x = true) ∧
      (groups.sortOf x.node = some .classBody →
        x.around.head?.any (·.hasKind .classExpression) = true) := by
  unfold MetAs at h
  cases hm : p.mode with
  | plain | callee =>
    rw [hm] at h
    exact h hp
  | _ =>
    rw [hm] at hmode
    cases hmode

theorem exposed_child {x : Spot Kind} {c : Node} (h : Fits p x) (henters : Enters p x.node c q)
    (hq : q.inFunction = false) : Exposed (x.child c) := by
  obtain ⟨hp, hfunction, hplain⟩ := henters.outside hq
  intro s hs hlike hbody
  rcases List.mem_cons.mp hs with rfl | hs
  · have hmethod : groups.sortOf x.node = some .method := by
      simpa [isFunctionLike, hfunction] using hlike
    exact (h.met.of_isPlain (hplain hmethod) hp).1 hmethod
  · exact h.exposed hp s hs hlike hbody

/-- Where a method or the body of a class stands, by the construct it is a part of. -/
theorem kind_of_permits {k : Kind} {c : Node} {y : Group} (h : groups.Permits (groups.allowed k) c)
    (hc : groups.sortOf c = some y) :
    (c.field ≠ some .type ∧ c.field ≠ some .returnType ∧ c.field ≠ some .typeArguments) ∧
      (y = .method → k = .object ∨ k = .classBody) ∧
      (y = .classBody → groupOf k = some .classDeclaration ∨ k = .classExpression) := by
  obtain ⟨hfield, hplace⟩ := Bool.and_eq_true_iff.mp (h y hc)
  refine ⟨by simpa [and_assoc] using hfield, ?_, ?_⟩
  · rintro rfl
    simpa using hplace
  · rintro rfl
    rcases (by simpa [or_assoc] using hplace : k = .classDeclaration ∨
      k = .abstractClassDeclaration ∨ k = .classExpression) with rfl | rfl | rfl
    · exact .inl rfl
    · exact .inl rfl
    · exact .inr rfl

theorem metAs_child {x : Spot Kind} {c : Node} (h : Fits p x) (hc : c ∈ x.node.children)
    (henters : Enters p x.node c q) : MetAs q (x.child c) := by
  obtain ⟨-, k, hk, hpermits⟩ := h.follows.of_mem hc
  have hgroup : groups.sortOf x.node = groupOf k := by
    rw [Syntax.Sorting.sortOf, hk]
    rfl
  have hmode := henters.mode
  unfold MetAs
  cases hm : q.mode with
  | plain | callee =>
    rw [hm] at hmode
    intro hq
    obtain ⟨hclass, hplain⟩ := hmode hq
    obtain ⟨hp, -, -⟩ := henters.outside hq
    refine ⟨fun hmethod => ?_, fun hbody => ?_⟩
    · have hkind : c.kind? = some .methodDefinition := kind?_of_sortOf_method hmethod
      rcases (kind_of_permits hpermits hmethod).2.1 rfl with rfl | rfl
      · simp [isLooseMethod, Tree.hasKind_of_kind? hkind, Tree.hasKind_of_kind? hk]
      · have hexpression := (h.met.of_isPlain (hplain hgroup) hp).2 hgroup
        simpa [isLooseMethod, Tree.hasKind_of_kind? hkind, Tree.hasKind_of_kind? hk] using hexpression
    · rcases (kind_of_permits hpermits hbody).2.2 rfl with hdeclared | rfl
      · exact absurd hbody (hclass (hgroup.trans hdeclared))
      · simp [Tree.hasKind_of_kind? hk]
  | inside =>
    rw [hm] at hmode
    cases hsort : groups.sortOf c with
    | none => exact hsort
    | some y =>
      obtain ⟨⟨htype, hreturn, harguments⟩, -⟩ := kind_of_permits hpermits hsort
      rcases hmode with hf | hf | hf <;> contradiction
  | classMember owner exported =>
    rw [hm] at hmode
    refine ⟨hmode.1, fun hbody => ?_⟩
    have hk' := hgroup.symm.trans hmode.2
    rcases (kind_of_permits hpermits hbody).2.2 rfl with hdeclared | rfl
    · rw [hdeclared] at hk'
      cases hk'
    · cases hk'
  | _ =>
    rw [hm] at hmode
    exact hmode

theorem gathers : Tree.Gathers enter Fits Draft.declarations
    (fun new x => new = [] ∨ ∃ y, new = [y] ∧ StandsFor y x.node ∧ Exposed x)
    fun _ => false where
  step := by
    intro p x d h
    rcases (steps_enter h.met).1 with hsame | ⟨hp, y, hy, hstands⟩
    · exact ⟨[], hsame, .inl rfl⟩
    · exact ⟨[y], hy, .inr ⟨y, rfl, hstands, h.exposed hp⟩⟩
  visit := by
    intro p x d c cs q h hc hq
    have henters := (steps_enter h.met).2 c cs q hq
    exact ⟨(h.follows.of_mem hc).1, exposed_child h henters, metAs_child h hc henters⟩
  pass := fun _ _ _ _ _ => rfl

theorem top_fits {d : Syntax.Script.Dialect} {source : String}
    (h : (Syntax.Script.grammar d).parse? source = some t) : Fits Place.top ⟨t, []⟩ := by
  obtain ⟨hfollows, hpermits⟩ := (Syntax.Script.sorted d).suits_of_parse h
  have hsort : groups.sortOf t = none := by
    cases hsort : groups.sortOf t with
    | none => rfl
    | some y => cases hpermits y hsort
  refine ⟨hfollows, fun _ s hs => ?_, fun _ => ?_⟩
  · cases hs
  · simp [hsort]

theorem outlineOf_script {language : Language} (hscript : language.isScript = true)
    {source : String} (h : (Syntax.Script.grammar (dialect language)).parse? source = some t) :
    Parsing.outlineOf language source =
      ((Tree.walk enter Place.top t Draft.empty).finish language).markExported fun x =>
        x.isExported || (Tree.walk enter Place.top t Draft.empty).exported.contains x.name := by
  have houtline : Parsing.outlineOf language source =
      (outline? language source).getD (.empty language) := by
    cases language <;> first | rfl | cases hscript
  simp only [houtline, outline?, h, Option.map_some, Option.getD_some]

instance (x : Declaration) (t : Node) : Decidable (StandsFor x t) :=
  decidable_of_iff ((∃ k ∈ t.kind?, x.kind ∈ declares k) ∧
    (∃ n ∈ t.children, (n.field = some .name ∨ n.field = some .property) ∧ x.name = n.text) ∧
    x.line = t.line ∧ x.endLine = t.endLine)
    ⟨fun ⟨hkind, hname, hlines⟩ => ⟨hkind, hname, hlines⟩,
      fun h => ⟨h.kind, h.name, h.lines⟩⟩

/-- Some declaration of the script stands for a node in the body of a function. -/
def DeclaresLocal (language : Language) (source : String) : Prop :=
  ∃ t, (Syntax.Script.grammar (dialect language)).parse? source = some t ∧
    ∃ y ∈ (Parsing.outlineOf language source).declarations, ∃ x ∈ t.spots,
      StandsFor y x.node ∧ ∃ s ∈ x.steps, isFunctionLike s.2.node = true ∧
        s.1.inPart .body = true

instance (language : Language) (source : String) : Decidable (DeclaresLocal language source) :=
  decidable_of_iff (∃ t ∈ (Syntax.Script.grammar (dialect language)).parse? source,
    ∃ y ∈ (Parsing.outlineOf language source).declarations, ∃ x ∈ t.spots,
      StandsFor y x.node ∧ ∃ s ∈ x.steps, isFunctionLike s.2.node = true ∧
        s.1.inPart .body = true) .rfl

end DepAtlas.Outline.Script
