import DepAtlas.Outline.Parsing
import DepAtlas.Proofs.Walks

/-! # Qualified names

The declarations of a file form a tree by their names: a qualified name is a name with that of the
parent in front, and parents and the origins of references are declared in the file. A walk declares
what it names before it goes on to its parts, so both hold of every outline, up to the members of
blocks in Rust. These are named after the type of their block as it is written, wherever that type
may be declared.
-/

namespace DepAtlas.Outline

/-- The qualified name is the name with that of the parent in front. -/
def IsNamedByParent (x : Declaration) : Prop :=
  x.qualifiedName = match x.parent with
    | some p => p ++ "." ++ x.name
    | none => x.name

/-- What may be named otherwise. -/
structure Exceptions where
  odd : Declaration → Prop
  /-- The names, not declared in the file, that the parent of a declaration may have. -/
  parent : Declaration → String → Prop
  origin : String → Prop

def Exceptions.none : Exceptions := ⟨fun _ => False, fun _ _ => False, fun _ => False⟩

/-- Declarations and references are well named, but for exceptions. -/
structure Named (E : Exceptions) (ds : List Declaration) (rs : List Reference) : Prop where
  names : ∀ x ∈ ds, IsNamedByParent x ∨ E.odd x
  parents : ∀ x ∈ ds, ∀ q, x.parent = some q → q ∈ ds.map (·.qualifiedName) ∨ E.parent x q
  origins : ∀ r ∈ rs, ∀ q, r.origin = some q → q ∈ ds.map (·.qualifiedName) ∨ E.origin q

theorem named_nil (E : Exceptions) : Named E [] [] := by
  constructor <;> simp

namespace Draft

variable {E : Exceptions} {d d' d₁ d₂ d₃ : Draft}

def names (d : Draft) : List String := d.declarations.map (·.qualifiedName)

/-- Names stay declared, and what is well named stays so. -/
def Later (E : Exceptions) (d d' : Draft) : Prop :=
  (∀ s ∈ d.names, s ∈ d'.names) ∧
    (Named E d.declarations d.references → Named E d'.declarations d'.references)

/-- The name is declared, or one of `extra`, if it is there at all. -/
def Knows (d : Draft) (extra : String → Prop) (name : Option String) : Prop :=
  ∀ s, name = some s → s ∈ d.names ∨ extra s

theorem Later.refl (d : Draft) : Later E d d := ⟨fun _ h => h, id⟩

theorem Later.trans (h : Later E d₁ d₂) (h' : Later E d₂ d₃) : Later E d₁ d₃ :=
  ⟨fun s hs => h'.1 s (h.1 s hs), fun hd => h'.2 (h.2 hd)⟩

theorem Knows.later {extra : String → Prop} {name : Option String} (h : d.Knows extra name)
    (hd : Later E d d') : d'.Knows extra name :=
  fun s hs => (h s hs).imp_left (hd.1 s)

theorem knows_none (extra : String → Prop) : d.Knows extra none := by
  intro s hs
  cases hs

theorem later_of_eq (hd : d'.declarations = d.declarations) (hr : d'.references = d.references) :
    Later E d d' := by
  unfold Later names
  rw [hd, hr]
  exact ⟨fun _ h => h, id⟩

theorem later_refer {r : Reference} (h : d.Knows E.origin r.origin) : Later E d (d.refer r) := by
  refine ⟨fun _ hs => hs, fun hd => ⟨hd.names, hd.parents, fun r' hr' => ?_⟩⟩
  rcases List.mem_cons.mp hr' with rfl | hr'
  · exact h
  · exact hd.origins r' hr'

theorem later_declare {x : Declaration} (hx : IsNamedByParent x ∨ E.odd x)
    (hparent : d.Knows (E.parent x) x.parent) : Later E d (d.declare x) := by
  refine ⟨fun s hs => List.mem_cons_of_mem _ hs, fun hd => ⟨fun y hy => ?_, fun y hy q hq => ?_,
    fun r hr q hq => (hd.origins r hr q hq).imp_left (List.mem_cons_of_mem _)⟩⟩
  · rcases List.mem_cons.mp hy with rfl | hy
    · exact hx
    · exact hd.names y hy
  · rcases List.mem_cons.mp hy with rfl | hy
    · exact (hparent q hq).imp_left (List.mem_cons_of_mem _)
    · exact (hd.parents y hy q hq).imp_left (List.mem_cons_of_mem _)

theorem knows_declare {x : Declaration} (extra : String → Prop) :
    (d.declare x).Knows extra (some x.qualifiedName) := by
  rintro s ⟨⟩
  exact .inl List.mem_cons_self

theorem later_addImports (is : List Import) : Later E d (d.addImports is) := by
  induction is generalizing d with
  | nil => exact .refl d
  | cons i is ih => exact (later_of_eq rfl rfl : Later E d (d.addImport i)).trans ih

end Draft

open Draft (Later)

/-- What a walk from nothing leads to is well named. -/
theorem Draft.Later.named_finish {E : Exceptions} {d : Draft} (h : Later E Draft.empty d)
    (language : Language) :
    Named E (d.finish language).declarations (d.finish language).references := by
  obtain ⟨hnames, hparents, horigins⟩ := h.2 (named_nil E)
  refine ⟨fun x hx => ?_, fun x hx q hq => ?_, fun r hr q hq => ?_⟩
  · exact hnames x (List.mem_reverse.mp hx)
  · simpa [Draft.finish] using hparents x (List.mem_reverse.mp hx) q hq
  · simpa [Draft.finish] using horigins r (List.mem_reverse.mp hr) q hq

/-! ## Steps -/

section Steps

variable {κ γ : Type} {E : Exceptions} {Known : γ → Draft → Prop} {d d' : Draft}
  {plan : Syntax.Tree κ → List (Syntax.Tree κ) → Option γ}

/-- What happens at a node keeps names, and the names in the places that it goes on to are known. -/
def Keeps (E : Exceptions) (Known : γ → Draft → Prop) (d : Draft)
    (r : Draft × (Syntax.Tree κ → List (Syntax.Tree κ) → Option γ)) : Prop :=
  Later E d r.1 ∧ ∀ c cs q, r.2 c cs = some q → Known q r.1

theorem keeps_stop (hd : Later E d d') :
    Keeps E Known d (d', fun (_ : Syntax.Tree κ) _ => none) := by
  refine ⟨hd, fun c cs q hq => ?_⟩
  cases hq

/-- A declaration that is named by its parent, and the places that the walk goes on to from there. -/
theorem keeps_declare {x : Declaration} (hx : IsNamedByParent x ∨ E.odd x)
    (hparent : d.Knows (E.parent x) x.parent)
    (hplan : Later E d (d.declare x) → ∀ c cs q, plan c cs = some q → Known q (d.declare x)) :
    Keeps E Known d (d.declare x, plan) := by
  have hd : Later E d (d.declare x) := Draft.later_declare hx hparent
  exact ⟨hd, hplan hd⟩

end Steps

/-- Whether a declaration is exported plays no part in its names. -/
theorem Named.markExported {p : Declaration → Bool} {o : Outline}
    (h : Named .none o.declarations o.references) :
    Named .none (o.markExported p).declarations (o.markExported p).references := by
  have hsame : ∀ y ∈ (o.markExported p).declarations, ∃ x ∈ o.declarations,
      y.name = x.name ∧ y.qualifiedName = x.qualifiedName ∧ y.parent = x.parent := by
    intro y hy
    obtain ⟨x, hx, rfl⟩ := List.mem_map.mp hy
    refine ⟨x, hx, ?_⟩
    split <;> exact ⟨rfl, rfl, rfl⟩
  have hnames : (o.markExported p).declarations.map (·.qualifiedName) =
      o.declarations.map (·.qualifiedName) := by
    simp only [Outline.markExported, List.map_map]
    refine List.map_congr_left fun x _ => ?_
    simp only [Function.comp_apply]
    split <;> rfl
  refine ⟨fun y hy => ?_, fun y hy q hq => ?_, fun r hr q hq => ?_⟩
  · obtain ⟨x, hx, hname, hqualified, hparent⟩ := hsame y hy
    have hx := (h.names x hx).resolve_right id
    exact .inl (by rw [IsNamedByParent, hqualified, hparent, hname]; exact hx)
  · obtain ⟨x, hx, -, -, hparent⟩ := hsame y hy
    rw [hnames]
    exact h.parents x hx q (hparent ▸ hq)
  · rw [hnames]
    exact h.origins r hr q hq

/-! ## Python -/

namespace Python

variable {p q : Place} {t : Node} {d d' : Draft}

/-- The names in a place are declared. -/
structure Known (p : Place) (d : Draft) : Prop where
  owner : d.Knows Exceptions.none.origin p.owner
  scope : d.Knows Exceptions.none.origin p.scope

theorem Known.later (h : Known p d) (hd : Later .none d d') : Known p d' :=
  ⟨h.owner.later hd, h.scope.later hd⟩

theorem keeps_inward (hd : Later .none d d') (hq : Known q d) :
    Keeps .none Known d (d', inward t q) := by
  refine ⟨hd, fun c cs q' hq' => ?_⟩
  obtain ⟨-, hq'⟩ := Option.ite_none_right_eq_some.mp hq'
  cases hq'
  exact ⟨hq.owner.later hd, hq.scope.later hd⟩

theorem known_of_byField {place : Syntax.Field → Option Place}
    (hplace : ∀ f q, place f = some q → Known q d) (c : Node) (cs : List Node) (q : Place)
    (hq : byField t place c cs = some q) : Known q d := by
  obtain ⟨q', hq', rfl⟩ := Option.map_eq_some_iff.mp hq
  obtain ⟨f, -, hf⟩ := Option.bind_eq_some_iff.mp hq'
  obtain ⟨howner, hscope⟩ := hplace f q' hf
  exact ⟨howner, hscope⟩

theorem keeps_byField {place : Syntax.Field → Option Place} (hd : Later .none d d')
    (hplace : ∀ f q, place f = some q → Known q d) : Keeps .none Known d (d', byField t place) :=
  ⟨hd, known_of_byField fun f q hf => (hplace f q hf).later hd⟩

theorem later_refer (h : Known p d) {name : String} {member : Option String} {line : Nat}
    {isCall : Bool} : Later .none d (refer p name member line isCall d) :=
  Draft.later_refer h.scope

theorem keeps_enterFunction (h : Known p d) : Keeps .none Known d (enterFunction p t d) := by
  unfold enterFunction
  split
  · exact keeps_stop (.refl d)
  · cases hin : p.inFunction with
    | true =>
      refine keeps_byField (.refl d) fun f q hq => ?_
      cases f <;> cases hq <;> exact ⟨h.owner, h.scope⟩
    | false =>
      refine keeps_declare (.inl ?_) h.owner fun hd => known_of_byField fun f q hq => ?_
      · unfold IsNamedByParent
        cases p.owner <;> rfl
      · cases f <;> cases hq <;> exact ⟨h.owner.later hd, Draft.knows_declare _⟩

theorem keeps_enterClass (h : Known p d) : Keeps .none Known d (enterClass p t d) := by
  unfold enterClass
  split
  · exact keeps_stop (.refl d)
  · simp only
    split
    · refine keeps_byField (.refl d) fun f q hq => ?_
      cases f <;> cases hq
      exact ⟨h.owner, h.scope⟩
    · refine keeps_declare (.inl rfl) (Draft.knows_none _) fun hd =>
        known_of_byField fun f q hq => ?_
      cases f <;> cases hq <;> exact ⟨Draft.knows_declare _, Draft.knows_declare _⟩

theorem later_assignedVariables : Later .none d ((assignedVariables t).foldl Draft.declare d) := by
  have hall : ∀ x ∈ assignedVariables t, IsNamedByParent x ∧ x.parent = none := by
    intro x hx
    obtain ⟨a, -, ha⟩ := List.mem_filterMap.mp hx
    obtain ⟨-, ha⟩ := Option.ite_none_right_eq_some.mp ha
    obtain ⟨l, -, hl⟩ := Option.bind_eq_some_iff.mp ha
    obtain ⟨-, hl⟩ := Option.ite_none_right_eq_some.mp hl
    cases hl
    exact ⟨rfl, rfl⟩
  generalize assignedVariables t = xs at hall
  induction xs generalizing d with
  | nil => exact .refl d
  | cons x xs ih =>
    obtain ⟨hx, hparent⟩ := hall x List.mem_cons_self
    have hd : Later .none d (d.declare x) :=
      Draft.later_declare (.inl hx) (hparent ▸ Draft.knows_none _)
    exact hd.trans (ih fun y hy => hall y (List.mem_cons_of_mem _ hy))

theorem keeps_enterAttribute (h : Known p d) {isCall : Bool} :
    Keeps .none Known d (enterAttribute p t isCall d) := by
  unfold enterAttribute
  simp only
  split
  · exact keeps_stop (.refl d)
  · split
    · split
      · refine keeps_stop ?_
        split
        · exact later_refer h
        · exact .refl d
      · exact keeps_stop (later_refer h)
    · refine keeps_byField (.refl d) fun f q hq => ?_
      cases f <;> cases hq
      exact ⟨h.owner, h.scope⟩

theorem keeps_enterPlain (h : Known p d) : Keeps .none Known d (enterPlain p t d) := by
  unfold enterPlain
  split
  · exact keeps_stop (.refl d)
  -- One goal for each kind of node that is told apart, in the order of the definition.
  · split
    iterate 2 exact keeps_stop (Draft.later_addImports _)
    iterate 4 exact keeps_stop (.refl d)
    · split
      · refine keeps_byField (.refl d) fun f q hq => ?_
        cases f <;> cases hq
        exact ⟨h.owner, h.scope⟩
      · exact keeps_inward (.refl d) h
    · refine ⟨.refl d, fun c cs q hq => ?_⟩
      simp only at hq
      split at hq
      · cases hq
        exact ⟨h.owner, h.scope⟩
      · obtain ⟨-, hq⟩ := Option.ite_none_right_eq_some.mp hq
        cases hq
        exact ⟨h.owner, h.scope⟩
    · exact keeps_enterFunction h
    · exact keeps_enterClass h
    · refine keeps_inward ?_ h
      split
      · exact later_assignedVariables
      · exact .refl d
    · refine keeps_byField ?_ fun f q hq => ?_
      · split
        · exact Draft.later_of_eq rfl rfl
        · exact .refl d
      · cases f <;> cases hq <;> exact ⟨h.owner, h.scope⟩
    · exact keeps_enterAttribute h
    · exact keeps_inward (.refl d) ⟨h.owner, h.scope⟩
    · refine keeps_stop ?_
      split
      · exact .refl d
      · exact later_refer h
    · exact keeps_inward (.refl d) h

theorem keeps_enter (h : Known p d) : Keeps .none Known d (enter p t d) := by
  unfold enter
  split
  · exact keeps_enterPlain h
  · exact keeps_inward (.refl d) h
  · split
    · exact keeps_stop (later_refer h)
    · exact keeps_enterAttribute h
    · exact keeps_enterPlain h

theorem leads : Syntax.Tree.Leads enter (fun p _ d => Known p d) (Later .none) where
  refl := .refl
  trans := .trans
  keeps := Known.later
  step h := (keeps_enter h).1
  visit h _ hq := (keeps_enter h).2 _ _ _ hq

theorem named {source : String} {o : Outline} (h : outline? source = some o) :
    Named .none o.declarations o.references := by
  obtain ⟨t, -, rfl⟩ := Option.map_eq_some_iff.mp h
  have htop : Known Place.top Draft.empty := ⟨Draft.knows_none _, Draft.knows_none _⟩
  have hnamed := (leads.walk_root (t := t) htop).named_finish .python
  simp only
  split
  · exact hnamed.markExported
  · exact hnamed

end Python

/-! ## Scripts -/

namespace Script

variable {p q : Place} {t : Node} {d d' : Draft}

/-- The class whose members are met. -/
def memberOf? : Mode → Option String
  | .classBody owner _ | .classMember owner _ => some owner
  | _ => none

/-- The names in a place are declared. -/
structure Known (p : Place) (d : Draft) : Prop where
  owner : d.Knows Exceptions.none.origin p.owner
  scope : d.Knows Exceptions.none.origin p.scope
  member : d.Knows Exceptions.none.origin (memberOf? p.mode)

theorem Known.later (h : Known p d) (hd : Later .none d d') : Known p d' :=
  ⟨h.owner.later hd, h.scope.later hd, h.member.later hd⟩

/-- A place with the names of another that is not about the members of a class. -/
theorem Known.of_eq (h : Known p d) (howner : q.owner = p.owner) (hscope : q.scope = p.scope)
    (hmode : memberOf? q.mode = none) : Known q d :=
  ⟨howner ▸ h.owner, hscope ▸ h.scope, hmode ▸ Draft.knows_none _⟩

theorem known_of_inward (h : Known q d) (c : Node) (cs : List Node) (q' : Place)
    (hq' : inward t q c cs = some q') : Known q' d := by
  obtain ⟨-, hq'⟩ := Option.ite_none_right_eq_some.mp hq'
  cases hq'
  exact h.of_eq rfl rfl rfl

theorem keeps_inward (hd : Later .none d d') (hq : Known q d) :
    Keeps .none Known d (d', inward t q) :=
  ⟨hd, known_of_inward (hq.later hd)⟩

theorem known_of_byField {place : Syntax.Field → Option Place}
    (hplace : ∀ f q, place f = some q → Known q d) (c : Node) (cs : List Node) (q : Place)
    (hq : byField t place c cs = some q) : Known q d := by
  obtain ⟨q', hq', rfl⟩ := Option.map_eq_some_iff.mp hq
  obtain ⟨f, -, hf⟩ := Option.bind_eq_some_iff.mp hq'
  obtain ⟨howner, hscope, hmember⟩ := hplace f q' hf
  exact ⟨howner, hscope, hmember⟩

theorem keeps_byField {place : Syntax.Field → Option Place} (hd : Later .none d d')
    (hplace : ∀ f q, place f = some q → Known q d) : Keeps .none Known d (d', byField t place) :=
  ⟨hd, known_of_byField fun f q hf => (hplace f q hf).later hd⟩

theorem known_of_functionParts (howner : d.Knows Exceptions.none.origin p.owner)
    (hscope : d.Knows Exceptions.none.origin p.scope) (c : Node) (cs : List Node) (q : Place)
    (hq : functionParts t p c cs = some q) : Known q d := by
  refine known_of_byField (fun f q hq => ?_) c cs q hq
  cases f <;> cases hq <;> exact ⟨howner, hscope, Draft.knows_none _⟩

theorem later_refer (h : Known p d) {name : String} {member : Option String} {line : Nat}
    {isCall : Bool} : Later .none d (refer p name member line isCall d) :=
  Draft.later_refer h.scope

theorem keeps_enterFunction (h : Known p d) : Keeps .none Known d (enterFunction p t d) := by
  unfold enterFunction
  split
  · exact keeps_stop (.refl d)
  · exact keeps_declare (.inl rfl) (Draft.knows_none _) fun hd =>
      known_of_functionParts (h.owner.later hd) (Draft.knows_declare _)

theorem keeps_enterClass : Keeps .none Known d (enterClass p t d) := by
  unfold enterClass
  split
  · exact keeps_stop (.refl d)
  · rename_i n _
    refine keeps_declare (.inl rfl) (Draft.knows_none _) fun hd c cs q hq => ?_
    have hname : ∀ x : Declaration, x.qualifiedName = n.text →
        (d.declare x).Knows Exceptions.none.origin (some n.text) :=
      fun x hx => hx ▸ Draft.knows_declare _
    split at hq
    · cases hq
      exact ⟨hname _ rfl, hname _ rfl, Draft.knows_none _⟩
    · cases hq
      exact ⟨hname _ rfl, hname _ rfl, hname _ rfl⟩
    · cases hq

theorem keeps_declareMethod {member f : Node} {name owner : String} {exported : Bool}
    {plan : Plan} (h : d.Knows Exceptions.none.origin (some owner))
    (hplan : ∀ d', Later .none d d' → d'.Knows Exceptions.none.origin (some (owner ++ "." ++ name)) →
      ∀ c cs q, plan c cs = some q → Known q d') :
    Keeps .none Known d (declareMethod member f name owner exported d, plan) :=
  keeps_declare (.inl rfl) h fun hd => hplan _ hd (Draft.knows_declare _)

theorem keeps_enterField (h : Known p d) {owner : String} {exported : Bool}
    (howner : d.Knows Exceptions.none.origin (some owner)) :
    Keeps .none Known d (enterField p t owner exported d) := by
  unfold enterField
  simp only
  split
  · refine keeps_declareMethod howner fun d' hd hscope => known_of_byField fun f q hq => ?_
    cases f <;> cases hq
    exact ⟨h.owner.later hd, hscope, Draft.knows_none _⟩
  · exact keeps_stop (.refl d)
  · refine keeps_byField (.refl d) fun f q hq => ?_
    cases f <;> cases hq <;> exact h.of_eq rfl rfl rfl

theorem keeps_enterTypeItem (h : Known p d) {kind : SymbolKind} :
    Keeps .none Known d (enterTypeItem p t kind d) := by
  unfold enterTypeItem
  split
  · exact keeps_stop (.refl d)
  · rename_i n _
    simp only
    cases hin : p.inFunction with
    | true =>
      simp only [if_true]
      split
      · exact keeps_stop (.refl d)
      · refine ⟨.refl d, fun c cs q hq => ?_⟩
        obtain ⟨-, hq⟩ := Option.ite_none_right_eq_some.mp hq
        cases hq
        exact h.of_eq rfl rfl rfl
    | false =>
      simp only [Bool.false_eq_true, if_false]
      split
      · exact keeps_declare (.inl rfl) (Draft.knows_none _) fun hd c cs q hq => by cases hq
      · refine keeps_declare (.inl rfl) (Draft.knows_none _) fun hd c cs q hq => ?_
        obtain ⟨-, hq⟩ := Option.ite_none_right_eq_some.mp hq
        cases hq
        exact ⟨h.owner.later hd, Draft.knows_declare _, Draft.knows_none _⟩

theorem keeps_enterDeclarator (h : Known p d) {isConst : Bool} :
    Keeps .none Known d (enterDeclarator p t isConst d) := by
  unfold enterDeclarator
  split
  · exact keeps_stop (.refl d)
  · simp only
    split
    · exact keeps_stop (Draft.later_of_eq rfl rfl)
    · split
      · refine keeps_byField (.refl d) fun f q hq => ?_
        cases f <;> cases hq <;> exact h.of_eq rfl rfl rfl
      · refine keeps_declare (.inl rfl) (Draft.knows_none _) fun hd =>
          known_of_byField fun f q hq => ?_
        cases f <;> cases hq
        · exact ⟨h.owner.later hd, Draft.knows_declare _, Draft.knows_none _⟩
        · refine ⟨h.owner.later hd, Draft.knows_declare _, ?_⟩
          simp only [Place.within]
          split <;> exact Draft.knows_none _

theorem later_addExports {α : Type} (name : α → String) (xs : List α) :
    Later .none d (xs.foldl (fun d x => d.addExport (name x)) d) := by
  induction xs generalizing d with
  | nil => exact .refl d
  | cons x xs ih => exact (Draft.later_of_eq rfl rfl : Later .none d (d.addExport _)).trans ih

theorem keeps_enterExport (h : Known p d) : Keeps .none Known d (enterExport p t d) := by
  unfold enterExport
  split
  · split
    · exact keeps_stop (Draft.later_of_eq rfl rfl)
    · exact keeps_stop (.refl d)
  · split
    · refine keeps_byField (.refl d) fun f q hq => ?_
      cases f <;> cases hq
      exact h.of_eq rfl rfl rfl
    · split
      · refine keeps_byField ?_ fun f q hq => ?_
        · split
          · exact Draft.later_of_eq rfl rfl
          · exact .refl d
        · cases f <;> cases hq
          exact h.of_eq rfl rfl rfl
      · exact keeps_stop (later_addExports _ _)

theorem keeps_enterCall (h : Known p d) : Keeps .none Known d (enterCall p t d) := by
  unfold enterCall
  split
  · exact keeps_inward (.refl d) h
  · simp only
    split
    · refine keeps_stop ?_
      split
      · exact Draft.later_of_eq rfl rfl
      · exact .refl d
    · split
      · exact keeps_stop (Draft.later_of_eq rfl rfl)
      · refine keeps_byField (.refl d) fun f q hq => ?_
        cases f <;> cases hq <;> exact h.of_eq rfl rfl rfl

theorem keeps_enterMember (h : Known p d) {isCall : Bool} :
    Keeps .none Known d (enterMember p t isCall d) := by
  unfold enterMember
  simp only
  split
  · exact keeps_stop (.refl d)
  · split
    · exact keeps_stop (later_refer h)
    · refine keeps_stop ?_
      split
      · exact later_refer h
      · exact .refl d
    · refine keeps_byField (.refl d) fun f q hq => ?_
      cases f <;> cases hq
      exact h.of_eq rfl rfl rfl

theorem keeps_ite_inFunction (h : Known p d) {r : Draft × Plan} (hr : Keeps .none Known d r) :
    Keeps .none Known d (if p.inFunction then (d, inward t p) else r) := by
  split
  · exact keeps_inward (.refl d) h
  · exact hr

theorem keeps_enterPlain (h : Known p d) : Keeps .none Known d (enterPlain p t d) := by
  unfold enterPlain
  split
  · exact keeps_stop (.refl d)
  -- One goal for each kind of node that is told apart, in the order of the definition.
  · split
    · refine keeps_stop ?_
      split
      · exact Draft.later_of_eq rfl rfl
      · exact .refl d
    · exact keeps_enterExport h
    iterate 3 exact keeps_ite_inFunction h (keeps_enterFunction h)
    iterate 2 exact keeps_ite_inFunction h keeps_enterClass
    iterate 3 exact keeps_enterTypeItem h
    iterate 2
      refine ⟨.refl d, fun c cs q hq => ?_⟩
      obtain ⟨-, hq⟩ := Option.ite_none_right_eq_some.mp hq
      cases hq
      exact h.of_eq rfl rfl rfl
    · exact keeps_enterCall h
    · refine keeps_byField (.refl d) fun f q hq => ?_
      cases f <;> cases hq <;> exact h.of_eq rfl rfl rfl
    · exact keeps_enterMember h
    · exact keeps_inward (later_addExports id _) h
    · refine keeps_stop ?_
      split
      · exact .refl d
      · exact later_refer h
    · exact keeps_stop (Draft.later_refer h.scope)
    · refine keeps_stop ?_
      split
      · split
        · exact Draft.later_refer h.scope
        · exact .refl d
      · exact .refl d
    iterate 6 exact keeps_inward (.refl d) ⟨h.owner, h.scope, h.member⟩
    iterate 7 exact keeps_stop (.refl d)
    · exact keeps_inward (.refl d) h

theorem keeps_enter (h : Known p d) : Keeps .none Known d (enter p t d) := by
  unfold enter
  cases hm : p.mode with
  | plain => exact keeps_enterPlain h
  | inside => exact keeps_inward (.refl d) h
  | callee isCall =>
    simp only
    split
    · exact keeps_stop (later_refer h)
    · exact keeps_enterMember h
    · exact keeps_enterPlain h
  | functionParts => exact ⟨.refl d, known_of_functionParts h.owner h.scope⟩
  | classBody owner exported =>
    refine ⟨.refl d, fun c cs q hq => ?_⟩
    obtain ⟨-, hq⟩ := Option.ite_none_right_eq_some.mp hq
    cases hq
    refine ⟨h.owner, h.scope, ?_⟩
    have hmember := h.member
    rw [hm] at hmember
    exact hmember
  | classMember owner exported =>
    have hmember := h.member
    rw [hm] at hmember
    simp only
    split
    iterate 3
      split
      · exact keeps_stop (.refl d)
      · exact keeps_declareMethod hmember fun d' hd hscope =>
          known_of_functionParts (h.owner.later hd) hscope
    iterate 2 exact keeps_enterField h hmember
    · exact keeps_enterPlain h
  | declarator isConst => exact keeps_enterDeclarator h

theorem leads : Syntax.Tree.Leads enter (fun p _ d => Known p d) (Later .none) where
  refl := .refl
  trans := .trans
  keeps := Known.later
  step h := (keeps_enter h).1
  visit h _ hq := (keeps_enter h).2 _ _ _ hq

theorem named {language : Language} {source : String} {o : Outline}
    (h : outline? language source = some o) : Named .none o.declarations o.references := by
  obtain ⟨t, -, rfl⟩ := Option.map_eq_some_iff.mp h
  have htop : Known Place.top Draft.empty :=
    ⟨Draft.knows_none _, Draft.knows_none _, Draft.knows_none _⟩
  exact ((leads.walk_root (t := t) htop).named_finish language).markExported

end Script

/-! ## Rust -/

namespace Rust

open Syntax (Tree Spot)
open Syntax.Rust (Kind)

/-- The type that a block of members is for, as it is written. -/
def selfType? (t : Node) : Option String :=
  if t.hasKind .implItem then (t.child? .type).bind ownerName? else none

/-- A block of members: that of a type or that of a trait. -/
def isBlock (t : Node) : Bool := t.hasKind .implItem || t.hasKind .traitItem

/-- The blocks that a spot is in. -/
def blocks (x : Spot Kind) : List (Spot Kind) :=
  (x.steps.map Prod.snd).filter (isBlock ·.node)

/-- The name of a trait that is in a module or in a block, where its members are named after its bare
name. -/
def IsInnerTrait (x : Spot Kind) (name : String) : Prop :=
  x.node.hasKind .traitItem = true ∧ (x.node.child? .name).map (·.text) = some name ∧
    ∃ a ∈ x.around, a.hasKind .modItem = true ∨ isBlock a = true

/-- The declaration has its name and lines from the node. -/
def Describes (t : Node) (x : Declaration) : Prop :=
  (t.child? .name).map (·.text) = some x.name ∧ x.line = t.line ∧ x.endLine = t.endLine

/-- What is not named by a declared parent: items in blocks that are no functions have the block in
their name but not as their parent; and a function in a block has for its parent the type of the
block as it is written. -/
def exceptions (t : Node) : Exceptions where
  odd x := x.kind.isCallable = false ∧ ∃ y ∈ t.spots, Describes y.node x ∧ blocks y ≠ []
  parent x q := x.kind = .method ∧ ∃ y ∈ t.spots, Describes y.node x ∧
    ∃ b ∈ blocks y, selfType? b.node = some q ∨ IsInnerTrait b q
  origin q := ∃ y ∈ t.spots, selfType? y.node = some q

theorem blocks_child (x : Spot Kind) (c : Node) :
    blocks (x.child c) = if isBlock x.node then x :: blocks x else blocks x := by
  simp only [blocks, Spot.steps_child, List.map_cons, List.filter_cons]

theorem mem_blocks_child {x b : Spot Kind} {c : Node} (h : b ∈ blocks x) :
    b ∈ blocks (x.child c) := by
  rw [blocks_child]
  split
  · exact List.mem_cons_of_mem _ h
  · exact h

theorem self_mem_blocks_child {x : Spot Kind} (h : isBlock x.node = true) (c : Node) :
    x ∈ blocks (x.child c) := by
  rw [blocks_child, if_pos h]
  exact List.mem_cons_self

/-- A block around a spot is among the nodes around it. -/
theorem exists_around_of_blocks {x : Spot Kind} (h : blocks x ≠ []) :
    ∃ a ∈ x.around, isBlock a = true := by
  obtain ⟨b, hb⟩ := List.exists_mem_of_ne_nil _ h
  obtain ⟨hmem, hblock⟩ := List.mem_filter.mp hb
  obtain ⟨s, hs, rfl⟩ := List.mem_map.mp hmem
  exact ⟨s.2.node, Spot.mem_around_of_mem_steps hs, hblock⟩

variable {root t : Node} {p q : Place} {x : Spot Kind} {d d' : Draft}

/-- What is known of the names in a place: a module and a scope are declared, or the scope is the
type of a block, and the owner is that of a block around. -/
structure Fits (root : Node) (p : Place) (x : Spot Kind) (d : Draft) : Prop where
  spot : x ∈ root.spots
  modulePath : d.Knows (fun _ => False) p.modulePath
  inModule : p.modulePath ≠ none → ∃ a ∈ x.around, a.hasKind .modItem = true
  owner : d.Knows (fun q => ∃ b ∈ blocks x, selfType? b.node = some q ∨ IsInnerTrait b q) p.owner
  inBlock : p.owner ≠ none → blocks x ≠ []
  scope : d.Knows (exceptions root).origin p.scope

theorem Fits.later (h : Fits root p x d) (hd : Later (exceptions root) d d') :
    Fits root p x d' :=
  ⟨h.spot, h.modulePath.later hd, h.inModule, h.owner.later hd, h.inBlock, h.scope.later hd⟩

/-- The place fits all parts of a node. -/
def Below (root : Node) (x : Spot Kind) (q : Place) (d : Draft) : Prop :=
  ∀ c ∈ x.node.children, Fits root q (x.child c) d

theorem Below.later (h : Below root x q d) (hd : Later (exceptions root) d d') :
    Below root x q d' :=
  fun c hc => (h c hc).later hd

/-- A place with the module and the owner of another fits below it. -/
theorem Fits.below (h : Fits root p x d) (hmodule : q.modulePath = p.modulePath)
    (howner : q.owner = p.owner) (hscope : d.Knows (exceptions root).origin q.scope) :
    Below root x q d := by
  intro c hc
  refine ⟨Tree.child_mem_spots h.spot hc, hmodule ▸ h.modulePath, fun hq => ?_, ?_, fun hq => ?_,
    hscope⟩
  · obtain ⟨a, ha, hmod⟩ := h.inModule (hmodule ▸ hq)
    exact ⟨a, List.mem_cons_of_mem _ ha, hmod⟩
  · intro o ho
    refine (h.owner o (howner ▸ ho)).imp_right ?_
    rintro ⟨b, hb, hname⟩
    exact ⟨b, mem_blocks_child hb, hname⟩
  · obtain ⟨b, hb⟩ := List.exists_mem_of_ne_nil _ (h.inBlock (howner ▸ hq))
    exact List.ne_nil_of_mem (mem_blocks_child hb)

/-- A place is judged by its names alone. -/
theorem Below.of_eq (h : Below root x p d) (hmodule : q.modulePath = p.modulePath)
    (howner : q.owner = p.owner) (hscope : q.scope = p.scope) : Below root x q d := by
  intro c hc
  obtain ⟨hspot, hmodulePath, hinModule, howner', hinBlock, hscope'⟩ := h c hc
  exact ⟨hspot, hmodule ▸ hmodulePath, hmodule ▸ hinModule, howner ▸ howner', howner ▸ hinBlock,
    hscope ▸ hscope'⟩

theorem keeps_inward (hd : Later (exceptions root) d d') (hq : Below root x q d) :
    Keeps (exceptions root) (Below root x) d (d', inward t q) := by
  refine ⟨hd, fun c cs q' hq' => ?_⟩
  obtain ⟨-, hq'⟩ := Option.ite_none_right_eq_some.mp hq'
  cases hq'
  exact (hq.later hd).of_eq rfl rfl rfl

theorem below_of_byField {place : Syntax.Field → Option Place}
    (hplace : ∀ f q, place f = some q → Below root x q d) (c : Node) (cs : List Node) (q : Place)
    (hq : byField t place c cs = some q) : Below root x q d := by
  obtain ⟨q', hq', rfl⟩ := Option.map_eq_some_iff.mp hq
  obtain ⟨f, -, hf⟩ := Option.bind_eq_some_iff.mp hq'
  exact (hplace f q' hf).of_eq rfl rfl rfl

theorem keeps_byField {place : Syntax.Field → Option Place}
    (hd : Later (exceptions root) d d') (hplace : ∀ f q, place f = some q → Below root x q d) :
    Keeps (exceptions root) (Below root x) d (d', byField t place) :=
  ⟨hd, below_of_byField fun f q hf => (hplace f q hf).later hd⟩

theorem later_refer (h : Fits root p x d) {name : String} {member : Option String} {line : Nat}
    {isCall : Bool} : Later (exceptions root) d (refer p name member line isCall d) :=
  Draft.later_refer h.scope

/-! ### Declarations -/

/-- Outside blocks a name is qualified by the module, which is the parent. -/
theorem isNamedByParent_of_owner {y : Declaration} (howner : p.owner = none)
    (hname : y.qualifiedName = p.qualify y.name) (hparent : y.parent = p.modulePath) :
    IsNamedByParent y := by
  rw [IsNamedByParent, hname, hparent, Place.qualify, howner]
  cases p.modulePath <;> rfl

/-- An item that is no function is named by its parent, or is in a block. -/
theorem named_item (h : Fits root p x d) {y : Declaration} (hkind : y.kind.isCallable = false)
    (hdescribes : Describes x.node y) (hname : y.qualifiedName = p.qualify y.name)
    (hparent : y.parent = p.modulePath) : IsNamedByParent y ∨ (exceptions root).odd y := by
  cases howner : p.owner with
  | none => exact .inl (isNamedByParent_of_owner howner hname hparent)
  | some o => exact .inr ⟨hkind, x, h.spot, hdescribes, h.inBlock (by simp [howner])⟩

theorem Fits.knows_modulePath (h : Fits root p x d) (extra : String → Prop) :
    d.Knows extra p.modulePath :=
  fun s hs => (h.modulePath s hs).imp_right False.elim

theorem keeps_enterModule (h : Fits root p x d) (hk : x.node.kind? = some .modItem) :
    Keeps (exceptions root) (Below root x) d (enterModule p x.node d) := by
  unfold enterModule
  split
  · exact keeps_stop (.refl d)
  · rename_i n hn
    simp only
    split
    · refine keeps_stop ?_
      split
      · exact Draft.later_of_eq rfl rfl
      · exact .refl d
    · refine keeps_declare (named_item h rfl ?_ rfl rfl)
        (h.knows_modulePath _) fun hd => below_of_byField fun f q hq => ?_
      · exact ⟨by rw [hn]; rfl, rfl, rfl⟩
      · cases f <;> cases hq
        intro c hc
        refine ⟨Tree.child_mem_spots h.spot hc, Draft.knows_declare _, fun _ => ?_,
          Draft.knows_none _, fun hne => absurd rfl hne, Draft.knows_none _⟩
        exact ⟨x.node, List.mem_cons_self, by simp [Tree.hasKind_of_kind? hk]⟩

theorem keeps_enterFunction (h : Fits root p x d) :
    Keeps (exceptions root) (Below root x) d (enterFunction p x.node d) := by
  unfold enterFunction
  split
  · exact keeps_stop (.refl d)
  · rename_i n hn
    refine keeps_declare (.inl ?_) ?_ fun hd => below_of_byField fun f q hq => ?_
    · unfold IsNamedByParent Place.qualify
      cases p.owner <;> cases p.modulePath <;> rfl
    · have hdescribes : ∀ y : Declaration, y.name = n.text → y.line = x.node.line →
          y.endLine = x.node.endLine → Describes x.node y :=
        fun y hname hline hend => ⟨by rw [hn, hname]; rfl, hline, hend⟩
      cases howner : p.owner with
      | none => exact h.knows_modulePath _
      | some o =>
        intro s hs
        refine (h.owner s (howner.trans hs)).imp_right fun hs => ?_
        exact ⟨rfl, x, h.spot, hdescribes _ rfl rfl rfl, hs⟩
    · cases f <;> cases hq <;> exact (h.later hd).below rfl rfl (Draft.knows_declare _)

/-- Below a block, the owner is the block. -/
theorem Fits.below_block (h : Fits root p x d) (hblock : isBlock x.node = true)
    (hmodule : q.modulePath = p.modulePath)
    (howner : d.Knows (fun s => selfType? x.node = some s ∨ IsInnerTrait x s) q.owner)
    (hscope : d.Knows (exceptions root).origin q.scope) : Below root x q d := by
  intro c hc
  have hself := self_mem_blocks_child hblock c
  have hbelow := h.below (q := { p with scope := none }) rfl rfl (Draft.knows_none _) c hc
  exact ⟨hbelow.spot, hmodule ▸ hbelow.modulePath, hmodule ▸ hbelow.inModule,
    fun s hs => (howner s hs).imp_right fun hs => ⟨x, hself, hs⟩,
    fun _ => List.ne_nil_of_mem hself, hscope⟩

/-- A trait is declared by its bare name, unless it is in a module or in a block. -/
theorem qualify_or_isInnerTrait (h : Fits root p x d) (hk : x.node.hasKind .traitItem = true)
    {n : Node} (hn : x.node.child? .name = some n) :
    p.qualify n.text = n.text ∨ IsInnerTrait x n.text := by
  have hinner : (∃ a ∈ x.around, a.hasKind .modItem = true ∨ isBlock a = true) →
      IsInnerTrait x n.text := fun haround => ⟨hk, by rw [hn]; rfl, haround⟩
  cases hp : p.owner with
  | some o =>
    obtain ⟨a, ha, hblock⟩ := exists_around_of_blocks (h.inBlock (by simp [hp]))
    exact .inr (hinner ⟨a, ha, .inr hblock⟩)
  | none =>
    cases hm : p.modulePath with
    | some m =>
      obtain ⟨a, ha, hmod⟩ := h.inModule (by simp [hm])
      exact .inr (hinner ⟨a, ha, .inl hmod⟩)
    | none => exact .inl (by rw [Place.qualify, hp, hm])

theorem keeps_enterItem (h : Fits root p x d) {kind : SymbolKind}
    (hcallable : kind.isCallable = false)
    (htrait : kind = .trait → x.node.hasKind .traitItem = true) :
    Keeps (exceptions root) (Below root x) d (enterItem p x.node kind d) := by
  unfold enterItem
  split
  · exact keeps_stop (.refl d)
  · rename_i n hn
    refine keeps_declare (named_item h hcallable ⟨by rw [hn]; rfl, rfl, rfl⟩ rfl rfl)
      (h.knows_modulePath _) fun hd c cs q hq => ?_
    split at hq
    · rename_i hkind
      refine below_of_byField (fun f q hq => ?_) c cs q hq
      cases f <;> cases hq
      have hk := htrait hkind
      refine (h.later hd).below_block (by simp [isBlock, hk]) rfl (fun s hs => ?_)
        (Draft.knows_declare _)
      obtain rfl := Option.some.inj hs
      rcases qualify_or_isInnerTrait h hk hn with hname | hinner
      · exact .inl (List.mem_cons.mpr (.inl hname.symm))
      · exact .inr (.inr hinner)
    · obtain ⟨-, hq⟩ := Option.ite_none_left_eq_some.mp hq
      cases hq
      split <;> exact (h.later hd).below rfl rfl (Draft.knows_declare _)

theorem keeps_enterImpl (h : Fits root p x d) (hk : x.node.hasKind .implItem = true) :
    Keeps (exceptions root) (Below root x) d (enterImpl p x.node d) := by
  unfold enterImpl
  split
  · exact keeps_stop (.refl d)
  · rename_i owner howner
    have hself : selfType? x.node = some owner := by rw [selfType?, if_pos hk, howner]
    have hinner : ∀ q : Place, q.modulePath = p.modulePath → q.owner = some owner →
        q.scope = some owner → Below root x q d := fun q hmodule hqowner hqscope =>
      h.below_block (by simp [isBlock, hk]) hmodule
        (fun s hs => .inr (.inl (hself.trans (hqowner.symm.trans hs))))
        fun s hs => .inr ⟨x, h.spot, hself.trans (hqscope.symm.trans hs)⟩
    refine keeps_byField (.refl d) fun f q hq => ?_
    cases f <;> cases hq <;> exact hinner _ rfl rfl rfl

theorem later_enterTypeName (h : Fits root p x d) :
    Later (exceptions root) d (enterTypeName p t d) := by
  unfold enterTypeName
  split
  · exact later_refer h
  · split
    · exact later_refer h
    · exact .refl d
  · exact .refl d

theorem later_enterScoped (h : Fits root p x d) {isCall : Bool} :
    Later (exceptions root) d (enterScoped p t isCall d) := by
  unfold enterScoped
  simp only
  split
  · exact Draft.later_refer h.scope
  · split
    · exact Draft.later_refer h.scope
    · exact .refl d

theorem keeps_enterField (h : Fits root p x d) {isCall : Bool} :
    Keeps (exceptions root) (Below root x) d (enterField p x.node isCall d) := by
  unfold enterField
  simp only
  split
  · exact keeps_stop (.refl d)
  · split
    · refine keeps_stop ?_
      split
      · exact Draft.later_refer h.scope
      · exact .refl d
    · exact keeps_stop (Draft.later_refer h.scope)
    · refine keeps_byField (.refl d) fun f q hq => ?_
      cases f <;> cases hq
      exact h.below rfl rfl h.scope

theorem keeps_ite_inFunction (h : Fits root p x d) {r : Draft × Plan}
    (hr : Keeps (exceptions root) (Below root x) d r) :
    Keeps (exceptions root) (Below root x) d
      (if p.inFunction then (d, inward x.node p) else r) := by
  split
  · exact keeps_inward (.refl d) (h.below rfl rfl h.scope)
  · exact hr

theorem keeps_enterPlain (h : Fits root p x d) :
    Keeps (exceptions root) (Below root x) d (enterPlain p x.node d) := by
  have hbelow : ∀ q : Place, q.modulePath = p.modulePath → q.owner = p.owner →
      q.scope = p.scope → Below root x q d :=
    fun q hmodule howner hscope => h.below hmodule howner (hscope ▸ h.scope)
  unfold enterPlain
  split
  · exact keeps_stop (.refl d)
  · rename_i k hk
    simp only
    -- As above, one goal for each kind of node.
    split
    · exact keeps_stop (Draft.later_addImports _)
    iterate 9 exact keeps_stop (.refl d)
    · exact keeps_enterModule h hk
    iterate 2 exact keeps_ite_inFunction h (keeps_enterFunction h)
    iterate 3
      exact keeps_ite_inFunction h (keeps_enterItem h rfl (by simp))
    · exact keeps_ite_inFunction h (keeps_enterItem h rfl
        fun _ => by simp [Tree.hasKind_of_kind? hk])
    iterate 3
      exact keeps_ite_inFunction h (keeps_enterItem h rfl (by simp))
    · exact keeps_ite_inFunction h (keeps_enterImpl h (by simp [Tree.hasKind_of_kind? hk]))
    · refine keeps_byField (.refl d) fun f q hq => ?_
      cases f <;> cases hq <;> exact hbelow _ rfl rfl rfl
    · exact keeps_enterField h
    · exact keeps_stop (later_enterScoped h)
    · refine keeps_byField (.refl d) fun f q hq => ?_
      cases f <;> cases hq <;> exact hbelow _ rfl rfl rfl
    iterate 2
      refine keeps_stop (later_enterTypeName (x := x) ?_)
      exact ⟨h.spot, h.modulePath, h.inModule, h.owner, h.inBlock, h.scope⟩
    · exact keeps_inward (.refl d) (hbelow _ rfl rfl rfl)
    · refine keeps_stop ?_
      split
      · exact .refl d
      · exact later_refer h
    · exact keeps_inward (.refl d) (hbelow _ rfl rfl rfl)

theorem keeps_enter (h : Fits root p x d) :
    Keeps (exceptions root) (Below root x) d (enter p x.node d) := by
  have hbelow : ∀ q : Place, q.modulePath = p.modulePath → q.owner = p.owner →
      q.scope = p.scope → Below root x q d :=
    fun q hmodule howner hscope => h.below hmodule howner (hscope ▸ h.scope)
  unfold enter
  split
  · exact keeps_enterPlain h
  · exact keeps_inward (.refl d) (hbelow _ rfl rfl rfl)
  · split
    · exact keeps_stop (Draft.later_refer h.scope)
    · exact keeps_stop (later_enterScoped h)
    · exact keeps_enterField h
    · refine keeps_byField (.refl d) fun f q hq => ?_
      cases f <;> cases hq <;> exact hbelow _ rfl rfl rfl
    · exact keeps_enterPlain h
  · split
    iterate 2 exact keeps_stop (later_enterTypeName h)
    · refine keeps_byField (.refl d) fun f q hq => ?_
      cases f <;> cases hq <;> exact hbelow _ rfl rfl rfl
    · exact keeps_enterPlain h

theorem leads (root : Node) :
    Syntax.Tree.Leads enter (Fits root) (Later (exceptions root)) where
  refl := .refl
  trans := .trans
  keeps := Fits.later
  step h := (keeps_enter h).1
  visit h hc hq := (keeps_enter h).2 _ _ _ hq _ hc

theorem named {source : String} {t : Node} (h : Syntax.Rust.grammar.parse? source = some t)
    {o : Outline} (ho : outline? source = some o) :
    Named (exceptions t) o.declarations o.references := by
  obtain ⟨t', ht', rfl⟩ := Option.map_eq_some_iff.mp ho
  obtain rfl := Option.some.inj (h.symm.trans ht')
  have htop : Fits t Place.top ⟨t, []⟩ Draft.empty :=
    ⟨Tree.mem_spots_self t, Draft.knows_none _, fun hne => absurd rfl hne, Draft.knows_none _,
      fun hne => absurd rfl hne, Draft.knows_none _⟩
  exact ((leads t).walk_root htop).named_finish .rust

end Rust

/-! ## All languages -/

/-- The names that a source may have besides those of declared parents. -/
def exceptionsOf (language : Language) (source : String) : Exceptions :=
  match language with
  | .rust => ((Syntax.Rust.grammar.parse? source).map Rust.exceptions).getD .none
  | .python | .typeScript | .tsx | .javaScript => .none

end DepAtlas.Outline
