import DepAtlas.Proofs.ModuleNames
import DepAtlas.Proofs.UseTrees

/-! # Splitting use declarations

A declaration with a group can be written as several, one for each clause. Nothing else in a source
changes, but for lines and for the texts of what stands around. A walk over the new tree goes the same
ways as before, so the imports of both lead to the same things, if those of the declaration and of its
parts do.
-/

namespace DepAtlas.Outline.Rust

open DepAtlas.Syntax (Field)
open DepAtlas.Syntax.Rust (Kind)

/-! ## Declarations and trees -/

/-- What is written after `use` in a declaration. -/
def used? (t : Node) : Option UseTree := (t.child? .argument).map useTree

/-- A use declaration among items or statements. -/
structure IsUse (t : Node) : Prop where
  kind : t.kind? = some .useDeclaration
  field : t.field = none

/-- Declarations for the clauses of the group in a declaration. -/
structure SplitInto (d : Node) (parts : List Node) : Prop where
  whole : IsUse d
  each : ∀ c ∈ parts, IsUse c
  clauses : ∃ path cs, used? d = some (.group path cs) ∧
    parts.map used? = cs.map fun c => some (c.under path)

theorem namesOf_eq (t : Node) :
    namesOf t = (((used? t).map (UseTree.leaves [])).getD []).filterMap leafBinding? := by
  rw [namesOf, used?, Option.map_map]
  rfl

/-- The parts bring in the names of the whole. -/
theorem SplitInto.namesOf {d : Node} {parts : List Node} (h : SplitInto d parts) :
    namesOf d = (parts.map namesOf).flatten := by
  obtain ⟨path, cs, hd, hparts⟩ := h.clauses
  have hnames : parts.map Rust.namesOf =
      cs.map fun c => (UseTree.leaves path c).filterMap leafBinding? := by
    have hmap := congrArg (List.map fun u =>
      ((u.map (UseTree.leaves [])).getD []).filterMap leafBinding?) hparts
    simpa [Function.comp_def, ← namesOf_eq, UseTree.leaves_under] using hmap
  rw [hnames, namesOf_eq, hd]
  simp [UseTree.leaves, UseTree.leavesAll_eq_flatMap, List.flatMap_def, Function.comp_def]

/-- The text of the name among the children of a node. -/
def nameText (cs : List Node) : Option String :=
  (cs.find? (·.field = some .name)).map Syntax.Tree.text

mutual

/-- The second tree is the first with `parts` in the place of `d`. The other declarations are written the
same, modules around keep their names, and other texts do not matter. -/
inductive Regrouped (d : Node) (parts : List Node) : Node → Node → Prop
  | use {t t' : Node} : IsUse t → IsUse t' → used? t = used? t' → Regrouped d parts t t'
  | inside {l : Syntax.Label Kind} {f : Option Field} {e e' : Syntax.Extent} {cs cs' : List Node} :
      l ≠ .kind .useDeclaration → (l = .kind .modItem → nameText cs = nameText cs') →
      RegroupedAll d parts cs cs' → Regrouped d parts (.node l f e cs) (.node l f e' cs')

inductive RegroupedAll (d : Node) (parts : List Node) : List Node → List Node → Prop
  | nil : RegroupedAll d parts [] []
  | cons {c c' : Node} {cs cs' : List Node} : Regrouped d parts c c' → RegroupedAll d parts cs cs' →
      RegroupedAll d parts (c :: cs) (c' :: cs')
  | split {cs cs' : List Node} : RegroupedAll d parts cs cs' →
      RegroupedAll d parts (d :: cs) (parts ++ cs')

end

/-- Nodes that look the same to a walk for imports. -/
structure Level (t t' : Node) : Prop where
  label : t.label = t'.label
  kinds : ∀ f, (t.child? f).map Syntax.Tree.kind? = (t'.child? f).map Syntax.Tree.kind?
  owner : ((t.child? .type).bind ownerName?).isSome = ((t'.child? .type).bind ownerName?).isSome
  name : t.kind? = some .modItem →
    (t.child? .name).map Syntax.Tree.text = (t'.child? .name).map Syntax.Tree.text

namespace Level

variable {t t' : Node}

theorem kind? (h : Level t t') : t.kind? = t'.kind? := by
  rw [Syntax.Tree.kind?, Syntax.Tree.kind?, h.label]

theorem isNone_child? (h : Level t t') (f : Field) :
    (t.child? f).isNone = (t'.child? f).isNone := by
  have hkinds := congrArg Option.isNone (h.kinds f)
  simpa using hkinds

end Level

/-! ## Steps of a walk -/

/-- What of a place bears on the imports below. -/
structure Stance where
  mode : Mode
  inFunction : Bool
  /-- No inline module is around. -/
  atTop : Bool

def Place.stance (p : Place) : Stance := ⟨p.mode, p.inFunction, p.modulePath.isNone⟩

/-- Plans by which the same children are met in the same stances. What plays no part is met plainly. -/
structure SameWays (plan plan' : Plan) : Prop where
  same : ∀ c c' rest rest', c.field = c'.field → c.isNamed = c'.isNamed →
    (plan c rest).map Place.stance = (plan' c' rest').map Place.stance
  plain : ∀ c rest q, plan c rest = some q → c.field = none → q.mode = .plain

theorem sameWays_stop : SameWays stop stop where
  same _ _ _ _ _ _ := rfl
  plain _ _ _ h _ := by cases h

theorem sameWays_inward {t t' : Node} {p p' : Place} (h : p.stance = p'.stance) :
    SameWays (inward t p) (inward t' p') where
  same c c' rest rest' _ hnamed := by
    obtain ⟨-, hfunction, htop⟩ := Stance.mk.inj h
    rw [inward, inward, hnamed]
    split
    · simp [Place.stance, hfunction, htop]
    · rfl
  plain c rest q hq _ := by
    rw [inward] at hq
    split at hq
    · rw [← Option.some.inj hq]
    · cases hq

theorem sameWays_byField {t t' : Node} {g g' : Field → Option Place}
    (h : ∀ f, (g f).map Place.stance = (g' f).map Place.stance) :
    SameWays (byField t g) (byField t' g') where
  same c c' rest rest' hfield _ := by
    rw [byField, byField, hfield, Option.map_map, Option.map_map]
    cases c'.field with
    | none => rfl
    | some f => exact h f
  plain c rest q hq hnone := by
    rw [byField, hnone] at hq
    cases hq

/-- The specifiers of the imports, last first. -/
def specifiers (d : Draft) : List String := d.imports.map (·.specifier)

/-- Two steps find the same imports and go on in the same ways. -/
structure Agree (d d' : Draft) (r r' : Draft × Plan) : Prop where
  found : ∃ new, specifiers r.1 = new ++ specifiers d ∧ specifiers r'.1 = new ++ specifiers d'
  ways : SameWays r.2 r'.2

theorem agree_of_imports {d d' : Draft} {r r' : Draft × Plan} (h : r.1.imports = d.imports)
    (h' : r'.1.imports = d'.imports) (hways : SameWays r.2 r'.2) : Agree d d' r r' :=
  ⟨⟨[], by simp [specifiers, h], by simp [specifiers, h']⟩, hways⟩

section

variable {t t' : Node} {p p' : Place} {d d' : Draft}

theorem agree_enterModule (h : Level t t') (ht : t.kind? = some .modItem)
    (hp : p.stance = p'.stance) : Agree d d' (enterModule p t d) (enterModule p' t' d') := by
  obtain ⟨-, -, htop⟩ := Stance.mk.inj hp
  have hname := h.name ht
  unfold enterModule
  cases hn : t.child? .name with
  | none =>
    have hn' : t'.child? .name = none := by simpa [hn] using hname.symm
    simp only [hn']
    exact agree_of_imports rfl rfl sameWays_stop
  | some n =>
    obtain ⟨n', hn', htext⟩ : ∃ n', t'.child? .name = some n' ∧ n'.text = n.text := by
      simpa [hn] using hname.symm
    simp only [hn', htext, h.isNone_child? .body, htop]
    split
    · split
      · exact ⟨⟨["self::" ++ n.text], rfl, rfl⟩, sameWays_stop⟩
      · exact agree_of_imports rfl rfl sameWays_stop
    · refine agree_of_imports rfl rfl (sameWays_byField fun f => ?_)
      cases f <;> rfl

/-- A child is there in both nodes or in none. -/
theorem Level.child?_cases (h : Level t t') (f : Field) :
    t.child? f = none ∧ t'.child? f = none ∨
      ∃ c c', t.child? f = some c ∧ t'.child? f = some c' ∧ c.kind? = c'.kind? := by
  have hkinds := h.kinds f
  cases hc : t.child? f <;> cases hc' : t'.child? f <;> simp_all

theorem agree_enterFunction (h : Level t t') (hp : p.stance = p'.stance) :
    Agree d d' (enterFunction p t d) (enterFunction p' t' d') := by
  obtain ⟨-, -, htop⟩ := Stance.mk.inj hp
  refine agree_of_imports (imports_enterFunction p t d) (imports_enterFunction p' t' d') ?_
  unfold enterFunction
  rcases h.child?_cases .name with ⟨hn, hn'⟩ | ⟨n, n', hn, hn', -⟩
  · simp only [hn, hn']
    exact sameWays_stop
  · simp only [hn, hn']
    refine sameWays_byField fun f => ?_
    cases f <;> simp [Place.stance, Place.typed, Place.within, htop]

theorem agree_enterItem (h : Level t t') (hp : p.stance = p'.stance) (kind : SymbolKind) :
    Agree d d' (enterItem p t kind d) (enterItem p' t' kind d') := by
  obtain ⟨-, hfunction, htop⟩ := Stance.mk.inj hp
  refine agree_of_imports (imports_enterItem p t d kind) (imports_enterItem p' t' d' kind) ?_
  unfold enterItem
  rcases h.child?_cases .name with ⟨hn, hn'⟩ | ⟨n, n', hn, hn', -⟩
  · simp only [hn, hn']
    exact sameWays_stop
  · simp only [hn, hn']
    split
    · refine sameWays_byField fun f => ?_
      cases f <;> simp [Place.stance, hfunction, htop]
    · refine ⟨fun c c' rest rest' hfield hnamed => ?_, fun c rest q hq _ => ?_⟩
      · have hpart : ∀ f, c.inPart f = c'.inPart f := fun f => by
          rw [Syntax.Tree.inPart, Syntax.Tree.inPart, hfield]
        simp only [hpart, hnamed]
        by_cases hskip : (!c'.isNamed || c'.inPart .name) = true
        · simp only [hskip, if_true, Option.map_none]
        · simp only [hskip, Bool.false_eq_true, if_false, Option.map_some]
          split <;> simp [Place.stance, Place.typed, hfunction, htop]
      · obtain ⟨-, hq⟩ := Option.ite_none_left_eq_some.mp hq
        rw [← Option.some.inj hq]
        split <;> rfl

theorem agree_enterImpl (h : Level t t') (hp : p.stance = p'.stance) :
    Agree d d' (enterImpl p t d) (enterImpl p' t' d') := by
  obtain ⟨-, hfunction, htop⟩ := Stance.mk.inj hp
  have howner := h.owner
  refine agree_of_imports (imports_enterImpl p t d) (imports_enterImpl p' t' d') ?_
  unfold enterImpl
  cases ho : (t.child? .type).bind ownerName? <;> cases ho' : (t'.child? .type).bind ownerName?
  · exact sameWays_stop
  · simp [ho, ho'] at howner
  · simp [ho, ho'] at howner
  · refine sameWays_byField fun f => ?_
    cases f <;> simp [Place.stance, Place.typed, Place.within, hfunction, htop]

theorem agree_enterField (h : Level t t') (hp : p.stance = p'.stance) (isCall : Bool) :
    Agree d d' (enterField p t isCall d) (enterField p' t' isCall d') := by
  obtain ⟨-, hfunction, htop⟩ := Stance.mk.inj hp
  refine agree_of_imports (imports_enterField p t d isCall) (imports_enterField p' t' d' isCall) ?_
  unfold enterField
  rcases h.child?_cases .value with ⟨hv, hv'⟩ | ⟨v, v', hv, hv', hkind⟩
  · simp only [hv, hv']
    exact sameWays_stop
  · simp only [hv, hv', hkind]
    split
    · exact sameWays_stop
    · exact sameWays_stop
    · refine sameWays_byField fun f => ?_
      cases f <;> simp [Place.stance, Place.within, hfunction, htop]

theorem agree_inward (hp : p.stance = p'.stance) : Agree d d' (d, inward t p) (d', inward t' p') :=
  agree_of_imports rfl rfl (sameWays_inward hp)

theorem agree_ite_inFunction {r r' : Draft × Plan} (hp : p.stance = p'.stance) (h : Agree d d' r r') :
    Agree d d' (if p.inFunction then (d, inward t p) else r)
      (if p'.inFunction then (d', inward t' p') else r') := by
  obtain ⟨-, hfunction, -⟩ := Stance.mk.inj hp
  rw [hfunction]
  split
  · exact agree_inward hp
  · exact h

theorem agree_enterPlain (h : Level t t') (huse : t.kind? ≠ some .useDeclaration)
    (hp : p.stance = p'.stance) : Agree d d' (enterPlain p t d) (enterPlain p' t' d') := by
  obtain ⟨hmode, hfunction, htop⟩ := Stance.mk.inj hp
  unfold enterPlain
  rw [← h.kind?]
  cases ht : t.kind? with
  | none => exact agree_of_imports rfl rfl sameWays_stop
  | some k =>
    simp only
    cases k
    case useDeclaration => exact absurd ht huse
    case modItem => exact agree_enterModule h ht hp
    case functionItem | functionSignatureItem =>
      exact agree_ite_inFunction hp (agree_enterFunction h hp)
    case structItem | unionItem | enumItem | traitItem | typeItem | constItem | staticItem =>
      exact agree_ite_inFunction hp (agree_enterItem h hp _)
    case implItem => exact agree_ite_inFunction hp (agree_enterImpl h hp)
    case fieldExpression => exact agree_enterField h hp false
    case scopedIdentifier =>
      exact agree_of_imports (imports_enterScoped p t d false) (imports_enterScoped p' t' d' false)
        sameWays_stop
    case typeIdentifier | scopedTypeIdentifier =>
      exact agree_of_imports (imports_enterTypeName p.typed t d) (imports_enterTypeName p'.typed t' d')
        sameWays_stop
    case closureExpression =>
      exact agree_of_imports rfl rfl (sameWays_inward (by simp [Place.stance, hmode, htop]))
    case callExpression | structExpression =>
      refine agree_of_imports rfl rfl (sameWays_byField fun f => ?_)
      cases f <;> simp [Place.stance, Place.runtime, Place.within, hfunction, htop]
    case identifier =>
      refine agree_of_imports ?_ ?_ sameWays_stop <;> simp only <;> split <;> rfl
    -- What is left are nodes at which nothing is done, or nothing but going on.
    all_goals first | exact agree_inward hp | exact agree_of_imports rfl rfl sameWays_stop

theorem agree_enter (h : Level t t') (huse : t.kind? ≠ some .useDeclaration)
    (hp : p.stance = p'.stance) : Agree d d' (enter p t d) (enter p' t' d') := by
  obtain ⟨hmode, hfunction, htop⟩ := Stance.mk.inj hp
  unfold enter
  rw [← h.kind?, ← hmode]
  cases p.mode with
  | plain => exact agree_enterPlain h huse hp
  | inside => exact agree_inward hp
  | callee isCall =>
    simp only
    cases ht : t.kind? with
    | none => exact agree_enterPlain h huse hp
    | some k =>
      cases k
      case identifier => exact agree_of_imports rfl rfl sameWays_stop
      case scopedIdentifier =>
        exact agree_of_imports (imports_enterScoped p t d isCall) (imports_enterScoped p' t' d' isCall)
          sameWays_stop
      case fieldExpression => exact agree_enterField h hp isCall
      case genericFunction =>
        refine agree_of_imports rfl rfl (sameWays_byField fun f => ?_)
        cases f <;> simp [Place.stance, Place.typed, Place.within, hfunction, htop]
      all_goals exact agree_enterPlain h huse hp
  | typeName =>
    simp only
    cases ht : t.kind? with
    | none => exact agree_enterPlain h huse hp
    | some k =>
      cases k
      case typeIdentifier | scopedTypeIdentifier =>
        exact agree_of_imports (imports_enterTypeName p t d) (imports_enterTypeName p' t' d')
          sameWays_stop
      case genericType =>
        refine agree_of_imports rfl rfl (sameWays_byField fun f => ?_)
        cases f <;> simp [Place.stance, Place.typed, Place.within, hfunction, htop]
      all_goals exact agree_enterPlain h huse hp

end

/-! ## Walks -/

section

variable {d : Node} {parts : List Node}

theorem Regrouped.label_eq {t t' : Node} (h : Regrouped d parts t t') : t.label = t'.label := by
  cases h with
  | use h h' _ =>
    have hlabel : ∀ {t : Node}, t.kind? = some .useDeclaration → t.label = .kind .useDeclaration := by
      intro t ht
      unfold Syntax.Tree.kind? at ht
      split at ht <;> simp_all
    rw [hlabel h.kind, hlabel h'.kind]
  | inside => rfl

theorem Regrouped.field_eq {t t' : Node} (h : Regrouped d parts t t') : t.field = t'.field := by
  cases h with
  | use h h' _ => rw [h.field, h'.field]
  | inside => rfl

theorem Regrouped.kind?_eq {t t' : Node} (h : Regrouped d parts t t') : t.kind? = t'.kind? := by
  rw [Syntax.Tree.kind?, Syntax.Tree.kind?, h.label_eq]

/-- What plays a part is found among the children of both, or of none. -/
theorem RegroupedAll.find?_cases (hsplit : SplitInto d parts) (f : Field) {cs cs' : List Node}
    (h : RegroupedAll d parts cs cs') :
    cs.find? (·.field = some f) = none ∧ cs'.find? (·.field = some f) = none ∨
      ∃ c c', cs.find? (·.field = some f) = some c ∧ cs'.find? (·.field = some f) = some c' ∧
        Regrouped d parts c c' := by
  induction cs generalizing cs' with
  | nil =>
    cases h
    exact .inl ⟨rfl, rfl⟩
  | cons c cs ih =>
    cases h with
    | @cons _ c' _ cs' hc hcs =>
      simp only [List.find?_cons, hc.field_eq]
      split
      · exact .inr ⟨c, c', rfl, rfl, hc⟩
      · exact ih hcs
    | @split _ cs' hcs =>
      have hnone : parts.find? (·.field = some f) = none :=
        List.find?_eq_none.mpr fun c hc => by simp [(hsplit.each c hc).field]
      simp only [List.find?_cons, hsplit.whole.field, List.find?_append, hnone]
      exact ih hcs

/-- Children that are not met do not matter. -/
theorem walkAll_append_of_none {κ γ σ : Type} {enter : Syntax.Tree.Enter κ γ σ}
    {plan : Syntax.Tree κ → List (Syntax.Tree κ) → Option γ} {ts : List (Syntax.Tree κ)}
    (h : ∀ t ∈ ts, ∀ rest, plan t rest = none) {us : List (Syntax.Tree κ)} {s : σ} :
    Syntax.Tree.walkAll enter plan (ts ++ us) s = Syntax.Tree.walkAll enter plan us s := by
  induction ts with
  | nil => rfl
  | cons t ts ih =>
    rw [List.cons_append, Syntax.Tree.walkAll, h t List.mem_cons_self]
    exact ih fun u hu => h u (List.mem_cons_of_mem _ hu)

open ownerName? (enterOwner)

mutual

/-- A type that is named in one of the trees is named in the other. -/
theorem isSome_owner (hsplit : SplitInto d parts) {found found' : Option String}
    (hfound : found.isSome = found'.isSome) : (t : Node) → {t' : Node} → Regrouped d parts t t' →
      (Syntax.Tree.walk enterOwner () t found).isSome = (Syntax.Tree.walk enterOwner () t' found').isSome
  | .node l f e cs, .node l' f' e' cs', h => by
    have hk := h.kind?_eq
    cases h with
    | use h h' _ => simpa only [Syntax.Tree.walk, enterOwner, h.kind, h'.kind, walkAll_none] using hfound
    | inside _ _ hcs =>
      simp only [Syntax.Tree.walk, enterOwner, ← hk]
      split
      · simp only [walkAll_none, Option.isSome_some]
      · simp only [walkAll_none, Option.isSome_map, Syntax.Tree.child?, Syntax.Tree.children]
        rcases hcs.find?_cases hsplit .name with ⟨hn, hn'⟩ | ⟨n, n', hn, hn', -⟩ <;> rw [hn, hn']
        rfl
      · exact isSome_ownerAll hsplit hfound cs hcs
      · exact isSome_ownerAll hsplit hfound cs hcs
      · simpa only [walkAll_none] using hfound

theorem isSome_ownerAll (hsplit : SplitInto d parts) {found found' : Option String}
    (hfound : found.isSome = found'.isSome) : (cs : List Node) → {cs' : List Node} →
      RegroupedAll d parts cs cs' →
      (Syntax.Tree.walkAll enterOwner (fun c _ => if c.inPart .type then some () else none) cs found).isSome =
      (Syntax.Tree.walkAll enterOwner (fun c _ => if c.inPart .type then some () else none) cs' found').isSome
  | [], _, h => by
    cases h
    simpa only [Syntax.Tree.walkAll] using hfound
  | c :: cs, cs', h => by
    cases h with
    | @cons _ c' _ cs' hc hcs =>
      have hpart : c.inPart .type = c'.inPart .type := by
        rw [Syntax.Tree.inPart, Syntax.Tree.inPart, hc.field_eq]
      simp only [Syntax.Tree.walkAll, hpart]
      cases c'.inPart .type with
      | false => exact isSome_ownerAll hsplit hfound cs hcs
      | true => exact isSome_ownerAll hsplit (isSome_owner hsplit hfound c hc) cs hcs
    | @split _ cs' hcs =>
      have hwhole : d.inPart .type = false := by simp [Syntax.Tree.inPart, hsplit.whole.field]
      have hparts : ∀ c ∈ parts, c.inPart .type = false := fun c hc => by
        simp [Syntax.Tree.inPart, (hsplit.each c hc).field]
      rw [walkAll_append_of_none fun c hc _ => by simp [hparts c hc]]
      simp only [Syntax.Tree.walkAll, hwhole]
      exact isSome_ownerAll hsplit hfound cs hcs

end

theorem level_of_regroupedAll (hsplit : SplitInto d parts) {l : Syntax.Label Kind} {f : Option Field}
    {e e' : Syntax.Extent} {cs cs' : List Node} (h : RegroupedAll d parts cs cs')
    (hname : l = .kind .modItem → nameText cs = nameText cs') :
    Level (.node l f e cs) (.node l f e' cs') where
  label := rfl
  kinds g := by
    simp only [Syntax.Tree.child?, Syntax.Tree.children]
    rcases h.find?_cases hsplit g with ⟨hc, hc'⟩ | ⟨c, c', hc, hc', hcc⟩ <;> rw [hc, hc']
    exact congrArg some hcc.kind?_eq
  owner := by
    simp only [Syntax.Tree.child?, Syntax.Tree.children]
    rcases h.find?_cases hsplit .type with ⟨hc, hc'⟩ | ⟨c, c', hc, hc', hcc⟩ <;> rw [hc, hc']
    exact isSome_owner hsplit rfl c hcc
  name ht := by
    refine hname ?_
    unfold Syntax.Tree.kind? at ht
    split at ht <;> simp_all [Syntax.Tree.label]

/-! ### Where imports lead -/

variable {α : Type} {lead : String → Option α} {y : α}

/-- Some import leads to `y`. -/
def Reaches (lead : String → Option α) (s : Draft) (y : α) : Prop :=
  ∃ spec ∈ specifiers s, lead spec = some y

/-- The imports of a declaration lead to `y`. -/
def UseReaches (lead : String → Option α) (t : Node) (y : α) : Prop :=
  ∃ spec ∈ (useImports t).map (·.specifier), lead spec = some y

theorem specifiers_addImports (s : Draft) (is : List Import) :
    specifiers (s.addImports is) = (is.map (·.specifier)).reverse ++ specifiers s := by
  induction is generalizing s with
  | nil => rfl
  | cons i is ih =>
    rw [Draft.addImports, List.foldl_cons, ← Draft.addImports, ih]
    simp [specifiers, Draft.addImport]

theorem reaches_addImports {s : Draft} {t : Node} :
    Reaches lead (s.addImports (useImports t)) y ↔ UseReaches lead t y ∨ Reaches lead s y := by
  simp [Reaches, UseReaches, specifiers_addImports, or_and_right, exists_or]

theorem Agree.reaches {s s' : Draft} {r r' : Draft × Plan} (h : Agree s s' r r')
    (hs : Reaches lead s y ↔ Reaches lead s' y) : Reaches lead r.1 y ↔ Reaches lead r'.1 y := by
  obtain ⟨new, hr, hr'⟩ := h.found
  simp only [Reaches] at hs ⊢
  simp [hr, hr', or_and_right, exists_or, hs]

/-- A declaration that is met plainly adds its imports. -/
theorem walk_use {t : Node} (h : IsUse t) {p : Place} (hp : p.mode = .plain) (s : Draft) :
    Syntax.Tree.walk enter p t s = s.addImports (useImports t) := by
  obtain ⟨l, f, e, cs⟩ := t
  have hstep : enter p (.node l f e cs) s = (s.addImports (useImports (.node l f e cs)), stop) := by
    simp only [enter, hp, enterPlain, h.kind]
  rw [Syntax.Tree.walk, hstep]
  exact walkAll_none enter cs _

/-- Declarations that are met plainly, one after the other. -/
theorem reaches_walkAll_uses {plan : Plan} {ts : List Node} (hts : ∀ t ∈ ts, IsUse t)
    (hplan : ∀ t ∈ ts, ∀ rest, ∃ q, plan t rest = some q ∧ q.mode = .plain) {us : List Node} (s : Draft) :
    ∃ s₁, Syntax.Tree.walkAll enter plan (ts ++ us) s = Syntax.Tree.walkAll enter plan us s₁ ∧
      (Reaches lead s₁ y ↔ (∃ t ∈ ts, UseReaches lead t y) ∨ Reaches lead s y) := by
  induction ts generalizing s with
  | nil => exact ⟨s, rfl, by simp⟩
  | cons t ts ih =>
    obtain ⟨q, hq, hplain⟩ := hplan t List.mem_cons_self (ts ++ us)
    obtain ⟨s₁, hwalk, hs₁⟩ := ih (fun u hu => hts u (List.mem_cons_of_mem _ hu))
      (fun u hu => hplan u (List.mem_cons_of_mem _ hu)) (s.addImports (useImports t))
    refine ⟨s₁, ?_, ?_⟩
    · rw [List.cons_append, Syntax.Tree.walkAll, hq]
      simp only [walk_use (hts t List.mem_cons_self) hplain, hwalk]
    · rw [hs₁, reaches_addImports]
      simp only [List.mem_cons, exists_eq_or_imp]
      rw [or_assoc, or_left_comm]

mutual

theorem reaches_walk (hsplit : SplitInto d parts)
    (hlead : UseReaches lead d y ↔ ∃ c ∈ parts, UseReaches lead c y) {p p' : Place}
    (hp : p.stance = p'.stance) {s s' : Draft} (hs : Reaches lead s y ↔ Reaches lead s' y) :
    (t : Node) → {t' : Node} → Regrouped d parts t t' → (t.field = none → p.mode = .plain) →
      (Reaches lead (Syntax.Tree.walk enter p t s) y ↔ Reaches lead (Syntax.Tree.walk enter p' t' s') y)
  | .node l f e cs, .node l' f' e' cs', h, hplain => by
    obtain ⟨hmode, -, -⟩ := Stance.mk.inj hp
    cases h with
    | use h h' hused =>
      have hp' := hplain h.field
      rw [walk_use h hp', walk_use h' (hmode ▸ hp'), reaches_addImports, reaches_addImports, hs]
      simp only [UseReaches, mem_useImports_iff, namesOf_eq, hused]
    | inside hl hname hcs =>
      have huse : (Syntax.Tree.node l f e cs : Node).kind? ≠ some .useDeclaration := by
        intro hk
        unfold Syntax.Tree.kind? at hk
        split at hk <;> simp_all [Syntax.Tree.label]
      have hlevel : Level (.node l f e cs) (.node l f e' cs') :=
        level_of_regroupedAll hsplit hcs hname
      have hagree : Agree s s' (enter p (.node l f e cs) s) (enter p' (.node l f e' cs') s') :=
        agree_enter hlevel huse hp
      rw [Syntax.Tree.walk, Syntax.Tree.walk]
      exact reaches_walkAll hsplit hlead hagree.ways (hagree.reaches hs) cs hcs

theorem reaches_walkAll (hsplit : SplitInto d parts)
    (hlead : UseReaches lead d y ↔ ∃ c ∈ parts, UseReaches lead c y) {plan plan' : Plan}
    (hways : SameWays plan plan') {s s' : Draft} (hs : Reaches lead s y ↔ Reaches lead s' y) :
    (cs : List Node) → {cs' : List Node} → RegroupedAll d parts cs cs' →
      (Reaches lead (Syntax.Tree.walkAll enter plan cs s) y ↔
        Reaches lead (Syntax.Tree.walkAll enter plan' cs' s') y)
  | [], _, h => by
    cases h
    simpa only [Syntax.Tree.walkAll] using hs
  | c :: cs, cs', h => by
    cases h with
    | @cons _ c' _ cs' hc hcs =>
      have hnamed : c.isNamed = c'.isNamed := by rw [Syntax.Tree.isNamed, Syntax.Tree.isNamed, hc.kind?_eq]
      have hsame := hways.same c c' cs cs' hc.field_eq hnamed
      rw [Syntax.Tree.walkAll, Syntax.Tree.walkAll]
      cases hq : plan c cs <;> cases hq' : plan' c' cs' <;> simp [hq, hq'] at hsame
      · exact reaches_walkAll hsplit hlead hways hs cs hcs
      · exact reaches_walkAll hsplit hlead hways
          (reaches_walk hsplit hlead hsame hs c hc (hways.plain c cs _ hq)) cs hcs
    | @split _ cs' hcs =>
      have hsame : ∀ u ∈ parts, ∀ rest, (plan d cs).map Place.stance = (plan' u rest).map Place.stance :=
        fun u hu rest => hways.same d u cs rest (by rw [hsplit.whole.field, (hsplit.each u hu).field])
          (by rw [Syntax.Tree.isNamed, Syntax.Tree.isNamed, hsplit.whole.kind, (hsplit.each u hu).kind])
      rw [Syntax.Tree.walkAll]
      cases hq : plan d cs with
      | none =>
        rw [walkAll_append_of_none fun u hu rest => by simpa [hq] using (hsame u hu rest).symm]
        exact reaches_walkAll hsplit hlead hways hs cs hcs
      | some q =>
        have hplain := hways.plain d cs q hq hsplit.whole.field
        have hparts : ∀ u ∈ parts, ∀ rest, ∃ q', plan' u rest = some q' ∧ q'.mode = .plain := by
          intro u hu rest
          obtain ⟨q', hq', hstance⟩ : ∃ q', plan' u rest = some q' ∧ q'.stance = q.stance := by
            simpa [hq] using (hsame u hu rest).symm
          exact ⟨q', hq', (Stance.mk.inj hstance).1.trans hplain⟩
        obtain ⟨s₁, hwalk, hs₁⟩ := reaches_walkAll_uses hsplit.each hparts s'
        rw [hwalk]
        refine reaches_walkAll hsplit hlead hways ?_ cs hcs
        rw [walk_use hsplit.whole hplain, reaches_addImports, hs₁, hlead, hs]

end

/-- The imports of a declaration lead to what the imports of its parts lead to, as far as names that are
set apart lead where their modules lead. -/
theorem SplitInto.useReaches_iff (h : SplitInto d parts) (hnil : lead "" = none)
    (hapart : ∀ m x, SetApart (parts.map Rust.namesOf) m x →
      (lead (String.intercalate "::" (m ++ [x])) = some y ↔ lead (String.intercalate "::" m) = some y)) :
    UseReaches lead d y ↔ ∃ c ∈ parts, UseReaches lead c y := by
  have huse : ∀ t, UseReaches lead t y ↔
      ∃ path, Brings (Rust.namesOf t) path ∧ lead (String.intercalate "::" path) = some y := by
    intro t
    simp only [UseReaches, mem_useImports_iff]
    constructor
    · rintro ⟨_, ⟨path, hpath, rfl⟩, hy⟩
      exact ⟨path, hpath, hy⟩
    · rintro ⟨path, hpath, hy⟩
      exact ⟨_, ⟨path, hpath, rfl⟩, hy⟩
  have hparts := @leads_parts_iff (parts.map Rust.namesOf) α
    (fun path => lead (String.intercalate "::" path)) y hnil hapart
  simp only [huse, h.namesOf, ← hparts, List.mem_map, exists_exists_and_eq_and]

/-- The imports of two sources lead to the same, as far as names that are set apart lead where their
modules lead. -/
theorem reaches_source (hsplit : SplitInto d parts) {t t' : Node} (h : Regrouped d parts t t')
    (hnil : lead "" = none) (hapart : ∀ m x, SetApart (parts.map Rust.namesOf) m x →
      (lead (String.intercalate "::" (m ++ [x])) = some y ↔ lead (String.intercalate "::" m) = some y)) :
    Reaches lead (Syntax.Tree.walk enter .top t .empty) y ↔
      Reaches lead (Syntax.Tree.walk enter .top t' .empty) y :=
  reaches_walk hsplit (hsplit.useReaches_iff hnil hapart) rfl .rfl t h fun _ => rfl

end

end DepAtlas.Outline.Rust
