import DepAtlas.Proofs.Order
import DepAtlas.Surface

/-! # Reports and their opposites

What a report says of a symbol depends on the first declarations of its name in the two versions, and on
nothing else. Comparing the versions the other way round gives the opposite report: what one adds the other
takes away, and what differs in one differs in the other. Only that a parameter became required has no
opposite.
-/

namespace DepAtlas.Surface

variable {old new o : Outline} {about : Option String} {name : String} {d : Declaration}

/-! ## What a report says of a symbol -/

theorem qualifiedName_of_first? (h : first? o name = some d) : d.qualifiedName = name := by
  simpa using List.find?_some h

/-- The qualified names of a version, each once. -/
def names (o : Outline) : List String := Text.sortedOnce (o.declarations.map (·.qualifiedName))

theorem mem_names_of_first? (h : first? o name = some d) : name ∈ names o :=
  Text.mem_sortedOnce.mpr (List.mem_map.mpr
    ⟨d, List.mem_of_find?_eq_some h, qualifiedName_of_first? h⟩)

/-- What becomes of a symbol that the old version exports. -/
def fates (old new : Outline) (about : Option String) (name : String) : List Change :=
  ((first? old name).toList.filter fun d => d.isExported && covers about d).flatMap fun d =>
    let (details, line) := fate d (first? new d.qualifiedName)
    details.map fun detail => ⟨d.qualifiedName, detail, line⟩

/-- That a symbol is new among those that are exported. -/
def gains (old new : Outline) (about : Option String) (name : String) : List Change :=
  ((first? new name).toList.filter fun d => d.isExported && covers about d &&
    !((first? old d.qualifiedName).any (·.isExported))).map fun d =>
      ⟨d.qualifiedName, .exportAdded, d.line⟩

/-- A report goes through the names of the old version, and then through those of the new one. -/
theorem changes_eq (old new : Outline) (about : Option String) :
    changes old new about =
      (names old).flatMap (fates old new about) ++ (names new).flatMap (gains old new about) := by
  have hlist : ∀ (o : Outline) (keep : Declaration → Bool),
      (firsts o).filter keep = (names o).flatMap fun n => (first? o n).toList.filter keep := by
    intro o keep
    rw [firsts, names, List.filterMap_eq_flatMap_toList, List.filter_flatMap]
  rw [changes, hlist, hlist, List.flatMap_assoc, List.map_flatMap]
  rfl

theorem symbol_of_mem_fates {c : Change} (h : c ∈ fates old new about name) : c.symbol = name := by
  obtain ⟨d, hd, hc⟩ := List.mem_flatMap.mp h
  obtain ⟨detail, -, rfl⟩ := List.mem_map.mp hc
  exact qualifiedName_of_first? (Option.mem_toList.mp (List.mem_of_mem_filter hd))

theorem symbol_of_mem_gains {c : Change} (h : c ∈ gains old new about name) : c.symbol = name := by
  obtain ⟨d, hd, rfl⟩ := List.mem_map.mp h
  exact qualifiedName_of_first? (Option.mem_toList.mp (List.mem_of_mem_filter hd))

/-- Of what is said name by name, only what is said at a name is about it. -/
theorem filter_flatMap_symbol {part : String → List Change} (hpart : ∀ n, ∀ c ∈ part n, c.symbol = n)
    {ns : List String} (hn : ns.Nodup) (name : String) :
    (ns.flatMap part).filter (·.symbol = name) = if name ∈ ns then part name else [] := by
  induction ns with
  | nil => rfl
  | cons n ns ih =>
    obtain ⟨hnot, hn⟩ := List.nodup_cons.mp hn
    rw [List.flatMap_cons, List.filter_append, ih hn]
    by_cases heq : n = name
    · subst heq
      rw [if_neg hnot, if_pos List.mem_cons_self, List.append_nil]
      exact List.filter_eq_self.mpr fun c hc => decide_eq_true (hpart n c hc)
    · have hnone : (part n).filter (·.symbol = name) = [] :=
        List.filter_eq_nil_iff.mpr fun c hc => by simp [hpart n c hc, heq]
      rw [hnone, List.nil_append]
      simp [Ne.symm heq]

theorem filter_fates (old new : Outline) (about : Option String) (name : String) :
    ((names old).flatMap (fates old new about)).filter (·.symbol = name) = fates old new about name := by
  have hn : (names old).Nodup := Text.nodup_sortedOnce _
  rw [filter_flatMap_symbol (fun _ _ hc => symbol_of_mem_fates hc) hn]
  cases h : first? old name with
  | none => simp [fates, h]
  | some d => rw [if_pos (mem_names_of_first? h)]

theorem filter_gains (old new : Outline) (about : Option String) (name : String) :
    ((names new).flatMap (gains old new about)).filter (·.symbol = name) = gains old new about name := by
  have hn : (names new).Nodup := Text.nodup_sortedOnce _
  rw [filter_flatMap_symbol (fun _ _ hc => symbol_of_mem_gains hc) hn]
  cases h : first? new name with
  | none => simp [gains, h]
  | some d => rw [if_pos (mem_names_of_first? h)]

/-- What a report says of a symbol with these first declarations in the two versions. -/
def told (about : Option String) (before after : Option Declaration) : List Detail :=
  (before.toList.filter fun d => d.isExported && covers about d).flatMap (fun d => (fate d after).1) ++
    (after.toList.filter fun d => d.isExported && covers about d && !before.any (·.isExported)).map
      fun _ => .exportAdded

/-- A report says of a symbol what its first declarations tell, and says it once. -/
theorem details_of_symbol (old new : Outline) (about : Option String) (name : String) :
    ((changes old new about).filter (·.symbol = name)).map (·.detail) =
      told about (first? old name) (first? new name) := by
  rw [changes_eq, List.filter_append, filter_fates, filter_gains, List.map_append, told]
  congr 1
  · cases h : first? old name with
    | none => simp [fates, h]
    | some d =>
      have hname := qualifiedName_of_first? h
      by_cases hkeep : (d.isExported && covers about d) = true
      · simp [fates, h, hkeep, hname, Function.comp_def]
      · simp [fates, h, hkeep]
  · cases h : first? new name with
    | none => simp [gains, h]
    | some d =>
      have hname := qualifiedName_of_first? h
      by_cases hkeep : (d.isExported && covers about d && !(first? old name).any (·.isExported)) = true
      · simp [gains, h, hkeep, hname]
      · simp [gains, h, hkeep, hname]

theorem detail_mem_told {c : Change} (h : c ∈ changes old new about) :
    c.detail ∈ told about (first? old c.symbol) (first? new c.symbol) := by
  rw [← details_of_symbol]
  exact List.mem_map_of_mem (List.mem_filter.mpr ⟨h, by simp⟩)

/-! ## The other way round -/

/-- What a change is about, seen from either version. -/
inductive Facet where
  | exportLost
  | exportGained
  | kind
  | parameterLost
  | parameterGained
  | parameterType
  | returnType
  | async
  deriving DecidableEq, Repr

/-- The same seen from the other version. -/
def Facet.swap : Facet → Facet
  | exportLost => exportGained
  | exportGained => exportLost
  | parameterLost => parameterGained
  | parameterGained => parameterLost
  | kind => kind
  | parameterType => parameterType
  | returnType => returnType
  | async => async

/-- What a detail is about; a parameter that became required is nothing to be seen from the other side. -/
def Detail.facet? : Detail → Option Facet
  | exportRemoved _ | visibilityReduced => some .exportLost
  | exportAdded => some .exportGained
  | kindChanged _ _ => some .kind
  | parameterRemoved _ => some .parameterLost
  | requiredParameterAdded _ | optionalParameterAdded _ => some .parameterGained
  | parameterBecameRequired _ => none
  | parameterTypeChanged _ _ _ => some .parameterType
  | returnTypeChanged _ _ => some .returnType
  | asyncChanged _ => some .async

def facets (ds : List Detail) : List Facet := ds.filterMap Detail.facet?

@[simp] theorem facets_append (xs ys : List Detail) : facets (xs ++ ys) = facets xs ++ facets ys :=
  List.filterMap_append

theorem facets_parameterDetails (p q : Param) :
    facets (parameterDetails p q) = (facets (parameterDetails q p)).map Facet.swap := by
  have hrequired : ∀ p q : Param, facets (if isOptional p && !isOptional q then
      [.parameterBecameRequired q.name] else []) = [] := by
    intro p q
    split <;> rfl
  rw [parameterDetails, parameterDetails, facets_append, facets_append, hrequired, hrequired]
  cases p.typeName with
  | none => cases q.typeName <;> rfl
  | some old =>
    cases q.typeName with
    | none => rfl
    | some new =>
      by_cases h : plainType old = plainType new
      · simp [h, facets]
      · simp [h, Ne.symm h, facets, Detail.facet?, Facet.swap]

theorem facets_map {f : Param → Detail} {x : Facet} (h : ∀ p, (f p).facet? = some x)
    (ps : List Param) : facets (ps.map f) = List.replicate ps.length x := by
  have hf : Detail.facet? ∘ f = some ∘ fun _ => x := funext h
  rw [facets, List.filterMap_map, hf, List.filterMap_eq_map, List.map_const']

theorem facets_added (added : List Param) :
    facets (parametersDetails [] added) = List.replicate added.length .parameterGained := by
  rw [parametersDetails]
  refine facets_map (fun p => ?_) added
  split <;> rfl

theorem facets_removed (removed : List Param) :
    facets (parametersDetails removed []) = List.replicate removed.length .parameterLost := by
  cases removed with
  | nil => rfl
  | cons p removed => exact facets_map (fun _ => rfl) (p :: removed)

theorem facets_parametersDetails (xs ys : List Param) :
    facets (parametersDetails xs ys) = (facets (parametersDetails ys xs)).map Facet.swap := by
  induction xs generalizing ys with
  | nil => rw [facets_added, facets_removed, List.map_replicate, Facet.swap]
  | cons x xs ih =>
    cases ys with
    | nil => rw [facets_removed, facets_added, List.map_replicate, Facet.swap]
    | cons y ys =>
      rw [parametersDetails, parametersDetails, facets_append, facets_append, List.map_append,
        ← facets_parameterDetails, ← ih]

theorem facets_signatureDetails (x y : Signature) :
    facets (signatureDetails x y) = (facets (signatureDetails y x)).map Facet.swap := by
  simp only [signatureDetails, facets_append, List.map_append]
  congr 1
  · congr 1
    · exact facets_parametersDetails x.params y.params
    · cases x.returnType with
      | none => cases y.returnType <;> rfl
      | some old =>
        cases y.returnType with
        | none => rfl
        | some new =>
          by_cases h : plainType old = plainType new
          · simp [h, facets]
          · simp [h, Ne.symm h, facets, Detail.facet?, Facet.swap]
  · by_cases h : x.isAsync = y.isAsync
    · simp [h, facets]
    · simp [h, Ne.symm h, facets, Detail.facet?, Facet.swap]

/-- Both versions export a symbol: what becomes of it in one is the opposite of what becomes of it in the
other. -/
theorem facets_fate {d e : Declaration} (hd : d.isExported = true) (he : e.isExported = true) :
    facets (fate d (some e)).1 = (facets (fate e (some d)).1).map Facet.swap := by
  simp only [fate, hd, he, Bool.not_true, Bool.false_eq_true, if_false]
  by_cases hkind : d.kind = e.kind
  · simp only [hkind, ne_eq, not_true_eq_false, if_false]
    cases d.signature with
    | none => cases e.signature <;> rfl
    | some x =>
      cases e.signature with
      | none => rfl
      | some y => exact facets_signatureDetails x y
  · simp [hkind, Ne.symm hkind, facets, Detail.facet?, Facet.swap]

theorem facets_told (before after : Option Declaration) :
    facets (told none before after) = (facets (told none after before)).map Facet.swap := by
  cases before with
  | none =>
    cases after with
    | none => rfl
    | some e => cases he : e.isExported <;> simp [told, covers, fate, facets, Detail.facet?, Facet.swap, he]
  | some d =>
    cases after with
    | none => cases hd : d.isExported <;> simp [told, covers, fate, facets, Detail.facet?, Facet.swap, hd]
    | some e =>
      cases hd : d.isExported <;> cases he : e.isExported
      · simp [told, hd, he, facets]
      · simp [told, covers, fate, facets, Detail.facet?, Facet.swap, hd, he]
      · simp [told, covers, fate, facets, Detail.facet?, Facet.swap, hd, he]
      · simpa [told, covers, hd, he] using facets_fate hd he

/-! ## A version and itself -/

theorem parametersDetails_self (ps : List Param) : parametersDetails ps ps = [] := by
  induction ps with
  | nil => rfl
  | cons p ps ih =>
    have hp : parameterDetails p p = [] := by
      cases h : p.typeName <;> simp [parameterDetails, h]
    rw [parametersDetails, hp, ih, List.append_nil]

theorem signatureDetails_self (x : Signature) : signatureDetails x x = [] := by
  cases h : x.returnType <;> simp [signatureDetails, parametersDetails_self, h]

theorem told_self (about : Option String) (d? : Option Declaration) : told about d? d? = [] := by
  cases d? with
  | none => rfl
  | some d =>
    cases hd : d.isExported with
    | false => simp [told, hd]
    | true =>
      have hfate : (fate d (some d)).1 = [] := by
        cases h : d.signature <;> simp [fate, hd, h, signatureDetails_self]
      simp [told, hd, hfate]

theorem changes_self (o : Outline) (about : Option String) : changes o o about = [] := by
  refine List.eq_nil_iff_forall_not_mem.mpr fun c hc => ?_
  have htold := detail_mem_told hc
  rw [told_self] at htold
  cases htold

/-! ## Reports -/

/-- How many changes of some kinds a report has for a symbol. -/
def Report.tally (r : Report) (symbol : String) (kinds : List String) : Nat :=
  r.changes.countP fun c => c.symbol = symbol && kinds.contains c.detail.name

/-- The kinds of the changes that are about one thing. -/
def Facet.kinds : Facet → List String
  | exportLost => ["export_removed", "visibility_reduced"]
  | exportGained => ["export_added"]
  | kind => ["kind_changed"]
  | parameterLost => ["parameter_removed"]
  | parameterGained => ["required_parameter_added", "optional_parameter_added"]
  | parameterType => ["parameter_type_changed"]
  | returnType => ["return_type_changed"]
  | async => ["async_changed"]

theorem contains_kinds (f : Facet) (d : Detail) :
    f.kinds.contains d.name = decide (d.facet? = some f) := by
  cases f <;> cases d <;> simp [Facet.kinds, Detail.name, Detail.facet?]

theorem countP_kinds (f : Facet) (ds : List Detail) :
    ds.countP (fun d => f.kinds.contains d.name) = (facets ds).count f := by
  rw [facets, List.count, List.countP_filterMap]
  refine List.countP_congr fun d _ => ?_
  rw [contains_kinds]
  cases d.facet? <;> simp

theorem tally_eq (path : String) (old new : Outline) (about : Option String) (symbol : String)
    (f : Facet) :
    (Report.mk path (changes old new about)).tally symbol f.kinds =
      (facets (told about (first? old symbol) (first? new symbol))).count f := by
  rw [← countP_kinds, ← details_of_symbol, List.countP_map, List.countP_filter]
  refine List.countP_congr fun c _ => ?_
  simp [and_comm]

theorem Facet.swap_injective : Function.Injective Facet.swap := by
  intro f g h
  cases f <;> cases g <;> first | rfl | cases h

/-- What one report has for a symbol, the report the other way round has too, seen from the other side. -/
theorem tally_swap (path : String) (old new : Outline) (symbol : String) (f : Facet) :
    (Report.mk path (changes old new none)).tally symbol f.kinds =
      (Report.mk path (changes new old none)).tally symbol f.swap.kinds := by
  rw [tally_eq, tally_eq, facets_told (first? new symbol),
    List.count_map_of_injective _ _ Facet.swap_injective]

theorem compare_eq_ok_iff {s : Parsing} {closed : Bool} {path a b : String} {r : Report} :
    compare s closed path a b about = .ok r ↔
      ∃ x y, s.outlineIn closed path a = .ok x ∧ s.outlineIn closed path b = .ok y ∧
        r = ⟨path, changes x y about⟩ := by
  unfold compare
  cases ha : s.outlineIn closed path a with
  | error e => simp [bind, Except.bind]
  | ok x =>
    cases hb : s.outlineIn closed path b with
    | error e => simp [bind, Except.bind]
    | ok y => simp [bind, Except.bind, pure, Except.pure, eq_comm]

theorem Report.breaking_add_nonBreaking (r : Report) : r.breaking + r.nonBreaking = r.changes.length := by
  have hlength := List.length_eq_countP_add_countP (fun c : Change => c.detail.isBreaking) (l := r.changes)
  simpa [breaking, nonBreaking] using hlength.symm

theorem Report.errors_add_warnings (r : Report) : r.errors + r.warnings = r.breaking := by
  unfold errors warnings breaking
  induction r.changes with
  | nil => rfl
  | cons c cs ih =>
    have hc : c.detail.isBreaking = decide (c.detail.severity ≠ .info) := rfl
    rw [List.countP_cons, List.countP_cons, List.countP_cons, ← ih, hc]
    cases c.detail.severity <;> simp <;> omega

/-- A report exists if both versions can be parsed, and of a version and itself it is empty. The reports of
two versions in the two orders are opposites of each other, symbol by symbol: exports that one has added the
other has removed or reduced, parameters that one has removed the other has added, and changes of a kind, of
a type or of being asynchronous are as many in both. Every report counts each change once. -/
theorem reports_are_opposite (s : Parsing) (closed : Bool) (path a b : String) :
    compare s closed path a a none = (s.outlineIn closed path a).map (fun _ => ⟨path, []⟩) ∧
      ((∃ r, compare s closed path a b none = .ok r) ↔
        (∃ x, s.outlineIn closed path a = .ok x) ∧ ∃ y, s.outlineIn closed path b = .ok y) ∧
      (∀ r r', compare s closed path a b none = .ok r → compare s closed path b a none = .ok r' →
        ∀ symbol,
          r.tally symbol ["export_added"] =
            r'.tally symbol ["export_removed", "visibility_reduced"] ∧
          r.tally symbol ["kind_changed"] = r'.tally symbol ["kind_changed"] ∧
          r.tally symbol ["async_changed"] = r'.tally symbol ["async_changed"] ∧
          r.tally symbol ["return_type_changed"] = r'.tally symbol ["return_type_changed"] ∧
          r.tally symbol ["parameter_removed"] =
            r'.tally symbol ["required_parameter_added", "optional_parameter_added"] ∧
          r.tally symbol ["parameter_type_changed"] = r'.tally symbol ["parameter_type_changed"]) ∧
      ∀ about r, compare s closed path a b about = .ok r →
        r.breaking + r.nonBreaking = r.changes.length ∧ r.errors + r.warnings = r.breaking := by
  refine ⟨?_, ?_, ?_, ?_⟩
  · unfold compare
    cases s.outlineIn closed path a with
    | error e => rfl
    | ok x => simp [bind, Except.bind, pure, Except.pure, Except.map, changes_self]
  · simp only [compare_eq_ok_iff]
    constructor
    · rintro ⟨r, x, y, hx, hy, -⟩
      exact ⟨⟨x, hx⟩, ⟨y, hy⟩⟩
    · rintro ⟨⟨x, hx⟩, ⟨y, hy⟩⟩
      exact ⟨_, x, y, hx, hy, rfl⟩
  · intro r r' hr hr' symbol
    obtain ⟨x, y, hx, hy, rfl⟩ := compare_eq_ok_iff.mp hr
    obtain ⟨y', x', hy', hx', rfl⟩ := compare_eq_ok_iff.mp hr'
    obtain rfl : x' = x := Except.ok.inj (hx'.symm.trans hx)
    obtain rfl : y' = y := Except.ok.inj (hy'.symm.trans hy)
    exact ⟨tally_swap path x' y' symbol .exportGained, tally_swap path x' y' symbol .kind,
      tally_swap path x' y' symbol .async, tally_swap path x' y' symbol .returnType,
      tally_swap path x' y' symbol .parameterLost, tally_swap path x' y' symbol .parameterType⟩
  · intro about r _
    exact ⟨r.breaking_add_nonBreaking, r.errors_add_warnings⟩

theorem outlineIn_python (source : String) :
    Parsing.byGrammar.outlineIn false "a.py" source = .ok (Parsing.outlineOf .python source) := by
  have hlanguage : Language.ofPath? (.ofText "a.py") = some .python := by decide
  simp [Parsing.outlineIn, Parsing.byGrammar, hlanguage]

namespace Revised

/-- A module whose function loses a parameter and becomes asynchronous in the next version, where another
one is new. -/
def older : String := "def f(a, b): pass"

def newer : String := "async def f(a): pass\ndef g(): pass"

def before : List Declaration :=
  [⟨"f", "f", .function, 1, 1, true, none,
    some ⟨[⟨"a", none, false, false⟩, ⟨"b", none, false, false⟩], none, false⟩⟩]

def after : List Declaration :=
  [⟨"f", "f", .function, 1, 1, true, none, some ⟨[⟨"a", none, false, false⟩], none, true⟩⟩,
    ⟨"g", "g", .function, 2, 2, true, none, some ⟨[], none, false⟩⟩]

theorem declarations_eq : (Parsing.outlineOf .python older).declarations = before ∧
    (Parsing.outlineOf .python newer).declarations = after := by
  decide +kernel

end Revised

theorem reports_are_opposite_revised :
    ∃ r r', compare .byGrammar false "a.py" Revised.older Revised.newer none = .ok r ∧
      compare .byGrammar false "a.py" Revised.newer Revised.older none = .ok r' ∧
      r.tally "g" ["export_added"] = 1 ∧ r'.tally "g" ["export_removed", "visibility_reduced"] = 1 ∧
      r.tally "f" ["parameter_removed"] = 1 ∧
      r'.tally "f" ["required_parameter_added", "optional_parameter_added"] = 1 ∧
      r'.breaking + r'.nonBreaking = r'.changes.length := by
  have hr : compare .byGrammar false "a.py" Revised.older Revised.newer none = .ok _ :=
    compare_eq_ok_iff.mpr ⟨_, _, outlineIn_python _, outlineIn_python _, rfl⟩
  have hr' : compare .byGrammar false "a.py" Revised.newer Revised.older none = .ok _ :=
    compare_eq_ok_iff.mpr ⟨_, _, outlineIn_python _, outlineIn_python _, rfl⟩
  have hopposite := (reports_are_opposite .byGrammar false "a.py" Revised.older Revised.newer).2.2.1
    _ _ hr hr'
  have hsums := (reports_are_opposite .byGrammar false "a.py" Revised.newer Revised.older).2.2.2 none _ hr'
  -- the report itself is in order of its symbols, and sorting does not compute; its tallies do
  have htally := tally_eq "a.py" (Parsing.outlineOf .python Revised.older)
    (Parsing.outlineOf .python Revised.newer) none
  simp only [first?, Revised.declarations_eq.1, Revised.declarations_eq.2] at htally
  have hgained := (htally "g" .exportGained).trans (by decide : _ = 1)
  have hlost := (htally "f" .parameterLost).trans (by decide : _ = 1)
  exact ⟨_, _, hr, hr', hgained, (hopposite "g").1.symm.trans hgained, hlost,
    (hopposite "f").2.2.2.2.1.symm.trans hlost, hsums.1⟩

end DepAtlas.Surface
