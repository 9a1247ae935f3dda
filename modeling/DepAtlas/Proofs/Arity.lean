import DepAtlas.Proofs.Surfaces

/-! # Calls that keep fitting

A report that finds nothing breaking about a symbol promises that calls of it go on to fit. A parameter that
takes any number of arguments is compared as one that may be left out. So the promise holds as long as a
signature with such a parameter keeps one, and fails for calls with many arguments otherwise.
-/

namespace DepAtlas

namespace Signature

/-- Some parameter takes any number of arguments. -/
def isVariadic (s : Signature) : Bool := s.params.any (·.variadic)

/-- A call with so many arguments fits: it gives what every call must give, and no more than there are
parameters unless one of them takes any number. -/
def Accepts (s : Signature) (n : Nat) : Prop :=
  s.requiredParams.length ≤ n ∧ (s.isVariadic = true ∨ n ≤ s.params.length)

instance (s : Signature) (n : Nat) : Decidable (s.Accepts n) :=
  inferInstanceAs (Decidable (_ ∧ _))

theorem length_requiredParams (s : Signature) :
    s.requiredParams.length = s.params.countP fun p => !Surface.isOptional p := by
  rw [requiredParams, List.countP_eq_length_filter]
  simp [Surface.isOptional]

/-- A signature that asks for no more and has no fewer parameters accepts what another one accepts exactly if
it takes any number of arguments where the other one does. -/
theorem accepts_mono_iff {x y : Signature} (hrequired : y.requiredParams.length ≤ x.requiredParams.length)
    (hlength : x.params.length ≤ y.params.length) :
    (∀ n, x.Accepts n → y.Accepts n) ↔ (x.isVariadic = true → y.isVariadic = true) := by
  constructor
  · intro h hx
    -- one argument more than there are parameters fits only where any number does
    have hmany := h (max x.requiredParams.length (y.params.length + 1)) ⟨le_max_left _ _, Or.inl hx⟩
    exact hmany.2.resolve_right (by omega)
  · rintro h n ⟨hn, hx | hx⟩
    · exact ⟨hrequired.trans hn, Or.inl (h hx)⟩
    · exact ⟨hrequired.trans hn, Or.inr (hx.trans hlength)⟩

end Signature

namespace Surface

variable {xs ys : List Param} {ds es : List Detail}

/-- Nothing that is said may break. -/
def Quiet (ds : List Detail) : Prop := ∀ d ∈ ds, d.isBreaking = false

theorem quiet_append : Quiet (ds ++ es) ↔ Quiet ds ∧ Quiet es := List.forall_mem_append

theorem Quiet.parameter {x y : Param} (h : Quiet (parameterDetails x y)) (hx : isOptional x = true) :
    isOptional y = true := by
  by_contra hy
  have hbreaks := h (.parameterBecameRequired y.name) (by simp [parameterDetails, hx, hy])
  cases hbreaks

/-- Where nothing breaks, no parameter goes and none is newly asked for. -/
theorem Quiet.parameters (h : Quiet (parametersDetails xs ys)) :
    xs.length ≤ ys.length ∧
      ys.countP (fun p => !isOptional p) ≤ xs.countP fun p => !isOptional p := by
  induction xs generalizing ys with
  | nil =>
    have hnone : ys.countP (fun p => !isOptional p) = 0 := by
      refine List.countP_eq_zero.mpr fun p hp hrequired => ?_
      rw [Bool.not_eq_true', Bool.eq_false_iff] at hrequired
      have hbreaks := h (.requiredParameterAdded p.name)
        (List.mem_map.mpr ⟨p, hp, if_neg hrequired⟩)
      cases hbreaks
    exact ⟨Nat.zero_le _, hnone.le⟩
  | cons x xs ih =>
    cases ys with
    | nil =>
      have hbreaks := h (.parameterRemoved x.name) List.mem_cons_self
      cases hbreaks
    | cons y ys =>
      rw [parametersDetails, quiet_append] at h
      obtain ⟨hlength, hcount⟩ := ih h.2
      refine ⟨Nat.succ_le_succ hlength, ?_⟩
      rw [List.countP_cons, List.countP_cons]
      cases hx : isOptional x with
      | true => simpa [h.1.parameter hx] using hcount
      | false =>
        cases isOptional y <;> simp <;> omega

theorem Quiet.signature {x y : Signature} (h : Quiet (signatureDetails x y)) :
    y.requiredParams.length ≤ x.requiredParams.length ∧ x.params.length ≤ y.params.length := by
  rw [signatureDetails, quiet_append, quiet_append] at h
  obtain ⟨hlength, hcount⟩ := h.1.1.parameters
  rw [Signature.length_requiredParams, Signature.length_requiredParams]
  exact ⟨hcount, hlength⟩

/-- A symbol is exported with one kind and a signature by both versions, in the first declarations of its
name. -/
structure Kept (old new : Outline) (name : String) (before after : Declaration) (x y : Signature) :
    Prop where
  first : first? old name = some before ∧ first? new name = some after
  exported : before.isExported = true ∧ after.isExported = true
  sameKind : before.kind = after.kind
  signed : before.signature = some x ∧ after.signature = some y

theorem Kept.told_eq {old new : Outline} {name : String} {before after : Declaration} {x y : Signature}
    (h : Kept old new name before after x y) {about : Option String} (hcovers : covers about before = true) :
    told about (first? old name) (first? new name) = signatureDetails x y := by
  rw [h.first.1, h.first.2]
  simp [told, fate, h.exported.1, h.exported.2, h.sameKind, h.signed.1, h.signed.2, hcovers]

/-- A report that lists nothing breaking for a symbol that both versions export, with one kind and a
signature, leaves every call of it fitting exactly if the new signature takes any number of arguments where
the old one does. -/
theorem quiet_report_keeps_arities {s : Parsing} {closed : Bool} {path a b : String} {old new : Outline}
    (hold : s.outlineIn closed path a = .ok old) (hnew : s.outlineIn closed path b = .ok new)
    (about : Option String) :
    ∃ r, compare s closed path a b about = .ok r ∧
      ∀ name before after x y, Kept old new name before after x y → covers about before = true →
        (∀ c ∈ r.changes, c.symbol = name → c.detail.isBreaking = false) →
        ((∀ n, x.Accepts n → y.Accepts n) ↔ (x.isVariadic = true → y.isVariadic = true)) := by
  refine ⟨_, compare_eq_ok_iff.mpr ⟨old, new, hold, hnew, rfl⟩, ?_⟩
  intro name before after x y hkept hcovers hquiet
  have hdetails : Quiet (signatureDetails x y) := by
    rw [← hkept.told_eq hcovers, ← details_of_symbol]
    intro d hd
    obtain ⟨c, hc, rfl⟩ := List.mem_map.mp hd
    obtain ⟨hc, hname⟩ := List.mem_filter.mp hc
    exact hquiet c hc (of_decide_eq_true hname)
  obtain ⟨hrequired, hlength⟩ := hdetails.signature
  exact Signature.accepts_mono_iff hrequired hlength

/-! ## A parameter that takes any number of arguments -/

namespace Loosened

/-- A function of any number of arguments, and two later versions of it. -/
def older : String := "def f(*xs): pass"

def wider : String := "def f(*xs, y=0): pass"

def narrower : String := "def f(xs=0): pass"

/-- The function with some parameters. -/
def function (params : List Param) : Declaration :=
  ⟨"f", "f", .function, 1, 1, true, none, some ⟨params, none, false⟩⟩

theorem declarations_eq :
    (Parsing.outlineOf .python older).declarations = [function [⟨"xs", none, false, true⟩]] ∧
      (Parsing.outlineOf .python wider).declarations =
        [function [⟨"xs", none, false, true⟩, ⟨"y", none, true, false⟩]] ∧
      (Parsing.outlineOf .python narrower).declarations = [function [⟨"xs", none, true, false⟩]] := by
  decide +kernel

/-- Versions that have only the function keep it, and a report on them says what has become of it. -/
theorem kept {old new : Outline} {ps qs : List Param} (hold : old.declarations = [function ps])
    (hnew : new.declarations = [function qs]) :
    Kept old new "f" (function ps) (function qs) ⟨ps, none, false⟩ ⟨qs, none, false⟩ where
  first := by simp [first?, hold, hnew, function]
  exported := ⟨rfl, rfl⟩
  sameKind := rfl
  signed := ⟨rfl, rfl⟩

theorem quiet {old new : Outline} {ps qs : List Param} (hold : old.declarations = [function ps])
    (hnew : new.declarations = [function qs])
    (h : (signatureDetails ⟨ps, none, false⟩ ⟨qs, none, false⟩).all (!·.isBreaking) = true) :
    ∀ c ∈ changes old new none, c.symbol = "f" → c.detail.isBreaking = false := by
  intro c hc hsymbol
  have htold := detail_mem_told hc
  rw [hsymbol, (kept hold hnew).told_eq rfl] at htold
  simpa using List.all_eq_true.mp h _ htold

end Loosened

/-- One more parameter with a default value leaves every call fitting. -/
theorem quiet_report_keeps_arities_wider :
    ∃ r, compare .byGrammar false "a.py" Loosened.older Loosened.wider none = .ok r ∧
      (∀ c ∈ r.changes, c.symbol = "f" → c.detail.isBreaking = false) ∧
      ∀ n, Signature.Accepts ⟨[⟨"xs", none, false, true⟩], none, false⟩ n →
        Signature.Accepts ⟨[⟨"xs", none, false, true⟩, ⟨"y", none, true, false⟩], none, false⟩ n := by
  obtain ⟨hold, hnew, -⟩ := Loosened.declarations_eq
  obtain ⟨r, hr, hkeeps⟩ := quiet_report_keeps_arities (outlineIn_python Loosened.older)
    (outlineIn_python Loosened.wider) none
  have hsilent := Loosened.quiet hold hnew (by decide)
  have hquiet : ∀ c ∈ r.changes, c.symbol = "f" → c.detail.isBreaking = false := by
    obtain ⟨x, y, hx, hy, rfl⟩ := compare_eq_ok_iff.mp hr
    rw [outlineIn_python] at hx hy
    rwa [← Except.ok.inj hx, ← Except.ok.inj hy]
  have hiff := hkeeps "f" _ _ _ _ (Loosened.kept hold hnew) rfl hquiet
  exact ⟨r, hr, hquiet, hiff.mpr fun _ => by decide⟩

/-- A parameter that took any number of arguments and now takes one or none is not reported, and calls with
two arguments no longer fit. -/
theorem quiet_report_loses_arity :
    ¬ ∀ (path a b : String) (old new : Outline) (r : Report) (name : String)
      (before after : Declaration) (x y : Signature),
      Parsing.byGrammar.outlineIn false path a = .ok old →
      Parsing.byGrammar.outlineIn false path b = .ok new →
      compare .byGrammar false path a b none = .ok r → Kept old new name before after x y →
      (∀ c ∈ r.changes, c.symbol = name → c.detail.isBreaking = false) →
      ∀ n, x.Accepts n → y.Accepts n := by
  intro h
  obtain ⟨hold, -, hnew⟩ := Loosened.declarations_eq
  have hsilent := Loosened.quiet hold hnew (by decide)
  have hnarrow := h "a.py" Loosened.older Loosened.narrower _ _ _ "f" _ _ _ _ (outlineIn_python _)
    (outlineIn_python _)
    (compare_eq_ok_iff.mpr ⟨_, _, outlineIn_python _, outlineIn_python _, rfl⟩)
    (Loosened.kept hold hnew) hsilent 2 (by decide)
  exact absurd hnarrow (by decide)

end Surface

end DepAtlas
