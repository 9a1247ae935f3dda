import DepAtlas.Proofs.Schemas

/-! # Reading parameters

Reading takes parameters as their published schema says, with two liberties: an optional parameter may be
null, and an array may give all parameters in their order. Beyond the schema, required texts that name
something must not be blank, and depths are limited.
-/

namespace DepAtlas

/-! ## Decoders -/

namespace Json.Decode

variable {α : Type} {fields : Fields} {key : String} {d : Decode α} {write : α → Json}

theorem text_eq_ok_iff {j : Json} {s : String} : text j = .ok s ↔ j = .str s := by
  cases j <;> simp [text, textAs, wrongType]

theorem flag_eq_ok_iff {j : Json} {b : Bool} : flag j = .ok b ↔ j = .bool b := by
  cases j <;> simp [flag, wrongType]

theorem count_eq_ok_iff {j : Json} {n : Nat} : count j = .ok n ↔ j = .nat n := by
  unfold count natural
  split
  · rename_i i
    cases i <;> simp [nat]
  · rename_i hj
    simp only [wrongType, reduceCtorEq, false_iff]
    exact hj _

theorem mapM_text_eq_ok_iff {items : List Json} {ss : List String} :
    items.mapM text = .ok ss ↔ items = ss.map .str := by
  induction items generalizing ss with
  | nil =>
    rw [List.mapM_nil]
    cases ss <;> simp [pure, Except.pure]
  | cons j items ih =>
    rw [List.mapM_cons]
    cases hj : text j with
    | error e =>
      have hnot : ∀ s, j ≠ .str s := fun s h => by simp [text_eq_ok_iff.mpr h] at hj
      cases ss <;> simp [bind, Except.bind, hnot]
    | ok s =>
      obtain rfl := text_eq_ok_iff.mp hj
      cases hitems : items.mapM text with
      | error e =>
        have hnot : ∀ ss, items ≠ List.map str ss := fun ss h => by simp [ih.mpr h] at hitems
        cases ss <;> simp [bind, Except.bind, hnot]
      | ok rest =>
        obtain rfl := ih.mp hitems
        have hinj : Function.Injective str := fun _ _ h => Json.str.inj h
        cases ss <;> simp [bind, Except.bind, pure, Except.pure, hinj.list_map.eq_iff]

theorem list_text_eq_ok_iff {j : Json} {ss : List String} : list text j = .ok ss ↔ j = strings ss := by
  cases j <;> simp [list, wrongType, strings, mapM_text_eq_ok_iff]

theorem required_eq_ok_iff (hd : ∀ x a, d x = .ok a ↔ x = write a) {a : α} :
    fields.required key d = .ok a ↔ fields.get? key = some (write a) := by
  unfold Fields.required
  cases fields.get? key with
  | none => simp
  | some x => simp [hd]

theorem option_eq_ok_iff (hd : ∀ x a, d x = .ok a ↔ x = write a) (hnull : ∀ a, write a ≠ .null)
    {x : Json} {o : Option α} :
    option d x = .ok o ↔ (x = .null ∧ o = none) ∨ ∃ a, x = write a ∧ o = some a := by
  unfold option
  split
  · simp [Ne.symm (hnull _), eq_comm]
  · rename_i hnotnull
    have hne : x ≠ .null := hnotnull
    cases hx : d x with
    | error e =>
      have hnot : ∀ a, x ≠ write a := fun a h => by simp [(hd x a).mpr h] at hx
      simp [Except.map, hne, hnot]
    | ok a =>
      have hwrite : ∀ b, x = write b ↔ b = a := fun b => by rw [← hd, hx, Except.ok.injEq, eq_comm]
      simp [Except.map, hne, hwrite, eq_comm]

theorem optional_eq_ok_iff (hd : ∀ x a, d x = .ok a ↔ x = write a) (hnull : ∀ a, write a ≠ .null)
    {o : Option α} :
    fields.optional key d = .ok o ↔
      ((fields.get? key = none ∨ fields.get? key = some .null) ∧ o = none) ∨
        ∃ a, fields.get? key = some (write a) ∧ o = some a := by
  unfold Fields.optional
  cases fields.get? key with
  | none => simp [eq_comm]
  | some x => simp [option_eq_ok_iff hd hnull]

theorem orElse_eq_ok_iff (hd : ∀ x a, d x = .ok a ↔ x = write a) {a default : α} :
    fields.orElse key default d = .ok a ↔
      (fields.get? key = none ∧ a = default) ∨ fields.get? key = some (write a) := by
  unfold Fields.orElse
  cases fields.get? key with
  | none => simp [eq_comm]
  | some x => simp [hd]

namespace Shape

variable {s : Shape}

/-- A closed shape takes the fields that are listed and pass their checks, each once. -/
theorem checkFields_eq_ok_iff (hclosed : s.closed = true) {seen : List String} :
    s.checkFields seen fields = .ok () ↔ (fields.map (·.1)).Nodup ∧ ∀ f ∈ fields, f.1 ∉ seen ∧
      ∃ g, s.fields.find? (·.key = f.1) = some g ∧ g.check f.2 = .ok () := by
  induction fields generalizing seen with
  | nil => simp [checkFields]
  | cons f fields ih =>
    obtain ⟨key, j⟩ := f
    rw [checkFields, List.forall_mem_cons, List.map_cons, List.nodup_cons]
    cases hg : s.fields.find? (·.key = key) with
    | none => simp [hclosed]
    | some g =>
      by_cases hseen : key ∈ seen
      · simp [hseen]
      · cases hcheck : g.check j with
        | error e => simp [hseen, hcheck, bind, Except.bind]
        | ok u =>
          simp only [List.contains_eq_mem, hseen, decide_false, Bool.false_eq_true, if_false, hcheck, bind,
            Except.bind, ih, List.mem_cons, not_or, List.mem_map]
          grind

/-- An array gives the fields in their order, and may end before fields that can be left out. -/
theorem pair_eq_ok_iff {n : Nat} {fs : List Field} {js : List Json} {gs : Fields} :
    s.pair n fs js = .ok gs ↔ (∀ f ∈ fs.drop js.length, f.omittable = true) ∧
      (∀ x ∈ fs.zip js, x.1.check x.2 = .ok ()) ∧ gs = (fs.map (·.key)).zip js := by
  induction fs generalizing n js gs with
  | nil =>
    rw [pair, Except.ok.injEq]
    simp
  | cons f fs ih =>
    cases js with
    | nil =>
      rw [pair]
      split
      · rename_i hf
        rw [ih]
        simp [hf]
      · rename_i hf
        simp [hf]
    | cons j js =>
      rw [pair]
      cases hcheck : f.check j with
      | error e => simp [hcheck, bind, Except.bind]
      | ok u =>
        have hcons : (do return (f.key, j) :: (← s.pair (n + 1) fs js)) = .ok gs ↔
            ∃ rest, s.pair (n + 1) fs js = .ok rest ∧ (f.key, j) :: rest = gs := by
          cases s.pair (n + 1) fs js <;> simp [bind, Except.bind, pure, Except.pure]
        refine hcons.trans ?_
        simp only [ih, List.length_cons, List.drop_succ_cons, List.zip_cons_cons, List.forall_mem_cons,
          hcheck, true_and, List.map_cons]
        grind

end Shape
end Json.Decode

/-! ## What is taken for a parameter -/

namespace Tool

open Json Json.Decode

/-- Whether a parameter must name something: required texts do, but for the sources of a file. -/
def Parameter.naming (p : Parameter) : Bool :=
  p.presence = .required && !(["oldContent", "newContent"].contains p.key)

/-- What is asked of the value of a parameter beyond its type: names are not blank, and depths are
limited. -/
structure Parameter.Within (p : Parameter) (j : Json) : Prop where
  text : p.naming = true → ∀ s, j = .str s → Text.isBlankText s = false
  texts : p.naming = true → ∀ ss, j = Json.strings ss → ∀ s ∈ ss, Text.isBlankText s = false
  depth : ∀ n, j = .nat n → n ≤ 50

/-- What is taken for a parameter, which may be left out. -/
def Parameter.Takes (p : Parameter) (j : Option Json) : Prop :=
  match p.presence with
  | .required => ∃ x, j = some x ∧ p.type.Fits x ∧ p.Within x
  | .optional => ∀ x, j = some x → x = .null ∨ p.type.Fits x ∧ p.Within x
  | .emptyList => ∀ x, j = some x → p.type.Fits x ∧ p.Within x

section

variable {p : Parameter}

theorem Parameter.within_str {s : String} :
    p.Within (.str s) ↔ (p.naming = true → Text.isBlankText s = false) where
  mp h hn := h.text hn s rfl
  mpr h := ⟨fun hn _ hs => Json.str.inj hs ▸ h hn, fun _ _ hs => (by cases hs), fun _ hs => (by cases hs)⟩

theorem Parameter.within_strings {ss : List String} :
    p.Within (strings ss) ↔ (p.naming = true → ∀ s ∈ ss, Text.isBlankText s = false) where
  mp h hn := h.texts hn ss rfl
  mpr h := by
    refine ⟨fun _ _ hs => (by cases hs), fun hn rs hs => ?_, fun _ hs => (by cases hs)⟩
    have hinj : Function.Injective str := fun _ _ h => Json.str.inj h
    rw [← hinj.list_map (Json.arr.inj hs)]
    exact h hn

theorem Parameter.within_nat {n : Nat} : p.Within (.nat n) ↔ n ≤ 50 where
  mp h := h.depth n rfl
  mpr h := by
    refine ⟨fun _ _ hs => (by cases hs), fun _ _ hs => (by cases hs), fun m hm => ?_⟩
    obtain rfl : n = m := by simpa [Json.nat] using hm
    exact h

theorem Parameter.within_bool (b : Bool) : p.Within (.bool b) :=
  ⟨fun _ _ hs => (by cases hs), fun _ _ hs => (by cases hs), fun _ hs => (by cases hs)⟩

variable {α : Type} {d : Decode α} {write : α → Json} {fields : Fields}

theorem takes_required (hp : p.presence = .required) (hfits : ∀ x, p.type.Fits x ↔ ∃ a, x = write a)
    (hd : ∀ x a, d x = .ok a ↔ x = write a) :
    p.Takes (fields.get? p.key) ↔ ∃ a, fields.required p.key d = .ok a ∧ p.Within (write a) := by
  simp only [Parameter.Takes, hp, hfits, required_eq_ok_iff hd]
  constructor
  · rintro ⟨_, hget, ⟨a, rfl⟩, h⟩
    exact ⟨a, hget, h⟩
  · rintro ⟨a, hget, h⟩
    exact ⟨_, hget, ⟨a, rfl⟩, h⟩

theorem takes_optional (hp : p.presence = .optional) (hfits : ∀ x, p.type.Fits x ↔ ∃ a, x = write a)
    (hd : ∀ x a, d x = .ok a ↔ x = write a) (hnull : ∀ a, write a ≠ .null) :
    p.Takes (fields.get? p.key) ↔
      ∃ o, fields.optional p.key d = .ok o ∧ ∀ a, o = some a → p.Within (write a) := by
  simp only [Parameter.Takes, hp, hfits, optional_eq_ok_iff hd hnull]
  cases fields.get? p.key with
  | none => simp
  | some x =>
    constructor
    · intro h
      obtain rfl | ⟨⟨a, rfl⟩, h⟩ := h x rfl
      · exact ⟨none, by simp⟩
      · exact ⟨some a, by simpa using h⟩
    · rintro ⟨o, ⟨hx, -⟩ | ⟨a, hx, rfl⟩, h⟩ y hy
      · exact .inl (by simpa [← Option.some.inj hy] using hx)
      · obtain rfl := Option.some.inj (hy.symm.trans hx)
        exact .inr ⟨⟨a, rfl⟩, h a rfl⟩

theorem takes_emptyList {default : α} (hp : p.presence = .emptyList)
    (hfits : ∀ x, p.type.Fits x ↔ ∃ a, x = write a) (hd : ∀ x a, d x = .ok a ↔ x = write a)
    (hdefault : p.Within (write default)) :
    p.Takes (fields.get? p.key) ↔
      ∃ a, fields.orElse p.key default d = .ok a ∧ p.Within (write a) := by
  simp only [Parameter.Takes, hp, hfits, orElse_eq_ok_iff hd]
  cases fields.get? p.key with
  | none => simpa using hdefault
  | some x =>
    constructor
    · intro h
      obtain ⟨⟨a, rfl⟩, h⟩ := h x rfl
      exact ⟨a, .inr rfl, h⟩
    · rintro ⟨a, ⟨hx, -⟩ | hx, h⟩ y hy
      · cases hx
      · obtain rfl := Option.some.inj (hy.symm.trans hx)
        exact ⟨⟨a, rfl⟩, h⟩

end

section

variable {fields : Fields} {key : String} {note : Option String}

theorem takes_required_text : Parameter.Takes ⟨key, .text, .required, note⟩ (fields.get? key) ↔
    ∃ s, fields.required key text = .ok s ∧
      Parameter.Within ⟨key, .text, .required, note⟩ (.str s) :=
  takes_required rfl (fun _ => .rfl) fun _ _ => text_eq_ok_iff

theorem takes_required_texts : Parameter.Takes ⟨key, .texts, .required, note⟩ (fields.get? key) ↔
    ∃ ss, fields.required key (list text) = .ok ss ∧
      Parameter.Within ⟨key, .texts, .required, note⟩ (strings ss) :=
  takes_required rfl (fun _ => .rfl) fun _ _ => list_text_eq_ok_iff

theorem takes_emptyList_texts : Parameter.Takes ⟨key, .texts, .emptyList, note⟩ (fields.get? key) ↔
    ∃ ss, fields.orElse key [] (list text) = .ok ss ∧
      Parameter.Within ⟨key, .texts, .emptyList, note⟩ (strings ss) :=
  takes_emptyList rfl (fun _ => .rfl) (fun _ _ => list_text_eq_ok_iff)
    (Parameter.within_strings.mpr (by simp))

theorem takes_optional_text : Parameter.Takes ⟨key, .text, .optional, note⟩ (fields.get? key) ↔
    ∃ o, fields.optional key text = .ok o ∧
      ∀ s, o = some s → Parameter.Within ⟨key, .text, .optional, note⟩ (.str s) :=
  takes_optional rfl (fun _ => .rfl) (fun _ _ => text_eq_ok_iff) (by simp)

theorem takes_optional_texts : Parameter.Takes ⟨key, .texts, .optional, note⟩ (fields.get? key) ↔
    ∃ o, fields.optional key (list text) = .ok o ∧
      ∀ ss, o = some ss → Parameter.Within ⟨key, .texts, .optional, note⟩ (strings ss) :=
  takes_optional rfl (fun _ => .rfl) (fun _ _ => list_text_eq_ok_iff) (by simp [strings])

theorem takes_optional_count : Parameter.Takes ⟨key, .count, .optional, note⟩ (fields.get? key) ↔
    ∃ o, fields.optional key count = .ok o ∧
      ∀ n, o = some n → Parameter.Within ⟨key, .count, .optional, note⟩ (.nat n) :=
  takes_optional rfl (fun _ => .rfl) (fun _ _ => count_eq_ok_iff) (by simp [Json.nat])

theorem takes_optional_flag : Parameter.Takes ⟨key, .flag, .optional, note⟩ (fields.get? key) ↔
    ∃ o, fields.optional key flag = .ok o ∧
      ∀ b, o = some b → Parameter.Within ⟨key, .flag, .optional, note⟩ (.bool b) :=
  takes_optional rfl (fun _ => .rfl) (fun _ _ => flag_eq_ok_iff) (by simp)

end

theorem Parameter.key_field (p : Parameter) : p.field.key = p.key := by
  obtain ⟨key, type, presence, note⟩ := p
  cases type <;> cases presence <;> rfl

theorem Parameter.omittable_field (p : Parameter) :
    p.field.omittable = true ↔ p.presence = .emptyList := by
  obtain ⟨key, type, presence, note⟩ := p
  cases type <;> cases presence <;> simp [field, Field.of]

theorem map_unit_eq_ok_iff {ε α : Type} {x : Except ε α} :
    (x.map fun _ => ()) = .ok () ↔ ∃ a, x = .ok a := by
  cases x <;> simp [Except.map]

/-- The first look at a value asks for its type only. -/
theorem Parameter.check_field_iff (p : Parameter) (j : Json) :
    p.field.check j = .ok () ↔ (p.presence = .optional ∧ j = .null) ∨ p.type.Fits j := by
  have htext : ∀ a : String, Json.str a ≠ .null := by simp
  have hflag : ∀ a : Bool, Json.bool a ≠ .null := by simp
  have htexts : ∀ a : List String, Json.strings a ≠ .null := by simp [strings]
  have hcount : ∀ a : Nat, Json.nat a ≠ .null := by simp [Json.nat]
  obtain ⟨key, type, presence, note⟩ := p
  cases type <;> cases presence <;>
    simp only [field, Field.of, map_unit_eq_ok_iff, text_eq_ok_iff, flag_eq_ok_iff, count_eq_ok_iff,
      list_text_eq_ok_iff, option_eq_ok_iff (fun _ _ => text_eq_ok_iff) htext,
      option_eq_ok_iff (fun _ _ => flag_eq_ok_iff) hflag,
      option_eq_ok_iff (fun _ _ => count_eq_ok_iff) hcount,
      option_eq_ok_iff (fun _ _ => list_text_eq_ok_iff) htexts, ParamType.Fits] <;>
    simp [exists_or]

theorem Parameter.Takes.check {p : Parameter} {x : Json} (h : p.Takes (some x)) :
    p.field.check x = .ok () := by
  rw [check_field_iff]
  unfold Takes at h
  split at h
  · obtain ⟨y, hy, hfits, -⟩ := h
    exact .inr (Option.some.inj hy ▸ hfits)
  · rename_i hp
    exact (h x rfl).imp (⟨hp, ·⟩) (·.1)
  · exact .inr (h x rfl).1

theorem nodup_keys (t : Tool) : (t.parameters.list.map (·.key)).Nodup := by
  cases t <;> decide

/-- No array can end early, since the last parameter must have its place. -/
theorem exists_mem_drop (t : Tool) {k : Nat} (hk : k < t.parameters.list.length) :
    ∃ p ∈ t.parameters.list.drop k, p.presence ≠ .emptyList := by
  revert hk
  revert k
  cases t <;> decide

theorem ofName?_name (t : Tool) : ofName? t.name = some t := by
  cases t <;> rfl

/-! ## Parameters by name -/

namespace Parameters

variable (ps : Parameters)

/-- The parameters by name: null stands for none, and an array with an element for each parameter for
these in their order. -/
def byName : Json → Json
  | .null => .obj []
  | .arr items =>
    if items.length = ps.list.length then .obj ((ps.list.map (·.key)).zip items) else .arr items
  | j => j

/-- Whether the parameter of a name is optional. -/
def mayBeNull (key : String) : Bool := ps.list.any fun p => p.key = key && p.presence = .optional

/-- The fields without optional parameters that are null. -/
def present (fields : Fields) : Fields :=
  fields.filter fun f => !(f.2.isNull && ps.mayBeNull f.1)

/-- The parameters by name, without optional ones that are null. -/
def given (j : Json) : Json :=
  match ps.byName j with
  | .obj fields => .obj (ps.present fields)
  | j => j

/-- The fields are parameters, and each parameter is taken. -/
structure Taken (fields : Fields) : Prop where
  known : ∀ f ∈ fields, f.1 ∈ ps.list.map (·.key)
  taken : ∀ p ∈ ps.list, p.Takes (fields.get? p.key)

variable {ps} {fields : Fields}

theorem mayBeNull_key (hkeys : (ps.list.map (·.key)).Nodup) {p : Parameter} (hp : p ∈ ps.list) :
    ps.mayBeNull p.key = true ↔ p.presence = .optional := by
  simp only [mayBeNull, List.any_eq_true, Bool.and_eq_true, decide_eq_true_eq]
  constructor
  · rintro ⟨q, hq, hkey, hpresence⟩
    rwa [List.inj_on_of_nodup_map hkeys hq hp hkey] at hpresence
  · intro hpresence
    exact ⟨p, hp, rfl, hpresence⟩

theorem get?_present_iff (hkeys : (ps.list.map (·.key)).Nodup) (h : (fields.map (·.1)).Nodup)
    {p : Parameter} (hp : p ∈ ps.list) {x : Json} :
    (ps.present fields).get? p.key = some x ↔
      fields.get? p.key = some x ∧ ¬ (x = .null ∧ p.presence = .optional) := by
  have hnull : x.isNull = true ↔ x = .null := by cases x <;> simp [isNull]
  have hpresent : ((ps.present fields).map (·.1)).Nodup := h.sublist (List.filter_sublist.map _)
  rw [get?_eq_some_iff hpresent, get?_eq_some_iff h, present, List.mem_filter, ← mayBeNull_key hkeys hp,
    ← hnull, Bool.not_eq_true', ← Bool.not_eq_true, Bool.and_eq_true]

/-- Parameters are taken exactly if those that are present conform to the schema and are within the
limits. -/
theorem taken_iff (hkeys : (ps.list.map (·.key)).Nodup) (h : (fields.map (·.1)).Nodup) :
    ps.Taken fields ↔ ps.Conform (ps.present fields) ∧
      ∀ p ∈ ps.list, ∀ x, (ps.present fields).get? p.key = some x → p.Within x := by
  constructor
  · rintro ⟨hknown, htakes⟩
    have hfit : ∀ p ∈ ps.list, ∀ x, (ps.present fields).get? p.key = some x →
        p.type.Fits x ∧ p.Within x := by
      intro p hp x hx
      obtain ⟨hget, hnull⟩ := (get?_present_iff hkeys h hp).mp hx
      have htaken := htakes p hp
      rw [hget, Parameter.Takes] at htaken
      split at htaken
      · obtain ⟨y, hy, htaken⟩ := htaken
        rwa [Option.some.inj hy]
      · rename_i hpresence
        exact (htaken x rfl).resolve_left fun hx => hnull ⟨hx, hpresence⟩
      · exact htaken x rfl
    refine ⟨⟨fun f hf => hknown f (List.mem_of_mem_filter hf), fun p hp hpresence => ?_,
      fun p hp x hx => (hfit p hp x hx).1⟩, fun p hp x hx => (hfit p hp x hx).2⟩
    have htaken := htakes p hp
    rw [Parameter.Takes, hpresence] at htaken
    obtain ⟨x, hget, -⟩ := htaken
    rw [(get?_present_iff hkeys h hp).mpr ⟨hget, by simp [hpresence]⟩]
    rfl
  · rintro ⟨⟨hknown, hgiven, hfit⟩, hwithin⟩
    have htaken : ∀ p ∈ ps.list, ∀ x, (ps.present fields).get? p.key = some x →
        p.type.Fits x ∧ p.Within x := fun p hp x hx => ⟨hfit p hp x hx, hwithin p hp x hx⟩
    constructor
    · intro f hf
      by_cases hpresent : f ∈ ps.present fields
      · exact hknown f hpresent
      · have hnull : ps.mayBeNull f.1 = true := by
          simp only [present, List.mem_filter, hf, true_and] at hpresent
          grind
        obtain ⟨p, hp, hkey⟩ := List.any_eq_true.mp hnull
        exact List.mem_map.mpr ⟨p, hp, by simp at hkey; exact hkey.1⟩
    · intro p hp
      unfold Parameter.Takes
      split
      · rename_i hpresence
        obtain ⟨x, hx⟩ := Option.isSome_iff_exists.mp (hgiven p hp hpresence)
        exact ⟨x, ((get?_present_iff hkeys h hp).mp hx).1, htaken p hp x hx⟩
      · intro x hx
        by_cases hnull : x = .null
        · exact .inl hnull
        · exact .inr (htaken p hp x ((get?_present_iff hkeys h hp).mpr ⟨hx, fun hn => hnull hn.1⟩))
      · rename_i hpresence
        intro x hx
        exact htaken p hp x ((get?_present_iff hkeys h hp).mpr ⟨hx, by simp [hpresence]⟩)

/-- Of a value with distinct keys and integers only, the parameters by name have these too. -/
theorem of_byName_eq {params : Json} (hkeys : (ps.list.map (·.key)).Nodup) (hd : params.Distinct)
    (hi : params.integral = true) (h : ps.byName params = .obj fields) :
    (fields.map (·.1)).Nodup ∧ ∀ f ∈ fields, f.2.integral = true := by
  cases params with
  | null =>
    obtain rfl := Json.obj.inj h
    simp
  | obj fs =>
    obtain rfl := Json.obj.inj h
    rw [integral, integralFields_iff] at hi
    cases hd with
    | atom _ hobj => exact absurd rfl (hobj fs)
    | obj hnodup _ => exact ⟨hnodup, hi⟩
  | arr items =>
    rw [integral, integralItems_iff] at hi
    simp only [byName] at h
    split at h
    · rename_i hlen
      obtain rfl := Json.obj.inj h
      refine ⟨by rwa [List.map_fst_zip (by simp [hlen])], fun f hf => hi _ (List.of_mem_zip hf).2⟩
    · cases h
  | _ => cases h

end Parameters

end Tool

/-! ## Requests -/

namespace ToolRequest

open Json Json.Decode Tool

theorem validate_eq_ok_iff {r : ToolRequest} :
    r.validate = .ok () ↔ (∀ s ∈ r.named.map (·.2), Text.isBlankText s = false) ∧
      ∀ n ∈ r.depth?.map (·.2), n ≤ 50 := by
  have hblank : r.named.find? (fun x => Text.isBlankText x.2) = none ↔
      ∀ s ∈ r.named.map (·.2), Text.isBlankText s = false := by
    simp only [List.find?_eq_none, List.mem_map]
    grind
  rw [← hblank]
  unfold validate
  cases r.named.find? (fun x => Text.isBlankText x.2) with
  | some x => simp
  | none =>
    cases r.depth? with
    | none => simp
    | some x => simp [WorkspaceConfig.depthLimit]

theorem exists_bind_ok_iff {ε α β : Type} {x : Except ε α} {f : α → Except ε β} {P : β → Prop} :
    (∃ r, (x >>= f) = .ok r ∧ P r) ↔ ∃ a, x = .ok a ∧ ∃ r, f a = .ok r ∧ P r := by
  cases x <;> simp [bind, Except.bind]

theorem exists_pure_ok_iff {ε β : Type} {b : β} {P : β → Prop} :
    (∃ r, (pure b : Except ε β) = .ok r ∧ P r) ↔ P b := by
  simp [pure, Except.pure]

/-- Reading makes an allowed request exactly if each parameter is taken. -/
theorem exists_ofFields_iff (t : Tool) (fields : Fields) :
    (∃ r, ofFields t fields = .ok r ∧ r.validate = .ok ()) ↔
      ∀ p ∈ t.parameters.list, p.Takes (fields.get? p.key) := by
  cases t <;>
    simp only [parameters, fileOnly, symbolOnly, nothing, List.forall_mem_cons, takes_required_text,
      takes_required_texts, takes_emptyList_texts, takes_optional_text, takes_optional_texts,
      takes_optional_count, takes_optional_flag, ofFields, exists_bind_ok_iff, exists_pure_ok_iff,
      validate_eq_ok_iff, named, depth?, Parameter.within_str, Parameter.within_strings,
      Parameter.within_nat, Parameter.within_bool] <;>
    simp [Parameter.naming] <;>
    grind only

variable (t : Tool) {fields : Fields} {items : List Json}

theorem exists_parse_iff {params : Json} : (∃ r, parse t.name params = .ok r) ↔
    ∃ fields, t.shape.read .direct (if params.isNull then .obj [] else params) = .ok fields ∧
      ∀ p ∈ t.parameters.list, p.Takes (fields.get? p.key) := by
  have hparse : (∃ r, parse t.name params = .ok r) ↔
      ∃ r, ofJson t params = .ok r ∧ r.validate = .ok () := by
    rw [parse, ofName?_name]
    dsimp only
    cases ofJson t params with
    | error e => simp
    | ok r => cases hr : r.validate <;> simp [Except.map, hr]
  rw [hparse, ofJson, exists_bind_ok_iff]
  simp only [exists_ofFields_iff]

variable {t}

theorem find?_field_iff {key : String} {g : Field} :
    t.shape.fields.find? (·.key = key) = some g ↔
      ∃ p, t.parameters.list.find? (·.key = key) = some p ∧ p.field = g := by
  have hcomp : ((fun f : Field => decide (f.key = key)) ∘ Parameter.field) =
      fun p : Parameter => decide (p.key = key) := by
    funext p
    simp [Parameter.key_field]
  rw [shape, List.find?_map, hcomp, Option.map_eq_some_iff]

theorem read_obj_eq_ok_iff {gs : Fields} : t.shape.read .direct (.obj fields) = .ok gs ↔
    gs = fields ∧ t.shape.checkFields [] fields = .ok () := by
  cases hcheck : t.shape.checkFields [] fields <;>
    simp [Shape.read, hcheck, bind, Except.bind, pure, Except.pure, eq_comm]

theorem checkFields_iff (h : (fields.map (·.1)).Nodup)
    (htakes : ∀ p ∈ t.parameters.list, p.Takes (fields.get? p.key)) :
    t.shape.checkFields [] fields = .ok () ↔
      ∀ f ∈ fields, f.1 ∈ t.parameters.list.map (·.key) := by
  rw [Shape.checkFields_eq_ok_iff rfl, and_iff_right h]
  refine forall₂_congr fun f hf => ?_
  simp only [List.not_mem_nil, not_false_eq_true, true_and, find?_field_iff, List.mem_map]
  constructor
  · rintro ⟨_, ⟨p, hp, rfl⟩, -⟩
    exact ⟨p, List.mem_of_find?_eq_some hp, by simpa using List.find?_some hp⟩
  · rintro ⟨p, hp, hkey⟩
    obtain ⟨q, hq⟩ := Option.isSome_iff_exists.mp
      (List.find?_isSome.mpr ⟨p, hp, by simpa using hkey⟩ :
        (t.parameters.list.find? (·.key = f.1)).isSome = true)
    have hqkey : q.key = f.1 := by simpa using List.find?_some hq
    have htaken := htakes q (List.mem_of_find?_eq_some hq)
    rw [hqkey, (get?_eq_some_iff h).mpr hf] at htaken
    exact ⟨_, ⟨q, hq, rfl⟩, htaken.check⟩

theorem read_arr_iff {gs : Fields}
    (htakes : ∀ p ∈ t.parameters.list, p.Takes (gs.get? p.key)) :
    t.shape.read .direct (.arr items) = .ok gs ↔
      items.length = t.parameters.list.length ∧ gs = (t.parameters.list.map (·.key)).zip items := by
  have hread : t.shape.read .direct (.arr items) = .ok gs ↔
      t.shape.pair 0 t.shape.fields items = .ok gs ∧ items.length ≤ t.parameters.list.length := by
    have hlength : t.shape.fields.length = t.parameters.list.length := List.length_map _
    cases hpair : t.shape.pair 0 t.shape.fields items with
    | error e => simp [Shape.read, hpair, bind, Except.bind]
    | ok rest =>
      by_cases hlong : t.parameters.list.length < items.length <;>
        simp [Shape.read, hpair, hlength, hlong, bind, Except.bind, pure, Except.pure, throw, throwThe,
          MonadExceptOf.throw]
      omega
  have hkeys : t.shape.fields.map (·.key) = t.parameters.list.map (·.key) := by
    simp [shape, Function.comp_def, Parameter.key_field]
  rw [hread, Shape.pair_eq_ok_iff, hkeys]
  constructor
  · rintro ⟨⟨hdrop, -, hgs⟩, hle⟩
    refine ⟨le_antisymm hle (Nat.le_of_not_lt fun hlt => ?_), hgs⟩
    obtain ⟨p, hp, hpresence⟩ := exists_mem_drop t hlt
    refine hpresence (p.omittable_field.mp (hdrop p.field ?_))
    rw [shape, ← List.map_drop]
    exact List.mem_map_of_mem hp
  · rintro ⟨hlen, rfl⟩
    refine ⟨⟨?_, ?_, rfl⟩, hlen.le⟩
    · rw [List.drop_eq_nil_of_le (by simp [shape, hlen])]
      simp
    · intro x hx
      rw [shape, List.zip_map_left] at hx
      obtain ⟨⟨p, j⟩, hmem, rfl⟩ := List.mem_map.mp hx
      have hnodup : (((t.parameters.list.map (·.key)).zip items).map (·.1)).Nodup := by
        rw [List.map_fst_zip (by simp [hlen])]
        exact nodup_keys t
      have hget : Fields.get? ((t.parameters.list.map (·.key)).zip items) p.key = some j := by
        rw [get?_eq_some_iff hnodup, List.zip_map_left]
        exact List.mem_map_of_mem hmem
      have htaken := htakes p (List.of_mem_zip hmem).1
      rw [hget] at htaken
      exact htaken.check

theorem exists_read_obj_iff (h : (fields.map (·.1)).Nodup) :
    (∃ gs, t.shape.read .direct (.obj fields) = .ok gs ∧
      ∀ p ∈ t.parameters.list, p.Takes (gs.get? p.key)) ↔ t.parameters.Taken fields := by
  simp only [read_obj_eq_ok_iff]
  constructor
  · rintro ⟨_, ⟨rfl, hcheck⟩, htakes⟩
    exact ⟨(checkFields_iff h htakes).mp hcheck, htakes⟩
  · rintro ⟨hknown, htakes⟩
    exact ⟨fields, ⟨rfl, (checkFields_iff h htakes).mpr hknown⟩, htakes⟩

/-- A request is read exactly if its parameters by name are taken. -/
theorem exists_parse_iff_taken {params : Json} (h : params.Distinct) :
    (∃ r, parse t.name params = .ok r) ↔
      ∃ fields, t.parameters.byName params = .obj fields ∧ t.parameters.Taken fields := by
  rw [exists_parse_iff]
  cases params with
  | null => simpa [isNull, Parameters.byName] using (exists_read_obj_iff (by simp) : _ ↔ t.parameters.Taken [])
  | obj fields =>
    have hnodup : (fields.map (·.1)).Nodup := by
      cases h with
      | atom _ hobj => exact absurd rfl (hobj fields)
      | obj hkeys _ => exact hkeys
    simpa [isNull, Parameters.byName] using exists_read_obj_iff hnodup
  | arr items =>
    simp only [isNull, Bool.false_eq_true, if_false, Parameters.byName]
    constructor
    · rintro ⟨gs, hread, htakes⟩
      obtain ⟨hlen, rfl⟩ := (read_arr_iff htakes).mp hread
      exact ⟨_, if_pos hlen, fun f hf => (List.of_mem_zip hf).1, htakes⟩
    · rintro ⟨gs, hgs, htaken⟩
      by_cases hlen : items.length = t.parameters.list.length
      · rw [if_pos hlen] at hgs
        obtain rfl := Json.obj.inj hgs
        exact ⟨_, (read_arr_iff htaken.taken).mpr ⟨hlen, rfl⟩, htaken.taken⟩
      · rw [if_neg hlen] at hgs
        cases hgs
  | _ => simp [isNull, Parameters.byName, Shape.read, wrongType]

end ToolRequest

end DepAtlas
