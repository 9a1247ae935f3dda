import DepAtlas.Proofs.Order
import DepAtlas.Proofs.Spelling
import DepAtlas.Tool.Request
import Mathlib.Algebra.Field.Rat
import Mathlib.Algebra.Order.Ring.Rat

/-! # Published schemas

What the parameters of a tool are is told to clients by a schema. Whether a value conforms to a schema is
computed from the keywords of the schema. The schema of a tool asks for an object that has the required
parameters and no others but the listed ones, each of its type.
-/

namespace DepAtlas

namespace Json

/-! ## Schemas -/

/-- The number that a number of a value stands for. -/
def Number.toRat : Number → ℚ
  | .int i => i
  | .float bits =>
    let b := Decimal.Binary.ofBits bits
    (if bits >>> 63 = 1 then -1 else 1) * b.mantissa * 2 ^ b.exponent

/-- The types of a value, by the names that schemas have for them. -/
def types : Json → List String
  | null => ["null"]
  | bool _ => ["boolean"]
  | num n => if n.toRat.den = 1 then ["number", "integer"] else ["number"]
  | str _ => ["string"]
  | arr _ => ["array"]
  | obj _ => ["object"]

/-- Whether a value is not a number below another one. -/
def atLeast : Json → Json → Bool
  | num n, num m => m.toRat ≤ n.toRat
  | _, _ => true

/-- The properties that the keywords of a schema list. -/
def listed (keywords : Decode.Fields) : List String :=
  (((keywords.get? "properties").bind fields?).getD []).map (·.1)

mutual

/-- Whether a value conforms to a schema. Keywords that only tell something ask for nothing. -/
def conforms : Json → Json → Bool
  | obj keywords, v => meets (listed keywords) keywords v
  | bool b, _ => b
  | _, _ => false

/-- Whether a value meets the keywords of a schema that lists the properties `known`. -/
def meets (known : List String) : List (String × Json) → Json → Bool
  | [], _ => true
  | (keyword, s) :: rest, v =>
    (if keyword = "type" then s.string?.any v.types.contains
      else if keyword = "minimum" then v.atLeast s
      else if keyword = "required" then
        v.fields?.isNone || (s.items?.getD []).all fun k => k.string?.any fun k => (v.get? k).isSome
      else if keyword = "items" then (v.items?.getD []).all (conforms s)
      else if keyword = "properties" then propertiesMeet s v
      else if keyword = "additionalProperties" then
        (v.fields?.getD []).all fun f => known.contains f.1 || conforms s f.2
      else true) && meets known rest v

def propertiesMeet : Json → Json → Bool
  | obj properties, v => allPropertiesMeet properties v
  | _, _ => true

def allPropertiesMeet : List (String × Json) → Json → Bool
  | [], _ => true
  | (key, s) :: rest, v => (v.get? key).all (conforms s) && allPropertiesMeet rest v

end

theorem meets_append {known : List String} {xs ys : List (String × Json)} {v : Json} :
    meets known (xs ++ ys) v = (meets known xs v && meets known ys v) := by
  induction xs with
  | nil => simp [meets]
  | cons x xs ih =>
    obtain ⟨keyword, s⟩ := x
    rw [List.cons_append, meets, ih, meets, Bool.and_assoc]

theorem meets_perm {known : List String} {xs ys : List (String × Json)} (h : xs.Perm ys) (v : Json) :
    meets known xs v = meets known ys v := by
  induction h with
  | nil => rfl
  | cons f _ ih => rw [meets, meets, ih]
  | swap f g fs =>
    obtain ⟨k, s⟩ := f
    obtain ⟨l, r⟩ := g
    rw [meets, meets, meets, meets, Bool.and_left_comm]
  | trans _ _ ih ih' => exact ih.trans ih'

/-- The order of keywords does not matter. -/
theorem conforms_object {keywords : List (String × Json)} (h : (keywords.map (·.1)).Nodup) (v : Json) :
    conforms (object keywords) v = meets (listed keywords) keywords v := by
  have hperm := sortFields_perm h
  rw [object, conforms, meets_perm hperm, listed, get?_perm hperm h]
  rfl

theorem allPropertiesMeet_iff {properties : List (String × Json)} {v : Json} :
    allPropertiesMeet properties v = true ↔
      ∀ f ∈ properties, ∀ x, v.get? f.1 = some x → conforms f.2 x = true := by
  induction properties with
  | nil => simp [allPropertiesMeet]
  | cons f rest ih =>
    obtain ⟨key, s⟩ := f
    rw [allPropertiesMeet, Bool.and_eq_true, ih, Option.all_eq_true, List.forall_mem_cons]

mutual

/-- Whether all numbers in a value are integers. -/
def integral : Json → Bool
  | num (.float _) => false
  | arr items => integralItems items
  | obj fields => integralFields fields
  | _ => true

def integralItems : List Json → Bool
  | [] => true
  | j :: js => integral j && integralItems js

def integralFields : List (String × Json) → Bool
  | [] => true
  | (_, j) :: fs => integral j && integralFields fs

end

theorem integralItems_iff {items : List Json} :
    integralItems items = true ↔ ∀ j ∈ items, j.integral = true := by
  induction items with
  | nil => simp [integralItems]
  | cons j items ih => simp [integralItems, ih]

theorem integralFields_iff {fields : List (String × Json)} :
    integralFields fields = true ↔ ∀ f ∈ fields, f.2.integral = true := by
  induction fields with
  | nil => simp [integralFields]
  | cons f fields ih => simp [integralFields, ih]

theorem get?_obj (fields : Decode.Fields) (key : String) : (obj fields).get? key = fields.get? key := by
  simp only [get?]
  induction fields with
  | nil => rfl
  | cons f fields ih =>
    obtain ⟨k, v⟩ := f
    rw [get?_cons, List.lookup_cons, ih]
    by_cases h : k = key
    · simp [h]
    · rw [if_neg h, beq_false_of_ne (Ne.symm h)]

theorem mem_of_get? {fields : Decode.Fields} {key : String} {x : Json} (h : fields.get? key = some x) :
    (key, x) ∈ fields := by
  obtain ⟨f, hf, rfl⟩ := Option.map_eq_some_iff.mp h
  have hkey : f.1 = key := by simpa using List.find?_some hf
  exact hkey ▸ List.mem_of_find?_eq_some hf

theorem exists_int_of_integral {n : Number} (h : (num n).integral = true) : ∃ i, n = .int i := by
  cases n with
  | int i => exact ⟨i, rfl⟩
  | float bits => simp [integral] at h

end Json

namespace Tool

open Json

/-! ## The schema of one parameter -/

/-- The values of a type of parameters. -/
def ParamType.Fits : ParamType → Json → Prop
  | text, j => ∃ s, j = .str s
  | texts, j => ∃ ss, j = Json.strings ss
  | count, j => ∃ n, j = .nat n
  | flag, j => ∃ b, j = .bool b

theorem Number.toRat_zero : Number.toRat (.float 0) = 0 := by
  simp [Number.toRat, Decimal.Binary.ofBits]

theorem conforms_string_iff {j : Json} :
    conforms (.object [("type", .str "string")]) j = true ↔ ∃ s, j = .str s := by
  rw [conforms_object (by simp)]
  cases j <;> simp [meets, string?, types]
  split <;> simp

theorem forall_str_iff {items : List Json} :
    (∀ x ∈ items, ∃ s, x = .str s) ↔ ∃ ss : List String, items = ss.map .str := by
  constructor
  · intro h
    choose! text htext using h
    exact ⟨items.map text, by simpa [Function.comp_def] using List.map_congr_left htext⟩
  · rintro ⟨ss, rfl⟩ x hx
    obtain ⟨s, -, rfl⟩ := List.mem_map.mp hx
    exact ⟨s, rfl⟩

/-- The keywords of a type ask for its values, as far as these have integers only. -/
theorem ParamType.meets_schema_iff (type : ParamType) (known : List String) {j : Json}
    (h : j.integral = true) : meets known type.schema j = true ↔ type.Fits j := by
  cases type with
  | text =>
    cases j <;> simp [schema, Fits, meets, string?, types]
    split <;> simp
  | flag =>
    cases j <;> simp [schema, Fits, meets, string?, types]
    split <;> simp
  | texts =>
    cases j with
    | arr items => 
      simp [schema, Fits, meets, string?, types, items?, conforms_string_iff, strings, forall_str_iff]
    | num n =>
      obtain ⟨i, rfl⟩ := exists_int_of_integral h
      simp [schema, Fits, meets, string?, types, strings, Number.toRat]
    | _ => simp [schema, Fits, meets, string?, types, strings]
  | count =>
    cases j with
    | num n =>
      obtain ⟨i, rfl⟩ := exists_int_of_integral h
      have hmin : Number.toRat (.float 0) ≤ Number.toRat (.int i) ↔ ∃ n : Nat, i = n := by
        rw [Number.toRat_zero, Number.toRat, Rat.intCast_nonneg]
        exact ⟨Int.eq_ofNat_of_zero_le, fun ⟨n, hn⟩ => hn ▸ Int.natCast_nonneg n⟩
      have htypes : types (.num (.int i)) = ["number", "integer"] := by
        simp [types, Number.toRat]
      simp [schema, Fits, meets, string?, htypes, atLeast, Json.nat, hmin]
    | _ => simp [schema, Fits, meets, string?, types, Json.nat]

/-- The schema of a parameter asks for its type, of values with integers only. -/
theorem Parameter.conforms_schema_iff (p : Parameter) {j : Json} (h : j.integral = true) :
    conforms p.schema j = true ↔ p.type.Fits j := by
  obtain ⟨key, type, presence, note⟩ := p
  have hkeys : ((type.schema ++ (note.map fun n => ("description", Json.str n)).toList ++
      if presence = Presence.emptyList then [("default", Json.arr [])] else []).map (·.1)).Nodup := by
    cases type <;> cases presence <;> cases note <;> simp [ParamType.schema]
  have hnote : ∀ known, meets known ((note.map fun n => ("description", Json.str n)).toList ++
      if presence = .emptyList then [("default", .arr [])] else []) j = true := by
    cases presence <;> cases note <;> simp [meets]
  rw [schema, conforms_object hkeys, List.append_assoc, meets_append, hnote, Bool.and_true,
    type.meets_schema_iff _ h]

/-! ## The schema of all parameters -/

/-- The value is an object with parameters only, each of its type, and among them the required ones. -/
structure Parameters.Conform (ps : Parameters) (fields : Decode.Fields) : Prop where
  known : ∀ f ∈ fields, f.1 ∈ ps.list.map (·.key)
  given : ∀ p ∈ ps.list, p.presence = .required → (fields.get? p.key).isSome = true
  fit : ∀ p ∈ ps.list, ∀ x, fields.get? p.key = some x → p.type.Fits x

/-- The keyword that lists the parameters, if there are any. -/
def Parameters.properties (ps : Parameters) : List (String × Json) :=
  if ps.list.isEmpty then []
  else [("properties", .object (ps.list.map fun p => (p.key, p.schema)))]

/-- The keyword that lists the required parameters, if there are any. -/
def Parameters.requirements (ps : Parameters) : List (String × Json) :=
  let required := Text.sorted ((ps.list.filter (·.presence = .required)).map (·.key))
  if required.isEmpty then [] else [("required", Json.strings required)]

/-- The keywords that ask for an object without other parameters. -/
def Parameters.bounds : List (String × Json) :=
  [("type", .str "object"), ("additionalProperties", .bool false)]

def Parameters.keywords (ps : Parameters) : List (String × Json) :=
  bounds ++ ps.properties ++ ps.requirements

namespace Parameters

variable {ps : Parameters} {fields : Decode.Fields} {known : List String}

theorem mem_sortFields_properties (h : (ps.list.map (·.key)).Nodup) {f : String × Json} :
    f ∈ sortFields (ps.list.map fun p => (p.key, p.schema)) ↔ ∃ p ∈ ps.list, (p.key, p.schema) = f := by
  rw [(sortFields_perm (by rwa [List.map_map])).mem_iff, List.mem_map]

theorem mem_listed_properties (h : (ps.list.map (·.key)).Nodup) {more : List (String × Json)}
    (hmore : Decode.Fields.get? more "properties" = none) {k : String} :
    k ∈ listed (ps.properties ++ more) ↔ k ∈ ps.list.map (·.key) := by
  unfold properties
  split
  · rename_i hempty
    simp [listed, hmore, List.isEmpty_iff.mp hempty]
  · simp [listed, object, fields?, mem_sortFields_properties h, and_comm]

theorem meets_properties_iff (h : (ps.list.map (·.key)).Nodup) {v : Json} :
    meets known ps.properties v = true ↔
      ∀ p ∈ ps.list, ∀ x, v.get? p.key = some x → conforms p.schema x = true := by
  unfold properties
  split
  · rename_i hempty
    simp [meets, List.isEmpty_iff.mp hempty]
  · simp [meets, object, propertiesMeet, allPropertiesMeet_iff, mem_sortFields_properties h]

theorem meets_requirements_iff :
    meets known ps.requirements (.obj fields) = true ↔
      ∀ p ∈ ps.list, p.presence = .required → (fields.get? p.key).isSome = true := by
  have hmem : ∀ k, k ∈ Text.sorted ((ps.list.filter (·.presence = .required)).map (·.key)) ↔
      ∃ p ∈ ps.list, p.presence = .required ∧ p.key = k := by
    intro k
    simp [Text.mem_sorted, and_assoc]
  unfold requirements
  dsimp only
  split
  · rename_i hempty
    rw [List.isEmpty_iff] at hempty
    simp only [hempty, List.not_mem_nil, false_iff, not_exists, not_and] at hmem
    exact iff_of_true (by simp [meets]) fun p hp hr => absurd rfl (hmem p.key p hp hr)
  · have hmeets : meets known [("required", Json.strings (Text.sorted
        ((ps.list.filter (·.presence = .required)).map (·.key))))] (.obj fields) = true ↔
        ∀ k ∈ Text.sorted ((ps.list.filter (·.presence = .required)).map (·.key)),
          (fields.get? k).isSome = true := by
      simp [meets, strings, fields?, items?, string?, get?_obj]
    rw [hmeets]
    grind

theorem schema_eq : ps.schema = .object ps.keywords := rfl

theorem nodup_keywords : (ps.keywords.map (·.1)).Nodup := by
  unfold keywords bounds properties requirements
  dsimp only
  split <;> split <;> simp

theorem conforms_schema_iff (h : (ps.list.map (·.key)).Nodup)
    (hint : ∀ f ∈ fields, f.2.integral = true) :
    conforms ps.schema (.obj fields) = true ↔ ps.Conform fields := by
  have hlisted : ∀ k, k ∈ listed ps.keywords ↔ k ∈ ps.list.map (·.key) := by
    intro k
    have hnone : Decode.Fields.get? ps.requirements "properties" = none := by
      unfold requirements
      dsimp only
      split <;> simp
    rw [← mem_listed_properties h hnone]
    simp [listed, keywords, bounds]
  have hknown : meets (listed ps.keywords) bounds (.obj fields) = true ↔
      ∀ f ∈ fields, f.1 ∈ ps.list.map (·.key) := by
    simp only [← hlisted]
    simp [bounds, meets, string?, types, fields?, conforms]
  have hfit : ∀ p ∈ ps.list, (∀ x, (obj fields).get? p.key = some x → conforms p.schema x = true) ↔
      ∀ x, fields.get? p.key = some x → p.type.Fits x := by
    intro p _
    rw [get?_obj]
    exact forall₂_congr fun x hx => p.conforms_schema_iff (hint (p.key, x) (mem_of_get? hx))
  have hmeets : conforms ps.schema (.obj fields) = true ↔
      (meets (listed ps.keywords) bounds (.obj fields) = true ∧
        meets (listed ps.keywords) ps.properties (.obj fields) = true) ∧
          meets (listed ps.keywords) ps.requirements (.obj fields) = true := by
    rw [← Bool.and_eq_true, ← Bool.and_eq_true, ← meets_append, ← meets_append]
    exact iff_of_eq (congrArg (· = true) (conforms_object nodup_keywords _))
  rw [hmeets, hknown, meets_properties_iff h, meets_requirements_iff]
  constructor
  · rintro ⟨⟨hknown, hfits⟩, hgiven⟩
    exact ⟨hknown, hgiven, fun p hp => (hfit p hp).mp (hfits p hp)⟩
  · rintro ⟨hknown, hgiven, hfits⟩
    exact ⟨⟨hknown, fun p hp => (hfit p hp).mpr (hfits p hp)⟩, hgiven⟩

theorem conforms_schema_obj {v : Json} (h : conforms ps.schema v = true) : ∃ fields, v = .obj fields := by
  rw [schema_eq, conforms_object nodup_keywords, keywords, List.append_assoc, meets_append,
    Bool.and_eq_true] at h
  have htype := h.1
  cases v <;> simp [bounds, meets, string?, types] at htype ⊢
  split at htype <;> simp at htype

end Parameters

end Tool

end DepAtlas
