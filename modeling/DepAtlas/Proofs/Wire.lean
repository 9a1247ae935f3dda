import DepAtlas.Proofs.Records
import DepAtlas.Worker.Message

/-! # Messages on the wire

A message is an object with a tag among its fields, and a line of text holds one. Whatever the order
of the fields, the reader finds the tag, puts the other fields aside in their order and leaves
nothing behind, so that a line is decoded like the value that it shows.
-/

namespace DepAtlas.Json

open Decode (Fields)

/-! ## A tag among fields -/

section Tagged

variable {α : Type} {i j l : Input} {cs rest : List Char} {known : List String} {key tag : String}
  {v : Json} {fs gs : Fields}

theorem fields_close {σ : Type} (field : σ → String → Input → Except TextError (σ × Input))
    (n : Nat) (first : Bool) (s : σ) (hi : i.rest = '\x7d' :: rest) :
    Input.fields field (n + 1) first s i = .ok (s, i) := by
  simp [Input.fields, Input.skipBlanks_of_cons hi (by decide), hi]

theorem fields_step {σ : Type} {field : σ → String → Input → Except TextError (σ × Input)}
    {s t : σ} (n : Nat) (first : Bool) (hi : i.rest = separator first ++ '\x22' :: cs)
    (hk : readString (i.element first).next = .ok (key, j)) (hf : field s key j = .ok (t, l)) :
    Input.fields field (n + 1) first s i = Input.fields field n false t l := by
  rw [Input.fields]
  cases first with
  | true =>
    have hi' : i.rest = '\x22' :: cs := hi
    have hk' : readString i.next = .ok (key, j) := hk
    simp [Input.skipBlanks_of_cons hi' (by decide), hi', hk', hf]
  | false =>
    have hi' : i.rest = ',' :: '\x22' :: cs := hi
    have hk' : readString i.next.next = .ok (key, j) := hk
    have hnext := Input.rest_next hi'
    simp [Input.skipBlanks_of_cons hi' (by decide), hi', Input.skipBlanks_of_cons hnext (by decide),
      hnext, hk', hf]

theorem colon_eq (hi : i.rest = ':' :: rest) : i.colon = .ok i.next := by
  simp [Input.colon, Input.skipBlanks_of_cons hi (by decide), hi]

theorem taggedField_tag (htag : tag ∈ known)
    (hi : i.rest = ':' :: ((str tag).compact.toList ++ rest)) :
    Reads (taggedField known (none, fs) "type" i) (some tag, fs) rest := by
  have hnext : i.next.rest = '\x22' :: (tag.toList.flatMap escaped ++ '\x22' :: rest) := by
    rw [Input.rest_next hi, compact, toList_quote]
    simp
  obtain ⟨k, hk, hrest⟩ := readString_quoted tag (Input.rest_next hnext)
  refine ⟨k, ?_, hrest⟩
  simp [taggedField, colon_eq hi, Input.lift, Input.name, Input.text,
    Input.skipBlanks_of_cons hnext (by decide), hnext, hk, htag, bind, Except.bind, pure,
    Except.pure, Except.mapError]

theorem taggedField_value (hkey : key ≠ "type") (hv : v.Legible (maxDepth - 1)) (hr : Closing rest)
    (s : Option String × Fields) (hi : i.rest = ':' :: (v.compact.toList ++ rest)) :
    Reads (taggedField known s key i) (s.1, s.2 ++ [(key, v)]) rest := by
  obtain ⟨k, hk, hrest⟩ := readValue_compact v hv hr (Nat.le_refl _) (Input.rest_next hi)
  refine ⟨k, ?_, hrest⟩
  simp [taggedField, hkey, colon_eq hi, Input.lift, Input.value, hk, bind, Except.bind, pure,
    Except.pure, Except.mapError]

/-- Whether the reader of tagged records takes a field. -/
def Takes (known : List String) (f : String × Json) : Prop :=
  if f.1 = "type" then ∃ tag ∈ known, f.2 = str tag else f.2.Legible (maxDepth - 1)

/-- What the reader holds after more fields: the tag apart and the other fields in their order. -/
def gather (s : Option String × Fields) (fs : Fields) : Option String × Fields :=
  (s.1.or ((fs.get? "type").bind string?), s.2 ++ fs.filter (·.1 ≠ "type"))

theorem exists_taggedField {s : Option String × Fields} (hf : Takes known (key, v))
    (hkey : ∀ f ∈ fs, f.1 ≠ key) (hs : s.1 = none ∨ ∀ f ∈ (key, v) :: fs, f.1 ≠ "type")
    (hr : Closing rest) (hi : i.rest = ':' :: (v.compact.toList ++ rest)) :
    ∃ t, Reads (taggedField known s key i) t rest ∧ (t.1 = none ∨ ∀ f ∈ fs, f.1 ≠ "type") ∧
      gather t fs = gather s ((key, v) :: fs) := by
  obtain ⟨found, acc⟩ := s
  by_cases htype : key = "type"
  · subst htype
    obtain ⟨tag, htag, rfl⟩ := (if_pos rfl).mp hf
    -- a tag that was found before would come twice
    obtain rfl : found = none := by
      rcases hs with hs | hs
      · exact hs
      · exact absurd rfl (hs _ List.mem_cons_self)
    refine ⟨_, taggedField_tag htag hi, .inr hkey, ?_⟩
    simp [gather, string?]
  · refine ⟨_, taggedField_value htype ((if_neg htype).mp hf) hr _ hi, ?_, ?_⟩
    · exact hs.imp_right fun h f hf => h f (List.mem_cons_of_mem _ hf)
    · simp [gather, htype]

theorem fields_tagged (fs : Fields) (first : Bool) {s : Option String × Fields} {n : Nat}
    {i : Input} (hf : ∀ f ∈ fs, Takes known f) (hn : (fs.map (·.1)).Nodup)
    (hs : s.1 = none ∨ ∀ f ∈ fs, f.1 ≠ "type") (hlength : i.rest.length < n)
    (hi : i.rest = (compactFields first fs).toList ++ '\x7d' :: rest) :
    Reads (Input.fields (taggedField known) n first s i) (gather s fs) ('\x7d' :: rest) := by
  obtain ⟨n, rfl⟩ : ∃ m, n = m + 1 := ⟨n - 1, by omega⟩
  induction fs generalizing first s n i with
  | nil =>
    have hi' : i.rest = '\x7d' :: rest := hi
    rw [fields_close _ n first s hi']
    exact ⟨i, by simp [gather], hi'⟩
  | cons f fs ih =>
    obtain ⟨key, v⟩ := f
    obtain ⟨hkey, hkeys⟩ := List.nodup_cons.mp hn
    obtain ⟨cs, j, hi', hj, hcolon, hshorter⟩ := exists_readString_key first key v fs hi
    have hkey' : ∀ f ∈ fs, f.1 ≠ key := fun f hf he => hkey (List.mem_map.mpr ⟨f, hf, he⟩)
    obtain ⟨t, ⟨l, hl, hrest⟩, ht, hgather⟩ :=
      exists_taggedField (hf _ List.mem_cons_self) hkey' hs (closing_compactFields fs rest) hcolon
    have hfewer : l.rest.length < n := by
      rw [Input.rest_next hcolon, List.length_append, ← hrest] at hshorter
      omega
    obtain ⟨n, rfl⟩ : ∃ m, n = m + 1 := ⟨n - 1, by omega⟩
    rw [fields_step (n + 1) first hi' hj hl, ← hgather]
    exact ih false (fun f hf' => hf f (List.mem_cons_of_mem _ hf')) hkeys ht hrest n hfewer

/-- A line that shows an object with a tag is taken apart like the object. -/
theorem readTagged_compact (title : String) (hf : ∀ f ∈ fs, Takes known f)
    (hn : (fs.map (·.1)).Nodup) (htag : fs.get? "type" = some (str tag)) :
    ∃ i, readTagged title known (.ofText (obj fs).compact) =
      .ok (tag, obj (fs.filter (·.1 ≠ "type")), i) ∧ i.rest = [] := by
  generalize hstart : Input.ofText (obj fs).compact = i
  have hi : i.rest = '\x7b' :: ((compactFields true fs).toList ++ '\x7d' :: []) := by
    rw [← hstart]
    show (obj fs).compact.toList = _
    simp [compact]
  have hnext := Input.rest_next hi
  have hlength : i.next.rest.length < i.rest.length + 1 := by
    rw [hi, hnext, List.length_cons]
    omega
  obtain ⟨j, hj, hend⟩ := fields_tagged (s := (none, [])) fs true hf hn (.inl rfl) hlength hnext
  refine ⟨j.next, ?_, Input.rest_next hend⟩
  simp only [readTagged, Input.skipBlanks_of_cons hi (by decide), hj]
  simp [hi, gather, htag, string?, bind, Except.bind, pure, Except.pure]

theorem readTaggedText_compact {d : String → Decode α} {a : α} (title : String)
    (hf : ∀ f ∈ fs, Takes known f) (hn : (fs.map (·.1)).Nodup)
    (htag : fs.get? "type" = some (str tag)) (hd : d tag (obj (fs.filter (·.1 ≠ "type"))) = .ok a) :
    readTaggedText title known d (obj fs).compact = .ok a := by
  obtain ⟨i, hi, hend⟩ := readTagged_compact title hf hn htag
  have hfinish : i.finish = .ok () := by
    simp [Input.finish, Input.skipBlanks_of_nil hend, hend]
  simp only [readTaggedText, hi, hd, hfinish, Input.lift, bind, Except.bind, Except.mapError, pure,
    Except.pure]

theorem tagged_obj (title : String) (hknown : tag ∈ known)
    (htag : fs.get? "type" = some (str tag)) :
    Decode.tagged title known (obj fs) = .ok (tag, obj (fs.filter (·.1 ≠ "type"))) := by
  simp [Decode.tagged, htag, hknown, bind, Except.bind, pure, Except.pure]

/-- The tag and the fields stand for `a`. -/
structure Stands (known : List String) (d : String → Decode α) (tag : String) (gs : Fields)
    (a : α) : Prop where
  known : tag ∈ known
  nodup : ((("type", str tag) :: gs).map (·.1)).Nodup
  restores : ∀ fs, FieldsSpell fs gs → d tag (obj fs) = .ok a

variable {d : String → Decode α} {a : α} {j : Json}

theorem get?_tag (h : FieldsSpell fs (("type", str tag) :: gs)) :
    fs.get? "type" = some (str tag) := by
  have hget : Fields.get? (("type", str tag) :: gs) "type" = some (str tag) := by simp
  obtain ⟨t, ht, hspells⟩ := h.exists_get? hget
  rw [ht, hspells.eq (by simp) (by simp)]

theorem Stands.tagged (h : Stands known d tag gs a) (title : String)
    (hj : j.Spells (object (("type", str tag) :: gs))) :
    (do let (tag, content) ← Decode.tagged title known j; d tag content) = .ok a := by
  obtain ⟨fs, rfl, hfs⟩ := hj.fields h.nodup
  rw [tagged_obj title h.known (get?_tag hfs)]
  exact h.restores _ hfs.without

theorem takes_of_legible (h : tag ∈ known) (hfs : FieldsSpell fs (("type", str tag) :: gs))
    (hgs : ∀ g ∈ gs, g.2.Legible (maxDepth - 1)) : ∀ f ∈ fs, Takes known f := by
  intro f hf
  unfold Takes
  split
  · rename_i htype
    have hget := (get?_eq_some_iff hfs.nodup).mpr hf
    rw [htype, get?_tag hfs] at hget
    exact ⟨tag, h, (Option.some.inj hget).symm⟩
  · rename_i htype
    apply Legible.of_normal (hfs.distinct f hf)
    have hmem := hfs.perm.mem_iff.mp (List.mem_map_of_mem hf)
    rcases List.mem_cons.mp hmem with he | hmem
    · exact absurd (congrArg Prod.fst he) htype
    · exact hgs _ hmem

theorem Stands.readTaggedText (h : Stands known d tag gs a) (title : String)
    (hgs : ∀ g ∈ gs, g.2.Legible (maxDepth - 1))
    (hj : j.Spells (object (("type", str tag) :: gs))) :
    readTaggedText title known d j.compact = .ok a := by
  obtain ⟨fs, rfl, hfs⟩ := hj.fields h.nodup
  exact readTaggedText_compact title (takes_of_legible h.known hfs hgs) hfs.nodup (get?_tag hfs)
    (h.restores _ hfs.without)

end Tagged

/-! ## Decoding from text -/

/-- The value that a text holds. -/
def Decode.ofText {α : Type} (d : Decode α) (line : String) : Except TextError α := do
  let j ← Input.lift (readWritten line)
  (d j).mapError (.misfit · none)

/-- The text of every spelling of `k` is read as `a`. -/
def ReadsText {ε α : Type} (read : String → Except ε α) (k : Json) (a : α) : Prop :=
  ∀ j : Json, j.Spells k → read j.compact = .ok a

theorem readsText_ofText {α : Type} {d : Decode α} {k : Json} {a : α} (hd : d.Restores k a)
    (hk : k.Legible maxDepth) : ReadsText d.ofText k a := by
  intro j hj
  have hread : readWritten j.compact = .ok j := by
    apply readWritten_compact
    apply Legible.of_normal hj.distinct
    rwa [hj.normal]
  simp [Decode.ofText, hread, hd j hj, Input.lift, Except.mapError, bind, Except.bind]

end DepAtlas.Json

namespace DepAtlas.Worker

open Json.Decode
open Json (FieldsSpell Stands limit64 maxDepth portable_nat portable_str)

variable {fs gs : Fields} {k : Json}

/-- A payload comes back in its normal form. -/
theorem exists_required_any (h : FieldsSpell fs gs) {key : String} (hk : gs.get? key = some k) :
    ∃ j, fs.required key any = .ok j ∧ j.normal = k := by
  obtain ⟨j, hj, hspells⟩ := h.exists_get? hk
  exact ⟨j, by rw [Fields.required, hj]; rfl, hspells.normal⟩

theorem exists_orElse_any (h : FieldsSpell fs gs) {key : String} (hk : gs.get? key = some k) :
    ∃ j, (∀ a, fs.orElse key a any = .ok j) ∧ j.normal = k := by
  obtain ⟨j, hj, hspells⟩ := h.exists_get? hk
  exact ⟨j, fun a => by rw [Fields.orElse, hj]; rfl, hspells.normal⟩

theorem restores_change (origin : Origin) (c : Watch.Change) :
    (changeOfJson origin).Restores (.str c.name) c := by
  apply restores_oneOf
  · cases c <;> decide
  · cases c <;> decide

theorem restores_code (origin : Origin) (c : ErrorCode) :
    (codeOfJson origin).Restores (.str c.name) c := by
  apply restores_oneOf
  · cases c <;> decide
  · cases c <;> decide

/-! ## What a worker takes -/

namespace Inbound

def tag : Inbound → String
  | init _ => "init"
  | invoke _ _ _ => "invoke"
  | shutdown => "shutdown"

def fields : Inbound → Fields
  | init config => [("config", config.toJson)]
  | invoke id tool params => [("requestId", .nat id), ("tool", .str tool), ("params", params)]
  | shutdown => []

theorem toJson_eq (m : Inbound) : m.toJson = .object (("type", .str m.tag) :: m.fields) := by
  cases m <;> rfl

/-- What the types of the fields promise. -/
def WellFormed : Inbound → Prop
  | init config => config.WellFormed
  | invoke id _ params => id < limit64 ∧ params.normal = params
  | shutdown => True

/-- The part of a message that can be any JSON. -/
def payload : Inbound → Json
  | invoke _ _ params => params
  | _ => .null

theorem stands (s : Settings) {m : Inbound} (h : m.WellFormed) :
    Stands tags (ofTagged s) m.tag m.fields m := by
  cases m with
  | init config =>
    refine ⟨by simp [tags, tag], by simp [fields], ?_⟩
    intro fs hfs
    have hconfig : fs.required "config" (WorkspaceConfig.ofJson s .gathered) = .ok config :=
      required_eq hfs (by simp [fields])
        (config.restores (WorkspaceConfig.WellFormed.aliases h) s .gathered)
    have hread : (initShape s).read .gathered (.obj fs) = .ok fs := by
      apply read_eq _ rfl hfs.nodup
      simp [initShape, passes_of_required, hconfig]
    simp [ofTagged, tag, hread, hconfig]
  | invoke id tool params =>
    refine ⟨by simp [tags, tag], by simp [fields], ?_⟩
    intro fs hfs
    have hid : fs.required "requestId" requestId = .ok id :=
      required_eq hfs (by simp [fields]) (restores_natural _ _)
    have htool : fs.required "tool" text = .ok tool :=
      required_eq hfs (by simp [fields]) (restores_text _)
    have hkept : (fields (.invoke id tool params)).get? "params" = some params := by simp [fields]
    obtain ⟨j, hparams, hnormal⟩ := exists_orElse_any hfs hkept
    have hread : invokeShape.read .gathered (.obj fs) = .ok fs := by
      apply read_eq _ rfl hfs.nodup
      simp [invokeShape, passes_of_required, passes_of_orElse, hid, htool, hparams]
    simp [ofTagged, tag, hread, hid, htool, hparams, hnormal]
  | shutdown =>
    refine ⟨by simp [tags, tag], by simp [fields], ?_⟩
    intro fs _
    rfl

theorem normal_toJson {m : Inbound} (h : m.WellFormed) : m.toJson.normal = m.toJson := by
  rw [toJson_eq]
  apply Json.normal_object
  cases m with
  | init config =>
    have hconfig : config.toJson.Portable 2 := WorkspaceConfig.portable h
    simp [fields, Json.normal, hconfig.normal]
  | invoke id tool params => simp [fields, Json.normal, Json.nat, h.2]
  | shutdown => simp [fields, Json.normal]

theorem legible_fields {m : Inbound} (h : m.WellFormed) (hp : m.payload.Legible (maxDepth - 1)) :
    ∀ g ∈ m.fields, g.2.Legible (maxDepth - 1) := by
  cases m with
  | init config =>
    have hconfig : config.toJson.Portable (maxDepth - 1) := WorkspaceConfig.portable h
    simp [fields, hconfig.legible]
  | invoke id tool params =>
    have hparams : params.Legible (maxDepth - 1) := hp
    simp [fields, (portable_nat h.1).legible, (portable_str tool).legible, hparams]
  | shutdown => simp [fields]

end Inbound

/-! ## What a worker sends -/

namespace Outbound

/-- What the types of the fields promise. -/
def WellFormed : Outbound → Prop
  | ready duration indexed => duration < limit64 ∧ indexed < limit64
  | result id data duration => id < limit64 ∧ data.normal = data ∧ duration < limit64
  | error id _ _ => ∀ n ∈ id, n < limit64
  | progress processed total _ => processed < limit64 ∧ total < limit64
  | invalidated _ _ => True

/-- The part of a message that can be any JSON. -/
def payload : Outbound → Json
  | result _ data _ => data
  | _ => .null

/-- The fields that are not left out. -/
def present (m : Outbound) : Fields := m.fields.filterMap id

theorem toJson_eq (m : Outbound) : m.toJson = .object (("type", .str m.tag) :: m.present) := rfl

theorem stands (m : Outbound) : Stands tags ofTagged m.tag m.present m := by
  cases m with
  | ready duration indexed =>
    refine ⟨by simp [tags, tag], by simp [present, fields], ?_⟩
    intro fs hfs
    have hduration : fs.required "warmupDuration" milliseconds = .ok duration :=
      required_eq hfs (by simp [present, fields]) (restores_natural _ _)
    have hindexed : fs.required "indexedFiles" count = .ok indexed :=
      required_eq hfs (by simp [present, fields]) (restores_natural _ _)
    have hread : readyShape.read .gathered (.obj fs) = .ok fs := by
      apply read_eq _ rfl hfs.nodup
      simp [readyShape, passes_of_required, hduration, hindexed]
    simp [ofTagged, tag, hread, hduration, hindexed]
  | result id data duration =>
    refine ⟨by simp [tags, tag], by simp [present, fields], ?_⟩
    intro fs hfs
    have hid : fs.required "requestId" requestId = .ok id :=
      required_eq hfs (by simp [present, fields]) (restores_natural _ _)
    obtain ⟨j, hdata, hnormal⟩ : ∃ j, fs.required "data" any = .ok j ∧ j.normal = data :=
      exists_required_any hfs (by simp [present, fields])
    have hduration : fs.required "executionTimeMs" milliseconds = .ok duration :=
      required_eq hfs (by simp [present, fields]) (restores_natural _ _)
    have hread : resultShape.read .gathered (.obj fs) = .ok fs := by
      apply read_eq _ rfl hfs.nodup
      simp [resultShape, passes_of_required, hid, hdata, hduration]
    simp [ofTagged, tag, hread, hid, hdata, hnormal, hduration]
  | error id message code =>
    refine ⟨by simp [tags, tag], ?_, ?_⟩
    · cases id <;> cases code <;> simp [present, fields, Json.field?]
    intro fs hfs
    have hid : fs.optional "requestId" requestId = .ok id :=
      optional_eq hfs (by simp [present, fields])
        (fun n _ => restores_natural _ n) (by simp [Json.nat])
    have hmessage : fs.required "error" text = .ok message :=
      required_eq hfs (by simp [present, fields]) (restores_text _)
    have hcode : fs.optional "code" (codeOfJson .gathered) = .ok code :=
      optional_eq hfs (by simp [present, fields]) (fun c _ => restores_code _ c) (by simp)
    have hread : errorShape.read .gathered (.obj fs) = .ok fs := by
      apply read_eq _ rfl hfs.nodup
      simp [errorShape, passes_of_optional, passes_of_required, hid, hmessage, hcode]
    simp [ofTagged, tag, hread, hid, hmessage, hcode]
  | progress processed total file =>
    refine ⟨by simp [tags, tag], ?_, ?_⟩
    · cases file <;> simp [present, fields, Json.field?]
    intro fs hfs
    have hprocessed : fs.required "processed" count = .ok processed :=
      required_eq hfs (by simp [present, fields]) (restores_natural _ _)
    have htotal : fs.required "total" count = .ok total :=
      required_eq hfs (by simp [present, fields]) (restores_natural _ _)
    have hfile : fs.optional "currentFile" text = .ok file :=
      optional_eq hfs (by simp [present, fields]) (fun s _ => restores_text s) (by simp)
    have hread : progressShape.read .gathered (.obj fs) = .ok fs := by
      apply read_eq _ rfl hfs.nodup
      simp [progressShape, passes_of_required, passes_of_optional, hprocessed, htotal, hfile]
    simp [ofTagged, tag, hread, hprocessed, htotal, hfile]
  | invalidated path change =>
    refine ⟨by simp [tags, tag], by simp [present, fields], ?_⟩
    intro fs hfs
    have hpath : fs.required "filePath" text = .ok path :=
      required_eq hfs (by simp [present, fields]) (restores_text _)
    have hevent : fs.required "event" (changeOfJson .gathered) = .ok change :=
      required_eq hfs (by simp [present, fields]) (restores_change _ _)
    have hread : invalidatedShape.read .gathered (.obj fs) = .ok fs := by
      apply read_eq _ rfl hfs.nodup
      simp [invalidatedShape, passes_of_required, hpath, hevent]
    simp [ofTagged, tag, hread, hpath, hevent]

theorem normal_toJson {m : Outbound} (h : m.WellFormed) : m.toJson.normal = m.toJson := by
  rw [toJson_eq]
  apply Json.normal_object
  cases m with
  | ready => simp [present, fields, Json.normal, Json.nat]
  | result id data duration => simp [present, fields, Json.normal, Json.nat, h.2.1]
  | error id message code =>
    cases id <;> cases code <;> simp [present, fields, Json.field?, Json.normal, Json.nat]
  | progress processed total file =>
    cases file <;> simp [present, fields, Json.field?, Json.normal, Json.nat]
  | invalidated => simp [present, fields, Json.normal]

theorem legible_present {m : Outbound} (h : m.WellFormed) (hp : m.payload.Legible (maxDepth - 1)) :
    ∀ g ∈ m.present, g.2.Legible (maxDepth - 1) := by
  have hstr (s : String) : (Json.str s).Legible (maxDepth - 1) := (portable_str s).legible
  cases m with
  | ready =>
    simp [present, fields, (portable_nat h.1).legible, (portable_nat h.2).legible]
  | result id data duration =>
    have hdata : data.Legible (maxDepth - 1) := hp
    simp [present, fields, (portable_nat h.1).legible, (portable_nat h.2.2).legible, hdata]
  | error id message code =>
    have hid : ∀ n ∈ id, (Json.nat n).Legible (maxDepth - 1) :=
      fun n hn => (portable_nat (h n hn)).legible
    cases id <;> cases code <;> simp_all [present, fields, Json.field?]
  | progress processed total file =>
    cases file <;> simp [present, fields, Json.field?, (portable_nat h.1).legible,
      (portable_nat h.2).legible, hstr]
  | invalidated => simp [present, fields, hstr]

end Outbound

/-! ## Round trips -/

open Json (ReadsText)

/-- A call with the largest number and a payload with an object, a list and a fraction in it. -/
def sampleCall : Inbound :=
  .invoke 0xffffffffffffffff "find_symbol"
    (.object [("names", .strings ["a", "b"]), ("limit", .num (.float 0x3ff8000000000000))])

def sampleError : Outbound := .error none "no such tool" (some .validation)

def sampleConfig : WorkspaceConfig :=
  ⟨"/w", 3, [("@", "src"), ("~", "lib")], ["dist"], true, false, false, 300, 0, true⟩

def sampleOutline : Outline :=
  ⟨.python, [⟨"os", .plain, 1, [⟨"path", "p", false, false⟩]⟩],
    [⟨"f", "f", .function, 2, 3, true, none,
      some ⟨[⟨"x", some "int", false, false⟩, ⟨"xs", none, false, true⟩], none, false⟩⟩],
    [⟨some "f", "p", some "join", 3, true, false⟩]⟩

def sampleDependency : Dependency := ⟨"/w/a.py", "/w/b.py", .plain, 1, "b"⟩

theorem sampleCall_portable : sampleCall.payload.Portable (maxDepth - 1) := by
  have hfloat : (Json.num (.float 0x3ff8000000000000)).Portable 125 := by
    have hrestored : Json.Number.Restored (.float 0x3ff8000000000000) := by decide +kernel
    exact ⟨rfl, hrestored⟩
  have hnames : (Json.strings ["a", "b"]).Portable 125 :=
    Json.portable_arr (List.forall_mem_map.mpr fun s _ => portable_str s)
  exact Json.portable_object (by simp [hfloat, hnames])

/-- Lists in one another, as deep as the number and one more. -/
def nested : Nat → Json
  | 0 => .arr []
  | n + 1 => .arr [nested n]

theorem normal_nested (n : Nat) : (nested n).normal = nested n := by
  induction n with
  | zero => rfl
  | succ n ih => rw [nested, Json.normal_arr, List.map_cons, ih, List.map_nil]

open Json (Input readItems readString readValue)

section Depth

variable {i : Input} {rest : List Char}

theorem exists_toList_nested (n : Nat) : ∃ cs, (nested n).compact.toList = '[' :: cs := by
  cases n with
  | zero => exact ⟨[']'], rfl⟩
  | succ n =>
    exact ⟨(Json.compactItems true [nested n]).toList ++ [']'], by simp [nested, Json.compact]⟩

theorem readValue_nested {n depth : Nat} (h : depth ≤ n) (fuel : Nat)
    (hi : i.rest = (nested n).compact.toList ++ rest) : ∃ e, readValue fuel depth i = .error e := by
  induction depth generalizing n fuel i rest with
  | zero =>
    obtain ⟨cs, hcs⟩ := exists_toList_nested n
    rw [hcs, List.cons_append] at hi
    cases fuel with
    | zero => exact ⟨_, rfl⟩
    | succ fuel =>
      unfold readValue
      simp [Input.skipBlanks_of_cons hi (by decide), hi, Input.failAhead]
  | succ depth ih =>
    obtain ⟨n, rfl⟩ : ∃ m, n = m + 1 := ⟨n - 1, by omega⟩
    have hi' : i.rest = '[' :: ((nested n).compact.toList ++ ']' :: rest) := by
      rw [hi, nested]
      simp [Json.compact, Json.compactItems]
    cases fuel with
    | zero => exact ⟨_, rfl⟩
    | succ fuel =>
      rw [Json.readValue_list hi']
      cases fuel with
      | zero => exact ⟨_, rfl⟩
      | succ fuel =>
        obtain ⟨e, he⟩ := ih (by omega) fuel (Input.rest_next hi')
        obtain ⟨cs, hcs⟩ := exists_toList_nested n
        have hnext := Input.rest_next hi'
        rw [hcs, List.cons_append] at hnext
        refine ⟨e, ?_⟩
        unfold readItems
        simp [Input.skipBlanks_of_cons hnext (by decide), hnext, he, Except.map]

end Depth

theorem toJson_invoke (id : Nat) (tool : String) (params : Json) :
    (Inbound.invoke id tool params).toJson = .obj [("params", params), ("requestId", .nat id),
      ("tool", .str tool), ("type", .str "invoke")] := by
  have hsorted : ["params", "requestId", "tool", "type"].Pairwise (· < ·) := by decide
  apply congrArg Json.obj
  refine Json.sortFields_of_perm ?_ (List.pairwise_map (f := Prod.fst).mp hsorted)
  have hparams := List.perm_append_singleton ("params", params)
    [("type", Json.str "invoke"), ("requestId", .nat id), ("tool", .str tool)]
  have htype := List.perm_append_singleton ("type", Json.str "invoke")
    [("requestId", Json.nat id), ("tool", .str tool)]
  exact hparams.trans (htype.symm.cons _)

/-- A payload nested deeper than the reader goes is refused. -/
theorem ofText_nested (s : Settings) (id : Nat) (tool : String) {n : Nat} (h : maxDepth - 1 ≤ n) :
    ∃ e, Inbound.ofText s (Inbound.invoke id tool (nested n)).toJson.compact = .error e := by
  rw [toJson_invoke]
  generalize [("requestId", Json.nat id), ("tool", Json.str tool), ("type", Json.str "invoke")] = fs
  generalize hstart : Input.ofText (Json.obj (("params", nested n) :: fs)).compact = i
  have hi : i.rest = '\x7b' ::
      ((Json.compactFields true (("params", nested n) :: fs)).toList ++ '\x7d' :: []) := by
    rw [← hstart]
    show (Json.obj (("params", nested n) :: fs)).compact.toList = _
    simp [Json.compact]
  obtain ⟨cs, j, hkey, hj, hcolon, -⟩ :=
    Json.exists_readString_key true "params" (nested n) fs (Input.rest_next hi)
  obtain ⟨e, he⟩ := readValue_nested h (2 * j.next.rest.length + 2) (Input.rest_next hcolon)
  have hkey' : i.next.rest = '\x22' :: cs := hkey
  have hj' : readString i.next.next = .ok ("params", j) := hj
  have hfield : Json.taggedField Inbound.tags (none, []) "params" j = .error (.unreadable e) := by
    simp [Json.taggedField, Json.colon_eq hcolon, Input.lift, Input.value, he, bind, Except.bind,
      Except.mapError]
  have hfields (n : Nat) :
      Input.fields (Json.taggedField Inbound.tags) (n + 1) true (none, []) i.next =
        .error (.unreadable e) := by
    simp [Input.fields, Input.skipBlanks_of_cons hkey' (by decide), hkey', hj', hfield]
  refine ⟨.unreadable e, ?_⟩
  simp only [Inbound.ofText, Json.readTaggedText, hstart, Json.readTagged,
    Input.skipBlanks_of_cons hi (by decide), hfields]
  simp [hi, bind, Except.bind]

/-- A payload of 127 lists in one another. -/
def deepCall : Inbound := .invoke 1 "get_index_status" (nested 126)

/-- A payload that is written as `1e-23`. -/
def tinyCall : Inbound := .invoke 1 "get_index_status" (.num (.float 0x3b282db34012b251))

end DepAtlas.Worker
