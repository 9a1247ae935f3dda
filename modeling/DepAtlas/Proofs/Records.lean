import DepAtlas.Config
import DepAtlas.Graph.Dependency
import DepAtlas.Proofs.Spelling
import Mathlib.Data.List.Perm.Basic

/-! # Records read back

A decoder restores a value if it gives the value for every spelling of its encoding. That is shown
for the small decoders first. A record is restored if each of its fields is: the fields of its
encoding are found under their keys whatever their order, so that all its checks are passed, too.
-/

namespace DepAtlas.Json.Decode

variable {α : Type} {d : Decode α} {a : α} {k : Json}

@[simp] theorem ok_bind {β : Type} (a : α) (f : α → Except DecodeError β) :
    (Except.ok a >>= f) = f a := rfl

@[simp] theorem pure_eq_ok (a : α) : (pure a : Except DecodeError α) = .ok a := rfl

/-- The decoder gives `a` for every spelling of `k`. -/
def Restores (d : Decode α) (k : Json) (a : α) : Prop := ∀ j, j.Spells k → d j = .ok a

/-! ## Small decoders -/

theorem restores_atom (harr : ∀ xs, k ≠ arr xs) (hobj : ∀ fs, k ≠ obj fs) (h : d k = .ok a) :
    d.Restores k a := by
  intro j hj
  rw [hj.eq harr hobj, h]

theorem restores_textAs (expected s : String) : (textAs expected).Restores (str s) s :=
  restores_atom (by simp) (by simp) rfl

theorem restores_text (s : String) : text.Restores (str s) s := restores_textAs _ s

theorem restores_flag (b : Bool) : flag.Restores (bool b) b :=
  restores_atom (by simp) (by simp) rfl

theorem restores_natural (type : String) (n : Nat) : (natural type).Restores (nat n) n :=
  restores_atom (by simp [nat]) (by simp [nat]) rfl

theorem restores_oneOf (origin : Origin) {all : List α} {nameOf : α → String} (ha : a ∈ all)
    (hname : ∀ b ∈ all, nameOf b = nameOf a → b = a) :
    (oneOf origin all nameOf).Restores (str (nameOf a)) a := by
  apply restores_atom (by simp) (by simp)
  have hknown : name origin (all.map nameOf) (str (nameOf a)) = .ok (nameOf a) := by
    have hmem : nameOf a ∈ all.map nameOf := List.mem_map_of_mem ha
    exact if_pos (List.contains_iff_mem.mpr hmem)
  have hfound : all.find? (nameOf · = nameOf a) = some a := by
    cases hf : all.find? (nameOf · = nameOf a) with
    | none => simpa using List.find?_eq_none.mp hf a ha
    | some b =>
      have hb : nameOf b = nameOf a := by simpa using List.find?_some hf
      rw [hname b (List.mem_of_find?_eq_some hf) hb]
  simp [oneOf, hknown, hfound, bind, Except.bind, pure, Except.pure]

theorem restores_some (h : d.Restores k a) (hk : k ≠ null) : (option d).Restores k (some a) := by
  intro j hj
  have hnull : j ≠ null := by
    rintro rfl
    exact hk hj.normal.symm
  rw [option, h j hj]
  · rfl
  · exact hnull

theorem mapM_restores {write : α → Json} {xs : List Json} {as : List α}
    (hxs : List.Forall₂ (fun j a => j.Spells (write a)) xs as)
    (h : ∀ a ∈ as, d.Restores (write a) a) : xs.mapM d = .ok as := by
  induction hxs with
  | nil => rfl
  | cons hj _ ih =>
    have hhead := h _ List.mem_cons_self _ hj
    have htail := ih fun a ha => h a (List.mem_cons_of_mem _ ha)
    rw [List.mapM_cons, hhead, htail]
    rfl

theorem restores_list {write : α → Json} {as : List α} (h : ∀ a ∈ as, d.Restores (write a) a) :
    (list d).Restores (arr (as.map write)) as := by
  intro j hj
  obtain ⟨xs, rfl, hxs⟩ := hj.items
  exact mapM_restores (List.forall₂_map_right_iff.mp hxs) h

/-- An entry of a table of texts. -/
def entryField (e : String × String) : String × Json := (e.1, str e.2)

theorem exists_entries {fs : Fields} (h : ∀ f ∈ fs, ∃ s, f.2 = str s) :
    ∃ es : List (String × String), fs = es.map entryField := by
  induction fs with
  | nil => exact ⟨[], rfl⟩
  | cons f fs ih =>
    obtain ⟨l, v⟩ := f
    obtain ⟨s, rfl⟩ := h (l, v) List.mem_cons_self
    obtain ⟨es, rfl⟩ := ih fun f hf => h f (List.mem_cons_of_mem _ hf)
    exact ⟨(l, s) :: es, rfl⟩

theorem table_entries (es : List (String × String)) :
    table text (obj (es.map entryField)) = .ok (sortFields es) := by
  have hread : (es.map entryField).mapM (fun f => (text f.2).map (f.1, ·)) = .ok es := by
    induction es with
    | nil => rfl
    | cons e es ih => rw [List.map_cons, List.mapM_cons, ih]; rfl
  rw [table, hread]
  rfl

theorem restores_table {entries : List (String × String)} (h : entries.Pairwise (·.1 < ·.1)) :
    (table text).Restores (object (entries.map entryField)) entries := by
  intro j hj
  have hkeys : ((entries.map entryField).map (·.1)).Nodup := by
    rw [List.map_map]
    exact nodup_keys_of_pairwise h
  obtain ⟨fs, rfl, hfs⟩ := hj.fields hkeys
  have htexts : ∀ f ∈ fs, ∃ s, f.2 = str s := by
    intro f hf
    obtain ⟨e, -, he⟩ := List.mem_map.mp (hfs.perm.mem_iff.mp (List.mem_map_of_mem hf))
    have hspells : f.2.Spells (str e.2) := ⟨hfs.distinct f hf, (congrArg Prod.snd he).symm⟩
    exact ⟨e.2, hspells.eq (by simp) (by simp)⟩
  obtain ⟨es, rfl⟩ := exists_entries htexts
  have hperm : (es.map entryField).Perm (entries.map entryField) := by
    have hperm := hfs.perm
    rwa [List.map_map] at hperm
  have hinj : Function.Injective entryField := by
    rintro ⟨l, s⟩ ⟨l', s'⟩ he
    cases he
    rfl
  rw [table_entries, sortFields_of_perm ((List.map_perm_map_iff hinj).mp hperm) h]

/-! ## Fields -/

variable {fs gs : Fields} {key : String}

theorem required_eq (h : FieldsSpell fs gs) (hk : gs.get? key = some k) (hd : d.Restores k a) :
    fs.required key d = .ok a := by
  obtain ⟨j, hj, hspells⟩ := h.exists_get? hk
  rw [Fields.required, hj]
  exact hd j hspells

theorem orElse_eq (h : FieldsSpell fs gs) (hk : gs.get? key = some k) (hd : d.Restores k a)
    (default : α) : fs.orElse key default d = .ok a := by
  obtain ⟨j, hj, hspells⟩ := h.exists_get? hk
  rw [Fields.orElse, hj]
  exact hd j hspells

theorem optional_eq (h : FieldsSpell fs gs) {o : Option α} {write : α → Json}
    (hk : gs.get? key = o.map write) (hd : ∀ a ∈ o, d.Restores (write a) a)
    (hwrite : ∀ a, write a ≠ null) : fs.optional key d = .ok o := by
  cases o with
  | none => rw [Fields.optional, h.get?_eq_none hk]
  | some a =>
    obtain ⟨j, hj, hspells⟩ := h.exists_get? hk
    rw [Fields.optional, hj]
    exact restores_some (hd a rfl) (hwrite a) j hspells

/-- Whether the field is absent or passes its check. -/
def Field.Passes (fs : Fields) (f : Field) : Prop :=
  ∀ j, fs.get? f.key = some j → f.check j = .ok ()

theorem passes_of (h : ∀ j, fs.get? key = some j → ∃ b, d j = .ok b) (omittable : Bool) :
    (Field.of key d omittable).Passes fs := by
  intro j hj
  obtain ⟨b, hb⟩ := h j hj
  simp [Field.of, hb, Except.map]

theorem passes_of_required (h : ∃ a, fs.required key d = .ok a) (omittable : Bool) :
    (Field.of key d omittable).Passes fs := by
  refine passes_of (fun j hj => ?_) omittable
  rwa [Fields.required, hj] at h

theorem passes_of_orElse [Inhabited α] (h : ∀ a, ∃ b, fs.orElse key a d = .ok b)
    (omittable : Bool) : (Field.of key d omittable).Passes fs := by
  refine passes_of (fun j hj => ?_) omittable
  simpa [Fields.orElse, hj] using h default

theorem passes_of_optional (h : ∃ o, fs.optional key d = .ok o) (omittable : Bool) :
    (Field.of key (option d) omittable).Passes fs := by
  refine passes_of (fun j hj => ?_) omittable
  rwa [Fields.optional, hj] at h

theorem checkFields_eq (s : Shape) (hopen : s.closed = false) (seen : List String)
    (hseen : ∀ f ∈ fs, f.1 ∉ seen) (hn : (fs.map (·.1)).Nodup)
    (h : ∀ f ∈ fs, ∀ g ∈ s.fields, g.key = f.1 → g.check f.2 = .ok ()) :
    s.checkFields seen fs = .ok () := by
  induction fs generalizing seen with
  | nil => rfl
  | cons f fs ih =>
    obtain ⟨l, v⟩ := f
    obtain ⟨hl, hfs⟩ := List.nodup_cons.mp hn
    have hrest : ∀ f ∈ fs, ∀ g ∈ s.fields, g.key = f.1 → g.check f.2 = .ok () :=
      fun f hf => h f (List.mem_cons_of_mem _ hf)
    have hunseen : ∀ f ∈ fs, f.1 ∉ seen := fun f hf => hseen f (List.mem_cons_of_mem _ hf)
    rw [Shape.checkFields]
    split
    · rename_i g hg
      have hkey : g.key = l := by simpa using List.find?_some hg
      have hcheck := h (l, v) List.mem_cons_self g (List.mem_of_find?_eq_some hg) hkey
      have hnew : ∀ f ∈ fs, f.1 ∉ l :: seen := by
        intro f hf hmem
        rcases List.mem_cons.mp hmem with heq | hmem
        · exact hl (List.mem_map.mpr ⟨f, hf, heq⟩)
        · exact hunseen f hf hmem
      have hfresh : seen.contains l = false := by
        simpa using hseen (l, v) List.mem_cons_self
      rw [hfresh, hcheck]
      exact ih _ hnew hfs hrest
    · rw [hopen]
      exact ih _ hunseen hfs hrest

/-- A record is taken if each of its fields passes. -/
theorem read_eq (s : Shape) (hopen : s.closed = false) (hn : (fs.map (·.1)).Nodup)
    (h : ∀ f ∈ s.fields, f.Passes fs) (origin : Origin) : s.read origin (obj fs) = .ok fs := by
  have hcheck : s.checkFields [] fs = .ok () := by
    apply checkFields_eq s hopen [] (by simp) hn
    intro f hf g hg hkey
    exact h g hg f.2 ((get?_eq_some_iff hn).mpr (hkey ▸ hf))
  rw [Shape.read, hcheck]
  rfl

theorem restores_object (hn : (gs.map (·.1)).Nodup)
    (h : ∀ fs, FieldsSpell fs gs → d (obj fs) = .ok a) : d.Restores (object gs) a := by
  intro j hj
  obtain ⟨fs, rfl, hfs⟩ := hj.fields hn
  exact h fs hfs

end DepAtlas.Json.Decode

namespace DepAtlas

open Json.Decode
open Json (limit64 portable_arr portable_bool portable_nat portable_object portable_str)

variable {depth : Nat}

/-! ## Names -/

theorem Language.restores (l : Language) : Language.ofJson.Restores (.str l.name) l := by
  apply restores_oneOf
  · cases l <;> decide
  · cases l <;> decide

theorem ImportKind.restores (k : ImportKind) : ImportKind.ofJson.Restores (.str k.name) k := by
  apply restores_oneOf
  · cases k <;> decide
  · cases k <;> decide

theorem SymbolKind.restores (k : SymbolKind) : SymbolKind.ofJson.Restores (.str k.name) k := by
  apply restores_oneOf
  · cases k <;> decide
  · cases k <;> decide

/-! ## Outlines -/

theorem Binding.restores (b : Binding) : Binding.ofJson.Restores b.toJson b := by
  apply restores_object (by simp)
  intro fs hfs
  have hname : fs.required "imported" text = .ok b.imported :=
    required_eq hfs (by simp) (restores_text _)
  have hlocal : fs.required "local" text = .ok b.localName :=
    required_eq hfs (by simp) (restores_text _)
  have htype : fs.required "typeOnly" flag = .ok b.typeOnly :=
    required_eq hfs (by simp) (restores_flag _)
  have hnamespace : fs.required "namespace" flag = .ok b.isNamespace :=
    required_eq hfs (by simp) (restores_flag _)
  have hread : Binding.shape.read .direct (.obj fs) = .ok fs := by
    apply read_eq _ rfl hfs.nodup
    simp [Binding.shape, passes_of_required, hname, hlocal, htype, hnamespace]
  simp [Binding.ofJson, hread, hname, hlocal, htype, hnamespace]

theorem Import.restores (i : Import) : Import.ofJson.Restores i.toJson i := by
  apply restores_object (by simp)
  intro fs hfs
  have hmodule : fs.required "module" text = .ok i.specifier :=
    required_eq hfs (by simp) (restores_text _)
  have hkind : fs.required "importType" ImportKind.ofJson = .ok i.kind :=
    required_eq hfs (by simp) (ImportKind.restores _)
  have hline : fs.required "line" count = .ok i.line :=
    required_eq hfs (by simp) (restores_natural _ _)
  have hbindings : fs.required "bindings" (list Binding.ofJson) = .ok i.bindings :=
    required_eq hfs (by simp) (restores_list fun b _ => b.restores)
  have hread : Import.shape.read .direct (.obj fs) = .ok fs := by
    apply read_eq _ rfl hfs.nodup
    simp [Import.shape, passes_of_required, hmodule, hkind, hline, hbindings]
  simp [Import.ofJson, hread, hmodule, hkind, hline, hbindings]

theorem Param.restores (p : Param) : Param.ofJson.Restores p.toJson p := by
  apply restores_object (by cases p.typeName <;> simp [Json.field?])
  intro fs hfs
  have hname : fs.required "name" text = .ok p.name :=
    required_eq hfs (by simp) (restores_text _)
  have htype : fs.optional "type" text = .ok p.typeName :=
    optional_eq hfs (by simp) (fun s _ => restores_text s) (by simp)
  have hoptional : fs.required "optional" flag = .ok p.optional :=
    required_eq hfs (by simp) (restores_flag _)
  have hvariadic : fs.required "variadic" flag = .ok p.variadic :=
    required_eq hfs (by simp) (restores_flag _)
  have hread : Param.shape.read .direct (.obj fs) = .ok fs := by
    apply read_eq _ rfl hfs.nodup
    simp [Param.shape, passes_of_required, passes_of_optional, hname, htype, hoptional, hvariadic]
  simp [Param.ofJson, hread, hname, htype, hoptional, hvariadic]

theorem Signature.restores (s : Signature) : Signature.ofJson.Restores s.toJson s := by
  apply restores_object (by cases s.returnType <;> simp [Json.field?])
  intro fs hfs
  have hparams : fs.required "params" (list Param.ofJson) = .ok s.params :=
    required_eq hfs (by simp) (restores_list fun p _ => p.restores)
  have hreturn : fs.optional "returnType" text = .ok s.returnType :=
    optional_eq hfs (by simp) (fun s _ => restores_text s) (by simp)
  have hasync : fs.required "isAsync" flag = .ok s.isAsync :=
    required_eq hfs (by simp) (restores_flag _)
  have hread : Signature.shape.read .direct (.obj fs) = .ok fs := by
    apply read_eq _ rfl hfs.nodup
    simp [Signature.shape, passes_of_required, passes_of_optional, hparams, hreturn, hasync]
  simp [Signature.ofJson, hread, hparams, hreturn, hasync]

theorem Declaration.restores (d : Declaration) : Declaration.ofJson.Restores d.toJson d := by
  apply restores_object (by cases d.parent <;> cases d.signature <;> simp [Json.field?])
  intro fs hfs
  have hname : fs.required "name" text = .ok d.name :=
    required_eq hfs (by simp) (restores_text _)
  have hqualified : fs.required "qualifiedName" text = .ok d.qualifiedName :=
    required_eq hfs (by simp) (restores_text _)
  have hkind : fs.required "kind" SymbolKind.ofJson = .ok d.kind :=
    required_eq hfs (by simp) (SymbolKind.restores _)
  have hline : fs.required "line" count = .ok d.line :=
    required_eq hfs (by simp) (restores_natural _ _)
  have hend : fs.required "endLine" count = .ok d.endLine :=
    required_eq hfs (by simp) (restores_natural _ _)
  have hexported : fs.required "isExported" flag = .ok d.isExported :=
    required_eq hfs (by simp) (restores_flag _)
  have hparent : fs.optional "parent" text = .ok d.parent :=
    optional_eq hfs (by simp) (fun s _ => restores_text s) (by simp)
  have hsignature : fs.optional "signature" Signature.ofJson = .ok d.signature :=
    optional_eq hfs (by simp) (fun s _ => s.restores)
      (by simp [Signature.toJson, Json.objectOf, Json.object])
  have hread : Declaration.shape.read .direct (.obj fs) = .ok fs := by
    apply read_eq _ rfl hfs.nodup
    simp [Declaration.shape, passes_of_required, passes_of_optional, hname, hqualified, hkind,
      hline, hend, hexported, hparent, hsignature]
  simp [Declaration.ofJson, hread, hname, hqualified, hkind, hline, hend, hexported, hparent,
    hsignature]

theorem Reference.restores (r : Reference) : Reference.ofJson.Restores r.toJson r := by
  apply restores_object (by cases r.origin <;> cases r.member <;> simp [Json.field?])
  intro fs hfs
  have horigin : fs.optional "from" text = .ok r.origin :=
    optional_eq hfs (by simp) (fun s _ => restores_text s) (by simp)
  have hname : fs.required "name" text = .ok r.name :=
    required_eq hfs (by simp) (restores_text _)
  have hmember : fs.optional "member" text = .ok r.member :=
    optional_eq hfs (by simp) (fun s _ => restores_text s) (by simp)
  have hline : fs.required "line" count = .ok r.line :=
    required_eq hfs (by simp) (restores_natural _ _)
  have hcall : fs.required "isCall" flag = .ok r.isCall :=
    required_eq hfs (by simp) (restores_flag _)
  have htype : fs.required "typeOnly" flag = .ok r.typeOnly :=
    required_eq hfs (by simp) (restores_flag _)
  have hread : Reference.shape.read .direct (.obj fs) = .ok fs := by
    apply read_eq _ rfl hfs.nodup
    simp [Reference.shape, passes_of_optional, passes_of_required, horigin, hname, hmember, hline,
      hcall, htype]
  simp [Reference.ofJson, hread, horigin, hname, hmember, hline, hcall, htype]

theorem Outline.restores (o : Outline) : Outline.ofJson.Restores o.toJson o := by
  apply restores_object (by simp)
  intro fs hfs
  have hlanguage : fs.required "language" Language.ofJson = .ok o.language :=
    required_eq hfs (by simp) (Language.restores _)
  have himports : fs.required "imports" (list Import.ofJson) = .ok o.imports :=
    required_eq hfs (by simp) (restores_list fun i _ => i.restores)
  have hsymbols : fs.required "symbols" (list Declaration.ofJson) = .ok o.declarations :=
    required_eq hfs (by simp) (restores_list fun d _ => d.restores)
  have hreferences : fs.required "references" (list Reference.ofJson) = .ok o.references :=
    required_eq hfs (by simp) (restores_list fun r _ => r.restores)
  have hread : Outline.shape.read .direct (.obj fs) = .ok fs := by
    apply read_eq _ rfl hfs.nodup
    simp [Outline.shape, passes_of_required, hlanguage, himports, hsymbols, hreferences]
  simp [Outline.ofJson, hread, hlanguage, himports, hsymbols, hreferences]

theorem Dependency.restores (d : Dependency) : Dependency.ofJson.Restores d.toJson d := by
  apply restores_object (by simp)
  intro fs hfs
  have hsource : fs.required "sourcePath" text = .ok d.source :=
    required_eq hfs (by simp) (restores_text _)
  have htarget : fs.required "targetPath" text = .ok d.target :=
    required_eq hfs (by simp) (restores_text _)
  have hkind : fs.required "importType" ImportKind.ofJson = .ok d.kind :=
    required_eq hfs (by simp) (ImportKind.restores _)
  have hline : fs.required "line" count = .ok d.line :=
    required_eq hfs (by simp) (restores_natural _ _)
  have hspecifier : fs.required "moduleSpecifier" text = .ok d.specifier :=
    required_eq hfs (by simp) (restores_text _)
  have hread : Dependency.shape.read .direct (.obj fs) = .ok fs := by
    apply read_eq _ rfl hfs.nodup
    simp [Dependency.shape, passes_of_required, hsource, htarget, hkind, hline, hspecifier]
  simp [Dependency.ofJson, hread, hsource, htarget, hkind, hline, hspecifier]

/-! ### Numbers of outlines

What an outline counts fits in 64 bits.
-/

def Import.InRange (i : Import) : Prop := i.line < limit64
deriving Decidable

def Declaration.InRange (d : Declaration) : Prop := d.line < limit64 ∧ d.endLine < limit64
deriving Decidable

def Reference.InRange (r : Reference) : Prop := r.line < limit64
deriving Decidable

def Dependency.InRange (d : Dependency) : Prop := d.line < limit64
deriving Decidable

structure Outline.InRange (o : Outline) : Prop where
  imports : ∀ i ∈ o.imports, i.InRange
  declarations : ∀ d ∈ o.declarations, d.InRange
  references : ∀ r ∈ o.references, r.InRange

theorem Binding.portable (b : Binding) : b.toJson.Portable (depth + 1) :=
  portable_object (by simp [portable_str, portable_bool])

theorem Import.portable {i : Import} (h : i.InRange) : i.toJson.Portable (depth + 3) := by
  have hbindings : (Json.arr (i.bindings.map Binding.toJson)).Portable (depth + 2) :=
    portable_arr (List.forall_mem_map.mpr fun b _ => b.portable)
  exact portable_object (by simp [portable_str, portable_nat h, hbindings])

theorem Param.portable (p : Param) : p.toJson.Portable (depth + 1) :=
  portable_object (by cases p.typeName <;> simp [Json.field?, portable_str, portable_bool])

theorem Signature.portable (s : Signature) : s.toJson.Portable (depth + 3) := by
  have hparams : (Json.arr (s.params.map Param.toJson)).Portable (depth + 2) :=
    portable_arr (List.forall_mem_map.mpr fun p _ => p.portable)
  apply portable_object
  cases s.returnType <;> simp [Json.field?, portable_str, portable_bool, hparams]

theorem Declaration.portable {d : Declaration} (h : d.InRange) :
    d.toJson.Portable (depth + 4) := by
  apply portable_object
  cases d.parent <;> cases d.signature <;>
    simp [Json.field?, portable_str, portable_bool, portable_nat h.1, portable_nat h.2,
      Signature.portable]

theorem Reference.portable {r : Reference} (h : r.InRange) : r.toJson.Portable (depth + 1) := by
  apply portable_object
  cases r.origin <;> cases r.member <;>
    simp [Json.field?, portable_str, portable_bool, portable_nat h]

theorem Outline.portable {o : Outline} (h : o.InRange) : o.toJson.Portable (depth + 6) := by
  have himports : (Json.arr (o.imports.map Import.toJson)).Portable (depth + 5) :=
    portable_arr (List.forall_mem_map.mpr fun i hi => Import.portable (h.imports i hi))
  have hdeclarations : (Json.arr (o.declarations.map Declaration.toJson)).Portable (depth + 5) :=
    portable_arr (List.forall_mem_map.mpr fun d hd => Declaration.portable (h.declarations d hd))
  have hreferences : (Json.arr (o.references.map Reference.toJson)).Portable (depth + 5) :=
    portable_arr (List.forall_mem_map.mpr fun r hr => Reference.portable (h.references r hr))
  exact portable_object (by simp [portable_str, himports, hdeclarations, hreferences])

theorem Dependency.portable {d : Dependency} (h : d.InRange) : d.toJson.Portable (depth + 1) :=
  portable_object (by simp [portable_str, portable_nat h])

/-! ## Settings of a workspace -/

/-- What the types of the fields promise: numbers fit in 64 bits, and the aliases are a map. -/
structure WorkspaceConfig.WellFormed (c : WorkspaceConfig) : Prop where
  maxDepth : c.maxDepth < limit64
  debounce : c.debounce < limit64
  maxFiles : c.maxFiles < limit64
  aliases : c.aliases.Pairwise (·.1 < ·.1)

theorem WorkspaceConfig.restores (c : WorkspaceConfig) (h : c.aliases.Pairwise (·.1 < ·.1))
    (s : Settings) (origin : Origin) : (ofJson s origin).Restores c.toJson c := by
  apply restores_object (by simp)
  intro fs hfs
  have hroot x : fs.orElse "workspaceRoot" x (textAs "path string") = .ok c.root :=
    orElse_eq hfs (by simp) (restores_textAs _ _) _
  have hmaxDepth x : fs.orElse "maxDepth" x count = .ok c.maxDepth :=
    orElse_eq hfs (by simp) (restores_natural _ _) _
  have haliases x : fs.orElse "aliases" x (table text) = .ok c.aliases := by
    refine orElse_eq hfs ?_ (restores_table h) _
    simp
    rfl
  have hexclude x : fs.orElse "excludePatterns" x (list text) = .ok c.exclude :=
    orElse_eq hfs (by simp [Json.strings]) (restores_list fun s _ => restores_text s) _
  have hrespect x : fs.orElse "respectGitignore" x flag = .ok c.respectIgnoreFiles :=
    orElse_eq hfs (by simp) (restores_flag _) _
  have hwarmup x : fs.orElse "enableWarmup" x flag = .ok c.warmup :=
    orElse_eq hfs (by simp) (restores_flag _) _
  have hwatch x : fs.orElse "enableFileWatcher" x flag = .ok c.watch :=
    orElse_eq hfs (by simp) (restores_flag _) _
  have hdebounce x : fs.orElse "debounceMs" x milliseconds = .ok c.debounce :=
    orElse_eq hfs (by simp) (restores_natural _ _) _
  have hmaxFiles x : fs.orElse "maxFiles" x count = .ok c.maxFiles :=
    orElse_eq hfs (by simp) (restores_natural _ _) _
  have hpaths x : fs.orElse "tsconfigPaths" x flag = .ok c.compilerPaths :=
    orElse_eq hfs (by simp) (restores_flag _) _
  have hread : shape.read origin (.obj fs) = .ok fs := by
    apply read_eq _ rfl hfs.nodup
    simp [shape, passes_of_orElse, hroot, hmaxDepth, haliases, hexclude, hrespect, hwarmup, hwatch,
      hdebounce, hmaxFiles, hpaths]
  simp [ofJson, hread, hroot, hmaxDepth, haliases, hexclude, hrespect, hwarmup, hwatch, hdebounce,
    hmaxFiles, hpaths]

theorem WorkspaceConfig.portable {c : WorkspaceConfig} (h : c.WellFormed) :
    c.toJson.Portable (depth + 2) := by
  have haliases : (Json.object (c.aliases.map fun e => (e.1, .str e.2))).Portable (depth + 1) :=
    portable_object (List.forall_mem_map.mpr fun e _ => portable_str e.2)
  have hexclude : (Json.strings c.exclude).Portable (depth + 1) :=
    portable_arr (List.forall_mem_map.mpr fun s _ => portable_str s)
  apply portable_object
  simp [portable_str, portable_bool, portable_nat h.maxDepth, portable_nat h.debounce,
    portable_nat h.maxFiles, haliases, hexclude]

end DepAtlas
