import DepAtlas.Json.Decode
import DepAtlas.Proofs.JsonText
import Mathlib.Data.List.Induction
import Mathlib.Data.List.Sort
import Mathlib.Data.String.Basic

/-! # Spellings of a value

The fields of an object may stand in any order. A value spells another one if it has no key twice
and the other one is its normal form. Encoders give values in normal form, and what is decoded is
any spelling of them.
-/

namespace DepAtlas.Json

open Decode (Fields)

/-! ## Fields in order -/

section Sorting

variable {α : Type} {key : String} {value : α} {f : String × α} {fs gs : List (String × α)}

theorem mem_of_mem_insertField (h : f ∈ insertField key value fs) : f = (key, value) ∨ f ∈ fs := by
  induction fs with
  | nil => exact .inl (List.mem_singleton.mp h)
  | cons g fs ih =>
    unfold insertField at h
    split at h
    · exact List.mem_cons.mp h
    · split at h
      · exact (List.mem_cons.mp h).imp_right (List.mem_cons_of_mem _)
      · rcases List.mem_cons.mp h with rfl | h
        · exact .inr List.mem_cons_self
        · exact (ih h).imp_right (List.mem_cons_of_mem _)

theorem pairwise_insertField (h : fs.Pairwise (·.1 < ·.1)) :
    (insertField key value fs).Pairwise (·.1 < ·.1) := by
  induction fs with
  | nil => exact List.pairwise_singleton _ _
  | cons g fs ih =>
    obtain ⟨hg, hfs⟩ := List.pairwise_cons.mp h
    unfold insertField
    split
    · rename_i hlt
      refine List.pairwise_cons.mpr ⟨?_, h⟩
      intro f hf
      rcases List.mem_cons.mp hf with rfl | hf
      · exact hlt
      · exact hlt.trans (hg f hf)
    · rename_i hlt
      split
      · rename_i heq
        subst heq
        exact List.pairwise_cons.mpr ⟨hg, hfs⟩
      · rename_i hne
        refine List.pairwise_cons.mpr ⟨?_, ih hfs⟩
        intro f hf
        rcases mem_of_mem_insertField hf with rfl | hf
        · exact lt_of_le_of_ne (not_lt.mp hlt) (Ne.symm hne)
        · exact hg f hf

theorem insertField_perm (h : ∀ f ∈ fs, key ≠ f.1) :
    (insertField key value fs).Perm ((key, value) :: fs) := by
  induction fs with
  | nil => exact .refl _
  | cons g fs ih =>
    unfold insertField
    split
    · exact .refl _
    · rw [if_neg (h g List.mem_cons_self)]
      have hfs := ih fun f hf => h f (List.mem_cons_of_mem _ hf)
      exact (hfs.cons g).trans (.swap _ _ _)

theorem sortFields_concat (fs : List (String × α)) (f : String × α) :
    sortFields (fs ++ [f]) = insertField f.1 f.2 (sortFields fs) := by
  simp [sortFields]

theorem mem_of_mem_sortFields (h : f ∈ sortFields fs) : f ∈ fs := by
  induction fs using List.reverseRecOn with
  | nil => exact h
  | append_singleton fs g ih =>
    rw [sortFields_concat] at h
    rcases mem_of_mem_insertField h with rfl | h
    · exact List.mem_append_right _ List.mem_cons_self
    · exact List.mem_append_left _ (ih h)

theorem pairwise_sortFields (fs : List (String × α)) : (sortFields fs).Pairwise (·.1 < ·.1) := by
  induction fs using List.reverseRecOn with
  | nil => exact .nil
  | append_singleton fs g ih =>
    rw [sortFields_concat]
    exact pairwise_insertField ih

theorem nodup_keys_of_pairwise (h : fs.Pairwise (·.1 < ·.1)) : (fs.map (·.1)).Nodup :=
  List.pairwise_map.mpr (h.imp ne_of_lt)

theorem sortFields_perm (h : (fs.map (·.1)).Nodup) : (sortFields fs).Perm fs := by
  induction fs using List.reverseRecOn with
  | nil => exact .refl _
  | append_singleton fs g ih =>
    rw [List.map_append, List.nodup_append] at h
    obtain ⟨hfs, -, hg⟩ := h
    have hnew : ∀ f ∈ sortFields fs, g.1 ≠ f.1 := by
      intro f hf
      exact (hg f.1 (List.mem_map_of_mem (mem_of_mem_sortFields hf)) g.1 (by simp)).symm
    rw [sortFields_concat]
    calc insertField g.1 g.2 (sortFields fs)
      _ |>.Perm (g :: sortFields fs) := insertField_perm hnew
      _ |>.Perm (g :: fs) := (ih hfs).cons g
      _ |>.Perm (fs ++ [g]) := (List.perm_append_singleton g fs).symm

/-- There is one order in which the keys ascend. -/
theorem eq_of_perm_of_pairwise (h : fs.Perm gs) (hfs : fs.Pairwise (·.1 < ·.1))
    (hgs : gs.Pairwise (·.1 < ·.1)) : fs = gs :=
  h.eq_of_pairwise (fun _ _ _ _ hab hba => absurd hba hab.not_gt) hfs hgs

theorem sortFields_of_perm (h : fs.Perm gs) (hgs : gs.Pairwise (·.1 < ·.1)) :
    sortFields fs = gs := by
  have hfs : (fs.map (·.1)).Nodup := (h.map _).nodup_iff.mpr (nodup_keys_of_pairwise hgs)
  exact eq_of_perm_of_pairwise ((sortFields_perm hfs).trans h) (pairwise_sortFields fs) hgs

end Sorting

/-! ## Looking up -/

variable {fs gs : Fields} {key : String} {j k : Json}

@[simp] theorem get?_cons (l : String) (v : Json) (fs : List (String × Json)) (key : String) :
    Fields.get? ((l, v) :: fs) key = if l = key then some v else Fields.get? fs key := by
  by_cases h : l = key <;> simp [Fields.get?, h]

@[simp] theorem get?_field? {α : Type} (l : String) (o : Option α) (write : α → Json)
    (os : List (Option (String × Json))) (key : String) :
    Fields.get? ((field? l o write :: os).filterMap fun x => x) key =
      if l = key then (o.map write).or (Fields.get? (os.filterMap fun x => x) key)
      else Fields.get? (os.filterMap fun x => x) key := by
  cases o <;> simp [field?]

@[simp] theorem get?_nil (key : String) : Fields.get? [] key = none := rfl

theorem get?_eq_some_iff (h : (fs.map (·.1)).Nodup) : fs.get? key = some j ↔ (key, j) ∈ fs := by
  induction fs with
  | nil => simp
  | cons f fs ih =>
    obtain ⟨l, v⟩ := f
    obtain ⟨hl, hfs⟩ := List.nodup_cons.mp h
    rw [get?_cons]
    by_cases heq : l = key
    · subst heq
      have hnot : (l, j) ∉ fs := fun hmem => hl (List.mem_map.mpr ⟨_, hmem, rfl⟩)
      simp [hnot, eq_comm]
    · rw [if_neg heq, ih hfs]
      simp [Ne.symm heq]

theorem get?_perm (h : fs.Perm gs) (hn : (gs.map (·.1)).Nodup) (key : String) :
    fs.get? key = gs.get? key := by
  have hfs : (fs.map (·.1)).Nodup := (h.map _).nodup_iff.mpr hn
  ext v
  rw [get?_eq_some_iff hfs, get?_eq_some_iff hn, h.mem_iff]

theorem get?_map (f : Json → Json) (fs : Fields) (key : String) :
    Fields.get? (fs.map fun g => (g.1, f g.2)) key = (fs.get? key).map f := by
  induction fs with
  | nil => rfl
  | cons g fs ih =>
    rw [List.map_cons, get?_cons, ih, get?_cons, apply_ite (Option.map f)]
    rfl

/-! ## Members of a value -/

/-- A value has what its members pass on to it. -/
theorem members_induction {P : Json → Prop}
    (atom : ∀ j, (∀ xs, j ≠ arr xs) → (∀ fs, j ≠ obj fs) → P j)
    (list : ∀ xs, (∀ x ∈ xs, P x) → P (arr xs))
    (object : ∀ fs, (∀ f ∈ fs, P f.2) → P (obj fs)) (j : Json) : P j := by
  match j with
  | null | bool _ | num _ | str _ => exact atom _ (by simp) (by simp)
  | arr xs =>
    apply list
    intro x hx
    exact members_induction atom list object x
  | obj fs =>
    apply object
    rintro ⟨key, v⟩ hf
    have hlt : sizeOf v < sizeOf fs := by
      have hpair := List.sizeOf_lt_of_mem hf
      rw [Prod.mk.sizeOf_spec] at hpair
      omega
    exact members_induction atom list object v

theorem normalItems_eq (xs : List Json) : normalItems xs = xs.map normal := by
  induction xs with
  | nil => rfl
  | cons x xs ih => rw [normalItems, ih, List.map_cons]

theorem normalFields_eq (fs : Fields) : normalFields fs = fs.map fun f => (f.1, f.2.normal) := by
  induction fs with
  | nil => rfl
  | cons f fs ih => rw [normalFields, ih, List.map_cons]

theorem normal_arr (xs : List Json) : (arr xs).normal = arr (xs.map normal) := by
  rw [normal, normalItems_eq]

theorem normal_obj (fs : Fields) :
    (obj fs).normal = object (fs.map fun f => (f.1, f.2.normal)) := by
  rw [normal, normalFields_eq]

theorem normal_atom (harr : ∀ xs, j ≠ arr xs) (hobj : ∀ fs, j ≠ obj fs) : j.normal = j := by
  cases j with
  | arr xs => exact absurd rfl (harr xs)
  | obj fs => exact absurd rfl (hobj fs)
  | _ => rfl

theorem legibleItems_iff {xs : List Json} {depth : Nat} :
    LegibleItems xs depth ↔ ∀ x ∈ xs, x.Legible depth := by
  induction xs with
  | nil => simp [LegibleItems]
  | cons x xs ih => simp [LegibleItems, ih]

theorem legibleFields_iff {depth : Nat} :
    LegibleFields fs depth ↔ ∀ f ∈ fs, f.2.Legible depth := by
  induction fs with
  | nil => simp [LegibleFields]
  | cons f fs ih => simp [LegibleFields, ih]

/-- No object in the value has a key twice. -/
inductive Distinct : Json → Prop
  | atom {j : Json} (harr : ∀ xs, j ≠ arr xs) (hobj : ∀ fs, j ≠ obj fs) : Distinct j
  | arr {xs : List Json} (h : ∀ x ∈ xs, Distinct x) : Distinct (arr xs)
  | obj {fs : List (String × Json)} (hkeys : (fs.map (·.1)).Nodup)
      (h : ∀ f ∈ fs, Distinct f.2) : Distinct (obj fs)

theorem distinct_normal (j : Json) : j.normal.Distinct := by
  induction j using members_induction with
  | atom j harr hobj =>
    rw [normal_atom harr hobj]
    exact .atom harr hobj
  | list xs ih =>
    rw [normal_arr]
    apply Distinct.arr
    intro y hy
    obtain ⟨x, hx, rfl⟩ := List.mem_map.mp hy
    exact ih x hx
  | object fs ih =>
    rw [normal_obj]
    refine .obj (nodup_keys_of_pairwise (pairwise_sortFields _)) ?_
    intro g hg
    obtain ⟨f, hf, rfl⟩ := List.mem_map.mp (mem_of_mem_sortFields hg)
    exact ih f hf

/-! ## Spellings -/

/-- The value is the other one with the fields of its objects in some order. -/
structure Spells (j k : Json) : Prop where
  distinct : j.Distinct
  normal : j.normal = k

theorem spells_self (h : k.normal = k) : k.Spells k := by
  constructor
  · rw [← h]
    exact distinct_normal k
  · exact h

theorem Spells.eq (h : j.Spells k) (harr : ∀ xs, k ≠ arr xs) (hobj : ∀ fs, k ≠ obj fs) : j = k := by
  obtain ⟨-, rfl⟩ := h
  symm
  apply normal_atom
  · rintro xs rfl
    exact harr _ (normal_arr xs)
  · rintro fs rfl
    exact hobj _ (normal_obj fs)

theorem Spells.items {ys : List Json} (h : j.Spells (arr ys)) :
    ∃ xs, j = arr xs ∧ List.Forall₂ Spells xs ys := by
  obtain ⟨hd, hnormal⟩ := h
  cases hd with
  | atom harr hobj =>
    rw [normal_atom harr hobj] at hnormal
    exact absurd hnormal (harr ys)
  | @arr xs h =>
    rw [normal_arr] at hnormal
    cases hnormal
    refine ⟨xs, rfl, ?_⟩
    rw [List.forall₂_map_right_iff, List.forall₂_same]
    intro x hx
    exact ⟨h x hx, rfl⟩
  | obj => cases hnormal

/-- The fields of a record, in any order and each value in any spelling. -/
structure FieldsSpell (fs gs : Fields) : Prop where
  nodup : (fs.map (·.1)).Nodup
  distinct : ∀ f ∈ fs, f.2.Distinct
  perm : (fs.map fun f => (f.1, f.2.normal)).Perm gs

theorem Spells.fields (h : j.Spells (object gs)) (hn : (gs.map (·.1)).Nodup) :
    ∃ fs, j = obj fs ∧ FieldsSpell fs gs := by
  obtain ⟨hd, hnormal⟩ := h
  cases hd with
  | atom harr hobj =>
    rw [normal_atom harr hobj] at hnormal
    exact absurd hnormal (hobj _)
  | arr => cases hnormal
  | @obj fs hkeys h =>
    rw [normal_obj] at hnormal
    have hsorted : sortFields (fs.map fun f => (f.1, f.2.normal)) = sortFields gs :=
      obj.inj hnormal
    have hmap : ((fs.map fun f => (f.1, f.2.normal)).map (·.1)).Nodup := by
      rw [List.map_map]
      exact hkeys
    refine ⟨fs, rfl, hkeys, h, ?_⟩
    calc fs.map fun f => (f.1, f.2.normal)
      _ |>.Perm (sortFields (fs.map fun f => (f.1, f.2.normal))) := (sortFields_perm hmap).symm
      _ |>.Perm (sortFields gs) := .of_eq hsorted
      _ |>.Perm gs := sortFields_perm hn

namespace FieldsSpell

variable (h : FieldsSpell fs gs)
include h

theorem nodup_right : (gs.map (·.1)).Nodup := by
  rw [← (h.perm.map _).nodup_iff, List.map_map]
  exact h.nodup

theorem map_get? (key : String) : (fs.get? key).map normal = gs.get? key := by
  rw [← get?_map, get?_perm h.perm h.nodup_right]

theorem exists_get? (hk : gs.get? key = some k) : ∃ j, fs.get? key = some j ∧ j.Spells k := by
  rw [← h.map_get?] at hk
  obtain ⟨j, hj, hnormal⟩ := Option.map_eq_some_iff.mp hk
  have hmem := (get?_eq_some_iff h.nodup).mp hj
  exact ⟨j, hj, h.distinct _ hmem, hnormal⟩

theorem get?_eq_none (hk : gs.get? key = none) : fs.get? key = none := by
  rw [← h.map_get?] at hk
  exact Option.map_eq_none_iff.mp hk

end FieldsSpell

theorem FieldsSpell.without {l : String} (h : FieldsSpell fs ((l, k) :: gs)) :
    FieldsSpell (fs.filter (·.1 ≠ l)) gs := by
  have hl : ∀ g ∈ gs, g.1 ≠ l := by
    rintro g hg rfl
    exact (List.nodup_cons.mp h.nodup_right).1 (List.mem_map.mpr ⟨g, hg, rfl⟩)
  constructor
  · exact h.nodup.sublist (List.filter_sublist.map _)
  · intro f hf
    exact h.distinct f (List.mem_filter.mp hf).1
  · have hgs : ((l, k) :: gs).filter (·.1 ≠ l) = gs := by
      rw [List.filter_cons_of_neg (by simp), List.filter_eq_self]
      exact fun g hg => decide_eq_true (hl g hg)
    have hperm := h.perm.filter (·.1 ≠ l)
    rwa [List.filter_map, hgs] at hperm

/-- The order of fields does not matter to whether a value is legible. -/
theorem Legible.of_normal {depth : Nat} (hd : j.Distinct) (h : j.normal.Legible depth) :
    j.Legible depth := by
  induction j using members_induction generalizing depth with
  | atom j harr hobj => rwa [normal_atom harr hobj] at h
  | list xs ih =>
    rw [normal_arr] at h
    obtain ⟨hdepth, hxs⟩ := h
    refine ⟨hdepth, legibleItems_iff.mpr ?_⟩
    intro x hx
    cases hd with
    | atom harr _ => exact absurd rfl (harr xs)
    | arr hd =>
      exact ih x hx (hd x hx) (legibleItems_iff.mp hxs _ (List.mem_map_of_mem hx))
  | object fs ih =>
    rw [normal_obj] at h
    obtain ⟨hdepth, hfs⟩ := h
    refine ⟨hdepth, legibleFields_iff.mpr ?_⟩
    intro f hf
    cases hd with
    | atom _ hobj => exact absurd rfl (hobj fs)
    | obj hkeys hd =>
      have hmap : ((fs.map fun f => (f.1, f.2.normal)).map (·.1)).Nodup := by
        rw [List.map_map]
        exact hkeys
      have hmem := (sortFields_perm hmap).mem_iff.mpr (List.mem_map_of_mem hf)
      exact ih f hf (hd f hf) (legibleFields_iff.mp hfs _ hmem)

/-! ## Encodings -/

/-- The value is in normal form and is read back from its text. -/
structure Portable (k : Json) (depth : Nat) : Prop where
  normal : k.normal = k
  legible : k.Legible depth

variable {depth : Nat}

theorem portable_str (s : String) : (str s).Portable depth := ⟨rfl, trivial⟩

theorem portable_bool (b : Bool) : (bool b).Portable depth := ⟨rfl, trivial⟩

theorem portable_nat {n : Nat} (h : n < limit64) : (nat n).Portable depth := by
  have hmax : n < 0x10000000000000000 := h
  have hrange : -0x8000000000000000 ≤ (n : Int) ∧ (n : Int) < 0x10000000000000000 := by omega
  exact ⟨rfl, hrange⟩

theorem portable_arr {xs : List Json} (h : ∀ x ∈ xs, x.Portable depth) :
    (arr xs).Portable (depth + 1) := by
  constructor
  · rw [normal_arr, List.map_congr_left fun x hx => (h x hx).normal, List.map_id']
  · exact ⟨Nat.succ_pos _, legibleItems_iff.mpr fun x hx => (h x hx).legible⟩

theorem normal_object (h : ∀ g ∈ gs, g.2.normal = g.2) : (object gs).normal = object gs := by
  have hsame : (sortFields gs).map (fun f => (f.1, f.2.normal)) = sortFields gs := by
    calc (sortFields gs).map (fun f => (f.1, f.2.normal))
      _ = (sortFields gs).map id := by
        apply List.map_congr_left
        intro g hg
        rw [h g (mem_of_mem_sortFields hg)]
        rfl
      _ = sortFields gs := List.map_id _
  rw [object, normal_obj, object, hsame, sortFields_of_perm (.refl _) (pairwise_sortFields gs)]

theorem portable_object (h : ∀ g ∈ gs, g.2.Portable depth) : (object gs).Portable (depth + 1) := by
  constructor
  · exact normal_object fun g hg => (h g hg).normal
  · refine ⟨Nat.succ_pos _, legibleFields_iff.mpr ?_⟩
    intro g hg
    exact (h g (mem_of_mem_sortFields hg)).legible

end DepAtlas.Json
