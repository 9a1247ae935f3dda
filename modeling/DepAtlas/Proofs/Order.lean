import DepAtlas.Text.Order
import Mathlib.Data.Finset.Card
import Mathlib.Data.List.Sort
import Mathlib.Data.String.Basic

/-! # Texts in order

Sorting keeps what a list holds. In a list that is in order, equal texts stand together, so taking out
repetitions leaves each text once.
-/

namespace DepAtlas.Text

section Repetitions

variable {α : Type*} [BEq α]

theorem eraseRepsBy_loop (a : α) (xs acc : List α) :
    List.eraseRepsBy.loop (· == ·) a xs acc = acc.reverse ++ (a :: xs).eraseReps := by
  induction xs generalizing a acc with
  | nil => simp [List.eraseReps, List.eraseRepsBy, List.eraseRepsBy.loop]
  | cons b xs ih =>
    unfold List.eraseReps List.eraseRepsBy
    simp only [List.eraseRepsBy.loop]
    split
    · rw [ih, ih]; simp
    · rw [ih, ih]; simp

theorem eraseReps_cons_cons (a b : α) (xs : List α) :
    (a :: b :: xs).eraseReps =
      if a == b then (a :: xs).eraseReps else a :: (b :: xs).eraseReps := by
  conv_lhs => unfold List.eraseReps List.eraseRepsBy
  simp only [List.eraseRepsBy.loop]
  split <;> rename_i h <;> simp [h, eraseRepsBy_loop]

variable [LawfulBEq α]

theorem eraseReps_sublist (xs : List α) : xs.eraseReps.Sublist xs := by
  induction xs with
  | nil => exact .slnil
  | cons a xs ih =>
    cases xs with
    | nil => exact List.Sublist.refl _
    | cons b xs =>
      rw [eraseReps_cons_cons]
      split
      · rename_i h
        obtain rfl := beq_iff_eq.mp h
        exact ih.cons _
      · exact ih.cons_cons _

theorem mem_eraseReps {x : α} {xs : List α} : x ∈ xs.eraseReps ↔ x ∈ xs := by
  refine ⟨fun h => (eraseReps_sublist xs).subset h, fun h => ?_⟩
  induction xs with
  | nil => exact h
  | cons a xs ih =>
    cases xs with
    | nil => exact h
    | cons b xs =>
      rw [eraseReps_cons_cons]
      split
      · rename_i he
        obtain rfl := beq_iff_eq.mp he
        exact ih (by simpa using h)
      · rcases List.mem_cons.mp h with rfl | h
        · exact List.mem_cons_self
        · exact List.mem_cons_of_mem _ (ih h)

end Repetitions

theorem nodup_eraseDups {α : Type*} [DecidableEq α] (xs : List α) : xs.eraseDups.Nodup := by
  match xs with
  | [] => exact List.nodup_nil
  | x :: xs =>
    rw [List.eraseDups_cons, List.nodup_cons, List.mem_eraseDups]
    exact ⟨by simp, nodup_eraseDups _⟩
termination_by xs.length
decreasing_by exact Nat.lt_succ_of_le (List.length_filter_le _ _)

theorem eraseDups_sublist {α : Type*} [DecidableEq α] (xs : List α) :
    xs.eraseDups.Sublist xs := by
  match xs with
  | [] => exact .slnil
  | x :: xs =>
    rw [List.eraseDups_cons]
    exact ((eraseDups_sublist _).trans List.filter_sublist).cons_cons x
termination_by xs.length
decreasing_by exact Nat.lt_succ_of_le (List.length_filter_le _ _)

theorem nodup_eraseReps {α : Type*} [LinearOrder α] {xs : List α} (h : xs.Pairwise (· ≤ ·)) :
    xs.eraseReps.Nodup := by
  induction xs with
  | nil => exact List.nodup_nil
  | cons a xs ih =>
    cases xs with
    | nil => exact List.nodup_singleton a
    | cons b xs =>
      rw [eraseReps_cons_cons]
      obtain ⟨ha, hb⟩ := List.pairwise_cons.mp h
      split
      · rename_i he
        obtain rfl := beq_iff_eq.mp he
        exact ih hb
      · rename_i he
        refine List.nodup_cons.mpr ⟨fun hm => ?_, ih hb⟩
        -- `a` would come again after the larger `b`
        rcases List.mem_cons.mp (mem_eraseReps.mp hm) with rfl | hm
        · simp at he
        · have hba := (List.pairwise_cons.mp hb).1 a hm
          exact he (beq_iff_eq.mpr (le_antisymm (ha b List.mem_cons_self) hba))

theorem le_iff {a b : String} : le a b = true ↔ a ≤ b := by
  unfold le
  rw [Bool.not_eq_true', decide_eq_false_iff_not]
  exact not_lt

theorem mem_sorted {x : String} {xs : List String} : x ∈ sorted xs ↔ x ∈ xs :=
  List.mem_mergeSort

theorem pairwise_sorted (xs : List String) : (sorted xs).Pairwise (· ≤ ·) := by
  have h := @List.pairwise_mergeSort _ le
    (fun a b c hab hbc => le_iff.mpr ((le_iff.mp hab).trans (le_iff.mp hbc)))
    (fun a b => by simpa only [Bool.or_eq_true, le_iff] using le_total a b) xs
  exact h.imp le_iff.mp

theorem mem_sortedOnce {x : String} {xs : List String} : x ∈ sortedOnce xs ↔ x ∈ xs :=
  mem_eraseReps.trans mem_sorted

theorem nodup_sortedOnce (xs : List String) : (sortedOnce xs).Nodup :=
  nodup_eraseReps (pairwise_sorted xs)

theorem strictly_sortedOnce (xs : List String) : (sortedOnce xs).Pairwise (· < ·) := by
  have hle := (pairwise_sorted xs).sublist (eraseReps_sublist _)
  exact hle.imp₂ (fun _ _ => lt_of_le_of_ne) (nodup_sortedOnce xs)

/-- What is in order is told by its members alone. -/
theorem sortedOnce_congr {xs ys : List String} (h : ∀ x, x ∈ xs ↔ x ∈ ys) :
    sortedOnce xs = sortedOnce ys :=
  (strictly_sortedOnce xs).eq_of_mem_iff (strictly_sortedOnce ys) fun x => by
    rw [mem_sortedOnce, mem_sortedOnce, h]

theorem length_sortedOnce (xs : List String) : (sortedOnce xs).length = xs.toFinset.card := by
  rw [← List.toFinset_card_of_nodup (nodup_sortedOnce xs)]
  congr 1
  ext x
  simp [mem_sortedOnce]

end DepAtlas.Text
