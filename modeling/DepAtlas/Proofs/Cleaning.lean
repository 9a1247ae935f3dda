import DepAtlas.Path
import Mathlib.Algebra.Order.Monoid.Unbundled.Basic
import Mathlib.Data.List.Basic

/-! # Where clean paths lead

Steps climb by some number of places above where they start, and go down from there by the names that no
later step up takes back. Cleaning keeps these names. Of the climb it keeps only whether it is odd, for
a step up takes back the step up before it. So a clean path leads where the path leads exactly if the
path climbs by one place at most.
-/

namespace DepAtlas

/-- Whether a step enters a name. -/
def Step.isName : Step → Bool
  | .enter _ => true
  | _ => false

namespace Path

variable {base p : Path} {steps done : List Step} {n : Nat}

/-- Nowhere on the way do steps stand more than `n` places above where they started. -/
def ClimbsAtMost (n : Nat) (steps : List Step) : Prop :=
  ∀ way, way <+: steps → way.count .up ≤ n + way.countP Step.isName

/-- How far steps climb above where they start. -/
def climb : List Step → Nat
  | [] => 0
  | .here :: steps => climb steps
  | .up :: steps => climb steps + 1
  | .enter _ :: steps => climb steps - 1

/-- The names by which steps go down in the end: those that the steps after them do not take back. -/
def descent : List Step → List Step
  | [] => []
  | .here :: steps | .up :: steps => descent steps
  | .enter name :: steps => if climb steps = 0 then .enter name :: descent steps else descent steps

theorem climbsAtMost_cons {s : Step} : ClimbsAtMost n (s :: steps) ↔
    ∀ way, way <+: steps → (s :: way).count .up ≤ n + (s :: way).countP Step.isName := by
  constructor
  · exact fun h way hway => h _ (List.cons_prefix_cons.mpr ⟨rfl, hway⟩)
  · intro h way hway
    rcases List.prefix_cons_iff.mp hway with rfl | ⟨rest, rfl, hrest⟩
    · exact Nat.zero_le _
    · exact h rest hrest

theorem climbsAtMost_iff : ClimbsAtMost n steps ↔ climb steps ≤ n := by
  induction steps generalizing n with
  | nil => simp [ClimbsAtMost, climb]
  | cons s steps ih =>
    rw [climbsAtMost_cons]
    cases s with
    | here =>
      rw [climb, ← ih]
      refine forall₂_congr fun way _ => ?_
      rw [List.count_cons_of_ne (by simp), List.countP_cons_of_neg (by decide)]
    | up =>
      cases n with
      | zero =>
        have hstart := fun h : ∀ way, way <+: steps → (Step.up :: way).count .up ≤
          0 + (Step.up :: way).countP Step.isName => h [] List.nil_prefix
        simpa [climb, Step.isName] using hstart
      | succ n =>
        rw [climb, Nat.add_le_add_iff_right, ← ih]
        refine forall₂_congr fun way _ => ?_
        rw [List.count_cons_self, List.countP_cons_of_neg (by decide)]
        omega
    | enter name =>
      rw [climb, Nat.sub_le_iff_le_add, ← ih]
      refine forall₂_congr fun way _ => ?_
      rw [List.count_cons_of_ne (by simp), List.countP_cons_of_pos rfl]
      omega

instance (n : Nat) (steps : List Step) : Decidable (ClimbsAtMost n steps) :=
  decidable_of_iff _ climbsAtMost_iff.symm

/-! ## Cleaning after steps that are done -/

/-- Where enough steps are done before, each place of the climb takes one of them back. -/
theorem foldl_cleanStep_of_climb_le (h : climb steps ≤ done.length) :
    steps.foldl cleanStep done = done.take (done.length - climb steps) ++ descent steps := by
  induction steps generalizing done with
  | nil => simp [climb, descent]
  | cons s steps ih =>
    rw [List.foldl_cons]
    cases s with
    | here => exact ih h
    | up =>
      rw [climb] at h
      have hne : done ≠ [] := by
        rintro rfl
        simp at h
      rw [cleanStep, if_neg hne, ih (by rw [List.length_dropLast]; omega), List.length_dropLast,
        List.dropLast_eq_take, List.take_take, climb, descent]
      congr 2
      omega
    | enter name =>
      rw [climb] at h
      rw [cleanStep, ih (by rw [List.length_append, List.length_singleton]; omega),
        List.length_append, List.length_singleton, climb, descent]
      split
      · rename_i hz
        rw [hz, Nat.sub_zero, Nat.zero_sub, Nat.sub_zero, List.take_length,
          List.take_of_length_le (by simp), List.append_assoc, List.singleton_append]
      · rename_i hz
        rw [List.take_append_of_le_length (by omega)]
        congr 2
        omega

/-- Where the climb goes on beyond what is done, a step up is kept and the next one takes it back. -/
theorem foldl_cleanStep_of_lt_climb (h : done.length < climb steps) :
    steps.foldl cleanStep done =
      List.replicate ((climb steps - done.length) % 2) Step.up ++ descent steps := by
  induction steps generalizing done with
  | nil => simp [climb] at h
  | cons s steps ih =>
    rw [List.foldl_cons]
    cases s with
    | here => exact ih h
    | up =>
      rw [climb] at h
      cases done with
      | nil =>
        rw [cleanStep, if_pos rfl, climb, descent, List.length_nil, Nat.sub_zero]
        by_cases hone : climb steps ≤ 1
        · rw [foldl_cleanStep_of_climb_le (by simpa using hone)]
          rcases Nat.le_one_iff_eq_zero_or_eq_one.mp hone with hz | hz <;> rw [hz] <;> rfl
        · rw [ih (by simpa using hone), List.length_singleton]
          congr 2
          omega
      | cons d done =>
        rw [List.length_cons] at h
        rw [cleanStep, if_neg (List.cons_ne_nil d done), ih (by simpa using h), List.length_dropLast,
          climb, descent]
        congr 3
        simp
    | enter name =>
      rw [climb] at h
      have hlt : done.length + 1 < climb steps := by omega
      rw [cleanStep, ih (by simpa using hlt), List.length_append, List.length_singleton, climb, descent,
        if_neg (by omega)]
      congr 3
      omega

/-! ## Clean paths -/

/-- A clean path keeps the descent, and whether the climb is odd. -/
theorem clean_steps (p : Path) :
    p.clean.steps = List.replicate (climb p.steps % 2) Step.up ++ descent p.steps := by
  rw [clean]
  rcases Nat.eq_zero_or_pos (climb p.steps) with hz | hpos
  · rw [foldl_cleanStep_of_climb_le (by simp [hz]), hz]
    rfl
  · rw [foldl_cleanStep_of_lt_climb (by simpa using hpos), List.length_nil, Nat.sub_zero]

theorem climb_append (steps more : List Step) :
    climb (steps ++ more) = climb steps + (climb more - (descent steps).length) := by
  induction steps with
  | nil => simp [climb, descent]
  | cons s steps ih =>
    rw [List.cons_append]
    cases s with
    | here => exact ih
    | up =>
      rw [climb, climb, ih, descent]
      omega
    | enter name =>
      rw [climb, climb, ih, descent]
      split
      · rw [List.length_cons]
        omega
      · omega

theorem climb_descent (steps : List Step) : climb (descent steps) = 0 := by
  induction steps with
  | nil => rfl
  | cons s steps ih =>
    cases s with
    | here | up => exact ih
    | enter name =>
      rw [descent]
      split
      · rw [climb, ih]
      · exact ih

theorem descent_descent (steps : List Step) : descent (descent steps) = descent steps := by
  induction steps with
  | nil => rfl
  | cons s steps ih =>
    cases s with
    | here | up => exact ih
    | enter name =>
      rw [descent]
      split
      · rw [descent, if_pos (climb_descent steps), ih]
      · exact ih

theorem climb_clean (p : Path) : climb p.clean.steps = climb p.steps % 2 := by
  rw [clean_steps]
  rcases Nat.mod_two_eq_zero_or_one (climb p.steps) with h | h <;> simp [h, climb, climb_descent]

theorem descent_clean (p : Path) : descent p.clean.steps = descent p.steps := by
  rw [clean_steps]
  rcases Nat.mod_two_eq_zero_or_one (climb p.steps) with h | h <;> simp [h, descent, descent_descent]

/-! ## Paths taken from a base -/

/-- From a base that is deep enough a path leads up by its climb and then down by its descent. -/
theorem clean_join (hp : p.rooted = false) (h : climb p.steps ≤ base.clean.steps.length) :
    (base.join p).clean = ⟨base.rooted,
      base.clean.steps.take (base.clean.steps.length - climb p.steps) ++ descent p.steps⟩ := by
  rw [join, hp, if_neg (by decide), ← foldl_cleanStep_of_climb_le h, clean, List.foldl_append]
  rfl

/-- A base is deep enough for a path with which it does not climb. -/
theorem climb_le_of_join (hp : p.rooted = false) (h : climb (base.join p).steps = 0) :
    climb p.steps ≤ base.clean.steps.length := by
  rw [join, hp, if_neg (by decide), climb_append] at h
  rw [clean_steps, List.length_append]
  omega

/-- Cleaning a path does not change where it leads from a base above which it does not climb, exactly if
it climbs by one place at most. -/
theorem clean_join_clean_eq_iff (hp : p.rooted = false)
    (hroot : ClimbsAtMost 0 (base.join p).steps) :
    (base.join p).clean = (base.join p.clean).clean ↔ ClimbsAtMost 1 p.steps := by
  have hdeep := climb_le_of_join hp (Nat.le_zero.mp (climbsAtMost_iff.mp hroot))
  have hclean : p.clean.rooted = false := hp
  have hless : climb p.clean.steps ≤ base.clean.steps.length :=
    (climb_clean p).trans_le ((Nat.mod_le _ _).trans hdeep)
  rw [clean_join hp hdeep, clean_join hclean hless, climb_clean, descent_clean, climbsAtMost_iff,
    Path.mk.injEq, and_iff_right rfl, List.append_cancel_right_eq, List.take_eq_take_iff]
  omega

theorem clean_join_clean_eq_iff_once :
    (ofText "c/../../d/./e").rooted = false ∧
      ClimbsAtMost 0 ((ofText "/a/b").join (ofText "c/../../d/./e")).steps ∧
      ((ofText "/a/b").join (ofText "c/../../d/./e")).clean =
        ((ofText "/a/b").join (ofText "c/../../d/./e").clean).clean :=
  ⟨by decide, by decide, (clean_join_clean_eq_iff (by decide) (by decide)).mpr (by decide)⟩

/-- Of two steps up nothing is left. -/
theorem climb_of_two_lost :
    (ofText "/a/b").rooted = true ∧ .up ∉ (ofText "/a/b").steps ∧ (ofText "../../x").rooted = false ∧
      ClimbsAtMost 0 ((ofText "/a/b").join (ofText "../../x")).steps ∧
      ((ofText "/a/b").join (ofText "../../x")).clean = ofText "/x" ∧
      ((ofText "/a/b").join (ofText "../../x").clean).clean = ofText "/a/b/x" ∧
      ofText "/x" ≠ ofText "/a/b/x" := by
  decide

end Path

end DepAtlas
