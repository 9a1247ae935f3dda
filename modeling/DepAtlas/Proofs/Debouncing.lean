import DepAtlas.Proofs.Bursts
import Mathlib.Data.List.Induction
import Mathlib.Data.List.Lex
import Mathlib.Data.Prod.Lex
import Mathlib.Data.String.Basic

/-! # Every path is debounced on its own

A debouncer holds the changes of all paths together. Still what waits for a path is told by what was
done with that path, by the looks and by the clears: it is what the changes noted since the path was
last told, cancelled or cleared come to, and it waits until some time after the last of them. A look
tells the paths whose time has come, in the order of their deadlines and then of the paths.
-/

namespace DepAtlas

/-! ## Paths in order -/

namespace Step

/-- The place of a step among all steps. -/
def rank : Step → ℕ ×ₗ String
  | here => toLex (0, "")
  | up => toLex (1, "")
  | enter name => toLex (2, name)

theorem rank_injective : Function.Injective rank := by
  intro a b h
  cases a <;> cases b <;> simp_all [rank]

theorem before_iff {a b : Step} : a.before b = true ↔ a.rank < b.rank := by
  cases a <;> cases b <;> simp [before, rank, Prod.Lex.toLex_lt_toLex]

end Step

namespace Path

variable {p q : Path}

/-- The place of a path among all paths. -/
def rank (p : Path) : Bool ×ₗ List (ℕ ×ₗ String) := toLex (!p.rooted, p.steps.map Step.rank)

theorem rank_injective : Function.Injective rank := by
  intro p q h
  obtain ⟨hr, hs⟩ := Prod.mk.inj (toLex.injective h)
  have hrooted : p.rooted = q.rooted := by simpa using hr
  have hsteps : p.steps = q.steps := List.map_injective_iff.mpr Step.rank_injective hs
  cases p
  cases q
  simp_all

theorem stepsBefore_iff {as bs : List Step} :
    stepsBefore as bs = true ↔ as.map Step.rank < bs.map Step.rank := by
  induction as generalizing bs with
  | nil => cases bs <;> simp [stepsBefore]
  | cons a as ih =>
    cases bs with
    | nil => simp [stepsBefore]
    | cons b bs =>
      simp only [stepsBefore, Bool.or_eq_true, Bool.and_eq_true, decide_eq_true_eq, ih,
        Step.before_iff, List.map_cons, List.cons_lt_cons_iff, Step.rank_injective.eq_iff]

theorem before_iff : p.before q = true ↔ p.rank < q.rank := by
  unfold before rank
  rw [Prod.Lex.toLex_lt_toLex, ← stepsBefore_iff]
  cases p.rooted <;> cases q.rooted <;> simp

theorem le_iff : p.le q = true ↔ p.rank ≤ q.rank := by
  rw [le, Bool.not_eq_true', ← Bool.not_eq_true, before_iff, not_lt]

end Path

namespace Watch

/-- The place of a waiting change among all: by its deadline, and then by its path. -/
def Pending.rank (x : Pending) : ℕ ×ₗ (Bool ×ₗ List (ℕ ×ₗ String)) := toLex (x.due, x.path.rank)

theorem Pending.le_iff {x y : Pending} : x.le y = true ↔ x.rank ≤ y.rank := by
  simp only [le, rank, Bool.or_eq_true, Bool.and_eq_true, decide_eq_true_eq, Path.le_iff,
    Prod.Lex.toLex_le_toLex]

namespace Debouncer

variable {d : Debouncer} {p : Path} {now : Nat}

/-! ## Looks -/

theorem Sound.get?_of_mem (h : d.Sound) {x : Pending} (hx : x ∈ d.pending) :
    d.get? x.path = some x := by
  have hmem : x ∈ d.pending.filter (·.path = x.path) := List.mem_filter.mpr ⟨hx, by simp⟩
  rwa [h.filter_path, Option.mem_toList] at hmem

theorem Sound.mem_take (h : d.Sound) {c : Change} :
    (p, c) ∈ (d.take now).1 ↔ ∃ x, d.get? p = some x ∧ x.due ≤ now ∧ x.change = c := by
  have hfilter : (p, c) ∈ (d.take now).1 ↔ (p, c) ∈ (d.take now).1.filter (·.1 = p) := by simp
  rw [hfilter, h.filter_take]
  simp [and_assoc]

theorem Sound.mem_paths_take (h : d.Sound) :
    p ∈ (d.take now).1.map (·.1) ↔ ∃ x, d.get? p = some x ∧ x.due ≤ now := by
  simp only [List.mem_map, Prod.exists, exists_and_right, exists_eq_right, h.mem_take]
  constructor
  · rintro ⟨-, x, hx, hdue, -⟩
    exact ⟨x, hx, hdue⟩
  · rintro ⟨x, hx, hdue⟩
    exact ⟨x.change, x, hx, hdue, rfl⟩

/-- No path is told twice. -/
theorem Sound.nodup_take (h : d.Sound) (now : Nat) : ((d.take now).1.map (·.1)).Nodup := by
  have hpaths : (d.take now).1.map (·.1) =
      ((d.pending.filter (·.due ≤ now)).mergeSort Pending.le).map (·.path) := by
    simp [take]
  rw [hpaths, ((List.mergeSort_perm _ _).map _).nodup_iff]
  exact h.filter _

/-- What is told comes in the order of the deadlines, and then of the paths. -/
theorem Sound.pairwise_take (h : d.Sound) (now : Nat) :
    (d.take now).1.Pairwise fun a b => ∀ x y, d.get? a.1 = some x → d.get? b.1 = some y →
      x.due < y.due ∨ x.due = y.due ∧ a.1.before b.1 = true := by
  have hsorted : ((d.pending.filter (·.due ≤ now)).mergeSort Pending.le).Pairwise
      fun x y => x.rank ≤ y.rank := by
    have hs := @List.pairwise_mergeSort _ Pending.le
      (fun x y z hxy hyz => Pending.le_iff.mpr
        ((Pending.le_iff.mp hxy).trans (Pending.le_iff.mp hyz)))
      (fun x y => by simpa only [Bool.or_eq_true, Pending.le_iff] using le_total x.rank y.rank)
      (d.pending.filter (·.due ≤ now))
    exact hs.imp Pending.le_iff.mp
  have hapart : ((d.pending.filter (·.due ≤ now)).mergeSort Pending.le).Pairwise
      fun x y => x.path ≠ y.path := by
    have hn : (((d.pending.filter (·.due ≤ now)).mergeSort Pending.le).map (·.path)).Nodup := by
      rw [((List.mergeSort_perm _ _).map _).nodup_iff]
      exact h.filter _
    exact List.pairwise_map.mp hn
  rw [take]
  dsimp only
  rw [List.pairwise_map]
  refine (hsorted.and hapart).imp_of_mem ?_
  rintro x y hx hy ⟨hle, hne⟩ u v hu hv
  have hwaits : ∀ z ∈ (d.pending.filter (·.due ≤ now)).mergeSort Pending.le,
      d.get? z.path = some z := fun z hz =>
    h.get?_of_mem (List.mem_of_mem_filter (List.mem_mergeSort.mp hz))
  obtain rfl := Option.some.inj ((hwaits x hx).symm.trans hu)
  obtain rfl := Option.some.inj ((hwaits y hy).symm.trans hv)
  rcases Prod.Lex.toLex_le_toLex.mp hle with hlt | ⟨heq, hpath⟩
  · exact Or.inl hlt
  · exact Or.inr ⟨heq, Path.before_iff.mpr (lt_of_le_of_ne hpath (Path.rank_injective.ne hne))⟩

/-- What was not told at a look goes on waiting. -/
theorem Sound.get?_take_eq (h : d.Sound) (p : Path) (now : Nat) :
    (d.take now).2.get? p = (d.get? p).filter fun x => !decide (x.due ≤ now) := by
  cases hp : d.get? p with
  | none =>
    have hnot : ∀ x ∈ d.pending, x.path ≠ p := by simpa [get?] using hp
    simp only [take, get?, Option.filter_none, List.find?_eq_none, decide_eq_true_eq]
    exact fun x hx => hnot x (List.mem_of_mem_filter hx)
  | some x =>
    by_cases hdue : x.due ≤ now
    · simp only [take, get?, Option.filter_some, hdue, decide_true, Bool.not_true,
        Bool.false_eq_true, if_false, List.find?_eq_none, List.mem_filter, decide_eq_true_eq]
      rintro y ⟨hy, hlate⟩ rfl
      obtain rfl := Option.some.inj ((h.get?_of_mem hy).symm.trans hp)
      simp [hdue] at hlate
    · have hlate : ∀ y, d.get? p = some y → now < y.due := by
        intro y hy
        obtain rfl := Option.some.inj (hp.symm.trans hy)
        exact Nat.lt_of_not_le hdue
      rw [h.get?_take hlate, hp, Option.filter_some, if_pos (by simpa using hdue)]

theorem Sound.get?_take_of_told (h : d.Sound) (p : Path) (now : Nat) :
    (d.take now).2.get? p = if p ∈ (d.take now).1.map (·.1) then none else d.get? p := by
  rw [h.get?_take_eq]
  cases hp : d.get? p with
  | none => simp
  | some x =>
    have htold : p ∈ (d.take now).1.map (·.1) ↔ x.due ≤ now := by simp [h.mem_paths_take, hp]
    rw [Option.filter_some]
    by_cases hdue : x.due ≤ now
    · rw [if_neg (by simpa using hdue), if_pos (htold.mpr hdue)]
    · rw [if_pos (by simpa using hdue), if_neg (mt htold.mp hdue)]

theorem Sound.next?_eq_some_iff (h : d.Sound) {t : Nat} :
    d.next? = some t ↔
      (∃ p x, d.get? p = some x ∧ x.due = t) ∧ ∀ p x, d.get? p = some x → t ≤ x.due := by
  rw [next?, List.min?_eq_some_iff]
  constructor
  · rintro ⟨hmem, hleast⟩
    obtain ⟨x, hx, rfl⟩ := List.mem_map.mp hmem
    exact ⟨⟨_, x, h.get?_of_mem hx, rfl⟩,
      fun p y hy => hleast _ (List.mem_map_of_mem (mem_of_get? hy).1)⟩
  · rintro ⟨⟨p, x, hx, rfl⟩, hleast⟩
    refine ⟨List.mem_map_of_mem (mem_of_get? hx).1, fun t ht => ?_⟩
    obtain ⟨y, hy, rfl⟩ := List.mem_map.mp ht
    exact hleast _ y (h.get?_of_mem hy)

/-- A look tells something as soon as the next deadline has come. -/
theorem Sound.take_ne_nil_iff (h : d.Sound) (now : Nat) :
    (d.take now).1 ≠ [] ↔ ∃ t, d.next? = some t ∧ t ≤ now := by
  have htold : (d.take now).1 ≠ [] ↔ ∃ x ∈ d.pending, x.due ≤ now := by
    rw [take, ne_eq, List.map_eq_nil_iff, ← List.length_eq_zero_iff, List.length_mergeSort,
      List.length_eq_zero_iff, List.filter_eq_nil_iff]
    simp
  rw [htold]
  constructor
  · rintro ⟨x, hx, hdue⟩
    cases hn : d.next? with
    | none =>
      rw [next?, List.min?_eq_none_iff, List.map_eq_nil_iff] at hn
      rw [hn] at hx
      cases hx
    | some t => exact ⟨t, rfl, ((h.next?_eq_some_iff.mp hn).2 _ x (h.get?_of_mem hx)).trans hdue⟩
  · rintro ⟨t, hn, hdue⟩
    obtain ⟨⟨p, x, hx, rfl⟩, -⟩ := h.next?_eq_some_iff.mp hn
    exact ⟨x, (mem_of_get? hx).1, hdue⟩

/-! ## Histories -/

/-- What can be done with a debouncer. Paths are given as they are written; by which path a file is
known is told by the files as they are then. -/
inductive Act where
  | schedule (t : FileTree) (path : Path) (change : Change) (now : Nat)
  | cancel (t : FileTree) (path : Path)
  | take (now : Nat)
  | clear

/-- The path that something is done with. Looks and clears are about all paths. -/
def Act.path? : Act → Option Path
  | schedule t path _ _ => some (t.settle path)
  | cancel t path => some (t.settle path)
  | take _ => none
  | clear => none

/-- Whether an act is done with a path, or with all paths. -/
def Act.concerns (p : Path) (x : Act) : Bool := x.path?.all (· = p)

def act (d : Debouncer) : Act → Debouncer
  | .schedule t path change now => d.schedule (t.settle path) change now
  | .cancel t path => (d.cancel (t.settle path)).2
  | .take now => (d.take now).2
  | .clear => d.clear

/-- A debouncer after all that was done with it. -/
def after (delay : Nat) (acts : List Act) : Debouncer := acts.foldl act (new delay)

/-- The debouncer of one path: the changes that wait, with their times, after one more act. All of them
are told at the first look for which the last one is old enough. -/
def note (delay : Nat) (p : Path) (log : List (Change × Nat)) : Act → List (Change × Nat)
  | .schedule t path change now => if t.settle path = p then log ++ [(change, now)] else log
  | .cancel t path => if t.settle path = p then [] else log
  | .take now => if log.getLast?.any (·.2 + delay ≤ now) then [] else log
  | .clear => []

/-- The changes of a path since it was last told, cancelled or cleared, with their times. -/
def untold (delay : Nat) (p : Path) (acts : List Act) : List (Change × Nat) :=
  acts.foldl (note delay p) []

/-- What waits for a path after some changes: all of them merged, until some time after the last. -/
def pendingOf (delay : Nat) (p : Path) : List (Change × Nat) → Option Pending
  | [] => none
  | first :: rest =>
    some ⟨p, (rest.map (·.1)).foldl Change.merge first.1, (rest.getLastD first).2 + delay⟩

variable {delay : Nat} {log : List (Change × Nat)}

theorem pendingOf_append (delay : Nat) (p : Path) (log : List (Change × Nat)) (c : Change)
    (now : Nat) :
    pendingOf delay p (log ++ [(c, now)]) =
      some ⟨p, ((pendingOf delay p log).map (·.change.merge c)).getD c, now + delay⟩ := by
  cases log with
  | nil => simp [pendingOf]
  | cons first rest => simp [pendingOf, List.getLastD_eq_getLast?]

theorem pendingOf_due (delay : Nat) (p : Path) (log : List (Change × Nat)) :
    (pendingOf delay p log).map (·.due) = log.getLast?.map (·.2 + delay) := by
  cases log with
  | nil => rfl
  | cons first rest => simp [pendingOf, List.getLast?_cons, List.getLastD_eq_getLast?]

theorem pendingOf_eq_some {x : Pending} :
    pendingOf delay p log = some x ↔ ∃ first rest, log = first :: rest ∧
      x = ⟨p, (rest.map (·.1)).foldl Change.merge first.1, (rest.getLastD first).2 + delay⟩ := by
  cases log with
  | nil => simp [pendingOf]
  | cons first rest => simp [pendingOf, eq_comm]

theorem get?_cancel_self (d : Debouncer) (p : Path) : (d.cancel p).2.get? p = none := by
  simp [cancel, get?]

theorem Sound.act (h : d.Sound) (x : Act) : (d.act x).Sound := by
  cases x with
  | schedule t path c now => exact h.schedule _ c now
  | cancel t path => exact h.filter _
  | take now => exact h.filter _
  | clear => exact sound_new 0

theorem delay_act (d : Debouncer) (x : Act) : (d.act x).delay = d.delay := by
  cases x <;> rfl

/-- One act does to what waits for a path what it does to the debouncer of that path alone. -/
theorem Sound.get?_act (h : d.Sound) (hp : d.get? p = pendingOf d.delay p log) (x : Act) :
    (d.act x).get? p = pendingOf d.delay p (note d.delay p log x) := by
  cases x with
  | schedule t path c now =>
    by_cases hpath : t.settle path = p
    · simp only [Debouncer.act, note, hpath, if_true]
      rw [get?_schedule_self, pendingOf_append, hp]
    · simp only [Debouncer.act, note, hpath, if_false]
      rw [get?_schedule_of_ne hpath, hp]
  | cancel t path =>
    by_cases hpath : t.settle path = p
    · simp only [Debouncer.act, note, hpath, if_true]
      exact get?_cancel_self d p
    · simp only [Debouncer.act, note, hpath, if_false]
      rw [get?_cancel_of_ne hpath, hp]
  | take now =>
    have hdue := pendingOf_due d.delay p log
    simp only [Debouncer.act, note]
    rw [h.get?_take_eq, hp]
    -- the deadline of what waits is that of the last change
    cases hw : pendingOf d.delay p log with
    | none =>
      rw [hw] at hdue
      obtain rfl : log = [] := by simpa using hdue.symm
      rfl
    | some y =>
      rw [hw] at hdue
      obtain ⟨last, hlast, hy⟩ := Option.map_eq_some_iff.mp hdue.symm
      by_cases hold : y.due ≤ now
      · simp [hlast, hy, hold, pendingOf]
      · simp [hlast, hy, hold, hw]
  | clear => rfl

theorem after_sound (delay : Nat) (acts : List Act) :
    (after delay acts).Sound ∧ (after delay acts).delay = delay := by
  refine List.foldlRecOn (motive := fun d : Debouncer => d.Sound ∧ d.delay = delay) acts act
    ⟨sound_new delay, rfl⟩ ?_
  rintro d ⟨hs, hd⟩ x -
  exact ⟨hs.act x, (delay_act d x).trans hd⟩

/-- After every history, what waits for a path is what its own debouncer says. -/
theorem get?_after (delay : Nat) (acts : List Act) (p : Path) :
    (after delay acts).get? p = pendingOf delay p (untold delay p acts) := by
  induction acts using List.reverseRecOn with
  | nil => rfl
  | append_singleton acts x ih =>
    obtain ⟨hs, hd⟩ := after_sound delay acts
    have hbefore : (after delay acts).get? p =
        pendingOf (after delay acts).delay p (untold delay p acts) := by
      rw [hd, ih]
    have hstep := hs.get?_act hbefore x
    rw [hd] at hstep
    simpa [after, untold] using hstep

/-- What is done with other paths leaves the changes of a path as they are. -/
theorem untold_filter (delay : Nat) (p : Path) (acts : List Act) :
    untold delay p (acts.filter (·.concerns p)) = untold delay p acts := by
  have hother : ∀ log x, Act.concerns p x = false → note delay p log x = log := by
    intro log x hx
    cases x <;> simp_all [Act.concerns, Act.path?, note]
  rw [untold, untold, List.foldl_filter]
  congr 1
  funext log x
  cases hx : x.concerns p with
  | true => rfl
  | false => exact (hother log x hx).symm

/-- A debouncer is one debouncer for each path, whatever is done in whatever order and at whatever times.
What waits for a path is what the changes since it was last told, cancelled or cleared come to, and does
not depend on what is done with other paths. A look tells exactly the paths whose last change is as old as
the delay, each once, in the order of the deadlines and then of the paths; these wait no longer, and all
others as before. The next deadline is the least one, and a look tells something if and only if that one
has come. -/
theorem paths_debounced_apart (delay : Nat) (acts : List Act) :
    let d := after delay acts
    (∀ p, d.get? p = pendingOf delay p (untold delay p acts) ∧
      d.get? p = (after delay (acts.filter (·.concerns p))).get? p) ∧
    (∀ now, let told := (d.take now).1
      (∀ p c, (p, c) ∈ told ↔ ∃ first rest, untold delay p acts = first :: rest ∧
        (rest.getLastD first).2 + delay ≤ now ∧
        c = (rest.map (·.1)).foldl Change.merge first.1) ∧
      (told.map (·.1)).Nodup ∧
      (told.Pairwise fun a b => ∀ x y, d.get? a.1 = some x → d.get? b.1 = some y →
        x.due < y.due ∨ x.due = y.due ∧ a.1.before b.1 = true) ∧
      ∀ p, (d.take now).2.get? p = if p ∈ told.map (·.1) then none else d.get? p) ∧
    (∀ t, d.next? = some t ↔
      (∃ p x, d.get? p = some x ∧ x.due = t) ∧ ∀ p x, d.get? p = some x → t ≤ x.due) ∧
    ∀ now, (d.take now).1 ≠ [] ↔ ∃ t, d.next? = some t ∧ t ≤ now := by
  intro d
  have hs : d.Sound := (after_sound delay acts).1
  refine ⟨fun p => ⟨get?_after delay acts p, ?_⟩, fun now => ⟨fun p c => ?_, hs.nodup_take now,
    hs.pairwise_take now, fun p => hs.get?_take_of_told p now⟩, fun t => hs.next?_eq_some_iff,
    hs.take_ne_nil_iff⟩
  · rw [get?_after, get?_after, untold_filter]
  · rw [hs.mem_take, get?_after]
    constructor
    · rintro ⟨x, hx, hdue, rfl⟩
      obtain ⟨first, rest, hlog, rfl⟩ := pendingOf_eq_some.mp hx
      exact ⟨first, rest, hlog, hdue, rfl⟩
    · rintro ⟨first, rest, hlog, hdue, rfl⟩
      exact ⟨_, pendingOf_eq_some.mpr ⟨first, rest, hlog, rfl⟩, hdue, rfl⟩

end Debouncer

end Watch

end DepAtlas
