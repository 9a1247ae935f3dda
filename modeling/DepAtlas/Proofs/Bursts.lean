import DepAtlas.Watch.Debouncer
import Mathlib.Data.List.Nodup

/-! # What a burst of changes comes to

Changes of one path that come before its deadline are told as one. Only what they came to so far is
kept, and not whether the file was there when they began. That is enough for a file that was there, and
for one that only came; a new file that goes and comes back is told as a changed one.
-/

namespace DepAtlas.Watch

namespace Change

/-- Whether the file is there after a change. -/
def leaves : Change → Bool
  | removed => false
  | modified | added => true

/-- Whether a change can happen to a file that is there, or is not. -/
def fits (present : Bool) : Change → Bool
  | added => !present
  | modified | removed => present

/-- Whether changes can happen one after the other, the first to a file that is there, or is not. -/
def consistent : Bool → List Change → Bool
  | _, [] => true
  | present, c :: cs => c.fits present && consistent c.leaves cs

/-- Whether the file is there after all changes. -/
def presentAfter (present : Bool) (cs : List Change) : Bool := cs.foldl (fun _ c => c.leaves) present

/-- What happened to a file between two moments, by whether it was there at each of them. -/
def net (before after : Bool) : Change :=
  if !after then removed else if before then modified else added

variable {present before : Bool} {c : Change} {cs : List Change}

theorem eq_net (h : c.fits present = true) :
    c = net (present || decide (c = .removed)) c.leaves := by
  revert h
  cases c <;> cases present <;> decide

/-- One more change. A file that is not there any more was there at some moment of the burst, and
counts as one that was there before. -/
theorem merge_net (hb : present = false → before = true) (h : c.fits present = true) :
    (net before present).merge c = net (before || decide (c = .removed)) c.leaves := by
  revert hb h
  cases c <;> cases present <;> cases before <;> decide

theorem foldl_merge_net (hb : present = false → before = true) (h : consistent present cs = true) :
    cs.foldl merge (net before present) =
      net (before || decide (.removed ∈ cs)) (presentAfter present cs) := by
  induction cs generalizing before present with
  | nil => simp [presentAfter]
  | cons c cs ih =>
    rw [consistent, Bool.and_eq_true] at h
    have hnext : c.leaves = false → (before || decide (c = .removed)) = true := by
      cases c <;> simp [leaves]
    rw [List.foldl_cons, merge_net hb h.1, ih hnext h.2]
    have hmem : decide (.removed ∈ c :: cs) = (decide (c = .removed) || decide (.removed ∈ cs)) := by
      simp [eq_comm]
    rw [hmem, ← Bool.or_assoc]
    rfl

/-- What is kept of a burst: with a file that goes on the way, it is as if the file had been there
before. -/
theorem foldl_merge (h : consistent present (c :: cs) = true) :
    cs.foldl merge c =
      net (present || decide (.removed ∈ c :: cs)) (presentAfter present (c :: cs)) := by
  rw [consistent, Bool.and_eq_true] at h
  have hfirst : c.leaves = false → (present || decide (c = .removed)) = true := by
    cases c <;> simp [leaves]
  have hmem : decide (.removed ∈ c :: cs) = (decide (c = .removed) || decide (.removed ∈ cs)) := by
    simp [eq_comm]
  rw [hmem, ← Bool.or_assoc]
  have hall := foldl_merge_net hfirst h.2
  rwa [← eq_net h.1] at hall

theorem net_or_eq_iff {removal after : Bool} :
    net (before || removal) after = net before after ↔
      (before = true ∨ removal = false ∨ after = false) := by
  cases before <;> cases removal <;> cases after <;> decide

end Change

namespace Debouncer

variable {d : Debouncer} {p q : Path} {c : Change} {now : Nat}

/-! ## One path -/

/-- There is at most one change for each path. -/
def Sound (d : Debouncer) : Prop := (d.pending.map (·.path)).Nodup

theorem sound_new (delay : Nat) : (new delay).Sound := List.nodup_nil

theorem Sound.filter (h : d.Sound) (f : Pending → Bool) :
    Sound { d with pending := d.pending.filter f } :=
  List.Nodup.sublist (List.filter_sublist.map _) h

theorem Sound.schedule (h : d.Sound) (q : Path) (c : Change) (now : Nat) :
    (d.schedule q c now).Sound := by
  simp only [Debouncer.schedule, Sound, List.map_append, List.map_cons, List.map_nil]
  refine List.nodup_append.mpr ⟨h.filter _, List.nodup_singleton _, ?_⟩
  intro a ha b hb hab
  obtain ⟨x, hx, rfl⟩ := List.mem_map.mp ha
  simp only [List.mem_singleton] at hb
  exact (by simpa using (List.mem_filter.mp hx).2 : x.path ≠ q) (hab.trans hb)

theorem mem_of_get? {x : Pending} (h : d.get? p = some x) : x ∈ d.pending ∧ x.path = p :=
  ⟨List.mem_of_find?_eq_some h, by simpa using List.find?_some h⟩

/-- What waits for a path is what is found for it. -/
theorem Sound.filter_path (h : d.Sound) (p : Path) :
    d.pending.filter (·.path = p) = (d.get? p).toList := by
  unfold Sound at h
  rw [get?]
  generalize d.pending = xs at h
  induction xs with
  | nil => rfl
  | cons x xs ih =>
    rw [List.map_cons, List.nodup_cons] at h
    by_cases hx : x.path = p
    · have hrest : xs.filter (·.path = p) = [] := by
        refine List.filter_eq_nil_iff.mpr fun y hy => ?_
        intro hyp
        exact h.1 (List.mem_map.mpr ⟨y, hy, (by simpa using hyp : y.path = p).trans hx.symm⟩)
      simp [hx, hrest]
    · simp [hx, ih h.2]

theorem get?_schedule_self (d : Debouncer) (p : Path) (c : Change) (now : Nat) :
    (d.schedule p c now).get? p =
      some ⟨p, ((d.get? p).map (·.change.merge c)).getD c, now + d.delay⟩ := by
  have hnone : (d.pending.filter (·.path ≠ p)).find? (·.path = p) = none := by
    rw [List.find?_eq_none]
    intro x hx
    simpa using (List.mem_filter.mp hx).2
  simp only [schedule, get?, List.find?_append, hnone]
  cases h : d.pending.find? (·.path = p) <;> simp

theorem find?_filter_of_imp {f : Pending → Bool} (h : ∀ x ∈ d.pending, x.path = p → f x = true) :
    (d.pending.filter f).find? (·.path = p) = d.get? p := by
  rw [get?]
  generalize d.pending = xs at h
  induction xs with
  | nil => rfl
  | cons x xs ih =>
    rw [List.forall_mem_cons] at h
    by_cases hp : x.path = p
    · simp [hp, h.1 hp]
    · by_cases hf : f x = true <;> simp [hp, hf, ih h.2]

theorem get?_schedule_of_ne (h : q ≠ p) : (d.schedule q c now).get? p = d.get? p := by
  simp only [schedule, get?, List.find?_append]
  rw [find?_filter_of_imp (d := d) fun x _ hx => by simpa [hx] using h.symm]
  simp [h, get?]

theorem get?_cancel_of_ne (h : q ≠ p) : (d.cancel q).2.get? p = d.get? p :=
  find?_filter_of_imp fun x _ hx => by simpa [hx] using h.symm

/-- A look before the deadline leaves a change waiting. -/
theorem Sound.get?_take (hd : d.Sound) (h : ∀ x, d.get? p = some x → now < x.due) :
    (d.take now).2.get? p = d.get? p := by
  refine find?_filter_of_imp fun x hx hp => ?_
  have hmem : x ∈ d.pending.filter (·.path = p) := List.mem_filter.mpr ⟨hx, by simpa using hp⟩
  rw [hd.filter_path, Option.mem_toList] at hmem
  simpa using h x hmem

/-- A look tells of each path what waits for it, if that is due. -/
theorem Sound.filter_take (h : d.Sound) (now : Nat) (p : Path) :
    (d.take now).1.filter (·.1 = p) =
      ((d.get? p).toList.filter (·.due ≤ now)).map fun x => (p, x.change) := by
  have hperm : (((d.pending.filter (·.due ≤ now)).mergeSort Pending.le).filter (·.path = p)).Perm
      ((d.get? p).toList.filter (·.due ≤ now)) := by
    rw [← h.filter_path, List.filter_comm]
    exact (List.mergeSort_perm _ _).filter _
  -- at most one change is left, so its place among the others does not matter
  have heq : ((d.pending.filter (·.due ≤ now)).mergeSort Pending.le).filter (·.path = p) =
      (d.get? p).toList.filter (·.due ≤ now) := by
    cases hg : d.get? p with
    | none => simpa [hg] using hperm
    | some x =>
      by_cases hx : x.due ≤ now
      · simpa [hg, hx] using hperm
      · simpa [hg, hx] using hperm
  rw [take, List.filter_map, Function.comp_def, heq]
  refine List.map_congr_left fun x hx => ?_
  rw [(mem_of_get? (Option.mem_toList.mp (List.mem_of_mem_filter hx))).2]

/-! ## Bursts -/

/-- What is done with a debouncer. -/
inductive Use where
  | schedule (path : Path) (change : Change) (now : Nat)
  | cancel (path : Path)
  | take (now : Nat)
  deriving DecidableEq

def use (d : Debouncer) : Use → Debouncer
  | .schedule path change now => d.schedule path change now
  | .cancel path => (d.cancel path).2
  | .take now => (d.take now).2

def useAll (d : Debouncer) (us : List Use) : Debouncer := us.foldl use d

/-- The changes of a path that are noted, with the times. -/
def burst (p : Path) (us : List Use) : List (Change × Nat) :=
  us.filterMap fun
    | .schedule path change now => if path = p then some (change, now) else none
    | _ => none

def changes (p : Path) (us : List Use) : List Change := (burst p us).map (·.1)

/-- Whether a use leaves a path waiting: it is not cancelled, and no look comes after its deadline. -/
def spares (d : Debouncer) (p : Path) : Use → Bool
  | .schedule _ _ _ => true
  | .cancel q => q ≠ p
  | .take now => (d.get? p).all fun x => now < x.due

/-- Whether a path is left waiting by all uses. -/
def sparesAll (p : Path) : Debouncer → List Use → Bool
  | _, [] => true
  | d, u :: us => d.spares p u && sparesAll p (d.use u) us

theorem Sound.use (h : d.Sound) (u : Use) : (d.use u).Sound := by
  cases u with
  | schedule q c now => exact h.schedule q c now
  | cancel q => exact h.filter _
  | take now => exact h.filter _

theorem Sound.useAll (h : d.Sound) (us : List Use) : (d.useAll us).Sound := by
  induction us generalizing d with
  | nil => exact h
  | cons u us ih => exact ih (h.use u)

theorem delay_use (d : Debouncer) (u : Use) : (d.use u).delay = d.delay := by
  cases u <;> rfl

theorem delay_useAll (d : Debouncer) (us : List Use) : (d.useAll us).delay = d.delay := by
  induction us generalizing d with
  | nil => rfl
  | cons u us ih => exact (ih _).trans (delay_use d u)

theorem useAll_append (d : Debouncer) (us us' : List Use) :
    d.useAll (us ++ us') = (d.useAll us).useAll us' :=
  List.foldl_append

/-- A use that leaves a path waiting changes nothing for it, unless it notes a change of it. -/
theorem Sound.get?_use (hd : d.Sound) {u : Use} (h : d.spares p u = true) :
    (d.use u).get? p = match burst p [u] with
      | [] => d.get? p
      | (c, now) :: _ => some ⟨p, ((d.get? p).map (·.change.merge c)).getD c, now + d.delay⟩ := by
  cases u with
  | schedule q c now =>
    by_cases hq : q = p
    · subst hq
      simpa [burst, Debouncer.use] using get?_schedule_self d q c now
    · simpa [burst, Debouncer.use, hq] using get?_schedule_of_ne hq
  | cancel q => exact get?_cancel_of_ne (by simpa [spares] using h)
  | take now =>
    refine hd.get?_take fun x hx => ?_
    simpa [spares, hx] using h

theorem burst_cons (p : Path) (u : Use) (us : List Use) :
    burst p (u :: us) = burst p [u] ++ burst p us := by
  rw [← List.singleton_append]
  exact List.filterMap_append

theorem burst_single (p : Path) (u : Use) : burst p [u] = [] ∨ ∃ x, burst p [u] = [x] := by
  cases u with
  | schedule q c now =>
    by_cases hq : q = p
    · exact Or.inr ⟨(c, now), by simp [burst, hq]⟩
    · exact Or.inl (by simp [burst, hq])
  | cancel => exact Or.inl rfl
  | take => exact Or.inl rfl

/-- What waits for a path after a burst: all its changes merged, until some time after the last. -/
theorem Sound.get?_useAll (hd : d.Sound) {us : List Use} (hs : sparesAll p d us = true)
    {x : Pending} (hx : d.get? p = some x) :
    (d.useAll us).get? p =
      some ⟨p, ((burst p us).map (·.1)).foldl Change.merge x.change,
        (((burst p us).map (·.2 + d.delay)).getLast?).getD x.due⟩ := by
  induction us generalizing d x with
  | nil => simpa [Debouncer.useAll, burst, ← (mem_of_get? hx).2] using hx
  | cons u us ih =>
    rw [sparesAll, Bool.and_eq_true] at hs
    have hu := hd.get?_use hs.1
    rw [hx] at hu
    rw [burst_cons]
    rcases burst_single p u with hb | ⟨⟨c, now⟩, hb⟩
    · rw [hb] at hu
      simpa [hb, delay_use, Debouncer.useAll] using ih (hd.use u) hs.2 hu
    · rw [hb] at hu
      have hrest := ih (hd.use u) hs.2 hu
      rw [delay_use] at hrest
      rw [hb, Debouncer.useAll, List.foldl_cons]
      refine hrest.trans ?_
      cases hl : ((burst p us).map (·.2 + d.delay)).getLast? <;> simp [hl, List.getLast?_cons]

/-- As `get?_useAll`, for a path for which nothing waits at first. -/
theorem Sound.get?_useAll_of_none (hd : d.Sound) {us : List Use} (hs : sparesAll p d us = true)
    (hp : d.get? p = none) {first : Change × Nat} {rest : List (Change × Nat)}
    (hb : burst p us = first :: rest) :
    (d.useAll us).get? p =
      some ⟨p, (rest.map (·.1)).foldl Change.merge first.1,
        ((rest.getLast?).getD first).2 + d.delay⟩ := by
  induction us generalizing d with
  | nil => cases hb
  | cons u us ih =>
    rw [sparesAll, Bool.and_eq_true] at hs
    have hu := hd.get?_use hs.1
    rw [hp] at hu
    rw [burst_cons] at hb
    rcases burst_single p u with hn | ⟨x, hx⟩
    · rw [hn] at hu hb
      have hrest := ih (hd.use u) hs.2 hu hb
      rwa [delay_use] at hrest
    · rw [hx, List.singleton_append, List.cons.injEq] at hb
      obtain ⟨rfl, hb⟩ := hb
      rw [hx] at hu
      have hrest := (hd.use u).get?_useAll hs.2 hu
      rw [hb, delay_use] at hrest
      rw [Debouncer.useAll, List.foldl_cons]
      refine hrest.trans ?_
      cases hl : rest.getLast? <;> simp [hl]

/-- After every history, a burst of changes of a path for which nothing waited is told once, at the
first look after its deadline, which is that of its last change; whatever else is noted, cancelled or
told meanwhile. It is told as what happened to the file between its beginning and its end, if the file
was there at its beginning, does not go in it, or is gone at its end. A new file that goes and comes
back is told as a changed one. -/
theorem burst_told_once (delay : Nat) (earlier us : List Use) (p : Path) (present : Bool)
    (hidle : ((new delay).useAll earlier).get? p = none)
    (hspared : sparesAll p ((new delay).useAll earlier) us = true) (hburst : burst p us ≠ [])
    (hfits : Change.consistent present (changes p us) = true) :
    ∃ told last, (burst p us).getLast? = some last ∧
      (∀ now, (((new delay).useAll (earlier ++ us)).take now).1.filter (·.1 = p) =
        if last.2 + delay ≤ now then [(p, told)] else []) ∧
      (told = .net present (Change.presentAfter present (changes p us)) ↔
        present = true ∨ .removed ∉ changes p us ∨
          Change.presentAfter present (changes p us) = false) ∧
      (present = false → .removed ∈ changes p us →
        Change.presentAfter present (changes p us) = true → told = .modified) := by
  have hd : ((new delay).useAll earlier).Sound := (sound_new delay).useAll earlier
  obtain ⟨first, rest, hb⟩ := List.exists_cons_of_ne_nil hburst
  have hchanges : changes p us = first.1 :: rest.map (·.1) := by rw [changes, hb, List.map_cons]
  have hget := hd.get?_useAll_of_none hspared hidle hb
  rw [delay_useAll, Change.foldl_merge (hchanges ▸ hfits), ← hchanges] at hget
  refine ⟨.net (present || decide (.removed ∈ changes p us))
    (Change.presentAfter present (changes p us)), (rest.getLast?).getD first, ?_, fun now => ?_, ?_,
    fun hp hr ha => ?_⟩
  · rw [hb, List.getLast?_cons]
  · rw [useAll_append, (hd.useAll us).filter_take, hget]
    by_cases hnow : ((rest.getLast?).getD first).2 + delay ≤ now
    · simp [hnow, new]
    · simp [hnow, new]
  · rw [Change.net_or_eq_iff, decide_eq_false_iff_not]
  · rw [ha]
    simp [hp, hr, Change.net]

/-! ## Two small bursts -/

namespace Small

def file : Path := ⟨true, [.enter "a"]⟩

def neighbour : Path := ⟨true, [.enter "b"]⟩

/-- A file goes and comes back, while another one is changed. -/
def replaced : List Use :=
  [.schedule file .removed 10, .schedule neighbour .modified 20, .take 200, .schedule file .added 250]

/-- A new file goes and comes back. -/
def returned : List Use :=
  [.schedule file .added 0, .schedule file .removed 10, .schedule file .added 20]

end Small

theorem burst_told_once_small :
    ∃ told last, (burst Small.file Small.replaced).getLast? = some last ∧ last.2 + 300 = 550 ∧
      told = .modified ∧
      (((new 300).useAll Small.replaced).take 600).1.filter (·.1 = Small.file) =
        [(Small.file, told)] := by
  obtain ⟨told, last, hlast, htold, hnet, -⟩ :=
    burst_told_once 300 [] Small.replaced Small.file true rfl (by decide) (by decide) (by decide)
  obtain rfl : (.added, 250) = last := Option.some.inj hlast
  refine ⟨told, _, hlast, rfl, hnet.mpr (Or.inl rfl), ?_⟩
  exact (htold 600).trans (if_pos (by decide))

/-- Not every burst is told as what happened to its file: a new file that goes and comes back is told
as changed. -/
theorem returning_file_told_as_changed :
    ¬ ∀ (delay : Nat) (earlier us : List Use) (p : Path) (present : Bool) (now : Nat),
      ((new delay).useAll earlier).get? p = none →
      sparesAll p ((new delay).useAll earlier) us = true → burst p us ≠ [] →
      Change.consistent present (changes p us) = true →
      (∀ x ∈ burst p us, x.2 + delay ≤ now) →
      (((new delay).useAll (earlier ++ us)).take now).1.filter (·.1 = p) =
        [(p, .net present (Change.presentAfter present (changes p us)))] := by
  intro h
  have hc := h 300 [] Small.returned Small.file false 400 rfl (by decide) (by decide) (by decide)
    (by decide)
  revert hc
  decide +kernel

end Debouncer

end DepAtlas.Watch
