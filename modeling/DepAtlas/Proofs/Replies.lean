import DepAtlas.Proofs.Mirror
import DepAtlas.Worker.Basic
import Mathlib.Algebra.Order.Group.Multiset

/-! # Every request is answered once

A worker takes inputs, tells changes and does steps of passes in any order. A request that it takes is
answered at once, or it waits for the pass that it asked for: until the pass ends, or until another
request takes its place. So the requests that were taken are those that were answered and the one that
waits, with their numbers.
-/

namespace DepAtlas.Worker

/-- What a worker does at a moment. -/
inductive Deed where
  | take (i : Input)
  | flush
  | step

/-- A deed, with the world and the time in which it is done. -/
structure Moment where
  world : World
  now : Nat
  deed : Deed

/-- What a worker does with its workspace, if it has one. -/
def inContext (k : Worker) (f : WorkerContext → List Outbound × WorkerContext) :
    List Outbound × Worker :=
  match k.context with
  | none => ([], k)
  | some c => ((f c).1, { k with context := some (f c).2 })

def perform (k : Worker) (m : Moment) : List Outbound × Worker :=
  match m.deed with
  | .take i => take m.world m.now k i
  | .flush => k.inContext (flush m.world m.now)
  | .step => k.inContext (step m.world)

/-- The deeds of a worker, with what it sends for each. -/
def play : List Moment → Worker → List (Deed × List Outbound) × Worker
  | [], k => ([], k)
  | m :: ms, k =>
    let (out, k) := k.perform m
    let (log, k) := play ms k
    ((m.deed, out) :: log, k)

/-- A turn is an input, if there is one, and then a flush and a step. -/
theorem turn_eq_play (w : World) (now : Nat) (k : Worker) (input : Option Input) :
    turn w now k input =
      let deeds : List Deed := (input.map Deed.take).toList ++ [Deed.flush, Deed.step]
      ((play (deeds.map (⟨w, now, ·⟩)) k).1.flatMap (·.2),
        (play (deeds.map (⟨w, now, ·⟩)) k).2) := by
  cases input with
  | none =>
    cases hc : k.context <;> simp [turn, play, perform, inContext, hc]
  | some i =>
    cases hc : (take w now k i).2.context <;> simp [turn, play, perform, inContext, hc]

/-! ## Accounts -/

/-- The request that a message answers. -/
def Outbound.answers? : Outbound → Option Nat
  | .result id _ _ => some id
  | .error id _ _ => id
  | _ => none

/-- The requests that messages answer. -/
def answers (out : List Outbound) : Multiset Nat := out.filterMap Outbound.answers?

/-- The request that is taken with a deed. -/
def Deed.asks : Deed → Multiset Nat
  | .take (.message (.invoke id _ _)) => {id}
  | _ => 0

/-- The requests that are answered with a deed. A line that is no message is no request. -/
def answersFor : Deed → List Outbound → Multiset Nat
  | .take (.rejected _ _), _ => 0
  | _, out => answers out

def Deed.stops : Deed → Bool
  | .take (.message .shutdown) => true
  | _ => false

/-- The request that waits for the pass that is running. -/
def waitingIn (c : WorkerContext) : Multiset Nat := (c.active.bind (·.request)).toList

/-- The request that waits for a worker. -/
def waiting (k : Worker) : Multiset Nat := k.context.elim 0 waitingIn

@[simp] theorem answers_nil : answers [] = 0 := rfl

@[simp] theorem answers_cons (m : Outbound) (out : List Outbound) :
    answers (m :: out) = ↑m.answers?.toList + answers out := by
  cases h : m.answers? <;> simp [answers, h]

@[simp] theorem answers_append (out out' : List Outbound) :
    answers (out ++ out') = answers out + answers out' := by
  simp [answers]

theorem answers_map_none {α : Type*} (f : α → Outbound) (h : ∀ x, (f x).answers? = none)
    (xs : List α) : answers (xs.map f) = 0 := by
  induction xs with
  | nil => rfl
  | cons x xs ih => simp [h, ih]

/-! ## One deed -/

variable {w : World} {c : WorkerContext}

@[simp] theorem answers_announce (c : WorkerContext) : answers (announce c).1 = 0 := by
  unfold announce
  split <;> simp [Outbound.answers?]

@[simp] theorem waitingIn_announce (c : WorkerContext) : waitingIn (announce c).2 = waitingIn c := by
  unfold announce
  split <;> rfl

theorem answers_results (request : Option Nat) (data : Json) :
    answers (request.toList.map fun id => .result id data 0) = request.toList := by
  cases request <;> simp [Outbound.answers?]

theorem openWorkspace_balance (w : World) (config : WorkspaceConfig) :
    answers (openWorkspace w config).1 = 0 ∧
      (openWorkspace w config).2.elim 0 waitingIn = 0 := by
  unfold openWorkspace
  split
  · simp [failure, Outbound.answers?]
  · split
    · split
      · simp [waitingIn]
      · exact ⟨answers_announce _, waitingIn_announce _⟩
    · exact ⟨answers_announce _, waitingIn_announce _⟩

/-- The pass that is cancelled ends at once, and its request gets the summary. -/
theorem cancelActive_eq {a : ActivePass} (h : c.active = some a) :
    (cancelActive w c).1 =
        (a.request.toList.map fun id => .result id a.pass.cancel.summary.toJson 0) ∧
      (cancelActive w c).2.active = none := by
  unfold cancelActive
  rw [h]
  exact ⟨rfl, rfl⟩

theorem cancelActive_balance (w : World) (c : WorkerContext) :
    answers (cancelActive w c).1 = waitingIn c ∧ waitingIn (cancelActive w c).2 = 0 := by
  cases h : c.active with
  | none => simp [cancelActive, h, waitingIn]
  | some a =>
    obtain ⟨hout, hactive⟩ := cancelActive_eq (w := w) h
    rw [hout, answers_results]
    simp [waitingIn, h, hactive]

/-- After the running pass has been cancelled, the request is refused, or it waits. -/
theorem rebuild_eq (w : World) (c : WorkerContext) (id : Nat) :
    ∃ rest, (rebuild w c id).1 = (cancelActive w c).1 ++ rest ∧
      answers rest + waitingIn (rebuild w c id).2 = {id} := by
  unfold rebuild
  dsimp only
  split
  · exact ⟨[], by simp, by simp [waitingIn]⟩
  · rename_i f atlas _
    have hidle : waitingIn { (cancelActive w c).2 with atlas } = 0 := (cancelActive_balance w c).2
    refine ⟨_, List.append_assoc _ _ _, ?_⟩
    simp [failure, Outbound.answers?, hidle]

theorem invoke_balance (w : World) (c : WorkerContext) (id : Nat) (tool : String) (params : Json) :
    waitingIn c + {id} =
      answers (invoke w c id tool params).1 + waitingIn (invoke w c id tool params).2 := by
  unfold invoke
  split
  · simp [failure, Outbound.answers?, add_comm]
  · obtain ⟨rest, hout, hrest⟩ := rebuild_eq w c id
    rw [hout, answers_append, (cancelActive_balance w c).1, add_assoc, hrest]
  · rename_i request _ _
    have hr : answers [reply id (request.run c.atlas w).1] = {id} := by
      cases (request.run c.atlas w).1 <;> simp [reply, failure, Outbound.answers?]
    dsimp only
    rw [hr, add_comm]
    rfl

theorem take_balance (w : World) (now : Nat) (k : Worker) {i : Input}
    (h : (Deed.take i).stops = false) :
    k.waiting + (Deed.take i).asks =
      answersFor (.take i) (take w now k i).1 + (take w now k i).2.waiting := by
  match i with
  | .message (.init config) =>
    simp only [take, Deed.asks, answersFor]
    split
    · simp [failure, Outbound.answers?]
    · rename_i hk
      obtain ⟨hout, hwaiting⟩ := openWorkspace_balance w config
      simp [waiting, hk, hout, hwaiting]
  | .message (.invoke id tool params) =>
    simp only [take, Deed.asks, answersFor]
    split
    · simp [failure, Outbound.answers?, add_comm]
    · rename_i c hk
      simpa [waiting, hk] using invoke_balance w c id tool params
  | .message .shutdown => cases h
  | .change path change =>
    cases hk : k.context <;> simp [take, Deed.asks, answersFor, waiting, waitingIn, hk]
  | .rejected id reason => simp [take, Deed.asks, answersFor]

theorem flush_balance (w : World) (now : Nat) (c : WorkerContext) :
    answers (flush w now c).1 = 0 ∧ waitingIn (flush w now c).2 = waitingIn c :=
  ⟨answers_map_none _ (fun _ => rfl) _, rfl⟩

theorem step_balance (w : World) (c : WorkerContext) :
    waitingIn c = answers (step w c).1 + waitingIn (step w c).2 := by
  unfold step
  split
  · simp
  · rename_i a ha
    split
    · simp only [waitingIn, ha, Option.bind_some]
      split
      · simp
      · rw [answers_map_none _ fun _ => rfl]
        simp
    · simp only [answers_append, answers_results, answers_announce, waitingIn_announce]
      simp [waitingIn, ha]

theorem perform_balance (k : Worker) (m : Moment) (h : m.deed.stops = false) :
    k.waiting + m.deed.asks = answersFor m.deed (k.perform m).1 + (k.perform m).2.waiting := by
  obtain ⟨w, now, deed⟩ := m
  cases deed with
  | take i => exact take_balance w now k h
  | flush =>
    cases hk : k.context with
    | none => simp [perform, inContext, hk, Deed.asks, answersFor]
    | some c =>
      simp [perform, inContext, hk, Deed.asks, answersFor, waiting, flush_balance w now c]
  | step =>
    cases hk : k.context with
    | none => simp [perform, inContext, hk, Deed.asks, answersFor]
    | some c =>
      simpa [perform, inContext, hk, Deed.asks, answersFor, waiting] using step_balance w c

/-! ## All deeds -/

theorem play_balance (moments : List Moment) (k : Worker)
    (h : ∀ m ∈ moments, m.deed.stops = false) :
    k.waiting + (moments.map (·.deed.asks)).sum =
      ((play moments k).1.map fun e => answersFor e.1 e.2).sum + (play moments k).2.waiting := by
  induction moments generalizing k with
  | nil => simp [play]
  | cons m moments ih =>
    obtain ⟨hm, hrest⟩ := List.forall_mem_cons.mp h
    have hone := perform_balance k m hm
    have hmore := ih (k.perform m).2 hrest
    simp only [play, List.map_cons, List.sum_cons]
    rw [← add_assoc, hone, add_assoc, hmore, add_assoc]

/-- As long as a worker is not told to stop, the requests it has taken are those it has answered and the
one that waits for a rebuild, whatever it did in between and whatever became of the files. When no pass
is running, all are answered. A request for a rebuild that takes the place of another makes it answered
first, with a summary that says so, and is then itself answered or waiting. -/
theorem requests_answered_once {moments : List Moment}
    (h : ∀ m ∈ moments, m.deed.stops = false) :
    (moments.map (·.deed.asks)).sum =
        ((play moments new).1.map fun e => answersFor e.1 e.2).sum +
          (play moments new).2.waiting ∧
      ((play moments new).2.context.bind (·.active) = none →
        (moments.map (·.deed.asks)).sum =
          ((play moments new).1.map fun e => answersFor e.1 e.2).sum) ∧
      ∀ c a old, (play moments new).2.context = some c → c.active = some a →
        a.request = some old → ∀ w now id tool params,
          ToolRequest.parse tool params = .ok .rebuild →
          ∃ (summary : Summary) (rest : List Outbound), summary.cancelled = true ∧
            (take w now (play moments new).2 (.message (.invoke id tool params))).1 =
              .result old summary.toJson 0 :: rest ∧
            answers rest +
              (take w now (play moments new).2 (.message (.invoke id tool params))).2.waiting =
                {id} := by
  have hall := play_balance moments new h
  rw [show new.waiting = 0 from rfl, zero_add] at hall
  refine ⟨hall, fun hidle => ?_, fun c a old hc ha hold w now id tool params hparse => ?_⟩
  · have hnone : (play moments new).2.waiting = 0 := by
      cases hc : (play moments new).2.context with
      | none => simp [waiting, hc]
      | some c =>
        have ha : c.active = none := by simpa [hc] using hidle
        simp [waiting, waitingIn, hc, ha]
    rw [hall, hnone, add_zero]
  · obtain ⟨rest, hout, hrest⟩ := rebuild_eq w c id
    rw [(cancelActive_eq ha).1, hold] at hout
    refine ⟨a.pass.cancel.summary, rest, rfl, ?_, ?_⟩
    · simpa [take, hc, invoke, hparse] using hout
    · simpa [take, hc, invoke, hparse, waiting] using hrest

/-- Two rebuilds are asked for while a first pass is running, and a line is rejected. -/
theorem requests_answered_once_small :
    let now (deed : Deed) : Moment := ⟨Small.world Small.tree, 0, deed⟩
    let rebuild (id : Nat) : Moment := now (.take (.message (.invoke id "rebuild_index" (.object []))))
    let moments := [now (.take (.message (.init { Small.config with warmup := true }))), rebuild 7,
      now .flush, now .step, now (.take (.rejected (some 7) "no message")), rebuild 8, now .step]
    {7, 8} = ((play moments new).1.map fun e => answersFor e.1 e.2).sum +
      (play moments new).2.waiting := by
  intro now rebuild moments
  have hgoes : ∀ m ∈ moments, m.deed.stops = false := by simp [moments, now, rebuild, Deed.stops]
  exact (requests_answered_once hgoes).1

end DepAtlas.Worker
