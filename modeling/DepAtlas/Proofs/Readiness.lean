import DepAtlas.Proofs.Passes
import DepAtlas.Proofs.Replies

/-! # Being ready is told once

A worker that was given a workspace tells once that it is ready: at once, when its first pass ends, or
when the rebuild that took the place of that pass ends or cannot begin. How far the first pass has come
is told only before, with numbers that grow. What a worker has told and what it holds fit together, and
each deed keeps them so.
-/

namespace DepAtlas

namespace Atlas

variable {w : World} {a a' : Atlas} {pass : IndexPass}

/-! ## The state of the index during a pass -/

theorem Edit.status (h : Edit w a a') : a'.status = a.status := by
  cases h with
  | learn h =>
    cases h with
    | store => rfl
    | uses file => unfold enterUses; split <;> rfl
  | forget key => rfl

/-- Questions and changes of files leave the state of the index as it is. -/
theorem Edits.status (h : Edits w a a') : a'.status = a.status := by
  induction h with
  | refl => rfl
  | tail _ h ih => exact h.status.trans ih

theorem status_indexFile (a : Atlas) (p : Path) : (a.indexFile w p).2.status = a.status := by
  unfold indexFile
  dsimp only
  split
  · rfl
  · split
    · rfl
    · split <;> rfl

/-- The files that a pass begins with are those that the state of the index counts. -/
theorem beginIndex_counts (h : a.beginIndex w = (.ok pass, a')) :
    pass.processed = 0 ∧ a'.status.total = pass.total := by
  unfold beginIndex at h
  split at h
  · cases h
  · cases h
    exact ⟨rfl, (Nat.zero_add _).symm⟩

/-- A step counts its file, and leaves the number of all files as it is. -/
theorem stepFile_counts (a : Atlas) (pass : IndexPass) (file : Path) (rest : List Path) :
    (a.stepFile w pass file rest).2.1.processed = pass.processed + 1 ∧
      (a.stepFile w pass file rest).2.2.status.total = a.status.total ∧
      ∀ s ∈ (a.stepFile w pass file rest).1,
        s.processed = pass.processed + 1 ∧ s.total = a.status.total := by
  have hs := status_indexFile (w := w)
    { a with status := { a.status with currentFile := some (w.tree.key file) } } file
  have ht := congrArg IndexStatus.total hs
  unfold stepFile
  dsimp only
  refine ⟨?_, ht, ?_⟩
  · split <;> rfl
  · intro s h
    simp only [Option.mem_def, Option.ite_none_right_eq_some, Option.some.injEq] at h
    rw [← h.2]
    refine ⟨?_, ht⟩
    dsimp only
    split <;> rfl

end Atlas

namespace Worker

/-- What a worker does until it is told to stop, and all that it sends. -/
def live : List Moment → Worker → List Outbound × Worker
  | [], k => ([], k)
  | m :: ms, k =>
    if k.stopped then ([], k)
    else
      let (out, k) := k.perform m
      let (more, k) := live ms k
      (out ++ more, k)

/-- A worker that has just stopped has let go of its workspace. -/
theorem context_take_of_stopped {k : Worker} (w : World) (now : Nat) (i : Input)
    (hk : k.stopped = false) (h : (take w now k i).2.stopped = true) :
    (take w now k i).2.context = none := by
  match i with
  | .message (.init config) =>
    simp only [take] at h
    split at h <;> simp [hk] at h
  | .message (.invoke id tool params) =>
    simp only [take] at h
    split at h <;> simp [hk] at h
  | .message .shutdown => rfl
  | .change path change => simp [take, hk] at h
  | .rejected id reason => simp [take, hk] at h

/-- The deeds of a turn: an input, if there is one, and then a flush and a step. -/
def deedsOfTurn (w : World) (now : Nat) (input : Option Input) : List Moment :=
  ((input.map Deed.take).toList ++ [Deed.flush, Deed.step]).map (⟨w, now, ·⟩)

theorem turn_eq_live {k : Worker} (w : World) (now : Nat) (hk : k.stopped = false)
    (input : Option Input) : turn w now k input = live (deedsOfTurn w now input) k := by
  cases input with
  | none =>
    cases hc : k.context <;> simp [deedsOfTurn, turn, live, perform, inContext, hc, hk]
  | some i =>
    cases hs : (take w now k i).2.stopped with
    | true =>
      simp [deedsOfTurn, turn, live, perform, hk, hs, context_take_of_stopped w now i hk hs]
    | false =>
      cases hc : (take w now k i).2.context <;>
        simp [deedsOfTurn, turn, live, perform, inContext, hc, hk, hs]

theorem live_of_stopped {k : Worker} (hk : k.stopped = true) (moments : List Moment) :
    live moments k = ([], k) := by
  cases moments <;> simp [live, hk]

theorem live_append (moments later : List Moment) (k : Worker) :
    live (moments ++ later) k =
      ((live moments k).1 ++ (live later (live moments k).2).1, (live later (live moments k).2).2) := by
  induction moments generalizing k with
  | nil => rfl
  | cons m moments ih =>
    rcases hk : k.stopped with _ | _
    · simp [live, hk, ih]
    · simp [live_of_stopped hk]

/-- What a worker does with inputs that are all there from the start. -/
theorem run_eq_live (w : World) (now : Nat) (inputs : List Input) (k : Worker) :
    run w now inputs k = live (inputs.flatMap fun i => deedsOfTurn w now (some i)) k := by
  induction inputs generalizing k with
  | nil => rfl
  | cons i inputs ih =>
    rw [List.flatMap_cons, live_append, run]
    rcases hk : k.stopped with _ | _
    · simp [turn_eq_live w now hk, ih]
    · simp [live_of_stopped hk]

/-! ## News about readiness -/

namespace Outbound

def isReady : Outbound → Bool
  | ready .. => true
  | _ => false

/-- Whether a message is no news about readiness. -/
def isAside : Outbound → Bool
  | ready .. => false
  | progress .. => false
  | _ => true

/-- What may come before what. -/
def Precedes : Outbound → Outbound → Prop
  | ready .., ready .. => False
  | ready .., progress .. => False
  | progress p _ _, progress q _ _ => p < q
  | _, _ => True

theorem isReady_of_isAside {m : Outbound} (h : m.isAside = true) : m.isReady = false := by
  cases m <;> first | rfl | cases h

theorem precedes_of_isAside {m : Outbound} (h : m.isAside = true) (m' : Outbound) :
    m'.Precedes m := by
  cases m <;> cases m' <;> simp_all [Precedes, isAside]

theorem precedes_ready {m : Outbound} (h : m.isReady = false) (duration indexed : Nat) :
    m.Precedes (ready duration indexed) := by
  cases m <;> simp_all [Precedes, isReady]

theorem not_precedes_ready {m : Outbound} (h : m.isReady = true) {m' : Outbound}
    (h' : m'.isAside = false) : ¬ m.Precedes m' := by
  cases m <;> cases m' <;> simp_all [Precedes, isReady, isAside]

end Outbound

/-- News about readiness in order: no file is counted twice or too many, and being ready is told
last, and once. -/
structure Orderly (log : List Outbound) : Prop where
  ordered : log.Pairwise Outbound.Precedes
  bounded : ∀ p t f, .progress p t f ∈ log → p ≤ t

variable {log out : List Outbound} {w : World} {c c' : WorkerContext} {k : Worker}

theorem orderly_nil : Orderly [] := ⟨.nil, by simp⟩

theorem Orderly.append_one (h : Orderly log) {m : Outbound} (hm : ∀ m' ∈ log, m'.Precedes m)
    (hb : ∀ p t f, m = .progress p t f → p ≤ t) : Orderly (log ++ [m]) := by
  constructor
  · rw [List.pairwise_append]
    exact ⟨h.ordered, List.pairwise_singleton _ _, by simpa using hm⟩
  · intro p t f hp
    rcases List.mem_append.mp hp with hp | hp
    · exact h.bounded p t f hp
    · exact hb p t f (List.mem_singleton.mp hp).symm

theorem Orderly.append_aside (h : Orderly log) (hout : ∀ m ∈ out, m.isAside = true) :
    Orderly (log ++ out) := by
  induction out generalizing log with
  | nil => rwa [List.append_nil]
  | cons m out ih =>
    obtain ⟨hm, hout⟩ := List.forall_mem_cons.mp hout
    rw [← List.singleton_append, ← List.append_assoc]
    refine ih (h.append_one (fun m' _ => Outbound.precedes_of_isAside hm m') ?_) hout
    rintro p t f rfl
    cases hm

theorem Orderly.append_ready (h : Orderly log) (hlog : log.any Outbound.isReady = false)
    (duration indexed : Nat) : Orderly (log ++ [.ready duration indexed]) := by
  refine h.append_one (fun m hm => Outbound.precedes_ready ?_ _ _) (by simp)
  exact Bool.eq_false_iff.mpr (List.any_eq_false.mp hlog m hm)

theorem any_isReady_of_aside (hout : ∀ m ∈ out, m.isAside = true) :
    out.any Outbound.isReady = false := by
  rw [List.any_eq_false]
  intro m hm
  rw [Outbound.isReady_of_isAside (hout m hm)]
  exact Bool.false_ne_true

/-- Being ready is told at most once. -/
theorem Orderly.countP_isReady (h : Orderly log) : log.countP Outbound.isReady ≤ 1 := by
  rw [List.countP_eq_length_filter]
  have hp := h.ordered.filter Outbound.isReady
  have hm : ∀ m ∈ log.filter Outbound.isReady, m.isReady = true := fun m hm =>
    (List.mem_filter.mp hm).2
  match hr : log.filter Outbound.isReady with
  | [] => simp
  | [m] => simp
  | m :: m' :: ms =>
    rw [hr] at hp hm
    have hmm' := List.rel_of_pairwise_cons hp List.mem_cons_self
    have hm' : m'.isAside = false := by
      by_contra ha
      have := Outbound.isReady_of_isAside (Bool.eq_true_of_not_eq_false ha)
      simp [hm m' (by simp)] at this
    exact absurd hmm' (Outbound.not_precedes_ready (hm m List.mem_cons_self) hm')

/-- How far the first pass has come is told before being ready, with numbers that grow. -/
theorem Orderly.before_progress {before after : List Outbound} {p t : Nat} {f : Option String}
    (h : Orderly (before ++ .progress p t f :: after)) :
    p ≤ t ∧ before.any Outbound.isReady = false ∧
      ∀ p' t' f', .progress p' t' f' ∈ before → p' < p := by
  have hb := (List.pairwise_append.mp h.ordered).2.2
  refine ⟨h.bounded p t f (by simp), ?_, ?_⟩
  · rw [List.any_eq_false]
    intro m hm hready
    exact Outbound.not_precedes_ready hready rfl (hb m hm _ List.mem_cons_self)
  · intro p' t' f' hm
    exact hb _ hm _ List.mem_cons_self

/-! ## What is told and what is held -/

/-- A worker knows whether it has told that it is ready. -/
structure Aware (log : List Outbound) (c : WorkerContext) : Prop where
  orderly : Orderly log
  told : log.any Outbound.isReady = c.ready

/-- What a worker has told fits to what it holds: it is ready, or a pass is running, and a pass that
nobody asked for is the first one, which has told no more than it has done. -/
structure Attuned (log : List Outbound) (c : WorkerContext) : Prop extends Aware log c where
  busy : c.ready = false → ∃ a, c.active = some a
  going : ∀ a, c.active = some a → a.pass.cancelled = false
  first : ∀ a, c.active = some a → a.request = none →
    c.ready = false ∧ c.atlas.status.total = a.pass.total ∧
      ∀ p t f, .progress p t f ∈ log → p ≤ a.pass.processed

theorem Aware.append_aside (h : Aware log c) (hout : ∀ m ∈ out, m.isAside = true)
    (hr : c'.ready = c.ready) : Aware (log ++ out) c' := by
  constructor
  · exact h.orderly.append_aside hout
  · rw [List.any_append, any_isReady_of_aside hout, Bool.or_false, h.told, hr]

theorem not_mem_of_aside (hout : ∀ m ∈ out, m.isAside = true) (p t : Nat) (f : Option String) :
    .progress p t f ∉ out := fun h => Bool.false_ne_true (hout _ h)

theorem Attuned.append_aside (h : Attuned log c) (hout : ∀ m ∈ out, m.isAside = true)
    (hr : c'.ready = c.ready) (ha : c'.active = c.active)
    (hs : c'.atlas.status = c.atlas.status) : Attuned (log ++ out) c' := by
  refine ⟨h.toAware.append_aside hout hr, ?_, ?_, ?_⟩
  · rw [hr, ha]
    exact h.busy
  · rw [ha]
    exact h.going
  · intro a hactive hrequest
    rw [ha] at hactive
    obtain ⟨hready, htotal, hp⟩ := h.first a hactive hrequest
    refine ⟨hr.trans hready, by rw [hs, htotal], fun p t f hmem => ?_⟩
    rcases List.mem_append.mp hmem with hmem | hmem
    · exact hp p t f hmem
    · exact absurd hmem (not_mem_of_aside hout p t f)

/-! ## One deed -/

/-- A worker without a pass is ready once it has announced so. -/
theorem Aware.announce (h : Aware log c) (hidle : c.active = none) :
    Attuned (log ++ (announce c).1) (announce c).2 ∧ (Worker.announce c).2.active = none := by
  unfold Worker.announce
  split
  · rename_i hr
    rw [List.append_nil]
    refine ⟨⟨h, ?_, ?_, ?_⟩, hidle⟩
    · intro hn
      rw [hr] at hn
      cases hn
    · simp [hidle]
    · simp [hidle]
  · rename_i hr
    have hlog : log.any Outbound.isReady = false := by rw [h.told, Bool.eq_false_iff.mpr hr]
    refine ⟨⟨⟨h.orderly.append_ready hlog _ _, ?_⟩, ?_, ?_, ?_⟩, hidle⟩
    · simp [Outbound.isReady]
    · intro hn
      cases hn
    · simp [hidle]
    · simp [hidle]

theorem isAside_results (request : Option Nat) (data : Json) :
    ∀ m ∈ request.toList.map (fun id => Outbound.result id data 0), m.isAside = true := by
  simp [Outbound.isAside]

/-- A pass that was just begun has told nothing. -/
theorem Aware.begin {a a' : Atlas} {pass : IndexPass} (h : Aware log c) (hidle : c.ready = false)
    (hb : a.beginIndex w = (.ok pass, a')) (hlog : ∀ m ∈ log, m.isAside = true) :
    Attuned log { c with atlas := a', active := some ⟨pass, none⟩ } := by
  refine ⟨⟨h.orderly, h.told⟩, fun _ => ⟨_, rfl⟩, ?_, ?_⟩
  · rintro a ⟨⟩
    exact (Atlas.beginIndex_eq_ok hb).2.1
  · rintro a ⟨⟩ -
    exact ⟨hidle, (Atlas.beginIndex_counts hb).2,
      fun p t f hmem => absurd hmem (not_mem_of_aside hlog p t f)⟩

/-- What a worker holds after it has opened a workspace. -/
theorem attuned_openWorkspace (hlog : ∀ m ∈ log, m.isAside = true) (w : World)
    (config : WorkspaceConfig) :
    ((openWorkspace w config).2 = none ∧ ∀ m ∈ (openWorkspace w config).1, m.isAside = true) ∨
      ∃ c, (openWorkspace w config).2 = some c ∧ Attuned (log ++ (openWorkspace w config).1) c := by
  have haware (atlas : Atlas) : Aware log ⟨atlas, .new config.debounce, none, false⟩ :=
    ⟨orderly_nil.append_aside hlog, any_isReady_of_aside hlog⟩
  unfold openWorkspace
  cases Atlas.new w config with
  | error f =>
    left
    simp [failure, Outbound.isAside]
  | ok atlas =>
    right
    dsimp only
    split
    · split
      · rename_i pass atlas' hb
        rw [List.append_nil]
        exact ⟨_, rfl, (haware atlas').begin rfl hb hlog⟩
      · exact ⟨_, rfl, ((haware _).announce rfl).1⟩
    · exact ⟨_, rfl, ((haware _).announce rfl).1⟩

/-- A worker whose pass is cancelled has answered the request that waited for it, if any. -/
theorem Attuned.cancelActive (h : Attuned log c) (w : World) :
    Aware (log ++ (cancelActive w c).1) (Worker.cancelActive w c).2 ∧
      (Worker.cancelActive w c).2.active = none := by
  cases ha : c.active with
  | none =>
    simp only [Worker.cancelActive, ha, List.append_nil, and_true]
    exact h.toAware
  | some a =>
    obtain ⟨hout, hactive⟩ := cancelActive_eq (w := w) ha
    refine ⟨h.toAware.append_aside ?_ ?_, hactive⟩
    · rw [hout]
      exact isAside_results _ _
    · simp only [Worker.cancelActive, ha]
      split <;> rfl

/-- A rebuild begins a pass of its own once the running one is cancelled, or it is refused. -/
theorem rebuild_cases (w : World) (c : WorkerContext) (id : Nat) :
    (∃ pass atlas, (cancelActive w c).2.atlas.beginIndex w = (.ok pass, atlas) ∧
      rebuild w c id = ((cancelActive w c).1,
        { (cancelActive w c).2 with atlas, active := some ⟨pass, some id⟩ })) ∨
    ∃ e atlas, rebuild w c id = ((cancelActive w c).1 ++ [failure (some id) e] ++
        (announce { (cancelActive w c).2 with atlas }).1,
      (announce { (cancelActive w c).2 with atlas }).2) := by
  unfold rebuild
  dsimp only
  split
  · rename_i pass atlas hb
    exact Or.inl ⟨pass, atlas, hb, rfl⟩
  · rename_i f atlas _
    exact Or.inr ⟨_, atlas, rfl⟩

theorem Attuned.rebuild (h : Attuned log c) (w : World) (id : Nat) :
    Attuned (log ++ (rebuild w c id).1) (Worker.rebuild w c id).2 := by
  obtain ⟨haware, hidle⟩ := h.cancelActive w
  rcases rebuild_cases w c id with ⟨pass, atlas, hb, heq⟩ | ⟨e, atlas, heq⟩
  · rw [heq]
    refine ⟨⟨haware.orderly, haware.told⟩, fun _ => ⟨_, rfl⟩, ?_, ?_⟩
    · rintro a ⟨⟩
      exact (Atlas.beginIndex_eq_ok hb).2.1
    · rintro a ⟨⟩ ⟨⟩
  · rw [heq, ← List.append_assoc, ← List.append_assoc]
    have hrefused : Aware (log ++ (Worker.cancelActive w c).1 ++ [failure (some id) e])
        { (Worker.cancelActive w c).2 with atlas } :=
      haware.append_aside (by simp [failure, Outbound.isAside]) rfl
    exact (hrefused.announce hidle).1

/-- A step of the first pass tells how far it has come, if it tells anything. -/
theorem Attuned.tell {a : ActivePass} {file : Path} {rest : List Path} (h : Attuned log c)
    (ha : c.active = some a) (hr : a.request = none) (hfile : a.pass.remaining = file :: rest)
    {s : IndexStatus} (hs : s ∈ (c.atlas.stepFile w a.pass file rest).1) :
    Orderly (log ++ [.progress s.processed s.total s.currentFile]) := by
  obtain ⟨hready, htotal, hp⟩ := h.first a ha hr
  obtain ⟨hprocessed, hall⟩ := (Atlas.stepFile_counts c.atlas a.pass file rest).2.2 s hs
  apply h.orderly.append_one
  · intro m hm
    have hnot : m.isReady = false :=
      Bool.eq_false_iff.mpr (List.any_eq_false.mp (h.told.trans hready) m hm)
    cases m with
    | ready => cases hnot
    | progress p t f =>
      have hlt : p < s.processed := by
        rw [hprocessed]
        exact Nat.lt_succ_of_le (hp p t f hm)
      exact hlt
    | _ => trivial
  · rintro p t f ⟨⟩
    rw [hprocessed, hall, htotal, IndexPass.total, hfile, List.length_cons]
    omega

/-- A step of a pass with a file left keeps a worker attuned to what it then has told. -/
theorem Attuned.advance {a : ActivePass} {file : Path} {rest : List Path} (h : Attuned log c)
    (out : List Outbound) (ha : c.active = some a) (hfile : a.pass.remaining = file :: rest)
    (horderly : Orderly (log ++ out)) (hready : out.any Outbound.isReady = false)
    (hout : a.request = none → ∀ p t f, .progress p t f ∈ out → p = a.pass.processed + 1) :
    Attuned (log ++ out)
      { c with
        atlas := (c.atlas.stepFile w a.pass file rest).2.2
        active := some { a with pass := (c.atlas.stepFile w a.pass file rest).2.1 } } := by
  obtain ⟨hremaining, hcancelled⟩ := Atlas.stepFile_pass (w := w) c.atlas a.pass file rest
  obtain ⟨hprocessed, htotal, -⟩ := Atlas.stepFile_counts (w := w) c.atlas a.pass file rest
  refine ⟨⟨horderly, ?_⟩, fun _ => ⟨_, rfl⟩, ?_, ?_⟩
  · rw [List.any_append, hready, Bool.or_false, h.told]
  · rintro a' ⟨⟩
    exact hcancelled.trans (h.going a ha)
  · rintro a' ⟨⟩ hrequest
    obtain ⟨hnot, hall, hp⟩ := h.first a ha hrequest
    refine ⟨hnot, ?_, fun p t f hmem => ?_⟩
    · simp only [htotal, hall, IndexPass.total, hprocessed, hremaining, hfile, List.length_cons]
      omega
    · rw [hprocessed]
      rcases List.mem_append.mp hmem with hmem | hmem
      · exact Nat.le_succ_of_le (hp p t f hmem)
      · exact (hout hrequest p t f hmem).le

theorem Attuned.step (h : Attuned log c) (w : World) :
    Attuned (log ++ (step w c).1) (Worker.step w c).2 := by
  cases ha : c.active with
  | none => simpa only [Worker.step, ha, List.append_nil] using h
  | some a =>
    rcases Atlas.indexStep_cases c.atlas w (h.going a ha) with ⟨-, heq⟩ | ⟨file, rest, hrest, heq⟩
    · simp only [Worker.step, ha, heq]
      rw [← List.append_assoc]
      refine (Aware.announce ?_ ?_).1
      · exact h.toAware.append_aside (isAside_results _ _) rfl
      · rfl
    · have hsilent := h.advance (w := w) [] ha hrest
        (by simpa using h.orderly) rfl (by simp)
      simp only [Worker.step, ha, heq]
      cases hrequest : a.request with
      | some id => simpa [hrequest] using hsilent
      | none =>
        cases hreport : (c.atlas.stepFile w a.pass file rest).1 with
        | none => simpa [hrequest] using hsilent
        | some s =>
          have hcount := (Atlas.stepFile_counts c.atlas a.pass file rest).2.2 s hreport
          have hnews := h.advance (w := w) _ ha hrest (h.tell ha hrequest hrest hreport) rfl fun _ => by
            rintro p t f hp
            cases List.mem_singleton.mp hp
            exact hcount.1
          simpa [hrequest] using hnews

/-! ## Deeds that are no news -/

def Deed.isStep : Deed → Bool
  | .step => true
  | _ => false

/-- Whether a deed takes a request to rebuild the index. -/
def Deed.rebuilds : Deed → Bool
  | .take (.message (.invoke _ tool params)) =>
    match ToolRequest.parse tool params with
    | .ok .rebuild => true
    | _ => false
  | _ => false

theorem isAside_failure (id : Option Nat) (e : ToolError) : (failure id e).isAside = true := rfl

theorem isAside_reply (id : Nat) (r : Except ToolError Json) : (reply id r).isAside = true := by
  cases r <;> rfl

/-- A request other than a rebuild is answered at once, and the running pass is left as it is. -/
theorem invoke_quiet {id : Nat} {tool : String} {params : Json} (w : World) (c : WorkerContext)
    (h : (Deed.take (.message (.invoke id tool params))).rebuilds = false) :
    (∀ m ∈ (invoke w c id tool params).1, m.isAside = true) ∧
      (invoke w c id tool params).2.ready = c.ready ∧
      (invoke w c id tool params).2.active = c.active ∧
      (invoke w c id tool params).2.atlas.status = c.atlas.status := by
  unfold invoke
  split
  · exact ⟨by simp [isAside_failure], rfl, rfl, rfl⟩
  · rename_i hparse
    simp [Deed.rebuilds, hparse] at h
  · rename_i request hnot _
    exact ⟨by simp [isAside_reply], rfl, rfl, (Atlas.edits_run c.atlas hnot).status⟩

/-- Apart from the steps of a pass and from requests to rebuild, nothing that a worker does until it is
told to stop is news. -/
theorem perform_quiet {m : Moment} (hc : k.context = some c) (hstop : m.deed.stops = false)
    (hrebuild : m.deed.rebuilds = false) (hstep : m.deed.isStep = false) :
    ∃ c', (k.perform m).2 = { k with context := some c' } ∧
      (∀ x ∈ (k.perform m).1, x.isAside = true) ∧ c'.ready = c.ready ∧ c'.active = c.active ∧
      c'.atlas.status = c.atlas.status := by
  obtain ⟨w, now, deed⟩ := m
  match deed with
  | .take (.message (.init config)) =>
    simp only [perform, take, hc]
    exact ⟨c, by rw [← hc], by simp [isAside_failure], rfl, rfl, rfl⟩
  | .take (.message (.invoke id tool params)) =>
    simp only [perform, take, hc]
    exact ⟨_, rfl, invoke_quiet w c hrebuild⟩
  | .take (.message .shutdown) => cases hstop
  | .take (.change path change) =>
    simp only [perform, take, hc]
    exact ⟨_, rfl, by simp, rfl, rfl, rfl⟩
  | .take (.rejected id reason) =>
    simp only [perform, take]
    exact ⟨c, by rw [← hc], by simp [isAside_failure], rfl, rfl, rfl⟩
  | .flush =>
    simp only [perform, inContext, hc, flush]
    refine ⟨_, rfl, ?_, rfl, rfl, (Atlas.edits_applyAll ..).status⟩
    exact List.forall_mem_map.mpr fun _ _ => rfl
  | .step => cases hstep

theorem perform_step (m : Moment) (hc : k.context = some c) (h : m.deed.isStep = true) :
    k.perform m = ((step m.world c).1, { k with context := some (step m.world c).2 }) := by
  obtain ⟨w, now, deed⟩ := m
  cases deed with
  | step => simp only [perform, inContext, hc]
  | _ => cases h

theorem perform_rebuild (m : Moment) (hc : k.context = some c) (h : m.deed.rebuilds = true) :
    ∃ id, k.perform m =
      ((rebuild m.world c id).1, { k with context := some (rebuild m.world c id).2 }) := by
  obtain ⟨w, now, deed⟩ := m
  match deed with
  | .take (.message (.invoke id tool params)) =>
    refine ⟨id, ?_⟩
    simp only [Deed.rebuilds] at h
    split at h
    · rename_i hparse
      simp only [perform, take, hc, invoke, hparse]
    · cases h
  | .take (.message (.init _)) => cases h
  | .take (.message .shutdown) => cases h
  | .take (.change _ _) => cases h
  | .take (.rejected _ _) => cases h
  | .flush => cases h
  | .step => cases h

/-! ## All deeds -/

/-- What a worker has told fits to what it holds, if it holds anything. Before it was given a workspace
it has told no news. -/
def Fits (log : List Outbound) (k : Worker) : Prop :=
  match k.context with
  | some c => k.stopped = false ∧ Attuned log c
  | none => Orderly log ∧ (k.stopped = false → ∀ m ∈ log, m.isAside = true)

theorem Fits.orderly (h : Fits log k) : Orderly log := by
  unfold Fits at h
  split at h
  · exact h.2.orderly
  · exact h.1

/-- What a worker does before it was given a workspace. -/
theorem Fits.perform_unopened (hc : k.context = none) (hk : k.stopped = false)
    (hlog : ∀ m ∈ log, m.isAside = true) (m : Moment) :
    Fits (log ++ (k.perform m).1) (k.perform m).2 := by
  have hsame {out : List Outbound} (hout : ∀ x ∈ out, x.isAside = true) : Fits (log ++ out) k := by
    have hall : ∀ x ∈ log ++ out, x.isAside = true := by
      intro x hx
      exact (List.mem_append.mp hx).elim (hlog x) (hout x)
    simp only [Fits, hc]
    exact ⟨orderly_nil.append_aside hall, fun _ => hall⟩
  obtain ⟨w, now, deed⟩ := m
  match deed with
  | .take (.message (.init config)) =>
    simp only [Worker.perform, take, hc]
    rcases attuned_openWorkspace hlog w config with ⟨hnone, hout⟩ | ⟨c, hsome, hattuned⟩
    · rw [hnone, ← hc]
      exact hsame hout
    · simp only [Fits, hsome]
      exact ⟨hk, hattuned⟩
  | .take (.message (.invoke id tool params)) =>
    simp only [Worker.perform, take, hc]
    exact hsame (by simp [isAside_failure])
  | .take (.message .shutdown) =>
    simp only [Worker.perform, take, Fits, List.append_nil]
    exact ⟨orderly_nil.append_aside hlog, fun _ => hlog⟩
  | .take (.change path change) =>
    simp only [Worker.perform, take, hc, Option.map_none]
    rw [← hc]
    exact hsame (by simp)
  | .take (.rejected id reason) =>
    exact hsame (by simp [Worker.perform, take, isAside_failure])
  | .flush =>
    simp only [Worker.perform, inContext, hc]
    exact hsame (by simp)
  | .step =>
    simp only [Worker.perform, inContext, hc]
    exact hsame (by simp)

theorem perform_stops {m : Moment} (h : m.deed.stops = true) : k.perform m = ([], ⟨none, true⟩) := by
  obtain ⟨w, now, deed⟩ := m
  match deed with
  | .take (.message .shutdown) => rfl
  | .take (.message (.init _)) => cases h
  | .take (.message (.invoke _ _ _)) => cases h
  | .take (.change _ _) => cases h
  | .take (.rejected _ _) => cases h
  | .flush => cases h
  | .step => cases h

theorem Fits.perform (h : Fits log k) (hk : k.stopped = false) (m : Moment) :
    Fits (log ++ (k.perform m).1) (k.perform m).2 := by
  cases hc : k.context with
  | none =>
    simp only [Fits, hc] at h
    exact perform_unopened hc hk (h.2 hk) m
  | some c =>
    have hattuned : Attuned log c := by
      simp only [Fits, hc] at h
      exact h.2
    rcases hstop : m.deed.stops with _ | _
    · rcases hrebuild : m.deed.rebuilds with _ | _
      · rcases hstep : m.deed.isStep with _ | _
        · obtain ⟨c', hk', hout, hready, hactive, hstatus⟩ := perform_quiet hc hstop hrebuild hstep
          rw [hk']
          exact ⟨hk, hattuned.append_aside hout hready hactive hstatus⟩
        · rw [perform_step m hc hstep]
          exact ⟨hk, hattuned.step m.world⟩
      · obtain ⟨id, heq⟩ := perform_rebuild m hc hrebuild
        rw [heq]
        exact ⟨hk, hattuned.rebuild m.world id⟩
    · rw [perform_stops hstop, List.append_nil]
      exact ⟨h.orderly, nofun⟩

theorem Fits.live (h : Fits log k) (moments : List Moment) :
    Fits (log ++ (live moments k).1) (Worker.live moments k).2 := by
  induction moments generalizing log k with
  | nil => simpa [Worker.live] using h
  | cons m moments ih =>
    unfold Worker.live
    split
    · simpa using h
    · rename_i hk
      have hone := h.perform (Bool.eq_false_iff.mpr hk) m
      simpa only [List.append_assoc] using ih hone

/-! ## After the first pass -/

/-- A worker whose first pass is over: a pass that is running was asked for. -/
def Warmed (k : Worker) : Prop :=
  match k.context with
  | some c => ∀ a, c.active = some a → a.request ≠ none
  | none => k.stopped = true

theorem not_mem_announce (c : WorkerContext) (p t : Nat) (f : Option String) :
    .progress p t f ∉ (announce c).1 := by
  unfold announce
  split <;> simp

theorem active_announce (c : WorkerContext) : (announce c).2.active = c.active := by
  unfold announce
  split <;> rfl

theorem Warmed.rebuild (w : World) (c : WorkerContext) (id p t : Nat) (f : Option String) :
    .progress p t f ∉ (rebuild w c id).1 ∧
      ∀ a, (Worker.rebuild w c id).2.active = some a → a.request ≠ none := by
  have hcancel : .progress p t f ∉ (cancelActive w c).1 ∧ (cancelActive w c).2.active = none := by
    cases ha : c.active with
    | none => simp [cancelActive, ha]
    | some a => simp [cancelActive_eq ha]
  rcases rebuild_cases w c id with ⟨pass, atlas, -, heq⟩ | ⟨e, atlas, heq⟩
  · rw [heq]
    refine ⟨hcancel.1, ?_⟩
    rintro a ⟨⟩ ⟨⟩
  · rw [heq]
    refine ⟨?_, ?_⟩
    · simp [hcancel.1, failure, not_mem_announce]
    · rw [active_announce]
      rintro a ha
      rw [hcancel.2] at ha
      cases ha

theorem Warmed.step (h : ∀ a, c.active = some a → a.request ≠ none) (w : World) (p t : Nat)
    (f : Option String) :
    .progress p t f ∉ (step w c).1 ∧
      ∀ a, (Worker.step w c).2.active = some a → a.request ≠ none := by
  cases ha : c.active with
  | none =>
    simp only [Worker.step, ha]
    exact ⟨by simp, by simp⟩
  | some a =>
    have hrequest := Option.isSome_iff_ne_none.mpr (h a ha)
    simp only [Worker.step, ha]
    split
    · rw [if_pos hrequest]
      refine ⟨by simp, ?_⟩
      rintro a' ⟨⟩
      exact h a ha
    · dsimp only
      rw [active_announce]
      exact ⟨by simp [not_mem_announce], by simp⟩

theorem Warmed.perform (h : Warmed k) (hk : k.stopped = false) (m : Moment) (p t : Nat)
    (f : Option String) : .progress p t f ∉ (k.perform m).1 ∧ Warmed (k.perform m).2 := by
  cases hc : k.context with
  | none =>
    simp only [Warmed, hc, hk] at h
    cases h
  | some c =>
    simp only [Warmed, hc] at h
    rcases hstop : m.deed.stops with _ | _
    · rcases hrebuild : m.deed.rebuilds with _ | _
      · rcases hstep : m.deed.isStep with _ | _
        · obtain ⟨c', hk', hout, -, hactive, -⟩ := perform_quiet hc hstop hrebuild hstep
          refine ⟨not_mem_of_aside hout p t f, ?_⟩
          rw [hk']
          simpa only [Warmed, hactive] using h
        · rw [perform_step m hc hstep]
          exact Warmed.step h m.world p t f
      · obtain ⟨id, heq⟩ := perform_rebuild m hc hrebuild
        rw [heq]
        exact Warmed.rebuild m.world c id p t f
    · rw [perform_stops hstop]
      exact ⟨by simp, rfl⟩

/-- Once the first pass is over, nothing more is told about it. -/
theorem Warmed.live (h : Warmed k) (moments : List Moment) (p t : Nat) (f : Option String) :
    .progress p t f ∉ (live moments k).1 := by
  induction moments generalizing k with
  | nil => simp [Worker.live]
  | cons m moments ih =>
    unfold Worker.live
    split
    · simp
    · rename_i hk
      obtain ⟨hone, hwarmed⟩ := h.perform (Bool.eq_false_iff.mpr hk) m p t f
      simp [hone, ih hwarmed]

/-- A rebuild that nothing disturbs ends with its last step; that is when a worker that was not ready
yet tells that it is. -/
theorem live_rebuilding {pass : IndexPass} {id : Nat} {later : List Moment}
    (hk : k.stopped = false) (hc : k.context = some c) (ha : c.active = some ⟨pass, some id⟩)
    (hgoing : pass.cancelled = false) (hready : c.ready = false)
    (hlater : ∀ m ∈ later, m.deed.stops = false ∧ m.deed.rebuilds = false) :
    (later.countP (·.deed.isStep) ≤ pass.remaining.length →
      (live later k).1.any Outbound.isReady = false) ∧
    (pass.remaining.length < later.countP (·.deed.isStep) →
      ∃ (before after : List Outbound) (summary : Summary) (indexed : Nat),
        (live later k).1 = before ++ .result id summary.toJson 0 :: .ready 0 indexed :: after ∧
        before.any Outbound.isReady = false ∧ summary.cancelled = false) := by
  induction later generalizing k c pass with
  | nil => simp [live]
  | cons m later ih =>
    obtain ⟨⟨hstop, hrebuild⟩, hlater⟩ := List.forall_mem_cons.mp hlater
    simp only [live, hk, Bool.false_eq_true, if_false, List.countP_cons]
    rcases hstep : m.deed.isStep with _ | _
    · obtain ⟨c', hk', hout, hready', hactive, -⟩ := perform_quiet hc hstop hrebuild hstep
      have hquiet := any_isReady_of_aside hout
      obtain ⟨hnone, hsome⟩ := ih (k := (k.perform m).2) (by rw [hk']; exact hk) (by rw [hk'])
        (hactive.trans ha) hgoing (hready'.trans hready) hlater
      constructor
      · intro hle
        rw [List.any_append, hquiet, hnone (by simpa using hle)]
        rfl
      · intro hlt
        obtain ⟨before, after, summary, indexed, heq, hbefore, hsummary⟩ := hsome (by simpa using hlt)
        refine ⟨(k.perform m).1 ++ before, after, summary, indexed, ?_, ?_, hsummary⟩
        · rw [heq, List.append_assoc]
        · rw [List.any_append, hquiet, hbefore]
          rfl
    · rw [perform_step m hc hstep]
      rcases Atlas.indexStep_cases c.atlas m.world hgoing with ⟨hend, heq⟩ | ⟨file, rest, hrest, heq⟩
      · simp only [step, ha, heq, announce, hready, hend]
        constructor
        · intro hle
          simp at hle
        · intro _
          exact ⟨[], _, pass.summary, _, rfl, rfl, hgoing⟩
      · obtain ⟨hremaining, hcancelled⟩ :=
          Atlas.stepFile_pass (w := m.world) c.atlas pass file rest
        have hmore := ih
          (k := { k with context := some { c with
            atlas := (c.atlas.stepFile m.world pass file rest).2.2
            active := some ⟨(c.atlas.stepFile m.world pass file rest).2.1, some id⟩ } })
          hk rfl rfl (hcancelled.trans hgoing) hready hlater
        simp only [step, ha, heq, Option.isSome_some, if_true, List.nil_append, hrest,
          List.length_cons]
        rw [hremaining] at hmore
        constructor
        · intro hle
          exact hmore.1 (Nat.le_of_succ_le_succ hle)
        · intro hlt
          exact hmore.2 (Nat.lt_of_succ_lt_succ hlt)

/-- A worker that has been given a workspace has told that it is ready, or a pass is running. It tells
it at most once, and how far its first pass has come only before, with numbers that grow and do not
exceed that of all files. A request to rebuild that comes during the first pass ends it, and being ready
is told when the rebuild is refused or ends; likewise for one that comes during such a rebuild. -/
theorem ready_told_once (moments : List Moment) :
    let log := (live moments new).1
    let k := (live moments new).2
    (∀ c, k.context = some c → log.any Outbound.isReady = true ∨ c.active.isSome = true) ∧
    log.countP Outbound.isReady ≤ 1 ∧
    (∀ before p t f after, log = before ++ .progress p t f :: after →
      p ≤ t ∧ before.any Outbound.isReady = false ∧
        ∀ p' t' f', .progress p' t' f' ∈ before → p' < p) ∧
    ∀ c a, k.context = some c → c.active = some a →
      (a.request = none → log.any Outbound.isReady = false) ∧
      (log.any Outbound.isReady = false →
        ∀ w now id tool params, ToolRequest.parse tool params = .ok .rebuild →
          let told := a.request.toList.map fun old => .result old a.pass.cancel.summary.toJson 0
          let next := take w now k (.message (.invoke id tool params))
          (∃ e indexed c', next = (told ++ [failure (some id) e, .ready 0 indexed],
              { k with context := some c' }) ∧ c'.active = none) ∨
          ∃ pass c', next = (told, { k with context := some c' }) ∧
            c'.active = some ⟨pass, some id⟩ ∧ pass.processed = 0 ∧
            ∀ later,
              (∀ p t f, .progress p t f ∉ (live later next.2).1) ∧
              ((∀ m ∈ later, m.deed.stops = false ∧ m.deed.rebuilds = false) →
                (later.countP (·.deed.isStep) ≤ pass.remaining.length →
                  (live later next.2).1.any Outbound.isReady = false) ∧
                (pass.remaining.length < later.countP (·.deed.isStep) →
                  ∃ (before after : List Outbound) (summary : Summary) (indexed : Nat),
                    (live later next.2).1 =
                      before ++ .result id summary.toJson 0 :: .ready 0 indexed :: after ∧
                    before.any Outbound.isReady = false ∧ summary.cancelled = false))) := by
  intro log k
  have hfits : Fits log k := by
    have hnew : Fits [] new := ⟨orderly_nil, by simp⟩
    exact hnew.live moments
  have hattuned {c : WorkerContext} (hc : k.context = some c) : k.stopped = false ∧ Attuned log c := by
    simpa only [Fits, hc] using hfits
  refine ⟨?_, hfits.orderly.countP_isReady, ?_, ?_⟩
  · intro c hc
    have h := (hattuned hc).2
    rcases hready : c.ready with _ | _
    · obtain ⟨a, ha⟩ := h.busy hready
      exact Or.inr (by rw [ha]; rfl)
    · exact Or.inl (h.told.trans hready)
  · intro before p t f after heq
    have horderly := hfits.orderly
    rw [heq] at horderly
    exact horderly.before_progress
  · intro c a hc ha
    obtain ⟨hk, h⟩ := hattuned hc
    refine ⟨fun hfirst => h.told.trans (h.first a ha hfirst).1, ?_⟩
    intro hnot w now id tool params hparse told next
    obtain ⟨hout, hidle⟩ := cancelActive_eq (w := w) ha
    have hready : (cancelActive w c).2.ready = false := by
      rw [← (h.cancelActive w).1.told, List.any_append, hnot, hout,
        any_isReady_of_aside (isAside_results _ _)]
      rfl
    have hnext : next = ((rebuild w c id).1, { k with context := some (rebuild w c id).2 }) := by
      simp only [next, take, hc, invoke, hparse]
    rcases rebuild_cases w c id with ⟨pass, atlas, hb, heq⟩ | ⟨e, atlas, heq⟩
    · right
      rw [heq, hout] at hnext
      refine ⟨pass, _, hnext, rfl, (Atlas.beginIndex_counts hb).1, fun later => ?_⟩
      rw [hnext]
      constructor
      · apply Warmed.live
        rintro a ⟨⟩ ⟨⟩
      · exact live_rebuilding hk rfl rfl (Atlas.beginIndex_eq_ok hb).2.1 hready
    · left
      rw [heq, hout] at hnext
      simp only [announce, hready, Bool.false_eq_true, if_false, List.append_assoc,
        List.singleton_append] at hnext
      exact ⟨e, _, _, hnext, hidle⟩

/-- In a small workspace a rebuild is asked for as soon as the first pass has begun. The one file is
handled with the first step, and being ready is told with the second. -/
theorem ready_told_once_small :
    let now (deed : Deed) : Moment := ⟨Small.world Small.tree, 0, deed⟩
    let k := (live [now (.take (.message (.init { Small.config with warmup := true })))] new).2
    let next := take (Small.world Small.tree) 0 k
      (.message (.invoke 7 "rebuild_index" (.object [])))
    next.1 = [] ∧ (live [now .step] next.2).1.any Outbound.isReady = false ∧
      (live [now .step, now .step] next.2).1.any Outbound.isReady = true := by
  intro now k next
  have hout : next.1.length = 0 := by decide +kernel
  have hfiles : ((next.2.context.bind (·.active)).map (·.pass.remaining.length)) = some 1 := by
    decide +kernel
  have hfirst : ((k.context.bind (·.active)).map (·.request)) = some none := by decide +kernel
  obtain ⟨a, ha, hrequest⟩ := Option.map_eq_some_iff.mp hfirst
  obtain ⟨c, hc, ha⟩ := Option.bind_eq_some_iff.mp ha
  obtain ⟨hwarming, hrebuild⟩ :=
    (ready_told_once [now (.take (.message (.init { Small.config with warmup := true })))]).2.2.2
      c a hc ha
  rcases hrebuild (hwarming hrequest) (Small.world Small.tree) 0 7 "rebuild_index" (.object []) rfl
    with ⟨e, indexed, c', heq, -⟩ | ⟨pass, c', heq, hactive, -, hlater⟩
  · rw [show next.1 = _ from congrArg Prod.fst heq] at hout
    simp at hout
  · have hone : pass.remaining.length = 1 := by
      rw [show next.2 = _ from congrArg Prod.snd heq] at hfiles
      simpa [hactive] using hfiles
    refine ⟨List.length_eq_zero_iff.mp hout, ?_, ?_⟩
    · exact ((hlater [now .step]).2 (by simp [now, Deed.stops, Deed.rebuilds])).1
        (by simp [now, Deed.isStep, hone])
    · obtain ⟨before, after, summary, n, heq, -⟩ :=
        ((hlater [now .step, now .step]).2 (by simp [now, Deed.stops, Deed.rebuilds])).2
          (by simp [now, Deed.isStep, hone])
      rw [show (live [now .step, now .step] next.2).1 = _ from heq]
      simp [Outbound.isReady]

end Worker

end DepAtlas
