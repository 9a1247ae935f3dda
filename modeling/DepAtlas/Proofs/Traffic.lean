import DepAtlas.Host.Session
import DepAtlas.Proofs.Replies
import Mathlib.Logic.Function.Basic

/-! # Calls in flight

Many calls of a host may be in flight at once. Each goes through its own stages, and between any two of
them the router may take a message, another call may go on, or the worker may be lost: only what is done
to the exchange is done at one blow. A reply reaches a call through its mail; a call whose time is over
looks for itself in the exchange once more before it returns.
-/

namespace DepAtlas

namespace Host

open Worker (Outbound)

/-- How far a call has come. -/
inductive Stage where
  | idle
  /-- The worker was there. -/
  | begun
  | numbered (id : Nat)
  /-- It is among the requests that wait, and its message is not sent yet. -/
  | entered (id : Nat)
  | waiting (id : Nat)
  /-- It has given up, and may still be among the requests that wait. -/
  | leaving (id : Nat) (e : HostError)
  | returned (id : Option Nat) (o : Outcome)

namespace Stage

def id? : Stage → Option Nat
  | idle | begun => none
  | numbered id | entered id | waiting id | leaving id _ => some id
  | returned id _ => id

/-- The id by which a call has been entered, until it returns. -/
def enrolled? : Stage → Option Nat
  | entered id | waiting id | leaving id _ => some id
  | _ => none

/-- The id of a call that has been entered and has not given up. -/
def awaits? : Stage → Option Nat
  | entered id | waiting id => some id
  | _ => none

/-- How many steps of its own a call has before it at most. -/
def rank : Stage → Nat
  | idle => 6
  | begun => 5
  | numbered _ => 4
  | entered _ => 3
  | waiting _ => 2
  | leaving _ _ => 1
  | returned _ _ => 0

end Stage

structure Call where
  tool : String
  limit : Nat
  stage : Stage := .idle
  /-- The outcomes that it has been sent. -/
  mail : List Outcome := []

/-- The requests that wait, the number that comes next, and the calls. -/
structure Traffic where
  exchange : Exchange
  counter : Nat
  calls : Nat → Call

/-- What a call does by itself. -/
inductive Deed where
  | begin
  | number
  | enter
  | sent
  | refused (e : HostError)
  | take
  | expire
  | drop
  | leave

/-- What is done by a call, told by its number, or by the router. -/
inductive Action where
  | own (i : Nat) (d : Deed)
  | message (m : Outbound)
  | close

/-- The call that does it, if it is not the router. -/
def Action.caller? : Action → Option Nat
  | own i _ => some i
  | message _ | close => none

namespace Traffic

/-- The traffic when a call has come to a stage. -/
def move (t : Traffic) (i : Nat) (s : Stage) : Traffic :=
  { t with calls := Function.update t.calls i { t.calls i with stage := s } }

/-- The traffic when something has happened to the exchange, with the outcomes put into the mail of the
calls that they belong to. -/
def route (t : Traffic) (e : Exchange.Event) : Traffic :=
  let (effect, exchange) := t.exchange.step e
  { t with
    exchange
    calls := fun i =>
      let c := t.calls i
      { c with mail := c.mail ++ (c.stage.id?.bind fun id => effect.settled.lookup id).toList } }

/-- Numbers are counted in 64 bits. -/
def idLimit : Nat := 2 ^ 64

/-- What a call can do at its stage, with the exchange, the counter and the stage that come of it. -/
inductive Does (t : Traffic) (c : Call) : Deed → Exchange → Nat → Stage → Prop where
  | begin (idle : c.stage = .idle) (alive : t.exchange.alive = true) :
      Does t c .begin t.exchange t.counter .begun
  | notStarted (idle : c.stage = .idle) (gone : t.exchange.alive = false) :
      Does t c .begin t.exchange t.counter (.returned none (.error .notStarted))
  | number (begun : c.stage = .begun) :
      Does t c .number t.exchange (t.counter + 1) (.numbered (t.counter % idLimit))
  | enter {id : Nat} (numbered : c.stage = .numbered id) :
      Does t c .enter (t.exchange.step (.put id)).2 t.counter (.entered id)
  | sent {id : Nat} (entered : c.stage = .entered id) :
      Does t c .sent t.exchange t.counter (.waiting id)
  | refused {id : Nat} (e : HostError) (entered : c.stage = .entered id) :
      Does t c (.refused e) t.exchange t.counter (.leaving id e)
  | take {id : Nat} {o : Outcome} (waiting : c.stage = .waiting id) (mail : c.mail.head? = some o) :
      Does t c .take t.exchange t.counter (.returned (some id) o)
  | expire {id : Nat} (waiting : c.stage = .waiting id) (mail : c.mail = []) :
      Does t c .expire t.exchange t.counter (.leaving id (.requestTimeout id c.tool c.limit))
  | drop {id : Nat} (waiting : c.stage = .waiting id) (mail : c.mail = [])
      (lost : id ∉ t.exchange.pending) :
      Does t c .drop t.exchange t.counter
        (.returned (some id) (.error (.workerTerminated "worker dropped the request")))
  | leave {id : Nat} {e : HostError} (leaving : c.stage = .leaving id e) :
      Does t c .leave (t.exchange.settle id (.error e)).2 t.counter (.returned (some id) (.error e))

inductive Step (t : Traffic) : Action → Traffic → Prop where
  | own {i : Nat} {d : Deed} {e : Exchange} {n : Nat} {s : Stage} (does : Does t (t.calls i) d e n s) :
      Step t (.own i d) (move { t with exchange := e, counter := n } i s)
  | message (m : Outbound) (alive : t.exchange.alive = true) :
      Step t (.message m) (t.route (.received m))
  | close (alive : t.exchange.alive = true) : Step t .close (t.route .closed)

/-- What is done one after the other. -/
inductive Run (t₀ : Traffic) : List Action → Traffic → Prop where
  | nil : Run t₀ [] t₀
  | snoc {past : List Action} {t t' : Traffic} {x : Action} (h : Run t₀ past t) (s : Step t x t') :
      Run t₀ (past ++ [x]) t'

/-- No call has begun yet, and so none waits. -/
structure Fresh (t : Traffic) : Prop where
  pending : t.exchange.pending = []
  idle : ∀ i, (t.calls i).stage = .idle
  mail : ∀ i, (t.calls i).mail = []

variable {t₀ t t' t'' : Traffic} {x : Action} {past more : List Action} {i j id : Nat} {s : Stage}

theorem Run.append (h : Run t₀ past t) (h' : Run t more t') : Run t₀ (past ++ more) t' := by
  induction h' with
  | nil => simpa using h
  | snoc _ s ih =>
    rw [← List.append_assoc]
    exact .snoc ih s

theorem Step.run (h : Step t x t') : Run t [x] t' := .snoc .nil h

/-! ## Stages -/

@[simp] theorem calls_move_self (t : Traffic) (i : Nat) (s : Stage) :
    (t.move i s).calls i = { t.calls i with stage := s } := by
  simp [move]

theorem calls_move_of_ne (t : Traffic) (s : Stage) (h : j ≠ i) :
    (t.move i s).calls j = t.calls j := by
  simp [move, h]

@[simp] theorem exchange_move (t : Traffic) (i : Nat) (s : Stage) :
    (t.move i s).exchange = t.exchange := rfl

@[simp] theorem counter_move (t : Traffic) (i : Nat) (s : Stage) :
    (t.move i s).counter = t.counter := rfl

@[simp] theorem stage_route (t : Traffic) (e : Exchange.Event) (i : Nat) :
    ((t.route e).calls i).stage = (t.calls i).stage := rfl

theorem mail_route (t : Traffic) (e : Exchange.Event) (i : Nat) :
    ((t.route e).calls i).mail = (t.calls i).mail ++
      ((t.calls i).stage.id?.bind fun id => (t.exchange.step e).1.settled.lookup id).toList :=
  rfl

/-- Nobody but a call itself moves it on. -/
theorem Step.stage_eq (h : Step t x t') (hi : x.caller? ≠ some i) :
    (t'.calls i).stage = (t.calls i).stage := by
  cases h with
  | own => exact congrArg Call.stage (calls_move_of_ne _ _ fun hij => hi (congrArg some hij.symm))
  | message | close => rfl

theorem Does.rank_lt {c : Call} {d : Deed} {e : Exchange} {n : Nat} (h : Does t c d e n s) :
    s.rank < c.stage.rank := by
  cases h <;> simp_all [Stage.rank]

/-- Each step of its own brings a call nearer to its return. -/
theorem Step.rank_lt (h : Step t x t') (hi : x.caller? = some i) :
    (t'.calls i).stage.rank < (t.calls i).stage.rank := by
  cases h with
  | own does =>
    obtain rfl := Option.some.inj hi
    simpa using does.rank_lt
  | message | close => cases hi

theorem Run.rank_le (h : Run t₀ past t) (i : Nat) :
    past.countP (·.caller? = some i) + (t.calls i).stage.rank ≤ (t₀.calls i).stage.rank := by
  induction h with
  | nil => simp
  | @snoc past t t' x _ hs ih =>
    rw [List.countP_append, List.countP_singleton]
    by_cases hi : x.caller? = some i
    · have hr := hs.rank_lt hi
      simp only [hi, decide_true, if_true]
      omega
    · rw [hs.stage_eq hi]
      simpa [hi] using ih

/-- A call that has not returned can go on by itself, whatever the others do. -/
theorem exists_step (t : Traffic) (i : Nat) (h : (t.calls i).stage.rank ≠ 0) :
    ∃ d t', Step t (.own i d) t' := by
  cases hs : (t.calls i).stage with
  | idle =>
    cases ha : t.exchange.alive with
    | true => exact ⟨_, _, .own (.begin hs ha)⟩
    | false => exact ⟨_, _, .own (.notStarted hs ha)⟩
  | begun => exact ⟨_, _, .own (.number hs)⟩
  | numbered id => exact ⟨_, _, .own (.enter hs)⟩
  | entered id => exact ⟨_, _, .own (.sent hs)⟩
  | waiting id =>
    cases hm : (t.calls i).mail with
    | nil => exact ⟨_, _, .own (.expire hs hm)⟩
    | cons o rest => exact ⟨_, _, .own (.take hs (by rw [hm]; rfl))⟩
  | leaving id e => exact ⟨_, _, .own (.leave hs)⟩
  | returned id o => simp [hs, Stage.rank] at h

theorem Step.returned (h : Step t x t') {id : Option Nat} {o : Outcome}
    (hr : (t.calls i).stage = .returned id o) : (t'.calls i).stage = .returned id o := by
  have hi : x.caller? ≠ some i := by
    intro hi
    have := h.rank_lt hi
    simp [hr, Stage.rank] at this
  rw [h.stage_eq hi, hr]

theorem Run.returned (h : Run t past t') {id : Option Nat} {o : Outcome}
    (hr : (t.calls i).stage = .returned id o) : (t'.calls i).stage = .returned id o := by
  induction h with
  | nil => exact hr
  | snoc _ hs ih => exact hs.returned ih

end Traffic

end Host

/-! ## The exchange -/

namespace Exchange

open Worker (Outbound)

/-- The requests of an exchange that no outcome is told for are the ones that go on waiting. -/
structure Settles (e e' : Exchange) (settled : List (Nat × Outcome)) : Prop where
  waited : ∀ id o, settled.lookup id = some o → id ∈ e.pending
  mem_pending : ∀ id, id ∈ e'.pending ↔ id ∈ e.pending ∧ settled.lookup id = none

variable {e : Exchange}

theorem settles_of_pending_eq {e' : Exchange} (h : e'.pending = e.pending) : e.Settles e' [] :=
  ⟨fun _ _ h => by simp at h, fun id => by simp [h]⟩

theorem settles_settle (e : Exchange) (id : Nat) (o : Outcome) :
    e.Settles (e.settle id o).2 (e.settle id o).1.settled := by
  unfold settle
  split
  · rename_i hc
    refine ⟨fun id' o' h => ?_, fun id' => ?_⟩
    · obtain rfl : id' = id := by
        by_contra hn
        simp [List.lookup_cons, beq_eq_false_iff_ne.mpr hn] at h
      simpa using hc
    · simp [List.lookup_eq_none_iff]
  · exact settles_of_pending_eq rfl

theorem settles_settleReady (e : Exchange) (r : Except HostError ReadyInfo) :
    e.Settles (e.settleReady r).2 (e.settleReady r).1.settled := by
  unfold settleReady
  split <;> exact settles_of_pending_eq rfl

theorem settles_receive (e : Exchange) (m : Outbound) :
    e.Settles (e.receive m).2 (e.receive m).1.settled := by
  cases m with
  | ready duration indexed => exact settles_settleReady ..
  | result id data duration => exact settles_settle ..
  | error id message code =>
    cases id with
    | none => exact settles_settleReady ..
    | some id => exact settles_settle ..
  | progress => exact settles_of_pending_eq rfl
  | invalidated => exact settles_of_pending_eq rfl

/-- A reply that no request waits for is dropped. -/
theorem receive_of_not_mem {m : Outbound} {id : Nat} (hm : m.answers? = some id)
    (hid : id ∉ e.pending) : e.receive m = ({}, e) := by
  have hs : ∀ o, e.settle id o = ({}, e) := fun o => by simp [settle, hid]
  cases m with
  | result n data duration =>
    obtain rfl := Option.some.inj hm
    exact hs _
  | error n message code =>
    obtain rfl : n = some id := hm
    exact hs _
  | _ => cases hm

/-- What a request is told that waits when the worker is lost. -/
def gone : Outcome := .error (.workerTerminated "worker terminated")

theorem lookup_settled_close (e : Exchange) (id : Nat) :
    e.close.1.settled.lookup id = if id ∈ e.pending then some gone else none := by
  have h : ∀ ids : List Nat,
      (ids.map fun id => (id, gone)).lookup id = if id ∈ ids then some gone else none := by
    intro ids
    induction ids with
    | nil => rfl
    | cons n ids ih =>
      by_cases hn : id = n
      · simp [hn]
      · simp [hn, List.lookup_cons, ih, beq_eq_false_iff_ne.mpr hn]
  exact h e.pending

theorem settles_close (e : Exchange) : e.Settles e.close.2 e.close.1.settled := by
  refine ⟨fun id o h => ?_, fun id => ?_⟩
  · rw [lookup_settled_close] at h
    by_contra hn
    simp [hn] at h
  · rw [lookup_settled_close]
    simp [close]

end Exchange

namespace Host.Traffic

open Worker (Outbound)

variable {t₀ t t' t'' : Traffic} {x : Action} {past more : List Action} {i j id : Nat} {s : Stage}

/-! ## Ids and mail -/

/-- The mail of a call fits its stage: it has an outcome exactly if it has been taken out of the
requests that wait, and when it returns it is not among them. Without an id it returns only where there
is no worker. -/
def Fits (pending : List Nat) (c : Call) : Prop :=
  match c.stage with
  | .idle | .begun | .numbered _ => c.mail = []
  | .entered id | .waiting id | .leaving id _ =>
    id ∈ pending ∧ c.mail = [] ∨ id ∉ pending ∧ ∃ o, c.mail = [o]
  | .returned (some id) _ => id ∉ pending
  | .returned none o => o = .error .notStarted

structure Sound (t : Traffic) : Prop where
  below : ∀ i, ∀ id ∈ (t.calls i).stage.id?, id < t.counter
  distinct : ∀ i j, ∀ id ∈ (t.calls i).stage.id?, id ∈ (t.calls j).stage.id? → i = j
  owned : ∀ id ∈ t.exchange.pending, ∃ i, (t.calls i).stage.enrolled? = some id
  fits : ∀ i, Fits t.exchange.pending (t.calls i)

theorem Stage.id?_of_enrolled? (h : s.enrolled? = some id) : s.id? = some id := by
  cases s <;> simp_all [Stage.enrolled?, Stage.id?]

theorem Fresh.sound (h : t.Fresh) : t.Sound where
  below i id hid := by simp [h.idle i, Stage.id?] at hid
  distinct i j id hid := by simp [h.idle i, Stage.id?] at hid
  owned id hid := by simp [h.pending] at hid
  fits i := by simp [Fits, h.idle i, h.mail i]

/-- Whoever is among the requests that wait has been entered. -/
theorem Sound.enrolled (h : t.Sound) (hid : (t.calls i).stage.id? = some id)
    (hp : id ∈ t.exchange.pending) : (t.calls i).stage.enrolled? = some id := by
  obtain ⟨j, hj⟩ := h.owned id hp
  obtain rfl := h.distinct i j id hid (Stage.id?_of_enrolled? hj)
  exact hj

theorem Fits.congr {p q : List Nat} {c : Call} (h : Fits p c)
    (hpq : ∀ id ∈ c.stage.id?, id ∈ q ↔ id ∈ p) : Fits q c := by
  unfold Fits at h ⊢
  cases hs : c.stage with
  | idle | begun | numbered => simpa [hs] using h
  | entered id | waiting id | leaving id =>
    have hid : id ∈ q ↔ id ∈ p := hpq id (by simp [hs, Stage.id?])
    simpa [hs, hid] using h
  | returned id o =>
    cases id with
    | none => simpa [hs] using h
    | some id =>
      have hid : id ∈ q ↔ id ∈ p := hpq id (by simp [hs, Stage.id?])
      simpa [hs, hid] using h

/-- What a call may do: it goes on with its id or with one that nobody has, and among the requests that
wait only its own place may change. -/
theorem Sound.update (h : t.Sound) {e : Exchange} {n : Nat} (hn : t.counter ≤ n)
    (hid : ∀ id ∈ s.id?, id < n ∧ ∀ j, id ∈ (t.calls j).stage.id? → j = i)
    (hpending : ∀ j, j ≠ i → ∀ id ∈ (t.calls j).stage.id?,
      id ∈ e.pending ↔ id ∈ t.exchange.pending)
    (howned : ∀ id ∈ e.pending, s.enrolled? = some id ∨ id ∈ t.exchange.pending ∧
      (t.calls i).stage.enrolled? ≠ some id)
    (hfits : Fits e.pending { t.calls i with stage := s }) :
    (move { t with exchange := e, counter := n } i s).Sound := by
  have hother : ∀ j, j ≠ i →
      (move { t with exchange := e, counter := n } i s).calls j = t.calls j :=
    fun j hj => calls_move_of_ne _ _ hj
  refine ⟨fun j id hj => ?_, fun j k id hj hk => ?_, fun id hp => ?_, fun j => ?_⟩
  · by_cases hji : j = i
    · subst hji
      exact (hid id (by simpa using hj)).1
    · rw [hother j hji] at hj
      exact (h.below j id hj).trans_le hn
  · by_cases hji : j = i
    · subst hji
      by_contra hkj
      rw [hother k (Ne.symm hkj)] at hk
      exact hkj ((hid id (by simpa using hj)).2 k hk).symm
    · rw [hother j hji] at hj
      by_cases hki : k = i
      · subst hki
        exact (hid id (by simpa using hk)).2 j hj
      · rw [hother k hki] at hk
        exact h.distinct j k id hj hk
  · rcases howned id hp with hs | ⟨hold, hne⟩
    · exact ⟨i, by simpa using hs⟩
    · obtain ⟨j, hj⟩ := h.owned id hold
      have hji : j ≠ i := by
        rintro rfl
        exact hne hj
      exact ⟨j, by rw [hother j hji]; exact hj⟩
  · by_cases hji : j = i
    · subst hji
      simpa using hfits
    · rw [hother j hji]
      exact (h.fits j).congr (hpending j hji)

/-- A step of a call that leaves the exchange alone. -/
theorem Sound.move (h : t.Sound) (hid : s.id? = (t.calls i).stage.id?)
    (hen : ∀ id ∈ t.exchange.pending, (t.calls i).stage.enrolled? = some id → s.enrolled? = some id)
    (hfits : Fits t.exchange.pending { t.calls i with stage := s }) : (t.move i s).Sound := by
  refine h.update le_rfl (fun id hs => ?_) (fun _ _ _ _ => Iff.rfl) (fun id hp => ?_) hfits
  · rw [hid] at hs
    exact ⟨h.below i id hs, fun j hj => h.distinct j i id hj hs⟩
  · by_cases he : (t.calls i).stage.enrolled? = some id
    · exact Or.inl (hen id hp he)
    · exact Or.inr ⟨hp, he⟩

/-- An id that is given is a new one. -/
theorem Sound.number (h : t.Sound) (hs : (t.calls i).stage = .begun) :
    (Traffic.move { t with counter := t.counter + 1 } i (.numbered t.counter)).Sound := by
  refine h.update (Nat.le_succ _) (fun id hid => ?_) (fun _ _ _ _ => Iff.rfl) (fun id hp => ?_) ?_
  · obtain rfl : t.counter = id := Option.some.inj hid
    exact ⟨Nat.lt_succ_self _, fun j hj => absurd (h.below j _ hj) (lt_irrefl _)⟩
  · exact Or.inr ⟨hp, by simp [hs, Stage.enrolled?]⟩
  · have hf := h.fits i
    simpa [Fits, hs] using hf

theorem Sound.enter (h : t.Sound) (hs : (t.calls i).stage = .numbered id) :
    (Traffic.move { t with exchange := (t.exchange.step (.put id)).2 } i (.entered id)).Sound := by
  have hid : id ∈ (t.calls i).stage.id? := by simp [hs, Stage.id?]
  have hmem : ∀ n, n ∈ (t.exchange.step (.put id)).2.pending ↔ n ∈ t.exchange.pending ∨ n = id := by
    simp [Exchange.step]
  refine h.update le_rfl (fun n hn => ?_) (fun j hj n hn => ?_) (fun n hp => ?_) ?_
  · obtain rfl : id = n := Option.some.inj hn
    exact ⟨h.below i id hid, fun j hj => h.distinct j i id hj hid⟩
  · rw [hmem, or_iff_left]
    rintro rfl
    exact hj (h.distinct j i n hn hid)
  · rcases (hmem n).mp hp with hp | rfl
    · exact Or.inr ⟨hp, by simp [hs, Stage.enrolled?]⟩
    · exact Or.inl rfl
  · have hf := h.fits i
    simp only [Fits, hs] at hf
    exact Or.inl ⟨(hmem id).mpr (Or.inr rfl), hf⟩

theorem mem_pending_settle (e : Exchange) (id : Nat) (o : Outcome) (n : Nat) :
    n ∈ (e.settle id o).2.pending ↔ n ∈ e.pending ∧ n ≠ id := by
  unfold Exchange.settle
  split
  · simp
  · rename_i hc
    refine ⟨fun hn => ⟨hn, ?_⟩, And.left⟩
    rintro rfl
    exact hc (by simpa using hn)

theorem Sound.leave (h : t.Sound) {e : HostError} (hs : (t.calls i).stage = .leaving id e) :
    (Traffic.move { t with exchange := (t.exchange.settle id (.error e)).2 } i
      (.returned (some id) (.error e))).Sound := by
  have hid : id ∈ (t.calls i).stage.id? := by simp [hs, Stage.id?]
  refine h.update le_rfl (fun n hn => ?_) (fun j hj n hn => ?_) (fun n hp => ?_) ?_
  · obtain rfl : id = n := Option.some.inj hn
    exact ⟨h.below i id hid, fun j hj => h.distinct j i id hj hid⟩
  · rw [mem_pending_settle, and_iff_left]
    rintro rfl
    exact hj (h.distinct j i n hn hid)
  · obtain ⟨hp, hn⟩ := (mem_pending_settle ..).mp hp
    exact Or.inr ⟨hp, by simpa [hs, Stage.enrolled?] using Ne.symm hn⟩
  · exact fun hp => ((mem_pending_settle ..).mp hp).2 rfl

/-- The router takes out the requests that it settles, and puts one outcome into the mail of each. -/
theorem Sound.route (h : t.Sound) {ev : Exchange.Event}
    (hr : t.exchange.Settles (t.exchange.step ev).2 (t.exchange.step ev).1.settled) :
    (t.route ev).Sound := by
  refine ⟨h.below, h.distinct, fun id hp => h.owned id ((hr.mem_pending id).mp hp).1, fun i => ?_⟩
  have hf := h.fits i
  unfold Fits at hf ⊢
  rw [stage_route, mail_route]
  cases hs : (t.calls i).stage with
  | idle | begun => simpa [hs, Stage.id?] using hf
  | numbered id =>
    -- a call that has not been entered gets no mail
    have hl : (t.exchange.step ev).1.settled.lookup id = none := by
      by_contra hl
      obtain ⟨o, ho⟩ := Option.ne_none_iff_exists'.mp hl
      have he := h.enrolled (i := i) (by simp [hs, Stage.id?]) (hr.waited id o ho)
      simp [hs, Stage.enrolled?] at he
    simpa [hs, Stage.id?, hl] using hf
  | entered id | waiting id | leaving id =>
    simp only [hs] at hf
    simp only [Stage.id?, Option.bind_some]
    have hmem : id ∈ (t.route ev).exchange.pending ↔ _ := hr.mem_pending id
    rw [hmem]
    rcases hf with ⟨hp, hm⟩ | ⟨hp, hm⟩
    · cases hl : (t.exchange.step ev).1.settled.lookup id with
      | none => simp [hp, hm]
      | some o => simp [hm]
    · have hl : (t.exchange.step ev).1.settled.lookup id = none := by
        by_contra hl
        obtain ⟨o, ho⟩ := Option.ne_none_iff_exists'.mp hl
        exact hp (hr.waited id o ho)
      simpa [hp, hl] using hm
  | returned id o =>
    cases id with
    | none => simpa [hs] using hf
    | some id =>
      simp only [hs] at hf
      exact fun hp => hf ((hr.mem_pending id).mp hp).1

theorem Sound.own (h : t.Sound) {d : Deed} {e : Exchange} {n : Nat}
    (hd : Does t (t.calls i) d e n s) (hn : n ≤ idLimit) :
    (Traffic.move { t with exchange := e, counter := n } i s).Sound := by
  have hf := h.fits i
  cases hd with
  | begin idle =>
    exact h.move (by simp [idle, Stage.id?]) (by simp [idle, Stage.enrolled?])
      (by simpa [Fits, idle] using hf)
  | notStarted idle =>
    exact h.move (by simp [idle, Stage.id?]) (by simp [idle, Stage.enrolled?]) (by simp [Fits])
  | number begun =>
    rw [Nat.mod_eq_of_lt hn]
    exact h.number begun
  | enter numbered => exact h.enter numbered
  | sent entered =>
    exact h.move (by simp [entered, Stage.id?]) (by simp [entered, Stage.enrolled?])
      (by simpa [Fits, entered] using hf)
  | refused e entered =>
    exact h.move (by simp [entered, Stage.id?]) (by simp [entered, Stage.enrolled?])
      (by simpa [Fits, entered] using hf)
  | @take id o waiting mail =>
    have hout : id ∉ t.exchange.pending := by
      simp only [Fits, waiting] at hf
      rcases hf with ⟨-, hm⟩ | ⟨hp, -⟩
      · simp [hm] at mail
      · exact hp
    refine h.move (by simp [waiting, Stage.id?]) (fun n hp he => ?_) (by simpa [Fits] using hout)
    obtain rfl : id = n := by simpa [waiting, Stage.enrolled?] using he
    exact absurd hp hout
  | expire waiting mail =>
    exact h.move (by simp [waiting, Stage.id?]) (by simp [waiting, Stage.enrolled?])
      (by simpa [Fits, waiting] using hf)
  | @drop id waiting mail lost =>
    refine h.move (by simp [waiting, Stage.id?]) (fun n hp he => ?_) (by simpa [Fits] using lost)
    obtain rfl : id = n := by simpa [waiting, Stage.enrolled?] using he
    exact absurd hp lost
  | leave leaving => exact h.leave leaving

/-- The ids of calls stay apart, and their mail stays in order, as long as no number comes twice. -/
theorem Sound.step (h : t.Sound) (hs : Step t x t') (hn : t'.counter ≤ idLimit) : t'.Sound := by
  cases hs with
  | own does => exact h.own does hn
  | message m alive => exact h.route (t.exchange.settles_receive m)
  | close alive => exact h.route t.exchange.settles_close

theorem Step.counter_le (h : Step t x t') : t.counter ≤ t'.counter := by
  cases h with
  | own does =>
    cases does with
    | number => exact Nat.le_succ _
    | _ => exact le_rfl
  | message | close => exact le_rfl

theorem Run.sound (h₀ : t₀.Sound) (h : Run t₀ past t) (hn : t.counter ≤ idLimit) : t.Sound := by
  induction h with
  | nil => exact h₀
  | snoc _ hs ih => exact (ih (hs.counter_le.trans hn)).step hs hn

end Host.Traffic

end DepAtlas
