import DepAtlas.Proofs.Traffic

/-! # Outcomes of calls

A call that returns with data has them from a reply that came while it was waiting, and a call that
waits when the worker is lost is told so, unless it has given up before. What a host does for one
request is one way for a call to go through its stages. Together these say how a call can end.
-/

namespace DepAtlas

namespace Host.Traffic

open Worker (Outbound)

variable {t₀ t t' t'' : Traffic} {x : Action} {past more : List Action} {i j id : Nat} {s : Stage}

/-! ## Where data come from -/

/-- The call is on its way to return with data, or has done so. -/
def Holds (v : Json) (id : Nat) (c : Call) : Prop :=
  c.stage.awaits? = some id ∧ .ok v ∈ c.mail ∨ c.stage = .returned (some id) (.ok v)

theorem lookup_settled_receive {e : Exchange} {m : Outbound} {v : Json}
    (h : (e.receive m).1.settled.lookup id = some (.ok v)) : ∃ d, m = .result id v d := by
  cases m with
  | result n data d =>
    simp only [Exchange.receive, Exchange.settle] at h
    split at h
    · by_cases hn : id = n
      · subst hn
        have hv : data = v := by simpa using h
        exact ⟨d, by rw [hv]⟩
      · simp [List.lookup_cons, beq_eq_false_iff_ne.mpr hn] at h
    · simp at h
  | error n message code =>
    cases n with
    | none =>
      simp only [Exchange.receive, Exchange.settleReady] at h
      split at h <;> simp at h
    | some n =>
      simp only [Exchange.receive, Exchange.settle] at h
      split at h
      · simp only [List.lookup_cons, List.lookup_nil] at h
        split at h <;> simp at h
      · simp at h
  | ready =>
    simp only [Exchange.receive, Exchange.settleReady] at h
    split at h <;> simp at h
  | progress => simp [Exchange.receive] at h
  | invalidated => simp [Exchange.receive] at h

theorem Stage.id?_of_awaits? (h : s.awaits? = some id) : s.id? = some id := by
  cases s <;> simp_all [Stage.awaits?, Stage.id?]

theorem holds_of_route {ev : Exchange.Event} {v : Json} (h : Holds v id ((t.route ev).calls i)) :
    Holds v id (t.calls i) ∨
      (t.calls i).stage.awaits? = some id ∧
        (t.exchange.step ev).1.settled.lookup id = some (.ok v) := by
  rcases h with ⟨ha, hm⟩ | hr
  · rw [stage_route] at ha
    rw [mail_route, Stage.id?_of_awaits? ha, List.mem_append] at hm
    rcases hm with hm | hm
    · exact Or.inl (Or.inl ⟨ha, hm⟩)
    · exact Or.inr ⟨ha, by simpa using hm⟩
  · exact Or.inl (Or.inr hr)

/-- A call that does something itself hands on what it holds. -/
theorem Does.holds {c : Call} {d : Deed} {e : Exchange} {n : Nat} {v : Json} (h : Does t c d e n s)
    (hf : Fits t.exchange.pending c) (hv : Holds v id { c with stage := s }) : Holds v id c := by
  cases h with
  | enter numbered =>
    simp only [Fits, numbered] at hf
    simp [Holds, Stage.awaits?, hf] at hv
  | sent entered => simpa [Holds, Stage.awaits?, entered] using hv
  | take waiting mail =>
    obtain ⟨rfl, rfl⟩ : _ ∧ _ := by simpa [Holds, Stage.awaits?] using hv
    exact Or.inl ⟨by simp [waiting, Stage.awaits?], List.mem_of_mem_head? mail⟩
  | _ => simp [Holds, Stage.awaits?] at hv

/-- A call comes to hold data by a result with its id only, which finds it among the requests that
wait. -/
theorem Step.holds (h : Step t x t') (ht : t.Sound) {v : Json} (hv : Holds v id (t'.calls i)) :
    Holds v id (t.calls i) ∨ (∃ d, x = .message (.result id v d)) ∧
      (t.calls i).stage.awaits? = some id ∧ id ∈ t.exchange.pending := by
  cases h with
  | @own j d e n s does =>
    refine Or.inl ?_
    by_cases hij : i = j
    · subst hij
      rw [calls_move_self] at hv
      exact does.holds (ht.fits i) hv
    · rwa [calls_move_of_ne _ _ hij] at hv
  | message m alive =>
    rcases holds_of_route hv with hold | ⟨ha, hl⟩
    · exact Or.inl hold
    · exact Or.inr ⟨(lookup_settled_receive hl).imp fun d hd => by rw [hd], ha,
        (t.exchange.settles_receive m).waited id _ hl⟩
  | close alive =>
    rcases holds_of_route hv with hold | ⟨ha, hl⟩
    · exact Or.inl hold
    · simp only [Exchange.step, Exchange.lookup_settled_close] at hl
      split at hl <;> simp [Exchange.gone] at hl

/-- The worker has sent data for the call, and has found it among the requests that wait. -/
def Answered (t₀ : Traffic) (past : List Action) (i id : Nat) (v : Json) : Prop :=
  ∃ before d after t, past = before ++ .message (.result id v d) :: after ∧ Run t₀ before t ∧
    (t.calls i).stage.awaits? = some id ∧ id ∈ t.exchange.pending

theorem Run.answered (h₀ : t₀.Fresh) (h : Run t₀ past t) (hn : t.counter ≤ idLimit) {v : Json}
    (hv : Holds v id (t.calls i)) : Answered t₀ past i id v := by
  induction h with
  | nil =>
    rcases hv with ⟨ha, -⟩ | hr
    · simp [h₀.idle i, Stage.awaits?] at ha
    · simp [h₀.idle i] at hr
  | @snoc past t t' x hrun hs ih =>
    have hn' : t.counter ≤ idLimit := hs.counter_le.trans hn
    rcases hs.holds (hrun.sound h₀.sound hn') hv with hv | ⟨⟨d, rfl⟩, ha, hp⟩
    · obtain ⟨before, d, after, t₁, rfl, hrest⟩ := ih hn' hv
      exact ⟨before, d, after ++ [x], t₁, by simp, hrest⟩
    · exact ⟨past, d, [], t, rfl, hrun, ha, hp⟩

/-! ## The worker is lost -/

/-- All that the call can return with is that the worker is lost. -/
def Doomed (id : Nat) (c : Call) : Prop :=
  c.stage.awaits? = some id ∧ c.mail = [Exchange.gone] ∨
    ∃ detail, c.stage = .leaving id (.workerTerminated detail) ∨
      c.stage = .returned (some id) (.error (.workerTerminated detail))

theorem doomed_of_close (ht : t.Sound) (ha : (t.calls i).stage.awaits? = some id)
    (hp : id ∈ t.exchange.pending) : Doomed id ((t.route .closed).calls i) := by
  have hm : (t.calls i).mail = [] := by
    have hf := ht.fits i
    cases hs : (t.calls i).stage <;> simp_all [Stage.awaits?, Fits]
  refine Or.inl ⟨ha, ?_⟩
  rw [mail_route, hm, Stage.id?_of_awaits? ha]
  simp [Exchange.step, Exchange.lookup_settled_close, hp]

theorem Does.doomed {c : Call} {d : Deed} {e : Exchange} {n : Nat} (h : Does t c d e n s)
    (hd : ∀ e, d = .refused e → ∃ detail, e = .workerTerminated detail) (hc : Doomed id c) :
    Doomed id { c with stage := s } := by
  unfold Doomed at hc ⊢
  cases h with
  | begin idle | notStarted idle => simp [idle, Stage.awaits?] at hc
  | number begun => simp [begun, Stage.awaits?] at hc
  | enter numbered => simp [numbered, Stage.awaits?] at hc
  | sent entered => simpa [entered, Stage.awaits?] using hc
  | refused e entered =>
    obtain ⟨detail, rfl⟩ := hd e rfl
    obtain ⟨rfl, -⟩ : _ ∧ _ := by simpa [entered, Stage.awaits?] using hc
    exact Or.inr ⟨detail, Or.inl rfl⟩
  | take waiting mail =>
    obtain ⟨rfl, hm⟩ : _ ∧ _ := by simpa [waiting, Stage.awaits?] using hc
    rw [hm] at mail
    obtain rfl := Option.some.inj mail
    exact Or.inr ⟨_, Or.inr rfl⟩
  | expire waiting mail | drop waiting mail => simp [waiting, mail] at hc
  | leave leaving =>
    obtain ⟨rfl, detail, rfl⟩ : _ ∧ _ := by simpa [leaving, Stage.awaits?] using hc
    exact Or.inr ⟨detail, Or.inr rfl⟩

theorem Does.alive {c : Call} {d : Deed} {e : Exchange} {n : Nat} (h : Does t c d e n s) :
    e.alive = t.exchange.alive := by
  cases h with
  | leave =>
    unfold Exchange.settle
    split <;> rfl
  | _ => rfl

/-- When the worker is lost, nothing else comes for a call any more. -/
theorem Run.doomed (h : Run t past t') (ha : t.exchange.alive = false) (hc : Doomed id (t.calls i))
    (hx : ∀ e, .own i (.refused e) ∈ past → ∃ detail, e = .workerTerminated detail) :
    t'.exchange.alive = false ∧ Doomed id (t'.calls i) := by
  induction h with
  | nil => exact ⟨ha, hc⟩
  | snoc _ hs ih =>
    obtain ⟨ha, hc⟩ := ih fun e he => hx e (by simp [he])
    cases hs with
    | @own j d e n s does =>
      refine ⟨does.alive.trans ha, ?_⟩
      by_cases hij : i = j
      · subst hij
        rw [calls_move_self]
        refine does.doomed (fun e he => hx e ?_) hc
        simp [he]
      · rwa [calls_move_of_ne _ _ hij]
    | message m alive => simp [ha] at alive
    | close alive => simp [ha] at alive

/-- A call that has given up returns with what made it give up. -/
theorem Run.leaving (h : Run t past t') {e : HostError} (hs : (t.calls i).stage = .leaving id e) :
    (t'.calls i).stage = .leaving id e ∨ (t'.calls i).stage = .returned (some id) (.error e) := by
  induction h with
  | nil => exact Or.inl hs
  | @snoc past t₁ t₂ x _ hstep ih =>
    rcases ih with hl | hr
    · by_cases hx : x.caller? = some i
      · cases hstep with
        | own does =>
          obtain rfl := Option.some.inj hx
          refine Or.inr ?_
          cases does <;> simp_all
        | message | close => cases hx
      · exact Or.inl (by rw [hstep.stage_eq hx, hl])
    · exact Or.inr (hstep.returned hr)

/-! ## A call from beginning to end -/

/-- The traffic before a host puts a request. -/
def calling (e : Exchange) (n : Nat) (tool : String) (limit : Nat) : Traffic :=
  ⟨e, n, fun _ => { tool, limit }⟩

def signalAction : Signal → Action
  | .message m => .message m
  | .closed => .close

theorem step_signal (t : Traffic) (s : Signal) (ha : t.exchange.alive = true) :
    Step t (signalAction s) (t.route (signalEvent s)) := by
  cases s with
  | message m => exact .message m ha
  | closed => exact .close ha

/-- What comes back over a link while a message is sent goes to the mail of the call. -/
theorem run_takeSignals (signals : List Signal) (t : Traffic)
    (hs : (t.calls i).stage = .entered id) :
    ∃ past t' mail, Run t past t' ∧ t'.exchange = (takeSignals t.exchange signals).2 ∧
      t'.counter = t.counter ∧ t'.calls i = { t.calls i with mail := (t.calls i).mail ++ mail } ∧
      mail.head? = ((takeSignals t.exchange signals).1.flatMap (·.settled)).lookup id := by
  induction signals generalizing t with
  | nil => exact ⟨[], t, [], .nil, rfl, rfl, by simp, rfl⟩
  | cons s signals ih =>
    unfold takeSignals
    cases ha : t.exchange.alive with
    | false => exact ⟨[], t, [], .nil, rfl, rfl, by simp, rfl⟩
    | true =>
      obtain ⟨past, t', mail, hrun, he, hn, hc, hm⟩ := ih (t.route (signalEvent s)) hs
      refine ⟨[signalAction s] ++ past, t',
        ((t.exchange.step (signalEvent s)).1.settled.lookup id).toList ++ mail,
        (step_signal t s ha).run.append hrun, he, hn, ?_, ?_⟩
      · rw [hc, mail_route, hs, List.append_assoc]
        rfl
      · simp only [if_true, List.flatMap_cons, List.lookup_append, List.head?_append, hm]
        cases (t.exchange.step (signalEvent s)).1.settled.lookup id <;> rfl

theorem exists_own {d : Deed} {e : Exchange} {n : Nat} (h : Does t (t.calls i) d e n s) :
    ∃ t', Run t [.own i d] t' ∧ t'.exchange = e ∧ t'.counter = n ∧
      t'.calls i = { t.calls i with stage := s } :=
  ⟨_, (Step.own h).run, rfl, rfl, calls_move_self ..⟩

theorem run_enter (e : Exchange) {n : Nat} (tool : String) (limit : Nat) (ha : e.alive = true)
    (hn : n < idLimit) :
    ∃ past t, Run (calling e n tool limit) past t ∧ t.exchange = (e.step (.put n)).2 ∧
      t.counter = n + 1 ∧ t.calls 0 = ⟨tool, limit, .entered n, []⟩ := by
  obtain ⟨t₁, h₁, he₁, hn₁, hc₁⟩ :=
    exists_own (t := calling e n tool limit) (i := 0) (.begin rfl ha)
  obtain ⟨t₂, h₂, he₂, hn₂, hc₂⟩ := exists_own (t := t₁) (i := 0) (.number (by rw [hc₁]))
  obtain ⟨t₃, h₃, he₃, hn₃, hc₃⟩ := exists_own (t := t₂) (i := 0) (.enter (by rw [hc₂]))
  have hid : t₁.counter % idLimit = n := by
    rw [hn₁]
    exact Nat.mod_eq_of_lt hn
  refine ⟨_, t₃, (h₁.append h₂).append h₃, ?_, ?_, ?_⟩
  · rw [he₃, he₂, he₁, hid]
    rfl
  · rw [hn₃, hn₂, hn₁]
    rfl
  · rw [hc₃, hc₂, hc₁, hid]
    rfl

theorem run_sent (hs : (t.calls i).stage = .entered id) {o : Outcome}
    (hm : (t.calls i).mail.head? = some o) :
    ∃ past t', Run t past t' ∧ t'.exchange = t.exchange ∧ t'.counter = t.counter ∧
      (t'.calls i).stage = .returned (some id) o := by
  obtain ⟨t₁, h₁, he₁, hn₁, hc₁⟩ := exists_own (.sent hs)
  obtain ⟨t₂, h₂, he₂, hn₂, hc₂⟩ := exists_own (t := t₁) (i := i)
    (.take (by rw [hc₁]) (by rw [hc₁]; exact hm))
  exact ⟨_, t₂, h₁.append h₂, by rw [he₂, he₁], by rw [hn₂, hn₁], by rw [hc₂]⟩

theorem run_leave {e : HostError} (hs : (t.calls i).stage = .leaving id e) :
    ∃ past t', Run t past t' ∧ t'.exchange = (t.exchange.settle id (.error e)).2 ∧
      t'.counter = t.counter ∧ (t'.calls i).stage = .returned (some id) (.error e) := by
  obtain ⟨t₁, h₁, he₁, hn₁, hc₁⟩ := exists_own (.leave hs)
  exact ⟨_, t₁, h₁, he₁, hn₁, by rw [hc₁]⟩

/-- What a host does to put a request and wait for its reply is one way for a call to go. -/
theorem run_invoke {σ : Type} (h : Host) (tr : Transport σ) (w : σ) (tool : String) (params : Json)
    (limit : Nat) {r : RunningWorker} (hr : h.running = some r) (ha : r.exchange.alive = true)
    (hn : h.nextId < idLimit) :
    ∃ past t, Run (calling r.exchange h.nextId tool limit) past t ∧
      (t.calls 0).stage = .returned (some h.nextId) (h.invoke tr w tool params limit).result ∧
      (h.invoke tr w tool params limit).host =
        { h with nextId := t.counter, running := some { r with exchange := t.exchange } } := by
  have hcur : h.current tr w = (h, w) := by simp [current, hr, ha]
  obtain ⟨past₁, t₁, h₁, he₁, hn₁, hc₁⟩ := run_enter r.exchange tool limit ha hn
  unfold invoke
  obtain ⟨send, terminate⟩ := tr
  simp only [hcur, hr]
  generalize send w r.link (.invoke h.nextId tool params) = reply
  obtain ⟨sent, w'⟩ := reply
  have hs₁ : (t₁.calls 0).stage = .entered h.nextId := by rw [hc₁]
  obtain ⟨past₂, t₂, mail, h₂, he₂, hn₂, hc₂, hm₂⟩ := run_takeSignals sent.signals t₁ hs₁
  rw [he₁] at he₂ hm₂
  rw [hc₁] at hc₂
  have hs₂ : (t₂.calls 0).stage = .entered h.nextId := by rw [hc₂]
  cases hf : sent.failure with
  | some e =>
    -- the message could not be sent
    obtain ⟨t₃, h₃, he₃, hn₃, hc₃⟩ := exists_own (.refused e hs₂)
    obtain ⟨past₄, t₄, h₄, he₄, hn₄, hs₄⟩ := run_leave (t := t₃) (i := 0) (by rw [hc₃])
    refine ⟨_, t₄, (h₁.append (h₂.append h₃)).append h₄, hs₄, ?_⟩
    rw [he₄, hn₄, he₃, hn₃, he₂, hn₂, hn₁]
    rfl
  | none =>
    dsimp only
    rw [← hm₂]
    cases hm : mail.head? with
    | some o =>
      obtain ⟨past₃, t₃, h₃, he₃, hn₃, hs₃⟩ := run_sent hs₂ (by rw [hc₂]; exact hm)
      refine ⟨_, t₃, h₁.append (h₂.append h₃), hs₃, ?_⟩
      rw [he₃, hn₃, he₂, hn₂, hn₁]
    | none =>
      obtain ⟨t₃, h₃, he₃, hn₃, hc₃⟩ := exists_own (.sent hs₂)
      have hempty : (t₃.calls 0).mail = [] := by
        rw [hc₃, hc₂]
        exact List.head?_eq_none_iff.mp hm
      obtain ⟨t₄, h₄, he₄, hn₄, hc₄⟩ := exists_own (t := t₃) (i := 0)
        (.expire (by rw [hc₃]) hempty)
      obtain ⟨past₅, t₅, h₅, he₅, hn₅, hs₅⟩ := run_leave (t := t₄) (i := 0) (by rw [hc₄])
      refine ⟨_, t₅, ((h₁.append (h₂.append h₃)).append h₄).append h₅, ?_, ?_⟩
      · rw [hs₅, hc₃, hc₂]
      · rw [he₅, hn₅, he₄, hn₄, he₃, hn₃, he₂, hn₂, hn₁, hc₃, hc₂]
        rfl

end Host.Traffic

end DepAtlas
