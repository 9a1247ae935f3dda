import DepAtlas.Proofs.Readiness

/-! # Passes account for every file

The files of a pass are counted twice, in the pass and in the state of the index. While the pass is
running the two counts agree, and every file that was handled was indexed, skipped or failed; questions
and changes of files that come between two steps touch neither. A pass that is not cancelled ends when
all files are handled, and one that is cancelled ends with its next step, which takes nothing back.
-/

namespace DepAtlas

/-- How many files a pass has handled, by what became of them. -/
def Summary.handled (s : Summary) : Nat := s.indexed + s.skipped + s.failed

/-- A pass over some files and the state of the index agree on how far the pass has come. -/
structure IndexPass.Accounts (files : List Path) (pass : IndexPass) (status : IndexStatus) :
    Prop where
  indexing : status.state = .indexing
  position : pass.remaining = files.drop pass.processed
  processed : status.processed = pass.processed
  bounded : status.processed ≤ status.total
  total : status.total = files.length
  handled : pass.indexed + pass.skipped + pass.failed = pass.processed
  skipped : status.skipped = pass.skipped

namespace Atlas

open IndexPass (Accounts)

variable {w : World} {a a' : Atlas} {pass : IndexPass} {files : List Path}

/-! ## One pass -/

theorem status_of_new {config : WorkspaceConfig} (h : Atlas.new w config = .ok a) :
    a.status = {} := by
  unfold Atlas.new at h
  cases hv : config.validate w.tree with
  | error f => simp [hv, bind, Except.bind] at h
  | ok valid =>
    simp only [hv, bind, Except.bind] at h
    split at h
    · cases h
    · obtain rfl := Except.ok.inj h
      rfl

theorem accounts_of_beginIndex (h : a.beginIndex w = (.ok pass, a')) :
    ∃ files, Scan.files w.tree a'.root a'.scanOptions = .ok files ∧
      Accounts files pass a'.status := by
  unfold beginIndex at h
  split at h
  · cases h
  · rename_i listed hs
    cases h
    exact ⟨listed, hs, rfl, rfl, rfl, Nat.zero_le _, rfl, rfl, rfl⟩

theorem state_of_beginIndex_error {f : Failure} (h : a.beginIndex w = (.error f, a')) :
    a'.status.state = .error := by
  unfold beginIndex at h
  split at h
  · cases h
    rfl
  · cases h

/-- A step counts its file in one of three ways, and in both places. -/
theorem stepFile_books (a : Atlas) (w : World) (pass : IndexPass) (file : Path) (rest : List Path) :
    let pass' := (a.stepFile w pass file rest).2.1
    let status' := (a.stepFile w pass file rest).2.2.status
    pass'.indexed + pass'.skipped + pass'.failed = pass.indexed + pass.skipped + pass.failed + 1 ∧
      status'.state = a.status.state ∧ status'.processed = pass'.processed ∧
      status'.skipped + pass.skipped = a.status.skipped + pass'.skipped := by
  have hs := status_indexFile (w := w)
    { a with status := { a.status with currentFile := some (w.tree.key file) } } file
  unfold stepFile
  dsimp only
  rw [hs]
  refine ⟨?_, rfl, rfl, ?_⟩
  · split <;> grind
  · split <;> grind

/-- A pass that was cancelled ends with its next step, which only notes that the index is idle. -/
theorem indexStep_of_cancelled (a : Atlas) (w : World) (h : pass.cancelled = true) :
    a.indexStep w pass = (.done pass.summary, pass,
      { a with status := { a.status with state := .idle, currentFile := none } }) := by
  simp [indexStep, finishIndex, h]

theorem state_finishIndex (a : Atlas) (w : World) (h : pass.cancelled = false) :
    (a.finishIndex w pass).status.state = .complete := by
  simp [finishIndex, h]

end Atlas

namespace IndexPass

variable {w : World} {a a' : Atlas} {pass : IndexPass} {files : List Path}

theorem Accounts.stepFile {file : Path} {rest : List Path} (h : Accounts files pass a.status)
    (hr : pass.remaining = file :: rest) (w : World) :
    Accounts files (a.stepFile w pass file rest).2.1 (a.stepFile w pass file rest).2.2.status := by
  obtain ⟨hhandled, hstate, hprocessed, hskipped⟩ := a.stepFile_books w pass file rest
  obtain ⟨hnext, htotal, -⟩ := Atlas.stepFile_counts (w := w) a pass file rest
  -- the file that is handled was still to come
  have hdrop : files.drop pass.processed = file :: rest := h.position.symm.trans hr
  have hlt : pass.processed < files.length := by
    by_contra hge
    rw [List.drop_eq_nil_of_le (Nat.le_of_not_lt hge)] at hdrop
    cases hdrop
  constructor
  · exact hstate.trans h.indexing
  · rw [(Atlas.stepFile_pass a pass file rest).1, hnext, ← List.drop_drop, hdrop]
    rfl
  · exact hprocessed
  · rw [hprocessed, hnext, htotal, h.total]
    exact hlt
  · exact htotal.trans h.total
  · rw [hhandled, h.handled, hnext]
  · have := h.skipped
    omega

/-- A pass that ends without being cancelled has handled all its files. -/
theorem Accounts.done {summary : Summary} {pass' : IndexPass}
    (h : Accounts files pass a.status) (hc : pass.cancelled = false)
    (hd : a.indexStep w pass = (.done summary, pass', a')) :
    summary.cancelled = false ∧ summary.handled = pass.processed ∧
      pass.processed = files.length ∧ a'.status.state = .complete := by
  rcases a.indexStep_cases w hc with ⟨hend, heq⟩ | ⟨file, rest, -, heq⟩
  · rw [heq] at hd
    cases hd
    refine ⟨hc, h.handled, ?_, a.state_finishIndex w hc⟩
    have hle := h.bounded
    rw [h.processed, h.total] at hle
    have hlength := congrArg List.length (h.position.symm.trans hend)
    rw [List.length_drop, List.length_nil] at hlength
    omega
  · rw [heq] at hd
    cases hd

end IndexPass

namespace Worker

open IndexPass (Accounts)

variable {w : World} {worlds worlds' : List World} {c c' : WorkerContext} {k : Worker}

/-! ## One deed -/

/-- The books of a worker: without a pass the index is not being indexed, and a pass that is running goes
through the files that a scan listed in one of some worlds. -/
structure Booked (worlds : List World) (c : WorkerContext) : Prop where
  resting : c.active = none → c.atlas.status.state ≠ .indexing
  running : ∀ a, c.active = some a → a.pass.cancelled = false ∧
    ∃ w ∈ worlds, ∃ files, Scan.files w.tree c.atlas.root c.atlas.scanOptions = .ok files ∧
      Accounts files a.pass c.atlas.status

theorem Booked.mono (h : Booked worlds c) (hsub : worlds ⊆ worlds') : Booked worlds' c where
  resting := h.resting
  running a ha := by
    obtain ⟨hgoing, w, hw, hfiles⟩ := h.running a ha
    exact ⟨hgoing, w, hsub hw, hfiles⟩

/-- What leaves the pass and the state of the index as they are leaves the books as they are. -/
theorem Booked.congr (h : Booked worlds c) (ha : c'.active = c.active)
    (hs : c'.atlas.status = c.atlas.status) (halike : c.atlas.Alike c'.atlas) :
    Booked worlds c' where
  resting hidle := hs ▸ h.resting (ha.symm.trans hidle)
  running a hactive := by
    have hoptions : c'.atlas.scanOptions = c.atlas.scanOptions := by
      simp only [Atlas.scanOptions, halike.config]
    rw [hs, halike.root, hoptions]
    exact h.running a (ha.symm.trans hactive)

theorem booked_of_resting (hidle : c.active = none) (hs : c.atlas.status.state ≠ .indexing) :
    Booked worlds c where
  resting _ := hs
  running a ha := by
    rw [hidle] at ha
    cases ha

theorem atlas_announce (c : WorkerContext) : (announce c).2.atlas = c.atlas := by
  unfold announce
  split <;> rfl

theorem Booked.announce (h : Booked worlds c) : Booked worlds (announce c).2 := by
  have ha := atlas_announce c
  exact h.congr (active_announce c) (by rw [ha]) (by rw [ha]; exact .refl _)

/-- A pass that has begun is accounted for from its first step on. -/
theorem booked_of_beginIndex {a a' : Atlas} {pass : IndexPass}
    (h : a.beginIndex w = (.ok pass, a')) (hw : w ∈ worlds) (ha : c.atlas = a')
    {request : Option Nat} (hactive : c.active = some ⟨pass, request⟩) : Booked worlds c where
  resting hidle := by
    rw [hactive] at hidle
    cases hidle
  running x hx := by
    obtain rfl := Option.some.inj (hactive.symm.trans hx)
    obtain ⟨files, hfiles, hbooks⟩ := Atlas.accounts_of_beginIndex h
    exact ⟨(Atlas.beginIndex_eq_ok h).2.1, w, hw, files, ha ▸ hfiles, ha ▸ hbooks⟩

theorem booked_openWorkspace (config : WorkspaceConfig) (hw : w ∈ worlds)
    (h : (openWorkspace w config).2 = some c) : Booked worlds c := by
  unfold openWorkspace at h
  split at h
  · cases h
  · rename_i atlas hnew
    split at h
    · split at h
      · rename_i pass atlas' hbegin
        obtain rfl := Option.some.inj h
        exact booked_of_beginIndex hbegin hw rfl rfl
      · rename_i f atlas' hbegin
        obtain rfl := Option.some.inj h
        refine (booked_of_resting rfl ?_).announce
        simp [Atlas.state_of_beginIndex_error hbegin]
    · obtain rfl := Option.some.inj h
      refine (booked_of_resting rfl ?_).announce
      simp [Atlas.status_of_new hnew]

/-- The pass that is cancelled is over at once, and nothing is taken back. -/
theorem cancelActive_snd {a : ActivePass} (h : c.active = some a) (w : World) :
    (cancelActive w c).2 = { c with
      active := none
      atlas := { c.atlas with
        status := { c.atlas.status with state := .idle, currentFile := none } } } := by
  unfold cancelActive
  rw [h]
  dsimp only
  rw [Atlas.indexStep_of_cancelled c.atlas w rfl]

theorem active_cancelActive (w : World) (c : WorkerContext) :
    (cancelActive w c).2.active = none := by
  cases h : c.active with
  | none => simp [cancelActive, h]
  | some a => rw [cancelActive_snd h]

theorem booked_rebuild (c : WorkerContext) (id : Nat) (hw : w ∈ worlds) :
    Booked worlds (rebuild w c id).2 := by
  unfold rebuild
  dsimp only
  split
  · rename_i pass atlas hbegin
    exact booked_of_beginIndex hbegin hw rfl rfl
  · rename_i f atlas hbegin
    apply Booked.announce
    apply booked_of_resting
    · exact active_cancelActive w c
    · simp [Atlas.state_of_beginIndex_error hbegin]

theorem Booked.invoke (h : Booked worlds c) (hw : w ∈ worlds) (id : Nat) (tool : String)
    (params : Json) : Booked worlds (invoke w c id tool params).2 := by
  unfold Worker.invoke
  split
  · exact h
  · exact booked_rebuild c id hw
  · rename_i request hnot _
    have hedits := Atlas.edits_run (w := w) c.atlas hnot
    exact h.congr rfl hedits.status hedits.alike

theorem Booked.flush (h : Booked worlds c) (w : World) (now : Nat) :
    Booked worlds (flush w now c).2 := by
  have hedits := Atlas.edits_applyAll (w := w) c.atlas (c.debouncer.take now).1
  exact h.congr rfl hedits.status hedits.alike

theorem state_recordWarmup (a : Atlas) (s : Summary) : (a.recordWarmup s).status = a.status := by
  unfold Atlas.recordWarmup
  split <;> rfl

theorem Booked.step (h : Booked worlds c) (w : World) : Booked worlds (step w c).2 := by
  cases ha : c.active with
  | none => simpa only [Worker.step, ha] using h
  | some a =>
    obtain ⟨hgoing, w', hw', files, hfiles, hbooks⟩ := h.running a ha
    rcases Atlas.indexStep_cases c.atlas w hgoing with ⟨-, heq⟩ | ⟨file, rest, hrest, heq⟩
    · simp only [Worker.step, ha, heq]
      refine (booked_of_resting rfl ?_).announce
      simp [state_recordWarmup, Atlas.state_finishIndex c.atlas w hgoing]
    · simp only [Worker.step, ha, heq]
      have halike := Atlas.alike_stepFile (w := w) c.atlas a.pass file rest
      constructor
      · exact fun hidle => by cases hidle
      rintro x ⟨⟩
      refine ⟨(Atlas.stepFile_pass c.atlas a.pass file rest).2.trans hgoing, w', hw', files, ?_,
        hbooks.stepFile hrest w⟩
      simpa only [Atlas.scanOptions, halike.config, halike.root] using hfiles

/-! ## All deeds -/

theorem Booked.perform (h : ∀ c, k.context = some c → Booked worlds c) (m : Moment)
    (hc : (k.perform m).2.context = some c) : Booked (m.world :: worlds) c := by
  have hsub : worlds ⊆ m.world :: worlds := List.subset_cons_self _ _
  have hw : m.world ∈ m.world :: worlds := List.mem_cons_self
  obtain ⟨w, now, deed⟩ := m
  have hin : ∀ f : WorkerContext → List Outbound × WorkerContext,
      (∀ c, Booked worlds c → Booked worlds (f c).2) →
      (k.inContext f).2.context = some c → Booked (w :: worlds) c := by
    intro f hf hc
    cases hk : k.context with
    | none => simp [inContext, hk] at hc
    | some c₀ =>
      simp only [inContext, hk, Option.some.injEq] at hc
      exact hc ▸ (hf c₀ (h c₀ hk)).mono hsub
  cases deed with
  | flush => exact hin _ (fun c hb => hb.flush w now) hc
  | step => exact hin _ (fun c hb => hb.step w) hc
  | take i =>
    cases i with
    | message msg =>
      cases msg with
      | init config =>
        cases hk : k.context with
        | none =>
          simp only [Worker.perform, take, hk] at hc
          exact booked_openWorkspace config hw hc
        | some c₀ =>
          simp only [Worker.perform, take, hk, Option.some.injEq] at hc
          exact (h c (hc ▸ hk)).mono hsub
      | invoke id tool params =>
        cases hk : k.context with
        | none => simp [Worker.perform, take, hk] at hc
        | some c₀ =>
          simp only [Worker.perform, take, hk, Option.some.injEq] at hc
          exact hc ▸ ((h c₀ hk).mono hsub).invoke hw id tool params
      | shutdown => cases hc
    | change path change =>
      simp only [Worker.perform, take, Option.map_eq_some_iff] at hc
      obtain ⟨c₀, hk, rfl⟩ := hc
      exact ((h c₀ hk).mono hsub).congr rfl rfl (.refl _)
    | rejected id reason => exact (h c hc).mono hsub

theorem Booked.live (h : ∀ c, k.context = some c → Booked worlds c) (moments : List Moment)
    (hc : (live moments k).2.context = some c) : Booked (worlds ++ moments.map (·.world)) c := by
  induction moments generalizing k worlds with
  | nil => simpa [Worker.live] using h c hc
  | cons m moments ih =>
    unfold Worker.live at hc
    split at hc
    · exact (h c hc).mono (List.subset_append_left _ _)
    · refine (ih (fun c hk => Booked.perform h m hk) hc).mono fun w hw => ?_
      simpa [or_left_comm] using hw

/-- Whatever a worker has done: a pass is running if and only if the index is being indexed. The pass goes
through the files that a scan listed, the counts in the pass and in the state of the index agree, and
every file that was handled was indexed, skipped or failed. A step that ends the pass tells that all files
were handled. If another request takes its place, the pass ends at once: what it has handled is told, the
index is idle, and what is known stays as it is. -/
theorem passes_account_for_files (moments : List Moment) {c : WorkerContext}
    (hc : (live moments new).2.context = some c) :
    (c.active.isSome = true ↔ c.atlas.status.state = .indexing) ∧
    ∀ a, c.active = some a →
      ∃ m ∈ moments, ∃ files, Scan.files m.world.tree c.atlas.root c.atlas.scanOptions = .ok files ∧
        Accounts files a.pass c.atlas.status ∧
        (∀ w summary pass atlas, c.atlas.indexStep w a.pass = (.done summary, pass, atlas) →
          summary.cancelled = false ∧ summary.handled = a.pass.processed ∧
          a.pass.processed = files.length ∧ atlas.status.state = .complete ∧
          (step w c).2.active = none ∧
          ∀ id, a.request = some id → .result id summary.toJson 0 ∈ (step w c).1) ∧
        ∀ w, ∃ summary,
          c.atlas.indexStep w a.pass.cancel =
            (.done summary, a.pass.cancel, (cancelActive w c).2.atlas) ∧
          summary.cancelled = true ∧ summary.handled = a.pass.processed ∧
          (cancelActive w c).1 = (a.request.toList.map fun id => .result id summary.toJson 0) ∧
          (cancelActive w c).2.active = none ∧
          (cancelActive w c).2.atlas.status.state = .idle ∧
          (cancelActive w c).2.atlas.cache = c.atlas.cache ∧
          (cancelActive w c).2.atlas.importers = c.atlas.importers ∧
          (cancelActive w c).2.atlas.callers = c.atlas.callers := by
  have hbooked : Booked (moments.map (·.world)) c := by
    have hnew : ∀ c, new.context = some c → Booked [] c := by
      rintro c ⟨⟩
    simpa using Booked.live hnew moments hc
  constructor
  · cases ha : c.active with
    | none => simpa using hbooked.resting ha
    | some a =>
      obtain ⟨-, -, -, files, -, hbooks⟩ := hbooked.running a ha
      simpa using hbooks.indexing
  · intro a ha
    obtain ⟨hgoing, w₀, hw₀, files, hfiles, hbooks⟩ := hbooked.running a ha
    obtain ⟨m, hm, rfl⟩ := List.mem_map.mp hw₀
    refine ⟨m, hm, files, hfiles, hbooks, ?_, ?_⟩
    · intro w summary pass atlas hdone
      obtain ⟨hsummary, hhandled, hall, hstate⟩ := hbooks.done hgoing hdone
      refine ⟨hsummary, hhandled, hall, hstate, ?_, fun id hid => ?_⟩
      · simp only [step, ha, hdone, active_announce]
      · simp [step, ha, hdone, hid]
    · intro w
      refine ⟨a.pass.cancel.summary, ?_, rfl, hbooks.handled, (cancelActive_eq ha).1, ?_⟩
      · rw [cancelActive_snd ha]
        exact Atlas.indexStep_of_cancelled c.atlas w rfl
      · rw [cancelActive_snd ha]
        exact ⟨rfl, rfl, rfl, rfl, rfl⟩

/-- In a small workspace the one file is handled with the first step. The pass is then still running: the
next step ends it, and so does a request that takes its place. -/
theorem passes_account_for_files_small :
    let w := Small.world Small.tree
    let opened : Moment := ⟨w, 0, .take (.message (.init { Small.config with warmup := true }))⟩
    ∃ c a files, (live [opened, ⟨w, 0, .step⟩] new).2.context = some c ∧ c.active = some a ∧
      a.pass.processed = 1 ∧ files.length = 1 ∧ Accounts files a.pass c.atlas.status ∧
      (step w c).2.active = none ∧ (cancelActive w c).2.atlas.status.state = .idle ∧
      (cancelActive w c).2.atlas.cache = c.atlas.cache := by
  intro w opened
  have hfacts : ((live [opened, ⟨w, 0, .step⟩] new).2.context.bind (·.active)).map
      (fun a => (a.pass.processed, a.pass.remaining, a.pass.cancelled)) = some (1, [], false) := by
    decide +kernel
  obtain ⟨a, ha, hpass⟩ := Option.map_eq_some_iff.mp hfacts
  obtain ⟨c, hc, ha⟩ := Option.bind_eq_some_iff.mp ha
  simp only [Prod.mk.injEq] at hpass
  obtain ⟨hprocessed, hremaining, hgoing⟩ := hpass
  obtain ⟨-, hrunning⟩ := passes_account_for_files [opened, ⟨w, 0, .step⟩] hc
  obtain ⟨m, -, files, -, hbooks, hdone, hcancel⟩ := hrunning a ha
  obtain ⟨-, -, hall, -, hidle, -⟩ := hdone w a.pass.summary a.pass (c.atlas.finishIndex w a.pass) (by
    simp [Atlas.indexStep, hgoing, hremaining])
  obtain ⟨-, -, -, -, -, -, hstate, hcache, -⟩ := hcancel w
  exact ⟨c, a, files, hc, ha, hprocessed, hall.symm.trans hprocessed, hbooks, hidle, hstate, hcache⟩

end Worker

end DepAtlas
