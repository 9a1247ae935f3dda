import DepAtlas.Proofs.Impacts

/-! # The walk behind an impact

To find an impact, the atlas is asked for the dependents of one symbol after the other, and it may change with
each question. Whatever state it was in, each entry is told for an answer that was given on the way, and
entries are told once and in the order of their distances. At the full depth the atlas is still asked, but
only to see whether there is more. So the walk of a deeper impact is the same as far as this one goes, and
ends with it if there is no more.
-/

namespace DepAtlas

namespace Impact

variable {w : World} {b : Atlas} {s : State} {ids queue : List String} {direct entries : List ImpactEntry}
  {e : ImpactEntry} {distance more : Nat}

/-! ## Questions -/

/-- The atlas when it has been asked for the dependents of some symbols, one after the other. -/
def asked (w : World) (b : Atlas) (ids : List String) : Atlas :=
  ids.foldl (fun b id => (b.dependentsOfId w id).2) b

theorem asked_append (w : World) (b : Atlas) (ids later : List String) :
    asked w b (ids ++ later) = asked w (asked w b ids) later :=
  List.foldl_append

/-- An entry is told for an answer about one of some symbols, when the symbols before it have been asked
for. -/
def Reported (w : World) (b : Atlas) (queue : List String) (distance : Nat) (e : ImpactEntry) : Prop :=
  ∃ before id after, queue = before ++ id :: after ∧
    ∃ c ∈ ((asked w b before).dependentsOfId w id).1, e = .ofCaller c (distance + 1)

theorem Reported.cons {id : String} (h : Reported w (b.dependentsOfId w id).2 queue distance e) :
    Reported w b (id :: queue) distance e := by
  obtain ⟨before, i, after, rfl, hc⟩ := h
  exact ⟨id :: before, i, after, rfl, hc⟩

/-- What going on from a symbol finds, looking whether there is more sees. -/
theorem exists_expand_peek (w : World) (distance : Nat) (s : State) (id : String) :
    ∃ news, expand w distance s id = { s.add news with atlas := (s.atlas.dependentsOfId w id).2 } ∧
      (∀ next, peek w { s with next } id =
        { s with
          next
          atlas := (s.atlas.dependentsOfId w id).2
          truncated := s.truncated || !news.isEmpty }) ∧
      Fresh s.visited news ∧
      ∀ e ∈ news, ∃ c ∈ (s.atlas.dependentsOfId w id).1, e = .ofCaller c (distance + 1) := by
  obtain ⟨news, hnews, hfresh, hof, hin⟩ := exists_foldl_reach (distance + 1)
    (s.atlas.dependentsOfId w id).1 { s with atlas := (s.atlas.dependentsOfId w id).2 }
  have hmore : ((s.atlas.dependentsOfId w id).1.any fun c => !s.visited.contains c.symbol) =
      !news.isEmpty := by
    rw [Bool.eq_iff_iff, List.any_eq_true]
    constructor
    · rintro ⟨c, hc, hout⟩
      rcases State.mem_visited_add.mp (hin c hc) with hvisited | ⟨e, he, -⟩
      · simp [hvisited] at hout
      · simpa using List.ne_nil_of_mem he
    · intro hne
      obtain ⟨e, he⟩ := List.exists_mem_of_ne_nil news (by simpa using hne)
      obtain ⟨c, hc, rfl⟩ := hof e he
      exact ⟨c, hc, by simpa [ImpactEntry.ofCaller] using hfresh.2 _ he⟩
  refine ⟨news, hnews, fun next => ?_, hfresh, hof⟩
  rw [← hmore]
  rfl

theorem foldl_peek_of_cut (h : s.truncated = true) (queue : List String) :
    queue.foldl (peek w) s = { s with atlas := asked w s.atlas queue } := by
  induction queue generalizing s with
  | nil => rfl
  | cons id queue ih =>
    have hone : peek w s id = { s with atlas := (s.atlas.dependentsOfId w id).2 } := by
      simp only [peek, h, Bool.true_or]
    rw [List.foldl_cons, hone]
    exact ih h

/-- What going on from the symbols of a level finds, and what is seen without going on. -/
theorem exists_foldl_expand_peek (w : World) (distance : Nat) (queue : List String) (s : State) :
    ∃ news, queue.foldl (expand w distance) s =
        { s.add news with atlas := asked w s.atlas queue } ∧
      (∀ next, queue.foldl (peek w) { s with next } =
        { s with
          next
          atlas := asked w s.atlas queue
          truncated := s.truncated || !news.isEmpty }) ∧
      Fresh s.visited news ∧ ∀ e ∈ news, Reported w s.atlas queue distance e := by
  induction queue generalizing s with
  | nil =>
    refine ⟨[], ?_, fun next => ?_, by simp [Fresh], by simp⟩
    · simp [State.add_nil, asked]
    · simp [asked]
  | cons id queue ih =>
    obtain ⟨first, hfirst, hpeek, hfresh, hof⟩ := exists_expand_peek w distance s id
    obtain ⟨rest, hrest, hpeeks, hfresh', hof'⟩ :=
      ih { s.add first with atlas := (s.atlas.dependentsOfId w id).2 }
    refine ⟨first ++ rest, ?_, fun next => ?_, hfresh.append hfresh' fun _ => State.mem_visited_add.mpr,
      fun e he => ?_⟩
    · rw [List.foldl_cons, hfirst, hrest, ← State.add_append]
      rfl
    · rw [List.foldl_cons, hpeek]
      cases first with
      | nil =>
        rw [State.add_nil] at hpeeks
        simpa [asked] using hpeeks next
      | cons e first =>
        -- There is more by the first symbol, whatever the others have to tell.
        rw [foldl_peek_of_cut (by simp)]
        simp [asked]
    · rcases List.mem_append.mp he with he | he
      · obtain ⟨c, hc, rfl⟩ := hof e he
        exact ⟨[], id, queue, rfl, c, hc, rfl⟩
      · exact (hof' e he).cons

theorem levels_nil (w : World) (more distance : Nat) (s : State) : levels w more distance [] s = s := by
  cases more <;> rfl

/-- At the full depth nothing is told any more, and whether there is more is what one level further finds. -/
theorem exists_levels_zero (w : World) (distance : Nat) (queue : List String) (s : State) :
    ∃ news, queue.foldl (expand w distance) { s with next := [] } =
        { ({ s with next := [] } : State).add news with atlas := asked w s.atlas queue } ∧
      levels w 0 distance queue s =
        { s with
          atlas := asked w s.atlas queue
          truncated := s.truncated || !news.isEmpty } := by
  obtain ⟨news, hfold, hpeek, -⟩ := exists_foldl_expand_peek w distance queue { s with next := [] }
  refine ⟨news, hfold, ?_⟩
  cases queue with
  | nil =>
    obtain rfl : [] = news := by simpa [State.add] using congrArg State.found hfold
    simp [levels_nil, asked]
  | cons id queue => exact hpeek s.next

/-! ## The walk -/

/-- The entries of uses at run time: these are asked for their dependents. -/
def walked (entries : List ImpactEntry) : List ImpactEntry := entries.filter (!·.typeOnly)

theorem walked_append (entries later : List ImpactEntry) :
    walked (entries ++ later) = walked entries ++ walked later :=
  List.filter_append ..

/-- An entry is told for an answer about an entry at run time that is one step nearer, when those before it
have been asked for. -/
def Justified (w : World) (b : Atlas) (entries : List ImpactEntry) (e : ImpactEntry) : Prop :=
  ∃ before f after, walked entries = before ++ f :: after ∧ f.distance + 1 = e.distance ∧
    ∃ c ∈ ((asked w b (before.map (·.symbol))).dependentsOfId w f.symbol).1, e = .ofCaller c e.distance

theorem Justified.append (h : Justified w b entries e) (later : List ImpactEntry) :
    Justified w b (entries ++ later) e := by
  obtain ⟨before, f, after, hwalked, hrest⟩ := h
  refine ⟨before, f, after ++ walked later, ?_, hrest⟩
  rw [walked_append, hwalked, List.append_assoc]
  rfl

/-- A walk that has told all entries up to a distance; the last ones at run time wait in the queue. -/
structure Walk (w : World) (b : Atlas) (ids : List String) (direct : List ImpactEntry) (distance : Nat)
    (queue : List String) (s : State) : Prop where
  once : Fresh ids (direct ++ s.found)
  visited : ∀ x, x ∈ s.visited ↔ x ∈ ids ∨ ∃ e ∈ direct ++ s.found, e.symbol = x
  bound : ∀ e ∈ s.found, 2 ≤ e.distance ∧ e.distance ≤ distance
  sorted : s.found.Pairwise (·.distance ≤ ·.distance)
  justified : ∀ e ∈ s.found, Justified w b (direct ++ s.found) e
  waiting : ∃ done last, walked (direct ++ s.found) = done ++ last ∧ last.map (·.symbol) = queue ∧
    (∀ e ∈ last, e.distance = distance) ∧ s.atlas = asked w b (done.map (·.symbol))

/-- One level further. -/
theorem Walk.advance (h : Walk w b ids direct distance queue s) (hpos : 0 < distance) :
    Walk w b ids direct (distance + 1) (queue.foldl (expand w distance) { s with next := [] }).next
      (queue.foldl (expand w distance) { s with next := [] }) := by
  obtain ⟨done, last, hwalked, rfl, hlast, hatlas⟩ := h.waiting
  obtain ⟨news, hfold, -, hfresh, hreported⟩ :=
    exists_foldl_expand_peek w distance (last.map (·.symbol)) { s with next := [] }
  have hdistance : ∀ e ∈ news, e.distance = distance + 1 := by
    intro e he
    obtain ⟨-, -, -, -, c, -, rfl⟩ := hreported e he
    rfl
  have hall : walked (direct ++ (s.found ++ news)) = done ++ last ++ walked news := by
    rw [← List.append_assoc, walked_append, hwalked]
  rw [hfold]
  refine ⟨?_, fun x => ?_, fun e he => ?_, ?_, fun e he => ?_, done ++ last, walked news, hall, rfl,
    fun e he => hdistance e (List.mem_of_mem_filter he), ?_⟩
  · dsimp only [State.add]
    rw [← List.append_assoc]
    exact h.once.append hfresh fun x => (h.visited x).mpr
  · dsimp only
    rw [State.mem_visited_add, h.visited]
    simp only [State.add, List.mem_append, or_and_right, exists_or, or_assoc]
  · rcases List.mem_append.mp he with he | he
    · obtain ⟨hmin, hmax⟩ := h.bound e he
      omega
    · have := hdistance e he
      omega
  · -- All that has been found before is nearer.
    refine List.pairwise_append.mpr ⟨h.sorted, ?_, fun e he f hf => ?_⟩
    · refine List.Pairwise.imp_of_mem (fun {e f} he hf _ => ?_) (List.pairwise_of_forall fun _ _ => trivial)
      rw [hdistance e he, hdistance f hf]
    · have := (h.bound e he).2
      have := hdistance f hf
      omega
  · rcases List.mem_append.mp he with he | he
    · have hold := (h.justified e he).append news
      rwa [List.append_assoc] at hold
    · obtain ⟨before, id, after, hqueue, c, hc, rfl⟩ := hreported e he
      obtain ⟨l, l', rfl, rfl, hl'⟩ := List.map_eq_append_iff.mp hqueue
      obtain ⟨f, l'', rfl, rfl, rfl⟩ := List.map_eq_cons_iff.mp hl'
      refine ⟨done ++ l, f, l'' ++ walked news, ?_, ?_, c, ?_, rfl⟩
      · dsimp only [State.add]
        rw [hall]
        simp
      · rw [hlast f (by simp)]
        rfl
      · rw [List.map_append, asked_append, ← hatlas]
        exact hc
  · rw [List.map_append, asked_append, ← hatlas]

/-- What has been told at the end of a walk. -/
structure Ended (w : World) (b : Atlas) (ids : List String) (direct : List ImpactEntry) (depth : Nat)
    (s : State) : Prop where
  once : Fresh ids (direct ++ s.found)
  bound : ∀ e ∈ s.found, 2 ≤ e.distance ∧ e.distance ≤ depth
  sorted : s.found.Pairwise (·.distance ≤ ·.distance)
  justified : ∀ e ∈ s.found, Justified w b (direct ++ s.found) e
  atlas : s.atlas = asked w b ((walked (direct ++ s.found)).map (·.symbol))

theorem Walk.ended (h : Walk w b ids direct distance [] s) {depth : Nat} (hd : distance ≤ depth) :
    Ended w b ids direct depth s where
  once := h.once
  bound e he := ⟨(h.bound e he).1, (h.bound e he).2.trans hd⟩
  sorted := h.sorted
  justified := h.justified
  atlas := by
    obtain ⟨done, last, hwalked, hnone, -, hatlas⟩ := h.waiting
    rw [hatlas, hwalked, List.map_append, hnone, List.append_nil]

/-- All levels. -/
theorem Walk.ended_levels (h : Walk w b ids direct distance queue s) (hpos : 0 < distance) (more : Nat) :
    Ended w b ids direct (distance + more) (levels w more distance queue s) := by
  induction more generalizing distance queue s with
  | zero =>
    obtain ⟨news, -, hlast⟩ := exists_levels_zero w distance queue s
    obtain ⟨done, last, hwalked, hqueue, -, hatlas⟩ := h.waiting
    rw [hlast]
    refine ⟨h.once, h.bound, h.sorted, h.justified, ?_⟩
    dsimp only
    rw [hatlas, hwalked, ← hqueue, ← asked_append, List.map_append]
  | succ more ih =>
    cases queue with
    | nil => exact h.ended (Nat.le_add_right _ _)
    | cons id queue =>
      have hnext := ih (h.advance hpos) (Nat.succ_pos _)
      rwa [Nat.add_right_comm, Nat.add_assoc] at hnext

/-! ## Deeper walks -/

/-- A walk takes back nothing that it has told. -/
theorem prefix_found_levels (w : World) (more distance : Nat) (queue : List String) (s : State) :
    s.found <+: (levels w more distance queue s).found := by
  induction more generalizing distance queue s with
  | zero =>
    obtain ⟨news, -, hlast⟩ := exists_levels_zero w distance queue s
    rw [hlast]
  | succ more ih =>
    cases queue with
    | nil => exact List.prefix_rfl
    | cons id queue =>
      obtain ⟨news, hfold, -⟩ := exists_foldl_expand_peek w distance (id :: queue) { s with next := [] }
      refine List.IsPrefix.trans ?_ (ih _ _ _)
      rw [hfold]
      exact List.prefix_append _ _

/-- Where there is no more to reach, a deeper walk ends with the same. -/
theorem levels_of_uncut (h : (levels w more distance queue s).truncated = false) (m : Nat) :
    (levels w (more + m) distance queue s).found = (levels w more distance queue s).found ∧
    (levels w (more + m) distance queue s).truncated = false ∧
    (levels w (more + m) distance queue s).atlas = (levels w more distance queue s).atlas := by
  induction more generalizing distance queue s with
  | zero =>
    rw [Nat.zero_add]
    cases m with
    | zero => exact ⟨rfl, h, rfl⟩
    | succ m =>
      obtain ⟨news, hfold, hlast⟩ := exists_levels_zero w distance queue s
      rw [hlast] at h ⊢
      obtain ⟨hs, hnone⟩ := Bool.or_eq_false_iff.mp h
      obtain rfl : news = [] := by simpa using hnone
      cases queue with
      | nil => exact ⟨rfl, hs, rfl⟩
      | cons id queue =>
        -- One level further nothing is found, and no level is left to go on from.
        unfold levels
        rw [hfold, State.add_nil, levels_nil]
        exact ⟨rfl, hs, rfl⟩
  | succ more ih =>
    rw [Nat.add_right_comm]
    cases queue with
    | nil => exact ⟨rfl, h, rfl⟩
    | cons id queue => exact ih h

/-- Where there is more to reach, a deeper walk tells more. -/
theorem exists_found_of_cut (hs : s.truncated = false)
    (h : (levels w more distance queue s).truncated = true) (m : Nat) :
    ∃ news ≠ [], (levels w (more + (m + 1)) distance queue s).found =
      (levels w more distance queue s).found ++ news := by
  induction more generalizing distance queue s with
  | zero =>
    cases queue with
    | nil => simp [levels_nil, hs] at h
    | cons id queue =>
      obtain ⟨news, hfold, hlast⟩ := exists_levels_zero w distance (id :: queue) s
      rw [hlast] at h ⊢
      rw [Nat.zero_add]
      unfold levels
      rw [hfold]
      obtain ⟨later, hlater⟩ := prefix_found_levels w m (distance + 1)
        (({ s with next := [] } : State).add news).next
        { ({ s with next := [] } : State).add news with atlas := asked w s.atlas (id :: queue) }
      refine ⟨news ++ later, ?_, ?_⟩
      · have hne : news ≠ [] := by simpa [hs] using h
        simp [hne]
      · rw [← List.append_assoc]
        exact hlater.symm
  | succ more ih =>
    cases queue with
    | nil => simp [levels_nil, hs] at h
    | cons id queue =>
      obtain ⟨news, hfold, -⟩ := exists_foldl_expand_peek w distance (id :: queue) { s with next := [] }
      rw [Nat.add_right_comm]
      refine ih ?_ h
      rw [hfold]
      exact hs

/-! ## Impacts -/

variable {a : Atlas} {p : Path} {name : String} {d : Dependents}

/-- The direct dependents are told for the answer about the symbol itself, and the walk goes on from those at
run time. -/
theorem walk_start (w : World) (d : Dependents) (b : Atlas) :
    Walk w b d.ids (start d b).found 1 (start d b).next { start d b with found := [], next := [] } ∧
    (start d b).truncated = false ∧ ∀ e ∈ (start d b).found, ∃ c ∈ d.callers, e = .ofCaller c 1 := by
  obtain ⟨news, hnews, hfresh, hof, -⟩ := exists_foldl_reach 1 d.callers ⟨d.ids, [], false, [], b⟩
  have hstart : start d b = (⟨d.ids, [], false, [], b⟩ : State).add news := hnews
  have hfound : (start d b).found = news := by simp [hstart, State.add]
  have hnext : (start d b).next = (walked news).map (·.symbol) := by simp [hstart, State.add, walked]
  have hdistance : ∀ e ∈ news, e.distance = 1 := by
    intro e he
    obtain ⟨c, -, rfl⟩ := hof e he
    rfl
  rw [hfound, hnext]
  refine ⟨⟨?_, fun x => ?_, by simp, by simp, by simp, [], walked news, ?_, rfl, fun e he => ?_, ?_⟩, ?_, hof⟩
  · simpa only [List.append_nil] using hfresh
  · rw [hstart]
    simp only [State.mem_visited_add, List.append_nil]
  · simp only [List.append_nil, List.nil_append]
  · exact hdistance e (List.mem_of_mem_filter he)
  · rw [hstart]
    rfl
  · rw [hstart]
    rfl

theorem ended_finish (w : World) (depth : Nat) (d : Dependents) (b : Atlas) :
    Ended w b d.ids (start d b).found (1 + (depth - 1)) (finish w depth d b) :=
  (walk_start w d b).1.ended_levels Nat.one_pos (depth - 1)

theorem impact_of_dependents (hd : a.dependents w p name = (.ok d, b)) (depth : Nat) :
    a.impact w p name true depth =
      (.ok ⟨d.file, name, d.ids, (start d b).found, (finish w depth d b).found,
        (finish w depth d b).truncated⟩, (finish w depth d b).atlas) := by
  unfold Atlas.impact
  rw [hd]
  rfl

theorem exists_dependents {transitive : Bool} {depth : Nat} {i : Impact}
    (h : (a.impact w p name transitive depth).1 = .ok i) :
    ∃ d b, a.dependents w p name = (.ok d, b) ∧ i.ids = d.ids ∧ i.direct = (start d b).found ∧
      i.transitive = if transitive then (finish w depth d b).found else [] := by
  unfold Atlas.impact at h
  split at h
  · cases h
  · rename_i d b hd
    obtain rfl := Except.ok.inj h
    refine ⟨d, b, hd, rfl, rfl, ?_⟩
    cases transitive <;> rfl

theorem finish_of_uncut {depth deeper : Nat} (h : (finish w depth d b).truncated = false)
    (hdeeper : depth ≤ deeper) :
    (finish w deeper d b).found = (finish w depth d b).found ∧
    (finish w deeper d b).truncated = (finish w depth d b).truncated ∧
    (finish w deeper d b).atlas = (finish w depth d b).atlas := by
  obtain ⟨m, hm⟩ := Nat.exists_eq_add_of_le (Nat.sub_le_sub_right hdeeper 1)
  obtain ⟨hfound, htruncated, hatlas⟩ := levels_of_uncut h m
  rw [← hm] at hfound htruncated hatlas
  exact ⟨hfound, htruncated.trans h.symm, hatlas⟩

/-- A depth of zero reaches as far as a depth of one. -/
theorem exists_finish_of_cut {depth deeper : Nat} (h : (finish w depth d b).truncated = true)
    (hpos : 0 < depth) (hdeeper : depth < deeper) :
    ∃ news ≠ [], (finish w deeper d b).found = (finish w depth d b).found ++ news := by
  have hstart : ({ start d b with found := [], next := [] } : State).truncated = false :=
    (walk_start w d b).2.1
  have hmore := exists_found_of_cut hstart h (deeper - depth - 1)
  rwa [show depth - 1 + (deeper - depth - 1 + 1) = deeper - 1 by omega] at hmore

end Impact

namespace Atlas

variable {w : World} {a : Atlas} {p : Path} {name : String}

open Impact in
/-- Whatever state the atlas is in, an impact tells each symbol once and never the symbol itself. The direct
dependents stand at distance one. All others are told in the order of their distances, within the depth, and
each for an answer about an entry at run time one step nearer: the atlas is asked for the dependents of these
entries, one after the other, and for nothing else. If no more is said to be there, every deeper impact is the
same; if more is said to be there, every deeper impact begins with this one and goes on. -/
theorem impact_told_by_answers {transitive : Bool} {depth : Nat} {i : Impact}
    (h : (a.impact w p name transitive depth).1 = .ok i) :
    ((i.direct ++ i.transitive).map (·.symbol)).Nodup ∧
    (∀ e ∈ i.direct ++ i.transitive, e.symbol ∉ i.ids) ∧
    (∃ d, (a.dependents w p name).1 = .ok d ∧ d.ids = i.ids ∧
      ∀ e ∈ i.direct, e.distance = 1 ∧ ∃ c ∈ d.callers, e = .ofCaller c 1) ∧
    (∀ e ∈ i.transitive, 2 ≤ e.distance ∧ e.distance ≤ depth ∧
      Justified w (a.dependents w p name).2 (i.direct ++ i.transitive) e) ∧
    i.transitive.Pairwise (·.distance ≤ ·.distance) ∧
    (transitive = true →
      (a.impact w p name true depth).2 =
        asked w (a.dependents w p name).2 ((walked (i.direct ++ i.transitive)).map (·.symbol)) ∧
      (i.truncated = false → ∀ deeper, depth ≤ deeper →
        a.impact w p name true deeper = a.impact w p name true depth) ∧
      (i.truncated = true → 0 < depth → ∀ deeper, depth < deeper →
        ∃ i' news, (a.impact w p name true deeper).1 = .ok i' ∧ i'.direct = i.direct ∧
          i'.transitive = i.transitive ++ news ∧ news ≠ [])) := by
  obtain ⟨d, b, hd, hids, hdirect, htransitive⟩ := exists_dependents h
  obtain ⟨hwalk, -, hof⟩ := walk_start w d b
  have hdirect' : ∃ d', (a.dependents w p name).1 = .ok d' ∧ d'.ids = i.ids ∧
      ∀ e ∈ i.direct, e.distance = 1 ∧ ∃ c ∈ d'.callers, e = .ofCaller c 1 := by
    refine ⟨d, by rw [hd], hids.symm, fun e he => ?_⟩
    obtain ⟨c, hc, rfl⟩ := hof e (hdirect ▸ he)
    exact ⟨rfl, c, hc, rfl⟩
  cases transitive with
  | false =>
    have hnone : i.transitive = [] := htransitive
    have honce := hwalk.once
    rw [← hdirect, ← hids] at honce
    rw [hnone]
    exact ⟨honce.1, honce.2, hdirect', by simp, by simp, by simp⟩
  | true =>
    have hend := ended_finish w depth d b
    rw [impact_of_dependents hd] at h
    obtain rfl := Except.ok.inj h
    rw [hd]
    refine ⟨hend.once.1, hend.once.2, hd ▸ hdirect', fun e he => ?_, hend.sorted, fun _ => ⟨?_, ?_, ?_⟩⟩
    · obtain ⟨hmin, hmax⟩ := hend.bound e he
      exact ⟨hmin, by omega, hend.justified e he⟩
    · rw [impact_of_dependents hd]
      exact hend.atlas
    · intro hcut deeper hdeeper
      obtain ⟨hfound, htruncated, hatlas⟩ := finish_of_uncut hcut hdeeper
      rw [impact_of_dependents hd, impact_of_dependents hd, hfound, htruncated, hatlas]
    · intro hcut hpos deeper hdeeper
      obtain ⟨news, hne, hnews⟩ := exists_finish_of_cut hcut hpos hdeeper
      rw [impact_of_dependents hd]
      exact ⟨_, news, rfl, rfl, hnews, hne⟩

end Atlas

namespace Small

/-- Of the function `r` an impact tells the function `t`, which calls it, and then `x`, which calls `t`. -/
def chainImpact : Impact where
  file := "/w/a.ts"
  name := "r"
  ids := ["/w/a.ts:r"]
  direct := [⟨"/w/a.ts:t", "/w/a.ts", 1, false⟩]
  transitive := [⟨"/w/a.ts:x", "/w/a.ts", 2, false⟩]
  truncated := false

end Small

/-- The function `x` is told for the answer about `t`, and nothing is told beyond it. -/
theorem Atlas.impact_told_by_answers_small :
    (Small.mixedSession.atlas.impact Small.mixing Small.importer "r" true 2).1 = .ok Small.chainImpact ∧
    Impact.Justified Small.mixing (Small.mixedSession.atlas.dependents Small.mixing Small.importer "r").2
      (Small.chainImpact.direct ++ Small.chainImpact.transitive) ⟨"/w/a.ts:x", "/w/a.ts", 2, false⟩ ∧
    ∀ deeper, 2 ≤ deeper → Small.mixedSession.atlas.impact Small.mixing Small.importer "r" true deeper =
      Small.mixedSession.atlas.impact Small.mixing Small.importer "r" true 2 := by
  have h : (Small.mixedSession.atlas.impact Small.mixing Small.importer "r" true 2).1 =
      .ok Small.chainImpact := by decide +kernel
  obtain ⟨-, -, -, htold, -, hdeeper⟩ := impact_told_by_answers h
  obtain ⟨-, -, hjustified⟩ := htold _ (List.mem_singleton_self _)
  exact ⟨h, hjustified, (hdeeper rfl).2.1 rfl⟩

end DepAtlas
