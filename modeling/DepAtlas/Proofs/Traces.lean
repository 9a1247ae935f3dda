import DepAtlas.Proofs.SymbolDependents

/-! # Traces tell distances

The calls of a symbol are told by the graph of the file in its id, so that a trace goes through a graph that
does not move. Level by level it finds the symbols at each distance from those it starts from, and tells all
calls on the way. A symbol that is called is gone through once. The symbols to start from are not held against
each other: one that stands among them several times is gone through as often.
-/

namespace DepAtlas

namespace Atlas

variable {w : World} {a : Atlas} {x y : String} {entries : List String} {e : SymbolEdge} {j k n : Nat}

/-! ## Distances -/

/-- A use at run time in a symbol, by the graph of the file that its id names. Files outside the workspace
are not looked into. -/
def Call (a : Atlas) (w : World) (x : String) (e : SymbolEdge) : Prop :=
  ∃ file name g, splitSymbolId? x = some (file, name) ∧ Path.isWithin a.root (.ofText file) = true ∧
    a.symbolGraph w (.ofText file) = .ok g ∧ e ∈ g.edges ∧ e.source = x ∧ e.typeOnly = false

theorem Call.source (h : a.Call w x e) : e.source = x := by
  obtain ⟨-, -, -, -, -, -, -, hs, -⟩ := h
  exact hs

/-- A symbol to which so many calls lead, one after the other, from one of some symbols. -/
inductive CalledIn (a : Atlas) (w : World) (entries : List String) : Nat → String → Prop where
  | entry {x : String} (h : x ∈ entries) : CalledIn a w entries 0 x
  | call {n : Nat} {x : String} {e : SymbolEdge} (h : CalledIn a w entries n x) (he : a.Call w x e) :
      CalledIn a w entries (n + 1) e.target

/-- The least number of calls that lead to a symbol. -/
def CallDistance (a : Atlas) (w : World) (entries : List String) (x : String) (n : Nat) : Prop :=
  IsLeast {k | a.CalledIn w entries k x} n

theorem CalledIn.exists_distance (h : a.CalledIn w entries n x) :
    ∃ k ≤ n, a.CallDistance w entries x k := by
  classical
  have hex : ∃ k, a.CalledIn w entries k x := ⟨n, h⟩
  exact ⟨Nat.find hex, Nat.find_min' hex h, Nat.find_spec hex, fun k hk => Nat.find_min' hex hk⟩

theorem callDistance_zero : a.CallDistance w entries x 0 ↔ x ∈ entries := by
  constructor
  · rintro ⟨h, -⟩
    cases h with
    | entry h => exact h
  · intro h
    exact ⟨.entry h, fun k _ => Nat.zero_le k⟩

/-- A symbol is one call farther than another from which it is called, unless it is nearer already. -/
theorem callDistance_succ : a.CallDistance w entries y (k + 1) ↔
    (¬ ∃ j ≤ k, a.CallDistance w entries y j) ∧
      ∃ x e, a.CallDistance w entries x k ∧ a.Call w x e ∧ e.target = y := by
  constructor
  · rintro ⟨h, hleast⟩
    refine ⟨?_, ?_⟩
    · rintro ⟨j, hj, hd⟩
      have := hleast hd.1
      omega
    · cases h with
      | @call _ x e h he =>
        refine ⟨x, e, ⟨h, fun j hj => ?_⟩, he, rfl⟩
        have := hleast (CalledIn.call hj he)
        omega
  · rintro ⟨hfar, x, e, hd, he, rfl⟩
    refine ⟨.call hd.1 he, fun j hj => ?_⟩
    by_contra hlt
    obtain ⟨i, hi, hd⟩ := CalledIn.exists_distance hj
    exact hfar ⟨i, by omega, hd⟩

/-- Where no symbol is at a distance, none is farther. -/
theorem not_callDistance_of_gap (h : ∀ x, ¬ a.CallDistance w entries x k) (hjk : k ≤ j) :
    ¬ a.CallDistance w entries x j := by
  induction hjk generalizing x with
  | refl => exact h x
  | step _ ih =>
    intro hd
    obtain ⟨-, y, -, hy, -⟩ := callDistance_succ.mp hd
    exact ih hy

theorem exists_le_succ {P : Nat → Prop} : (∃ j ≤ k + 1, P j) ↔ (∃ j ≤ k, P j) ∨ P (k + 1) := by
  constructor
  · rintro ⟨j, hj, hp⟩
    rcases Nat.le_succ_iff.mp hj with hj | rfl
    · exact .inl ⟨j, hj, hp⟩
    · exact .inr hp
  · rintro (⟨j, hj, hp⟩ | hp)
    · exact ⟨j, by omega, hp⟩
    · exact ⟨k + 1, le_rfl, hp⟩

end Atlas

/-! ## The calls of a symbol -/

namespace SymbolGraph

/-- No edge of a graph is there twice. -/
theorem pairwise_foldl_addEdge {edges found : List SymbolEdge}
    (h : found.Pairwise fun e f => sameEdge f e = false) :
    (edges.foldl addEdge found).Pairwise fun e f => sameEdge f e = false := by
  induction edges generalizing found with
  | nil => exact h
  | cons e edges ih =>
    apply ih
    unfold addEdge
    split
    · exact h
    · rename_i hnew
      rw [List.pairwise_append]
      refine ⟨h, List.pairwise_singleton _ _, fun f hf e' he' => ?_⟩
      obtain rfl := List.mem_singleton.mp he'
      exact Bool.eq_false_iff.mpr fun hsame => hnew (List.any_eq_true.mpr ⟨f, hf, hsame⟩)

theorem pairwise_edges (r : Resolve.Resolver) (t : FileTree) (key : String) (o : Outline) :
    (ofOutline r t key o).edges.Pairwise fun e f => sameEdge f e = false :=
  pairwise_foldl_addEdge List.Pairwise.nil

end SymbolGraph

/-- The ends of an edge. -/
def SymbolEdge.ends (e : SymbolEdge) : String × String := (e.source, e.target)

namespace CallStep

/-- The step for an edge that is met at a depth. -/
def ofEdge (e : SymbolEdge) (depth : Nat) : CallStep := ⟨e.source, e.target, e.targetFile, depth, e.line⟩

/-- The ends of a step. -/
def ends (s : CallStep) : String × String := (s.caller, s.callee)

end CallStep

theorem Atlas.Call.caller {a : Atlas} {w : World} {x : String} {e : SymbolEdge} (h : a.Call w x e)
    (depth : Nat) : (CallStep.ofEdge e depth).caller = x := h.source

namespace Trace

variable {w : World} {a : Atlas} {x : String} {entries level : List String} {e : SymbolEdge} {k : Nat}
  {t : Trace}

theorem mem_outgoing : e ∈ outgoing a w x ↔ a.Call w x e := by
  unfold outgoing Atlas.Call
  constructor
  · intro h
    split at h
    · cases h
    · rename_i file name hsplit
      split at h
      · rename_i hin
        split at h
        · rename_i g hg
          obtain ⟨he, hends⟩ := List.mem_filter.mp h
          rw [Bool.and_eq_true, decide_eq_true_eq, Bool.not_eq_true'] at hends
          exact ⟨file, name, g, hsplit, hin, hg, he, hends⟩
        · cases h
      · cases h
  · rintro ⟨file, name, g, hsplit, hin, hg, he, hs, ht⟩
    simp only [hsplit, hin, hg, if_true, List.mem_filter]
    exact ⟨he, by simp [hs, ht]⟩

/-- A symbol calls another by one edge at most. -/
theorem nodup_outgoing (a : Atlas) (w : World) (x : String) :
    ((outgoing a w x).map SymbolEdge.ends).Nodup := by
  unfold outgoing
  split
  · exact List.nodup_nil
  · split
    · split
      · rename_i g hg
        obtain ⟨o, -, rfl⟩ := Atlas.symbolGraph_eq_ok hg
        rw [List.Nodup, List.pairwise_map]
        refine ((SymbolGraph.pairwise_edges _ _ _ o).filter _).imp_of_mem
          fun {e f} he hf hdiffer hsame => ?_
        obtain ⟨hsource, htarget⟩ := Prod.mk.inj hsame
        have he := List.of_mem_filter he
        have hf := List.of_mem_filter hf
        simp_all [SymbolGraph.sameEdge]
      · exact List.nodup_nil
    · exact List.nodup_nil

/-- Each call of a symbol is met as often as the symbol is gone through. -/
theorem count_flatMap_outgoing (he : a.Call w x e) (level : List String) :
    ((level.flatMap (outgoing a w)).map SymbolEdge.ends).count e.ends = level.count x := by
  have hone : ((outgoing a w x).map SymbolEdge.ends).count e.ends = 1 :=
    List.count_eq_one_of_mem (nodup_outgoing a w x) (List.mem_map_of_mem (mem_outgoing.mpr he))
  induction level with
  | nil => rfl
  | cons y level ih =>
    rw [List.flatMap_cons, List.map_append, List.count_append, ih, List.count_cons]
    by_cases hy : y = x
    · rw [hy, hone]
      simp [Nat.add_comm]
    · have hnone : ((outgoing a w y).map SymbolEdge.ends).count e.ends = 0 := by
        refine List.count_eq_zero.mpr fun hmem => hy ?_
        obtain ⟨f, hf, hends⟩ := List.mem_map.mp hmem
        rw [← (mem_outgoing.mp hf).source, ← he.source]
        exact (Prod.mk.inj hends).1
      simp [hnone, hy]

/-! ## One level -/

/-- All calls are told, and of their symbols those that are new are gone through next, each once. -/
theorem exists_foldl_addCall (depth : Nat) (edges : List SymbolEdge) (t : Trace) (next : List String) :
    ∃ news, edges.foldl (addCall depth) (t, next) =
        ({ t with
          calls := t.calls ++ edges.map (CallStep.ofEdge · (depth + 1))
          visited := t.visited ++ news }, next ++ news) ∧
      news.Nodup ∧ ∀ x, x ∈ news ↔ x ∉ t.visited ∧ ∃ e ∈ edges, e.target = x := by
  induction edges generalizing t next with
  | nil => exact ⟨[], by simp, List.nodup_nil, by simp⟩
  | cons e edges ih =>
    rw [List.foldl_cons]
    by_cases hin : e.target ∈ t.visited
    · obtain ⟨news, hnews, hnodup, hmem⟩ := ih
        { t with calls := t.calls ++ [CallStep.ofEdge e (depth + 1)] } next
      have hone : addCall depth (t, next) e =
          ({ t with calls := t.calls ++ [CallStep.ofEdge e (depth + 1)] }, next) := by
        simp [addCall, CallStep.ofEdge, hin]
      refine ⟨news, ?_, hnodup, fun x => ?_⟩
      · rw [hone, hnews]
        simp
      · rw [hmem]
        simp only [List.mem_cons, exists_eq_or_imp]
        refine and_congr_right fun hx => (or_iff_right ?_).symm
        rintro rfl
        exact hx hin
    · obtain ⟨news, hnews, hnodup, hmem⟩ := ih
        { t with
          calls := t.calls ++ [CallStep.ofEdge e (depth + 1)]
          visited := t.visited ++ [e.target] } (next ++ [e.target])
      have hone : addCall depth (t, next) e =
          ({ t with
            calls := t.calls ++ [CallStep.ofEdge e (depth + 1)]
            visited := t.visited ++ [e.target] }, next ++ [e.target]) := by
        simp [addCall, CallStep.ofEdge, hin]
      refine ⟨e.target :: news, ?_, List.nodup_cons.mpr ⟨?_, hnodup⟩, fun x => ?_⟩
      · rw [hone, hnews]
        simp
      · rw [hmem]
        simp
      · rw [List.mem_cons, hmem]
        simp only [List.mem_append, List.mem_cons, List.not_mem_nil, or_false, not_or, exists_eq_or_imp]
        constructor
        · rintro (rfl | ⟨⟨hx, -⟩, hedge⟩)
          · exact ⟨hin, .inl rfl⟩
          · exact ⟨hx, .inr hedge⟩
        · rintro ⟨hx, rfl | hedge⟩
          · exact .inl rfl
          · by_cases hsame : x = e.target
            · exact .inl hsame
            · exact .inr ⟨⟨hx, hsame⟩, hedge⟩

/-- A trace that has told all calls of the symbols nearer than a distance; it goes on from those at this
distance. -/
structure Layered (a : Atlas) (w : World) (entries : List String) (k : Nat) (level : List String)
    (t : Trace) : Prop where
  ahead : ∀ x, x ∈ level ↔ a.CallDistance w entries x k
  visited : ∀ x, x ∈ t.visited ↔ ∃ j ≤ k, a.CallDistance w entries x j
  nodup : t.visited.Nodup
  calls : ∀ s, s ∈ t.calls ↔ ∃ j < k, ∃ x e, a.CallDistance w entries x j ∧ a.Call w x e ∧
    s = .ofEdge e (j + 1)
  /-- Only the symbols to start from can be gone through more than once. -/
  often : ∀ x ∈ level, level.count x = max 1 (entries.count x)
  told : ∀ s ∈ t.calls, (t.calls.map CallStep.ends).count s.ends = max 1 (entries.count s.caller)

namespace Layered

/-- What has been told was called by nearer symbols, so no call of a symbol at the distance is among it. -/
theorem ends_ne (h : Layered a w entries k level t) {s : CallStep} (hs : s ∈ t.calls)
    (hx : a.CallDistance w entries x k) (he : a.Call w x e) : e.ends ≠ s.ends := by
  intro hsame
  obtain ⟨j, hj, y, f, hy, hf, rfl⟩ := (h.calls s).mp hs
  have hxy : x = y := by
    rw [← he.source, ← hf.source]
    exact (Prod.mk.inj hsame).1
  exact hj.ne (hy.unique (hxy ▸ hx))

/-- One level further. -/
theorem advance (h : Layered a w entries k level t) :
    Layered a w entries (k + 1) ((level.flatMap (outgoing a w)).foldl (addCall k) (t, [])).2
      ((level.flatMap (outgoing a w)).foldl (addCall k) (t, [])).1 := by
  obtain ⟨news, hfold, hnodup, hmem⟩ := exists_foldl_addCall k (level.flatMap (outgoing a w)) t []
  have hedge : ∀ e, e ∈ level.flatMap (outgoing a w) ↔
      ∃ x, a.CallDistance w entries x k ∧ a.Call w x e := by
    intro e
    simp only [List.mem_flatMap, h.ahead, mem_outgoing]
  have hnews : ∀ x, x ∈ news ↔ a.CallDistance w entries x (k + 1) := by
    intro y
    rw [hmem, h.visited, Atlas.callDistance_succ]
    refine and_congr_right fun _ => ?_
    constructor
    · rintro ⟨e, he, hy⟩
      obtain ⟨x, hx, hcall⟩ := (hedge e).mp he
      exact ⟨x, e, hx, hcall, hy⟩
    · rintro ⟨x, e, hx, hcall, hy⟩
      exact ⟨e, (hedge e).mpr ⟨x, hx, hcall⟩, hy⟩
  have hends : ((level.flatMap (outgoing a w)).map (CallStep.ofEdge · (k + 1))).map CallStep.ends =
      (level.flatMap (outgoing a w)).map SymbolEdge.ends := by
    rw [List.map_map]
    rfl
  rw [hfold]
  refine ⟨fun x => by simpa using hnews x, fun x => ?_, ?_, fun s => ?_, fun x hx => ?_, fun s hs => ?_⟩
  · rw [List.mem_append, h.visited, hnews, Atlas.exists_le_succ]
  · rw [List.nodup_append]
    refine ⟨h.nodup, hnodup, ?_⟩
    rintro x hx _ hy rfl
    exact ((hmem x).mp hy).1 hx
  · rw [List.mem_append, h.calls, List.mem_map]
    constructor
    · rintro (⟨j, hj, hcall⟩ | ⟨e, he, rfl⟩)
      · exact ⟨j, by omega, hcall⟩
      · obtain ⟨x, hx, hcall⟩ := (hedge e).mp he
        exact ⟨k, by omega, x, e, hx, hcall, rfl⟩
    · rintro ⟨j, hj, x, e, hx, hcall, rfl⟩
      rcases Nat.lt_succ_iff_lt_or_eq.mp hj with hj | rfl
      · exact .inl ⟨j, hj, x, e, hx, hcall, rfl⟩
      · exact .inr ⟨e, (hedge e).mpr ⟨x, hx, hcall⟩, rfl⟩
  · rw [List.nil_append] at hx ⊢
    have hout : x ∉ entries := by
      intro hin
      exact (Atlas.callDistance_succ.mp ((hnews x).mp hx)).1
        ⟨0, Nat.zero_le k, Atlas.callDistance_zero.mpr hin⟩
    rw [List.count_eq_one_of_mem hnodup hx, List.count_eq_zero.mpr hout]
    rfl
  · rw [List.map_append, List.count_append, hends]
    rcases List.mem_append.mp hs with hs | hs
    · have hnone : ((level.flatMap (outgoing a w)).map SymbolEdge.ends).count s.ends = 0 := by
        refine List.count_eq_zero.mpr fun hmem => ?_
        obtain ⟨e, he, hsame⟩ := List.mem_map.mp hmem
        obtain ⟨x, hx, hcall⟩ := (hedge e).mp he
        exact h.ends_ne hs hx hcall hsame
      rw [h.told s hs, hnone, Nat.add_zero]
    · obtain ⟨e, he, rfl⟩ := List.mem_map.mp hs
      obtain ⟨x, hx, hcall⟩ := (hedge e).mp he
      have hnone : (t.calls.map CallStep.ends).count (CallStep.ofEdge e (k + 1)).ends = 0 := by
        refine List.count_eq_zero.mpr fun hmem => ?_
        obtain ⟨s, hs, hsame⟩ := List.mem_map.mp hmem
        exact h.ends_ne hs hx hcall hsame.symm
      rw [hnone, Nat.zero_add, hcall.caller, ← h.often x ((h.ahead x).mpr hx)]
      exact count_flatMap_outgoing hcall level

/-- With nothing to go on from, all calls have been told. -/
theorem of_nil (h : Layered a w entries k [] t) (more : Nat) :
    Layered a w entries (k + more) [] t := by
  have hgap : ∀ {j x}, k ≤ j → ¬ a.CallDistance w entries x j := fun hj =>
    Atlas.not_callDistance_of_gap (fun x hx => List.not_mem_nil ((h.ahead x).mpr hx)) hj
  have hnear : ∀ {j x}, a.CallDistance w entries x j → j < k := fun hd =>
    not_le.mp fun hj => hgap hj hd
  refine ⟨fun x => ?_, fun x => ?_, h.nodup, fun s => ?_, by simp, h.told⟩
  · exact iff_of_false List.not_mem_nil (hgap (Nat.le_add_right k more))
  · rw [h.visited]
    constructor
    · rintro ⟨j, hj, hd⟩
      exact ⟨j, by omega, hd⟩
    · rintro ⟨j, -, hd⟩
      exact ⟨j, (hnear hd).le, hd⟩
  · rw [h.calls]
    constructor
    · rintro ⟨j, hj, hcall⟩
      exact ⟨j, by omega, hcall⟩
    · rintro ⟨j, -, x, e, hx, hcall⟩
      exact ⟨j, hnear hx, x, e, hx, hcall⟩

/-- All levels: at the end it is told whether a symbol of the last level calls others. -/
theorem exists_levels (h : Layered a w entries k level t) (more : Nat) :
    ∃ last t', Layered a w entries (k + more) last t' ∧ levels a w more k level t =
      { t' with entry := t.entry, truncated := t.truncated || last.any (outgoing a w · ≠ []) } := by
  induction more generalizing k level t with
  | zero =>
    refine ⟨level, t, h, ?_⟩
    cases level with
    | nil => simp [levels]
    | cons x level =>
      unfold levels
      split
      · rename_i hany
        rw [hany, Bool.or_true]
      · rename_i hany
        rw [Bool.eq_false_iff.mpr hany, Bool.or_false]
  | succ more ih =>
    cases level with
    | nil => exact ⟨[], t, h.of_nil _, by simp [levels]⟩
    | cons x level =>
      obtain ⟨last, t', hlast, hlevels⟩ := ih h.advance
      obtain ⟨news, hfold, -⟩ := exists_foldl_addCall k ((x :: level).flatMap (outgoing a w)) t []
      refine ⟨last, t', by rwa [Nat.add_right_comm, Nat.add_assoc] at hlast, ?_⟩
      rw [hfold] at hlevels
      unfold levels
      rw [hfold]
      exact hlevels

end Layered

/-- Where no symbol of the last level calls others, a deeper trace has nothing to add. -/
theorem levels_of_uncut {more : Nat} (h : (levels a w more k level t).truncated = false) (m : Nat) :
    levels a w (more + m) k level t = levels a w more k level t := by
  induction more generalizing k level t with
  | zero =>
    cases level with
    | nil => cases m <;> rfl
    | cons x level =>
      have hnone : (x :: level).flatMap (outgoing a w) = [] := by
        unfold levels at h
        split at h
        · cases h
        · rename_i hany
          rw [List.flatMap_eq_nil_iff]
          intro y hy
          by_contra hcalls
          exact hany (List.any_eq_true.mpr ⟨y, hy, by simpa using hcalls⟩)
      have hsame : levels a w 0 k (x :: level) t = t := by
        rw [List.flatMap_eq_nil_iff] at hnone
        unfold levels
        exact if_neg (by simpa using hnone)
      cases m with
      | zero => rfl
      | succ m =>
        rw [Nat.zero_add, hsame]
        unfold levels
        rw [hnone]
        cases m <;> rfl
  | succ more ih =>
    cases level with
    | nil => rw [Nat.add_right_comm]; rfl
    | cons x level =>
      rw [Nat.add_right_comm]
      exact ih h

/-! ## Whole traces -/

theorem layered_zero (a : Atlas) (w : World) (entries : List String) :
    Layered a w entries 0 entries ⟨entries, [], entries.eraseDups, false⟩ where
  ahead x := Atlas.callDistance_zero.symm
  visited x := by
    rw [List.mem_eraseDups]
    constructor
    · intro hx
      exact ⟨0, le_rfl, Atlas.callDistance_zero.mpr hx⟩
    · rintro ⟨j, hj, hd⟩
      obtain rfl := Nat.le_zero.mp hj
      exact Atlas.callDistance_zero.mp hd
  nodup := Text.nodup_eraseDups entries
  calls s := by simp
  often x hx := (max_eq_right (List.count_pos_iff.mpr hx)).symm
  told s hs := by cases hs

theorem levels_congr {b : Atlas} (h : outgoing b w = outgoing a w) (more k : Nat) (level : List String)
    (t : Trace) : levels b w more k level t = levels a w more k level t := by
  induction more generalizing k level t with
  | zero => cases level <;> simp only [levels, h]
  | succ more ih => cases level <;> simp only [levels, h, ih]

end Trace

namespace Atlas

variable {w : World} {a : Atlas} {p : Path} {name : String} {depth : Nat} {t : Trace}

theorem outgoing_analyze (a : Atlas) (w : World) (p : Path) :
    Trace.outgoing (a.analyze w p).2 w = Trace.outgoing a w := by
  have ha := (learns_analyze (w := w) a p).alike
  funext id
  simp only [Trace.outgoing, ha.root, symbolGraph_congr ha.resolver ha.closed]

theorem symbolIds_eq_ok {ids : List String} {b : Atlas} (h : a.symbolIds w p name = (.ok ids, b)) :
    ∃ n, a.analyze w p = (.ok n, b) ∧ ids = idsOf n name := by
  unfold symbolIds at h
  split at h
  · cases h
  · rename_i n b' ha
    dsimp only at h
    split at h
    · cases h
    · obtain ⟨hids, rfl⟩ := Prod.mk.inj h
      exact ⟨n, ha, (Except.ok.inj hids).symm⟩

/-- A trace that succeeds starts from the symbols of the file that have the name. -/
theorem trace_eq_ok (h : (a.trace w p name depth).1 = .ok t) :
    ∃ n, (a.analyze w p).1 = .ok n ∧ t.entry = idsOf n name ∧
      ∀ d, a.trace w p name d = (.ok (Trace.levels a w d 0 t.entry
        ⟨t.entry, [], t.entry.eraseDups, false⟩), (a.analyze w p).2) := by
  unfold trace at h ⊢
  split at h
  · cases h
  · rename_i ids b hids
    obtain ⟨n, ha, rfl⟩ := symbolIds_eq_ok hids
    have hcongr := Trace.levels_congr (outgoing_analyze a w p)
    rw [ha] at hcongr ⊢
    obtain ⟨_, _, -, hend⟩ := (Trace.layered_zero b w (idsOf n name)).exists_levels depth
    rw [hend] at h
    obtain rfl := Except.ok.inj h
    exact ⟨n, rfl, rfl, fun d => by rw [← hcongr]⟩

/-- While the files stay as they are, a trace is a search in breadth. It tells the calls of the symbols that
are nearer than its depth, each with one more than the distance of the symbol. It counts the symbols within
its depth, and is marked as cut off exactly if one at the full depth calls others. Where it is not, a deeper
trace is the same. -/
theorem trace_charts_calls (h : (a.trace w p name depth).1 = .ok t) :
    (∃ n, (a.analyze w p).1 = .ok n ∧ t.entry = idsOf n name) ∧
    (∀ x y d, (∃ s ∈ t.calls, s.caller = x ∧ s.callee = y ∧ s.depth = d) ↔
      ∃ k < depth, a.CallDistance w t.entry x k ∧ d = k + 1 ∧ ∃ e, a.Call w x e ∧ e.target = y) ∧
    (∀ s ∈ t.calls, ∃ e, a.Call w s.caller e ∧ s = .ofEdge e s.depth) ∧
    {x | ∃ k ≤ depth, a.CallDistance w t.entry x k}.encard = t.visited.length ∧
    (t.truncated = true ↔ ∃ x, a.CallDistance w t.entry x depth ∧ ∃ e, a.Call w x e) ∧
    (t.truncated = false → ∀ deeper ≥ depth, a.trace w p name deeper = a.trace w p name depth) := by
  obtain ⟨n, hn, hentry, htrace⟩ := trace_eq_ok h
  obtain ⟨last, t', hlast, hlevels⟩ := (Trace.layered_zero a w t.entry).exists_levels depth
  have ht : t = Trace.levels a w depth 0 t.entry ⟨t.entry, [], t.entry.eraseDups, false⟩ := by
    rw [htrace] at h
    exact (Except.ok.inj h).symm
  have hcalls : t.calls = t'.calls := by rw [ht, hlevels]
  have hvisited : t.visited = t'.visited := by rw [ht, hlevels]
  have htruncated : t.truncated = last.any (Trace.outgoing a w · ≠ []) := by
    rw [ht, hlevels, Bool.false_or]
  rw [Nat.zero_add] at hlast
  refine ⟨⟨n, hn, hentry⟩, fun x y d => ?_, fun s hs => ?_, ?_, ?_, fun huncut deeper hdeeper => ?_⟩
  · rw [hcalls]
    constructor
    · rintro ⟨s, hs, rfl, rfl, rfl⟩
      obtain ⟨k, hk, x, e, hx, he, rfl⟩ := (hlast.calls s).mp hs
      rw [he.caller]
      exact ⟨k, hk, hx, rfl, e, he, rfl⟩
    · rintro ⟨k, hk, hx, rfl, e, he, rfl⟩
      exact ⟨_, (hlast.calls _).mpr ⟨k, hk, x, e, hx, he, rfl⟩, he.source, rfl, rfl⟩
  · obtain ⟨k, -, x, e, -, he, rfl⟩ := (hlast.calls s).mp (hcalls ▸ hs)
    rw [he.caller]
    exact ⟨e, he, rfl⟩
  · have hset : {x | ∃ k ≤ depth, a.CallDistance w t.entry x k} = t.visited.toFinset := by
      ext x
      rw [List.coe_toFinset, hvisited]
      exact (hlast.visited x).symm
    rw [hset, Set.encard_coe_eq_coe_finsetCard, List.toFinset_card_of_nodup (hvisited ▸ hlast.nodup)]
  · rw [htruncated, List.any_eq_true]
    refine exists_congr fun x => and_congr (hlast.ahead x) ?_
    rw [decide_eq_true_eq]
    constructor
    · intro hcalls
      obtain ⟨e, he⟩ := List.exists_mem_of_ne_nil _ hcalls
      exact ⟨e, Trace.mem_outgoing.mp he⟩
    · rintro ⟨e, he⟩
      exact List.ne_nil_of_mem (Trace.mem_outgoing.mpr he)
  · obtain ⟨m, rfl⟩ := Nat.exists_eq_add_of_le hdeeper
    rw [htrace, htrace, Trace.levels_of_uncut (ht ▸ huncut)]

/-- A trace tells each call once, and only a call of a symbol that it starts from as often as the symbol
stands there. So no call is told twice exactly if it tells none, or if no symbol that calls others stands
twice among those to start from. These are as many as the declarations that have the name. -/
theorem trace_repeats_only_entries (h : (a.trace w p name depth).1 = .ok t) :
    (∃ n, (a.analyze w p).1 = .ok n ∧ t.entry = (n.symbols.filter (·.hasName name)).map (·.id)) ∧
    (∀ s ∈ t.calls, (t.calls.map CallStep.ends).count s.ends = max 1 (t.entry.count s.caller)) ∧
    ((t.calls.map CallStep.ends).Nodup ↔
      depth = 0 ∨ ∀ x e, a.Call w x e → t.entry.count x ≤ 1) := by
  obtain ⟨n, hn, hentry, htrace⟩ := trace_eq_ok h
  obtain ⟨last, t', hlast, hlevels⟩ := (Trace.layered_zero a w t.entry).exists_levels depth
  rw [htrace, hlevels] at h
  have hcalls : t.calls = t'.calls := by rw [← Except.ok.inj h]
  rw [Nat.zero_add] at hlast
  rw [hcalls]
  refine ⟨⟨n, hn, hentry⟩, hlast.told, ?_⟩
  rw [List.nodup_iff_count_le_one]
  constructor
  · intro honce
    refine or_iff_not_imp_left.mpr fun hdepth x e he => ?_
    by_contra hcount
    have hx : a.CallDistance w t.entry x 0 :=
      callDistance_zero.mpr (List.count_pos_iff.mp (by omega))
    have hs := (hlast.calls (.ofEdge e 1)).mpr ⟨0, Nat.pos_of_ne_zero hdepth, x, e, hx, he, rfl⟩
    have htold := hlast.told _ hs
    rw [he.caller] at htold
    have := honce (CallStep.ofEdge e 1).ends
    omega
  · intro honce z
    by_cases hz : z ∈ t'.calls.map CallStep.ends
    · obtain ⟨s, hs, rfl⟩ := List.mem_map.mp hz
      obtain ⟨k, hk, x, e, -, he, rfl⟩ := (hlast.calls s).mp hs
      have hcount := honce.resolve_left (by omega) x e he
      rw [hlast.told _ hs, he.caller]
      omega
    · rw [List.count_eq_zero.mpr hz]
      exact Nat.zero_le 1

end Atlas

namespace Small

/-- A function that is declared twice and calls another, which calls it in turn. -/
def overloads : Outline where
  language := .typeScript
  imports := []
  declarations := [⟨"f", "f", .function, 1, 1, true, none, none⟩,
    ⟨"f", "f", .function, 2, 2, true, none, none⟩, ⟨"g", "g", .function, 3, 3, false, none, none⟩]
  references := [⟨some "f", "g", none, 2, true, false⟩, ⟨some "g", "f", none, 3, true, false⟩]

def overloading : World where
  tree := ⟨[(["w"], .directory), (["w", "a.ts"], .file [])], []⟩
  parsing :=
    { outline := fun key _ =>
        if Parsing.knowsLanguage (.ofText key) then .ok overloads else .error (.unsupported key)
      supports := Parsing.knowsLanguage
      supportsWhenClosed := false }

theorem new_overloading : Atlas.new overloading config = .ok atlas := rfl

/-- What is told when only the first calls are followed. -/
def firstCalls : Trace where
  entry := ["/w/a.ts:f", "/w/a.ts:f"]
  calls := [⟨"/w/a.ts:f", "/w/a.ts:g", "/w/a.ts", 1, 2⟩, ⟨"/w/a.ts:f", "/w/a.ts:g", "/w/a.ts", 1, 2⟩]
  visited := ["/w/a.ts:f", "/w/a.ts:g"]
  truncated := true

theorem trace_overloading : (atlas.trace overloading importer "f" 1).1 = .ok firstCalls := by
  decide +kernel

end Small

/-- Two symbols are within the depth, and one of them at the full depth calls another. -/
theorem Atlas.trace_charts_calls_small :
    (Small.atlas.trace Small.overloading Small.importer "f" 1).1 = .ok Small.firstCalls ∧
    {x | ∃ k ≤ 1, Small.atlas.CallDistance Small.overloading Small.firstCalls.entry x k}.encard = 2 ∧
    ∃ x, Small.atlas.CallDistance Small.overloading Small.firstCalls.entry x 1 ∧
      ∃ e, Small.atlas.Call Small.overloading x e := by
  obtain ⟨-, -, -, hcount, hcut, -⟩ := trace_charts_calls Small.trace_overloading
  exact ⟨Small.trace_overloading, hcount, hcut.mp rfl⟩

/-- The function that is declared twice is gone through twice, and its call is told twice. -/
theorem Atlas.trace_repeats_only_entries_small :
    (Small.atlas.trace Small.overloading Small.importer "f" 1).1 = .ok Small.firstCalls ∧
    (Small.firstCalls.calls.map CallStep.ends).count ("/w/a.ts:f", "/w/a.ts:g") = 2 ∧
    ¬ (Small.firstCalls.calls.map CallStep.ends).Nodup := by
  obtain ⟨-, htold, -⟩ := trace_repeats_only_entries Small.trace_overloading
  have hcount : (Small.firstCalls.calls.map CallStep.ends).count ("/w/a.ts:f", "/w/a.ts:g") = 2 :=
    htold ⟨"/w/a.ts:f", "/w/a.ts:g", "/w/a.ts", 1, 2⟩ (by decide)
  refine ⟨Small.trace_overloading, hcount, fun hnodup => ?_⟩
  have := List.nodup_iff_count_le_one.mp hnodup ("/w/a.ts:f", "/w/a.ts:g")
  omega

/-- A trace from a function that is declared twice tells its call twice. -/
theorem Session.trace_repeats_call :
    ¬ ∀ (w : World) (s : Session) (p : Path) (name : String) (depth : Nat) (t : Trace), s.Lived w →
      (s.atlas.trace w p name depth).1 = .ok t → (t.calls.map CallStep.ends).Nodup := by
  intro h
  have hnodup := h Small.overloading ⟨Small.atlas, []⟩ Small.importer "f" 1 Small.firstCalls
    (.new Small.new_overloading) Small.trace_overloading
  revert hnodup
  decide

end DepAtlas
