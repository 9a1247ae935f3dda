import DepAtlas.Proofs.SymbolDependents
import Mathlib.Data.List.Chain

/-! # What an impact reaches

An impact goes on from the symbols that it has reached by a use at run time. Each symbol is reached once, by
the first use that leads to it. Where this is a use as a type, the impact does not go on from the symbol, even
if the symbol uses another one at run time that has been reached as well. Nobody is missed apart from that.
-/

namespace DepAtlas

/-- The id of a declaration: it has a file and a name, and is not what stands outside all declarations. -/
def Declared (id : String) : Prop :=
  ∃ file name, splitSymbolId? id = some (file, name) ∧ name ≠ moduleName

namespace Atlas

variable {w : World} {a b : Atlas} {x id k : String} {ids : List String} {e : SymbolEdge}
  {typeOnly : Bool}

/-! ## Uses -/

/-- A symbol uses one of some others in a cached file, and `typeOnly` says whether as a type alone. -/
@[mk_iff]
structure Uses (a : Atlas) (w : World) (x : String) (ids : List String) (typeOnly : Bool) : Prop where
  edge : ∃ k e, a.Edge w k e ∧ e.source = x ∧ e.target ∈ ids
  typeOnly_iff : typeOnly = true ↔
    ∀ k e, a.Edge w k e → e.target ∈ ids → e.source = x → e.typeOnly = true

theorem Told.uses_of_mem {p : Path} {d : Dependents} (h : a.Told w p d b) {u : Caller}
    (hu : u ∈ d.callers) : b.Uses w u.symbol d.ids u.typeOnly := by
  obtain ⟨⟨-, k, e, he, ht, rfl⟩, -⟩ := h.of_mem_callers hu
  exact ⟨⟨k, e, he, rfl, ht⟩, h.typeOnly_iff hu⟩

/-- An atlas that has the same files in its cache as before, with indexes that are right. -/
structure Steady (b : Atlas) (w : World) (a : Atlas) : Prop where
  current : a.Current w
  mirrored : a.Mirrored
  faithful : a.Faithful w
  alike : Alike b a
  cache : a.cache = b.cache

theorem Steady.edge_iff (h : Steady b w a) : a.Edge w k e ↔ b.Edge w k e :=
  edge_congr h.alike.resolver h.alike.closed (by simp [h.cache])

theorem Steady.uses_iff (h : Steady b w a) : a.Uses w x ids typeOnly ↔ b.Uses w x ids typeOnly := by
  simp only [Atlas.uses_iff, h.edge_iff]

/-- The dependents of a declaration in a cached file are told by the graphs. -/
theorem Steady.dependentsOfId (hw : w.Orderly) (h : Steady b w a)
    (hid : ∃ k e, b.Edge w k e ∧ e.source = id) :
    Steady b w (a.dependentsOfId w id).2 ∧
    (∀ u ∈ (a.dependentsOfId w id).1, b.Uses w u.symbol [id] u.typeOnly) ∧
    (Declared id → ∀ k e, b.Edge w k e → e.target = id → e.source ≠ id →
      ∃ u ∈ (a.dependentsOfId w id).1, u.symbol = e.source) := by
  obtain ⟨k, e, he, rfl⟩ := hid
  obtain ⟨hcached, g, hg, hmem⟩ := h.edge_iff.mpr he
  obtain ⟨f, hget⟩ := NodeCache.contains_iff.mp hcached
  have hkey := h.current.cached k f hget
  obtain ⟨-, -, -, -, ⟨user, hsource, huser⟩, -⟩ := hw.of_mem_edges hkey hg hmem
  unfold Atlas.dependentsOfId
  split
  · rename_i hsplit
    refine ⟨h, by simp, ?_⟩
    rintro ⟨file, name, hsplit', -⟩
    rw [hsplit] at hsplit'
    cases hsplit'
  · rename_i file name hsplit
    obtain rfl : file = k := fst_of_splitSymbolId? huser (hsource ▸ hsplit)
    split
    · rename_i hmodule
      refine ⟨h, by simp, ?_⟩
      rintro ⟨_, _, hsplit', hname⟩
      obtain ⟨-, rfl⟩ := Prod.mk.inj (Option.some.inj (hsplit.symm.trans hsplit'))
      exact absurd hmodule hname
    · have hl := learns_prepareCallers (w := w) a file
      have hcache : (a.prepareCallers w file).2.cache = a.cache := by
        rw [prepareCallers_of_cached hkey hcached, cache_foldl_enterUses]
      have hsteady : Steady b w (a.prepareCallers w file).2 :=
        ⟨h.current.prepareCallers hw hkey, h.mirrored.moves hl.moves,
          h.faithful.moves hw.wellFormed hl.moves, h.alike.trans hl.alike, hcache.trans h.cache⟩
      have htold : a.Told w (.ofText file)
          ⟨file, name, [e.source], (a.prepareCallers w file).2.callers.usersOf [e.source]⟩
          (a.prepareCallers w file).2 := by
        refine ⟨fun k => ?_, hl.alike, hsteady.current, rfl, fun u => ?_⟩
        · rw [hcache, hkey]
          exact (or_iff_left_of_imp fun hk => hk ▸ hcached).symm
        · rw [usedBy_prepareCallers hw h.current h.mirrored h.faithful hkey hcached
            (by simpa using ⟨user, hsource, huser⟩)]
          simp only [hsteady.edge_iff, h.edge_iff]
      refine ⟨hsteady, fun u hu => hsteady.uses_iff.mp (htold.uses_of_mem hu), fun _ k' e' he' ht hne => ?_⟩
      exact htold.exists_mem_callers (by simpa using hne) (hsteady.edge_iff.mpr he') (by simpa using ht)

end Atlas

namespace Impact

variable {w : World} {a b : Atlas} {s : State} {ids queue : List String} {id k x : String}
  {distance : Nat} {news more : List ImpactEntry} {e : ImpactEntry} {edge : SymbolEdge}

/-! ## One level -/

/-- A search that has found some more symbols. -/
def State.add (s : State) (news : List ImpactEntry) : State :=
  { s with
    visited := (news.map (·.symbol)).reverse ++ s.visited
    found := s.found ++ news
    next := s.next ++ (news.filter (!·.typeOnly)).map (·.symbol) }

theorem State.add_nil (s : State) : s.add [] = s := by simp [add]

theorem State.add_append (s : State) (news more : List ImpactEntry) :
    (s.add news).add more = s.add (news ++ more) := by
  simp [add]

theorem State.mem_visited_add : x ∈ (s.add news).visited ↔ x ∈ s.visited ∨ ∃ e ∈ news, e.symbol = x := by
  simp [State.add, or_comm]

/-- Each symbol is told once, and none that was visited before. -/
def Fresh (visited : List String) (entries : List ImpactEntry) : Prop :=
  (entries.map (·.symbol)).Nodup ∧ ∀ e ∈ entries, e.symbol ∉ visited

theorem Fresh.append {seen later : List String} (h : Fresh seen news) (h' : Fresh later more)
    (hlater : ∀ x, x ∈ seen ∨ (∃ e ∈ news, e.symbol = x) → x ∈ later) : Fresh seen (news ++ more) := by
  constructor
  · rw [List.map_append, List.nodup_append]
    refine ⟨h.1, h'.1, ?_⟩
    simp only [List.forall_mem_map]
    exact fun f hf e he hsame => h'.2 e he (hlater _ (.inr ⟨f, hf, hsame⟩))
  · exact List.forall_mem_append.mpr ⟨h.2, fun e he hin => h'.2 e he (hlater _ (.inl hin))⟩

/-- All dependents that are told have been reached afterwards, and nobody else. -/
theorem exists_foldl_reach (distance : Nat) (callers : List Caller) (s : State) :
    ∃ news, callers.foldl (reach distance) s = s.add news ∧ Fresh s.visited news ∧
      (∀ e ∈ news, ∃ c ∈ callers, e = .ofCaller c distance) ∧
      ∀ c ∈ callers, c.symbol ∈ (s.add news).visited := by
  induction callers generalizing s with
  | nil => exact ⟨[], by simp [State.add_nil], by simp [Fresh], by simp, by simp⟩
  | cons c callers ih =>
    by_cases hin : c.symbol ∈ s.visited
    · have hsame : reach distance s c = s := if_pos (List.contains_iff_mem.mpr hin)
      obtain ⟨news, hnews, hfresh, hof, hall⟩ := ih s
      refine ⟨news, by rw [List.foldl_cons, hsame, hnews], hfresh, fun e he => ?_, ?_⟩
      · obtain ⟨c', hc', rfl⟩ := hof e he
        exact ⟨c', .tail _ hc', rfl⟩
      · exact List.forall_mem_cons.mpr ⟨State.mem_visited_add.mpr (.inl hin), hall⟩
    · have hone : reach distance s c = s.add [.ofCaller c distance] := by
        cases htype : c.typeOnly <;> simp [reach, hin, State.add, ImpactEntry.ofCaller, htype]
      have hfirst : Fresh s.visited [.ofCaller c distance] := by
        simpa [Fresh, ImpactEntry.ofCaller] using hin
      obtain ⟨news, hnews, hfresh, hof, hall⟩ := ih (s.add [.ofCaller c distance])
      rw [State.add_append] at hnews hall
      refine ⟨_, by rw [List.foldl_cons, hone, hnews],
        hfirst.append hfresh fun _ => State.mem_visited_add.mpr, fun e he => ?_, ?_⟩
      · rcases List.mem_cons.mp he with rfl | he
        · exact ⟨c, List.mem_cons_self, rfl⟩
        · obtain ⟨c', hc', rfl⟩ := hof e he
          exact ⟨c', .tail _ hc', rfl⟩
      · exact List.forall_mem_cons.mpr
          ⟨State.mem_visited_add.mpr (.inr ⟨_, List.mem_cons_self, rfl⟩), hall⟩

/-- What is found when a search goes on from some symbols at a distance. -/
structure Found (b : Atlas) (w : World) (distance : Nat) (queue : List String) (s : State)
    (news : List ImpactEntry) : Prop where
  fresh : Fresh s.visited news
  reached : ∀ e ∈ news, e.distance = distance + 1 ∧ ∃ id ∈ queue, b.Uses w e.symbol [id] e.typeOnly
  complete : ∀ id ∈ queue, Declared id → ∀ k edge, b.Edge w k edge → edge.target = id →
    edge.source = id ∨ edge.source ∈ (s.add news).visited

theorem Found.append {rest : List String} (h : Found b w distance queue s news)
    (h' : Found b w distance rest { s.add news with atlas := a } more) :
    Found b w distance (queue ++ rest) s (news ++ more) where
  fresh := h.fresh.append h'.fresh fun _ => State.mem_visited_add.mpr
  reached e he := by
    rcases List.mem_append.mp he with he | he
    · obtain ⟨hd, id, hid, hu⟩ := h.reached e he
      exact ⟨hd, id, List.mem_append_left _ hid, hu⟩
    · obtain ⟨hd, id, hid, hu⟩ := h'.reached e he
      exact ⟨hd, id, List.mem_append_right _ hid, hu⟩
  complete id hid hdeclared k edge he ht := by
    rw [← State.add_append, State.mem_visited_add]
    rcases List.mem_append.mp hid with hid | hid
    · exact (h.complete id hid hdeclared k edge he ht).imp_right .inl
    · exact (h'.complete id hid hdeclared k edge he ht).imp_right State.mem_visited_add.mp

theorem exists_expand (hw : w.Orderly) (hs : b.Steady w s.atlas)
    (hid : ∃ k edge, b.Edge w k edge ∧ edge.source = id) (distance : Nat) :
    ∃ a news, expand w distance s id = { s.add news with atlas := a } ∧ b.Steady w a ∧
      Found b w distance [id] s news := by
  obtain ⟨hsteady, huses, hall⟩ := hs.dependentsOfId hw hid
  obtain ⟨news, hnews, hfresh, hof, hin⟩ := exists_foldl_reach (distance + 1) (s.atlas.dependentsOfId w id).1
    { s with atlas := (s.atlas.dependentsOfId w id).2 }
  refine ⟨_, news, hnews, hsteady, hfresh, fun e he => ?_, fun i hi hdeclared k edge hedge ht => ?_⟩
  · obtain ⟨c, hc, rfl⟩ := hof e he
    exact ⟨rfl, id, List.mem_singleton_self id, huses c hc⟩
  · obtain rfl := List.mem_singleton.mp hi
    refine or_iff_not_imp_left.mpr fun hne => ?_
    obtain ⟨u, hu, hsource⟩ := hall hdeclared k edge hedge ht hne
    exact hsource ▸ hin u hu

theorem exists_foldl_expand (hw : w.Orderly) (distance : Nat) (hs : b.Steady w s.atlas)
    (hqueue : ∀ id ∈ queue, ∃ k edge, b.Edge w k edge ∧ edge.source = id) :
    ∃ a news, queue.foldl (expand w distance) s = { s.add news with atlas := a } ∧ b.Steady w a ∧
      Found b w distance queue s news := by
  induction queue generalizing s with
  | nil => exact ⟨s.atlas, [], by simp [State.add_nil], hs, by simp [Fresh], by simp, by simp⟩
  | cons id queue ih =>
    obtain ⟨hid, hrest⟩ := List.forall_mem_cons.mp hqueue
    obtain ⟨a, news, hone, hsteady, hfound⟩ := exists_expand hw hs hid distance
    obtain ⟨a', more, hmore, hsteady', hfound'⟩ := ih (s := { s.add news with atlas := a }) hsteady hrest
    refine ⟨a', news ++ more, ?_, hsteady', hfound.append hfound'⟩
    rw [List.foldl_cons, hone, hmore, ← State.add_append]
    rfl

/-! ## All levels -/

/-- An entry was reached by a use of the symbols themselves, or of one that was reached at run time one step
before. -/
def Reached (b : Atlas) (w : World) (ids : List String) (entries : List ImpactEntry) (e : ImpactEntry) :
    Prop :=
  (e.distance = 1 ∧ b.Uses w e.symbol ids e.typeOnly) ∨
    ∃ f ∈ entries, f.typeOnly = false ∧ e.distance = f.distance + 1 ∧
      b.Uses w e.symbol [f.symbol] e.typeOnly

theorem Reached.exists_edge {entries : List ImpactEntry} (h : Reached b w ids entries e) :
    ∃ k edge, b.Edge w k edge ∧ edge.source = e.symbol := by
  rcases h with ⟨-, hu⟩ | ⟨_, -, -, -, hu⟩ <;>
    obtain ⟨k, edge, hedge, hs, -⟩ := hu.edge <;> exact ⟨k, edge, hedge, hs⟩

theorem Reached.distance_pos {entries : List ImpactEntry} (h : Reached b w ids entries e) :
    0 < e.distance := by
  rcases h with ⟨hd, -⟩ | ⟨_, -, -, hd, -⟩ <;> omega

theorem Reached.mono {entries entries' : List ImpactEntry} (h : Reached b w ids entries e)
    (hsub : entries ⊆ entries') : Reached b w ids entries' e := by
  refine h.imp_right ?_
  rintro ⟨f, hf, hrest⟩
  exact ⟨f, hsub hf, hrest⟩

/-- A search that has told all entries up to a distance; it goes on from the queue. -/
structure Spread (b : Atlas) (w : World) (ids : List String) (direct : List ImpactEntry)
    (distance : Nat) (queue : List String) (s : State) : Prop where
  atlas : b.Steady w s.atlas
  visited : ∀ x, x ∈ s.visited ↔ x ∈ ids ∨ ∃ e ∈ direct ++ s.found, e.symbol = x
  once : Fresh ids (direct ++ s.found)
  bound : ∀ e ∈ direct ++ s.found, e.distance ≤ distance
  waiting : ∀ id, id ∈ queue ↔
    ∃ e ∈ direct ++ s.found, e.symbol = id ∧ e.typeOnly = false ∧ e.distance = distance
  reached : ∀ e ∈ direct ++ s.found, Reached b w ids (direct ++ s.found) e
  /-- Who uses a declaration that was reached at run time before has been reached one step later. -/
  spread : ∀ e ∈ direct ++ s.found, e.typeOnly = false → e.distance < distance → Declared e.symbol →
    ∀ k edge, b.Edge w k edge → edge.target = e.symbol →
      edge.source ∈ ids ∨ ∃ f ∈ direct ++ s.found, f.symbol = edge.source ∧ f.distance ≤ e.distance + 1

namespace Spread

variable {direct : List ImpactEntry}

theorem exists_edge (h : Spread b w ids direct distance queue s) :
    ∀ id ∈ queue, ∃ k edge, b.Edge w k edge ∧ edge.source = id := by
  intro id hid
  obtain ⟨e, he, rfl, -⟩ := (h.waiting id).mp hid
  exact (h.reached e he).exists_edge

/-- One level further. -/
theorem advance (hw : w.Orderly) (h : Spread b w ids direct distance queue s) :
    Spread b w ids direct (distance + 1)
      (queue.foldl (expand w distance) { s with next := [] }).next
      (queue.foldl (expand w distance) { s with next := [] }) := by
  obtain ⟨a, news, hfold, hsteady, hfound⟩ := exists_foldl_expand (s := { s with next := [] }) hw distance
    h.atlas h.exists_edge
  have hmem : ∀ e, e ∈ direct ++ (s.found ++ news) ↔ e ∈ direct ++ s.found ∨ e ∈ news := by
    simp [or_assoc]
  have hvisited : ∀ x, x ∈ (s.add news).visited ↔
      x ∈ ids ∨ ∃ e ∈ direct ++ (s.found ++ news), e.symbol = x := by
    intro x
    simp only [State.mem_visited_add, h.visited, hmem, or_and_right, exists_or, or_assoc]
  have hbound : ∀ e ∈ direct ++ (s.found ++ news), e.distance ≤ distance + 1 := by
    intro e he
    rcases (hmem e).mp he with he | he
    · exact (h.bound e he).trans (Nat.le_succ _)
    · exact (hfound.reached e he).1.le
  have honce : Fresh ids (direct ++ (s.found ++ news)) := by
    rw [← List.append_assoc]
    exact h.once.append hfound.fresh fun x => (h.visited x).mpr
  rw [hfold]
  refine ⟨hsteady, hvisited, honce, hbound, fun id => ?_, fun e he => ?_,
    fun e he hrun hlt hdeclared k edge hedge ht => ?_⟩
  · simp only [State.add, List.nil_append, List.mem_map, List.mem_filter, Bool.not_eq_true']
    constructor
    · rintro ⟨e, ⟨he, hrun⟩, rfl⟩
      exact ⟨e, (hmem e).mpr (.inr he), rfl, hrun, (hfound.reached e he).1⟩
    · rintro ⟨e, he, rfl, hrun, hd⟩
      rcases (hmem e).mp he with he | he
      · have := h.bound e he
        omega
      · exact ⟨e, ⟨he, hrun⟩, rfl⟩
  · rcases (hmem e).mp he with hold | hnew
    · exact (h.reached e hold).mono fun f hf => (hmem f).mpr (.inl hf)
    · obtain ⟨hd, id, hid, hu⟩ := hfound.reached e hnew
      obtain ⟨f, hf, rfl, hrun, hf'⟩ := (h.waiting id).mp hid
      exact .inr ⟨f, (hmem f).mpr (.inl hf), hrun, by omega, hu⟩
  · have hold : e ∈ direct ++ s.found := by
      refine ((hmem e).mp he).resolve_right fun hnew => ?_
      have := (hfound.reached e hnew).1
      omega
    rcases (h.bound e hold).lt_or_eq with hd | hd
    · refine (h.spread e hold hrun hd hdeclared k edge hedge ht).imp_right ?_
      rintro ⟨f, hf, hrest⟩
      exact ⟨f, (hmem f).mpr (.inl hf), hrest⟩
    -- The entry was waiting in the queue, so that its users are visited by now.
    · have hid : e.symbol ∈ queue := (h.waiting _).mpr ⟨e, hold, rfl, hrun, hd⟩
      rcases hfound.complete _ hid hdeclared k edge hedge ht with hself | hseen
      · exact .inr ⟨e, he, hself.symm, Nat.le_succ _⟩
      · refine ((hvisited _).mp hseen).imp_right ?_
        rintro ⟨f, hf, hsource⟩
        exact ⟨f, hf, hsource, hd ▸ hbound f hf⟩

/-- With nothing to go on from, all entries have been told. -/
theorem of_nil (h : Spread b w ids direct distance [] s) (more : Nat) :
    Spread b w ids direct (distance + more) [] s := by
  have hnone : ∀ e ∈ direct ++ s.found, e.typeOnly = false → e.distance < distance := by
    intro e he hrun
    refine (h.bound e he).lt_of_ne fun hd => ?_
    exact List.not_mem_nil ((h.waiting e.symbol).mpr ⟨e, he, rfl, hrun, hd⟩)
  refine ⟨h.atlas, h.visited, h.once, fun e he => (h.bound e he).trans (Nat.le_add_right _ _), fun id => ?_,
    h.reached, fun e he hrun _ => h.spread e he hrun (hnone e he hrun)⟩
  refine iff_of_false List.not_mem_nil ?_
  rintro ⟨e, he, -, hrun, hd⟩
  have := hnone e he hrun
  omega

/-- Looking whether there is more adds no entry. -/
theorem foldl_peek (hw : w.Orderly) {rest : List String} (hrest : rest ⊆ queue)
    (h : Spread b w ids direct distance queue s) :
    Spread b w ids direct distance queue (rest.foldl (peek w) s) := by
  induction rest generalizing s with
  | nil => exact h
  | cons id rest ih =>
    obtain ⟨hid, hrest⟩ := List.cons_subset.mp hrest
    have hsteady := (h.atlas.dependentsOfId hw (h.exists_edge id hid)).1
    exact ih hrest ⟨hsteady, h.visited, h.once, h.bound, h.waiting, h.reached, h.spread⟩

/-- All levels. -/
theorem exists_levels (hw : w.Orderly) (more : Nat) (h : Spread b w ids direct distance queue s) :
    ∃ rest, Spread b w ids direct (distance + more) rest (levels w more distance queue s) := by
  induction more generalizing distance queue s with
  | zero =>
    cases queue with
    | nil => exact ⟨[], h.of_nil 0⟩
    | cons id queue => exact ⟨_, h.foldl_peek hw (List.Subset.refl _)⟩
  | succ more ih =>
    cases queue with
    | nil => exact ⟨[], h.of_nil _⟩
    | cons id queue =>
      obtain ⟨rest, hrest⟩ := ih (h.advance hw)
      exact ⟨rest, by rwa [Nat.add_right_comm, Nat.add_assoc] at hrest⟩

end Spread

/-- The search when the direct dependents are told. -/
def start (d : Dependents) (b : Atlas) : State :=
  d.callers.foldl (reach 1) ⟨d.ids, [], false, [], b⟩

/-- The search when all levels are told. -/
def finish (w : World) (depth : Nat) (d : Dependents) (b : Atlas) : State :=
  levels w (depth - 1) 1 (start d b).next { start d b with found := [], next := [] }

theorem impact_eq_ok {p : Path} {name : String} {depth : Nat} {i : Impact} {a' : Atlas}
    (h : a.impact w p name true depth = (.ok i, a')) :
    ∃ d b, a.dependents w p name = (.ok d, b) ∧ a' = (finish w depth d b).atlas ∧
      i = ⟨d.file, name, d.ids, (start d b).found, (finish w depth d b).found,
        (finish w depth d b).truncated⟩ := by
  unfold Atlas.impact at h
  split at h
  · cases h
  · rename_i d b hd
    obtain ⟨hi, ha⟩ := Prod.mk.inj h
    exact ⟨d, b, hd, ha.symm, (Except.ok.inj hi).symm⟩

/-- Of the direct dependents nobody is missed, and the search goes on from those at run time. -/
theorem spread_start {p : Path} {d : Dependents} (h : a.Told w p d b) (hb : b.Steady w b) :
    Spread b w d.ids (start d b).found 1 (start d b).next { start d b with found := [], next := [] } ∧
    ∀ k edge, b.Edge w k edge → edge.target ∈ d.ids →
      edge.source ∈ d.ids ∨ ∃ e ∈ (start d b).found, e.symbol = edge.source ∧ e.distance = 1 := by
  obtain ⟨news, hnews, hfresh, hof, hin⟩ := exists_foldl_reach 1 d.callers ⟨d.ids, [], false, [], b⟩
  have hone : ∀ e ∈ news, e.distance = 1 ∧ b.Uses w e.symbol d.ids e.typeOnly := by
    intro e he
    obtain ⟨c, hc, rfl⟩ := hof e he
    exact ⟨rfl, h.uses_of_mem hc⟩
  have hstart : start d b = (⟨d.ids, [], false, [], b⟩ : State).add news := hnews
  have hentries : (start d b).found = news := by simp [hstart, State.add]
  have hqueue : (start d b).next = (news.filter (!·.typeOnly)).map (·.symbol) := by
    simp [hstart, State.add]
  rw [hentries, hqueue]
  refine ⟨⟨?_, fun x => ?_, ?_, fun e he => ?_, fun id => ?_, fun e he => ?_, fun e he _ hlt => ?_⟩,
    fun k edge hedge ht => or_iff_not_imp_left.mpr fun hout => ?_⟩
  · rw [hstart]
    exact hb
  · rw [hstart]
    simp only [State.mem_visited_add, List.append_nil]
  · simpa only [List.append_nil] using hfresh
  · rw [List.append_nil] at he
    exact (hone e he).1.le
  · simp only [List.append_nil, List.mem_map, List.mem_filter, Bool.not_eq_true']
    constructor
    · rintro ⟨e, ⟨he, hrun⟩, rfl⟩
      exact ⟨e, he, rfl, hrun, (hone e he).1⟩
    · rintro ⟨e, he, rfl, hrun, -⟩
      exact ⟨e, ⟨he, hrun⟩, rfl⟩
  · rw [List.append_nil] at he
    exact .inl (hone e he)
  · rw [List.append_nil] at he
    have := (hone e he).1
    omega
  · obtain ⟨u, hu, hsource⟩ := h.exists_mem_callers hout hedge ht
    rcases State.mem_visited_add.mp (hin u hu) with hvisited | ⟨e, he, hsame⟩
    · exact absurd (hsource ▸ hvisited) hout
    · exact ⟨e, he, hsame.trans hsource, (hone e he).1⟩

/-- What a finished search has told of the graphs. -/
structure Complete (b : Atlas) (w : World) (depth : Nat) (i : Impact) : Prop where
  once : Fresh i.ids (i.direct ++ i.transitive)
  reached : ∀ e ∈ i.direct ++ i.transitive, Reached b w i.ids (i.direct ++ i.transitive) e
  direct : ∀ k edge, b.Edge w k edge → edge.target ∈ i.ids →
    edge.source ∈ i.ids ∨ ∃ e ∈ i.direct, e.symbol = edge.source ∧ e.distance = 1
  spread : ∀ e ∈ i.direct ++ i.transitive, e.typeOnly = false → e.distance < depth → Declared e.symbol →
    ∀ k edge, b.Edge w k edge → edge.target = e.symbol →
      edge.source ∈ i.ids ∨
        ∃ f ∈ i.direct ++ i.transitive, f.symbol = edge.source ∧ f.distance ≤ e.distance + 1

theorem complete_of_impact {p : Path} {name : String} {depth : Nat} {i : Impact} {a' : Atlas}
    (hw : w.Orderly) (h : a.Current w) (hm : a.Mirrored) (hf : a.Faithful w) (hp : p.Legible)
    (hi : a.impact w p name true depth = (.ok i, a')) :
    Complete a' w depth i ∧ Atlas.Alike a a' ∧
      ∀ k, a'.cache.contains k = true ↔ a.cache.contains k = true ∨ k = w.tree.key p := by
  obtain ⟨d, b, hd, rfl, rfl⟩ := impact_eq_ok hi
  have htold := Atlas.told_of_dependents hw h hm hf hp hd
  have hl := Atlas.learns_dependents (w := w) a p name
  rw [hd] at hl
  have hb : b.Steady w b :=
    ⟨htold.current, hm.moves hl.moves, hf.moves hw.wellFormed hl.moves, .refl b, rfl⟩
  obtain ⟨hstart, hdirect⟩ := spread_start htold hb
  obtain ⟨rest, hend⟩ : ∃ rest, Spread b w d.ids (start d b).found (1 + (depth - 1)) rest
      (finish w depth d b) := hstart.exists_levels hw (depth - 1)
  have hsteady := hend.atlas
  refine ⟨⟨hend.once, fun e he => ?_, ?_, fun e he hrun hlt => ?_⟩, htold.alike.trans hsteady.alike, ?_⟩
  · simpa only [Reached, hsteady.uses_iff] using hend.reached e he
  · simpa only [hsteady.edge_iff] using hdirect
  · simpa only [hsteady.edge_iff] using hend.spread e he hrun (by omega)
  · simpa only [hsteady.cache] using htold.cached

/-- Along a chain of uses at run time the search goes on to its end, or stops at a symbol that it has reached
by a use as a type. -/
theorem Complete.along_chain {depth : Nat} {i : Impact} (h : Complete b w depth i)
    {between : List String} (hid : id ∈ i.ids)
    (hchain : (x :: between ++ [id]).IsChain
      fun x y => ∃ k edge, b.Edge w k edge ∧ edge.source = x ∧ edge.target = y)
    (hdepth : between.length + 1 ≤ depth) (hdeclared : ∀ y ∈ between, Declared y) :
    x ∈ i.ids ∨
    (∃ e ∈ i.direct ++ i.transitive, e.symbol = x ∧ e.distance ≤ between.length + 1) ∨
    ∃ before y after, between = before ++ y :: after ∧
      ∃ e ∈ i.direct ++ i.transitive, e.symbol = y ∧ e.typeOnly = true ∧ e.distance ≤ after.length + 1 := by
  -- A use of one of the symbols themselves is a direct one, wherever in the chain it stands.
  have hfirst : ∀ k edge n, b.Edge w k edge → edge.target ∈ i.ids → edge.source ∈ i.ids ∨
      ∃ e ∈ i.direct ++ i.transitive, e.symbol = edge.source ∧ e.distance ≤ n + 1 := by
    intro k edge n hedge ht
    refine (h.direct k edge hedge ht).imp_right ?_
    rintro ⟨e, he, hsource, hd⟩
    exact ⟨e, List.mem_append_left _ he, hsource, by omega⟩
  induction between generalizing x with
  | nil =>
    obtain ⟨k, edge, hedge, rfl, rfl⟩ := List.isChain_pair.mp hchain
    exact (hfirst k edge 0 hedge hid).imp_right .inl
  | cons y between ih =>
    obtain ⟨⟨k, edge, hedge, rfl, ht⟩, hrest⟩ := List.isChain_cons_cons.mp hchain
    obtain ⟨hy, hdeclared⟩ := List.forall_mem_cons.mp hdeclared
    rw [List.length_cons] at hdepth
    rcases ih hrest (by omega) hdeclared with hin | ⟨e, he, rfl, hd⟩ | ⟨before, z, after, rfl, hstop⟩
    · exact (hfirst k edge _ hedge (ht ▸ hin)).imp_right .inl
    · cases htype : e.typeOnly with
      | true => exact .inr (.inr ⟨[], e.symbol, between, rfl, e, he, rfl, htype, hd⟩)
      | false =>
        refine (h.spread e he htype (by omega) hy k edge hedge ht).imp_right fun hnext => .inl ?_
        obtain ⟨f, hf, hsource, hle⟩ := hnext
        exact ⟨f, hf, hsource, by rw [List.length_cons]; omega⟩
    · exact .inr (.inr ⟨y :: before, z, after, rfl, hstop⟩)

end Impact

/-! ## After a pass -/

namespace Atlas

variable {w : World} {a : Atlas} {x y : String}

/-- A file that a pass looks at. -/
def Scans (a : Atlas) (w : World) (k : String) : Prop :=
  ∃ listed, Scan.files w.tree a.root a.scanOptions = .ok listed ∧ ∃ p ∈ listed, w.tree.key p = k

/-- Each file that a pass looks at is cached if it has a symbol graph. -/
def Indexed (a : Atlas) (w : World) : Prop :=
  ∀ k g, a.Scans w k → a.symbolGraph w (.ofText k) = .ok g → a.cache.contains k = true

theorem indexed_buildIndex (hw : w.tree.WellFormed) : (a.buildIndex w).2.Indexed w := by
  rintro _ g ⟨listed, hl, p, hp, rfl⟩ hg
  have ha := alike_buildIndex (w := w) a
  rw [ha.root, scanOptions, ha.config] at hl
  obtain ⟨content, hread, -, -, hback⟩ := (Scan.listed_of_mem_files hl hp).readable hw
  rw [hback, symbolGraph_congr ha.resolver ha.closed] at hg
  obtain ⟨o, ho, -⟩ := symbolGraph_eq_ok hg
  obtain ⟨hopen, content', hread', hparse⟩ := outline_eq_ok ho
  rw [hback, hread] at hread'
  obtain rfl := Except.ok.inj hread'
  have hbuild : a.build w (w.tree.key p) content = .ok (a.nodeOf w (w.tree.key p) o) := by
    rw [build_of_open hopen, hparse]
    rfl
  obtain ⟨f, hf, -⟩ := exists_reindexed hread hbuild (a.cache.get? (w.tree.key p))
  exact NodeCache.contains_iff.mpr ⟨f, (entryAfterPass_eq hw hl hp).trans hf⟩

/-- A symbol uses another at run time, in a file that a pass looks at or in one that is cached. -/
def Invokes (a : Atlas) (w : World) (x y : String) : Prop :=
  ∃ k g e, (a.Scans w k ∨ a.cache.contains k = true) ∧ a.symbolGraph w (.ofText k) = .ok g ∧
    e ∈ g.edges ∧ e.typeOnly = false ∧ e.source = x ∧ e.target = y

theorem Indexed.exists_edge (h : a.Indexed w) (hr : a.Invokes w x y) :
    ∃ k e, a.Edge w k e ∧ e.source = x ∧ e.target = y := by
  obtain ⟨k, g, e, hk, hg, he, -, hs, ht⟩ := hr
  exact ⟨k, e, ⟨hk.elim (fun hscan => h k g hscan hg) fun hcached => hcached, g, hg, he⟩, hs, ht⟩

end Atlas

namespace Session

variable {w : World} {s : Session} {p : Path} {name id x : String} {depth : Nat} {i : Impact} {a' : Atlas}
  {between : List String}

/-- When all files are cached, an impact within a depth tells each symbol that leads to the symbol by a chain
of that many uses at run time, unless it stops on the way. It stops at a declaration that it has reached no
later than the chain does, and by nothing but uses as a type. -/
theorem impact_stops_only_at_types (hw : w.Orderly) (h : s.Lived w) (hindexed : s.atlas.Indexed w)
    (hp : p.Legible) (hi : s.atlas.impact w p name true depth = (.ok i, a')) (hid : id ∈ i.ids)
    (hx : x ∉ i.ids) (hchain : (x :: between ++ [id]).IsChain (s.atlas.Invokes w))
    (hdepth : between.length + 1 ≤ depth) (hdeclared : ∀ y ∈ between, Declared y) :
    (∃ e ∈ i.direct ++ i.transitive, e.symbol = x ∧ e.distance ≤ between.length + 1) ∨
    ∃ before y after, between = before ++ y :: after ∧
      ∃ e ∈ i.direct ++ i.transitive, e.symbol = y ∧ e.typeOnly = true ∧ e.distance ≤ after.length + 1 ∧
        Impact.Reached a' w i.ids (i.direct ++ i.transitive) e := by
  obtain ⟨hcomplete, halike, hcached⟩ := Impact.complete_of_impact hw (h.current hw)
    h.reachable.mirrored (h.reachable.faithful hw.wellFormed) hp hi
  have hedges : (x :: between ++ [id]).IsChain
      fun x y => ∃ k edge, a'.Edge w k edge ∧ edge.source = x ∧ edge.target = y := by
    refine hchain.imp fun x y hr => ?_
    obtain ⟨k, e, ⟨hk, g, hg, he⟩, hends⟩ := hindexed.exists_edge hr
    refine ⟨k, e, ⟨(hcached k).mpr (.inl hk), g, ?_, he⟩, hends⟩
    rw [Atlas.symbolGraph_congr halike.resolver halike.closed, hg]
  rcases hcomplete.along_chain hid hedges hdepth hdeclared with hin | htold | hstop
  · exact absurd hin hx
  · exact .inl htold
  · obtain ⟨before, y, after, hbetween, e, he, hsymbol, htype, hd⟩ := hstop
    exact .inr ⟨before, y, after, hbetween, e, he, hsymbol, htype, hd, hcomplete.reached e he⟩

end Session

/-! ## A symbol that is used both ways -/

namespace Small

/-- A class, a function `r` that makes one, a function `t` that takes one and calls `r`, and a function `x`
that calls `t`. -/
def mixed : Outline where
  language := .typeScript
  imports := []
  declarations := [⟨"S", "S", .classType, 1, 1, true, none, none⟩,
    ⟨"r", "r", .function, 2, 2, true, none, none⟩, ⟨"t", "t", .function, 3, 3, true, none, none⟩,
    ⟨"x", "x", .function, 4, 4, true, none, none⟩]
  references := [⟨some "r", "S", none, 2, true, false⟩, ⟨some "t", "S", none, 3, false, true⟩,
    ⟨some "t", "r", none, 3, true, false⟩, ⟨some "x", "t", none, 4, true, false⟩]

def mixing : World where
  tree := ⟨[(["w"], .directory), (["w", "a.ts"], .file [])], []⟩
  parsing :=
    { outline := fun key _ =>
        if Parsing.knowsLanguage (.ofText key) then .ok mixed else .error (.unsupported key)
      supports := Parsing.knowsLanguage
      supportsWhenClosed := false }

theorem orderly_mixing : mixing.Orderly where
  wellFormed := by decide +kernel
  candid key source o h := by
    simp only [mixing] at h ⊢
    split at h
    · assumption
    · cases h
  literate _ h := h
  colonFree key content o _ _ h := by
    simp only [mixing] at h
    split at h
    · rw [← Except.ok.inj h]
      decide +kernel
    · cases h

/-- The session after a pass. -/
def mixedSession : Session := Session.act mixing ⟨atlas, []⟩ .buildIndex

theorem new_mixing : Atlas.new mixing config = .ok atlas := rfl

theorem lived_mixedSession : mixedSession.Lived mixing := by
  refine .act (.new new_mixing) .buildIndex ?_
  rintro _ ⟨⟩

theorem indexed_mixedSession : mixedSession.atlas.Indexed mixing :=
  Atlas.indexed_buildIndex orderly_mixing.wellFormed

theorem contains_mixedSession (k : String) :
    mixedSession.atlas.cache.contains k = true ↔ k = "/w/a.ts" := by
  have hkeys : mixedSession.atlas.cache.entries.map (·.1) = ["/w/a.ts"] := by decide +kernel
  have hone : mixedSession.atlas.cache.contains "/w/a.ts" = true := by decide +kernel
  refine ⟨fun h => ?_, fun h => h ▸ hone⟩
  obtain ⟨f, hf⟩ := NodeCache.contains_iff.mp h
  obtain ⟨x, hx, -⟩ := Option.map_eq_some_iff.mp hf
  have hmem := List.mem_map_of_mem (f := (·.1)) (List.mem_of_find?_eq_some hx)
  have hkey := List.find?_some hx
  rw [hkeys, List.mem_singleton] at hmem
  exact (of_decide_eq_true hkey).symm.trans hmem

/-- The edges of the only graph. -/
def mixedEdges : List SymbolEdge :=
  [⟨"/w/a.ts:r", "/w/a.ts:S", "/w/a.ts", false, 2⟩, ⟨"/w/a.ts:t", "/w/a.ts:S", "/w/a.ts", true, 3⟩,
    ⟨"/w/a.ts:t", "/w/a.ts:r", "/w/a.ts", false, 3⟩, ⟨"/w/a.ts:x", "/w/a.ts:t", "/w/a.ts", false, 4⟩]

theorem exists_mixedGraph {a : Atlas} (ha : Atlas.Alike mixedSession.atlas a) :
    ∃ g, a.symbolGraph mixing (.ofText "/w/a.ts") = .ok g ∧ g.edges = mixedEdges := by
  have hgraph : (mixedSession.atlas.symbolGraph mixing (.ofText "/w/a.ts")).map (·.edges) =
      .ok mixedEdges := by decide +kernel
  rw [Atlas.symbolGraph_congr ha.resolver ha.closed]
  exact exists_of_map_eq_ok hgraph

theorem edge_mixing {a : Atlas} (ha : Atlas.Alike mixedSession.atlas a) {k : String} {e : SymbolEdge}
    (hc : ∀ k, a.cache.contains k = true ↔ k = "/w/a.ts") :
    a.Edge mixing k e ↔ k = "/w/a.ts" ∧ e ∈ mixedEdges := by
  obtain ⟨g, hg, hedges⟩ := exists_mixedGraph ha
  rw [Atlas.Edge, hc]
  constructor
  · rintro ⟨rfl, g', hg', he⟩
    obtain rfl := Except.ok.inj (hg.symm.trans hg')
    exact ⟨rfl, hedges ▸ he⟩
  · rintro ⟨rfl, he⟩
    exact ⟨rfl, g, hg, hedges ▸ he⟩

theorem invokes_mixedSession {e : SymbolEdge} (he : e ∈ mixedEdges) (hrun : e.typeOnly = false) :
    mixedSession.atlas.Invokes mixing e.source e.target := by
  obtain ⟨g, hg, hedges⟩ := exists_mixedGraph (.refl _)
  exact ⟨"/w/a.ts", g, e, .inr ((contains_mixedSession _).mpr rfl), hg, hedges ▸ he, hrun, rfl, rfl⟩

/-- The chain from `x` to the class. -/
theorem chain_mixedSession :
    ("/w/a.ts:x" :: ["/w/a.ts:t", "/w/a.ts:r"] ++ ["/w/a.ts:S"]).IsChain
      (mixedSession.atlas.Invokes mixing) := by
  refine .cons_cons ?_ (.cons_cons ?_ (.cons_cons ?_ (.singleton _)))
  · exact invokes_mixedSession (e := ⟨"/w/a.ts:x", "/w/a.ts:t", "/w/a.ts", false, 4⟩) (by decide) rfl
  · exact invokes_mixedSession (e := ⟨"/w/a.ts:t", "/w/a.ts:r", "/w/a.ts", false, 3⟩) (by decide) rfl
  · exact invokes_mixedSession (e := ⟨"/w/a.ts:r", "/w/a.ts:S", "/w/a.ts", false, 2⟩) (by decide) rfl

theorem declared_between : ∀ y ∈ ["/w/a.ts:t", "/w/a.ts:r"], Declared y := by
  simp only [List.forall_mem_cons, List.not_mem_nil, false_implies, implies_true, and_true]
  exact ⟨⟨"/w/a.ts", "t", by decide +kernel, by decide⟩, ⟨"/w/a.ts", "r", by decide +kernel, by decide⟩⟩

theorem exists_mixedImpact : ∃ i a',
    mixedSession.atlas.impact mixing importer "S" true 5 = (.ok i, a') ∧ i.ids = ["/w/a.ts:S"] := by
  have hfirst : (mixedSession.atlas.analyze mixing importer).1.map (Atlas.idsOf · "S") =
      .ok ["/w/a.ts:S"] := by decide +kernel
  obtain ⟨n, hn, hids⟩ := exists_of_map_eq_ok hfirst
  obtain ⟨d, b, hd, hdids⟩ : ∃ d b, mixedSession.atlas.dependents mixing importer "S" = (.ok d, b) ∧
      d.ids = ["/w/a.ts:S"] :=
    ⟨_, _, Atlas.dependents_eq_ok_iff.mpr ⟨n, _, Prod.ext hn rfl, by simp [hids], rfl, rfl⟩, hids⟩
  unfold Atlas.impact
  rw [hd]
  exact ⟨_, _, rfl, hdids⟩

/-- The function `t` is told as one that uses the class as a type, so that `x` is not told. -/
theorem mixedImpact_misses {i : Impact} {a' : Atlas}
    (hi : mixedSession.atlas.impact mixing importer "S" true 5 = (.ok i, a'))
    (hids : i.ids = ["/w/a.ts:S"]) : ∀ e ∈ i.direct ++ i.transitive, e.symbol ≠ "/w/a.ts:x" := by
  have hlegible : importer.Legible := Path.legible_ofText "/w/a.ts"
  obtain ⟨hcomplete, halike, hcached⟩ := Impact.complete_of_impact orderly_mixing
    (lived_mixedSession.current orderly_mixing) lived_mixedSession.reachable.mirrored
    (lived_mixedSession.reachable.faithful orderly_mixing.wellFormed) hlegible hi
  have hkey : mixing.tree.key importer = "/w/a.ts" := by decide +kernel
  have hedge : ∀ k e, a'.Edge mixing k e ↔ k = "/w/a.ts" ∧ e ∈ mixedEdges := fun k e =>
    edge_mixing halike fun k => by rw [hcached, contains_mixedSession, hkey, or_self]
  obtain ⟨t, ht, htsymbol, htone⟩ : ∃ e ∈ i.direct, e.symbol = "/w/a.ts:t" ∧ e.distance = 1 := by
    have hmem : ⟨"/w/a.ts:t", "/w/a.ts:S", "/w/a.ts", true, 3⟩ ∈ mixedEdges := by decide
    refine (hcomplete.direct _ _ ((hedge _ _).mpr ⟨rfl, hmem⟩) (by simp [hids])).resolve_left ?_
    rw [hids]
    decide
  have ht := List.mem_append_left i.transitive ht
  have httype : t.typeOnly = true := by
    rcases hcomplete.reached t ht with ⟨-, huses⟩ | ⟨f, hf, -, hd, -⟩
    · have hall : ∀ e ∈ mixedEdges, e.target ∈ ["/w/a.ts:S"] → e.source = "/w/a.ts:t" →
          e.typeOnly = true := by decide
      rw [huses.typeOnly_iff, hids, htsymbol]
      exact fun k e he => hall e ((hedge k e).mp he).2
    · have := (hcomplete.reached f hf).distance_pos
      omega
  have hfrom : ∀ e ∈ mixedEdges, e.source = "/w/a.ts:x" → e.target = "/w/a.ts:t" := by decide
  have honly : ∀ ids typeOnly, a'.Uses mixing "/w/a.ts:x" ids typeOnly → "/w/a.ts:t" ∈ ids := by
    intro ids typeOnly huses
    obtain ⟨k, edge, he, hsource, htarget⟩ := huses.edge
    exact hfrom edge ((hedge k edge).mp he).2 hsource ▸ htarget
  intro e he hx
  rcases hcomplete.reached e he with ⟨-, huses⟩ | ⟨f, hf, hrun, -, huses⟩
  · have hin := honly _ _ (hx ▸ huses)
    rw [hids] at hin
    revert hin
    decide
  · have hft := List.mem_singleton.mp (honly _ _ (hx ▸ huses))
    have hsame : f = t := List.inj_on_of_nodup_map hcomplete.once.1 hf ht (hft.symm.trans htsymbol.symm)
    rw [hsame, httype] at hrun
    cases hrun

end Small

/-- An impact can miss who uses the symbol by a chain of uses at run time: where a declaration on the chain
uses the symbol itself as a type, the impact does not go on from there. -/
theorem Session.impact_misses_past_type :
    ¬ ∀ (w : World) (s : Session) (p : Path) (name : String) (depth : Nat) (i : Impact) (a' : Atlas)
        (id x : String) (between : List String), w.Orderly → s.Lived w → s.atlas.Indexed w →
      p.Legible → s.atlas.impact w p name true depth = (.ok i, a') → id ∈ i.ids → x ∉ i.ids →
      (x :: between ++ [id]).IsChain (s.atlas.Invokes w) → between.length + 1 ≤ depth →
      (∀ y ∈ between, Declared y) → ∃ e ∈ i.direct ++ i.transitive, e.symbol = x := by
  intro h
  obtain ⟨i, a', hi, hids⟩ := Small.exists_mixedImpact
  obtain ⟨e, he, hx⟩ := h Small.mixing Small.mixedSession Small.importer "S" 5 i a' "/w/a.ts:S"
    "/w/a.ts:x" ["/w/a.ts:t", "/w/a.ts:r"] Small.orderly_mixing Small.lived_mixedSession
    Small.indexed_mixedSession (Path.legible_ofText "/w/a.ts") hi (by simp [hids]) (by simp [hids])
    Small.chain_mixedSession (by decide) Small.declared_between
  exact Small.mixedImpact_misses hi hids e he hx

/-- On the chain from `x` the impact stops at a function that it has reached by a use as a type. -/
theorem Session.impact_stops_only_at_types_small :
    ∃ i a', Small.mixedSession.atlas.impact Small.mixing Small.importer "S" true 5 = (.ok i, a') ∧
      ∃ e ∈ i.direct ++ i.transitive, e.symbol ∈ ["/w/a.ts:t", "/w/a.ts:r"] ∧ e.typeOnly = true ∧
        Impact.Reached a' Small.mixing ["/w/a.ts:S"] (i.direct ++ i.transitive) e := by
  obtain ⟨i, a', hi, hids⟩ := Small.exists_mixedImpact
  refine ⟨i, a', hi, ?_⟩
  rcases Session.impact_stops_only_at_types Small.orderly_mixing Small.lived_mixedSession
    Small.indexed_mixedSession (Path.legible_ofText "/w/a.ts") hi (by simp [hids]) (by simp [hids])
    Small.chain_mixedSession (by decide) Small.declared_between with
    ⟨e, he, hx, -⟩ | ⟨before, y, after, hbetween, e, he, rfl, htype, -, hreached⟩
  · exact absurd hx (Small.mixedImpact_misses hi hids e he)
  · exact ⟨e, he, by simp [hbetween], htype, hids ▸ hreached⟩

end DepAtlas
