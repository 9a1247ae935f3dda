import DepAtlas.Proofs.Callers
import DepAtlas.Proofs.Confinement

/-! # Uses of symbols stay inside the root

Who uses a symbol is asked of files that are cached, and these are inside the root. Impacts and traces go
on from symbol to symbol by ids. If the names of symbols have no colons, every id that they come to is
the id of a symbol of a file inside the root.
-/

namespace DepAtlas

/-! ## Texts of files -/

theorem map_getD_of_mapM_id {α : Type} {x : α} {xs : List (Option α)} {ys : List α}
    (h : xs.mapM id = some ys) : xs.map (·.getD x) = ys := by
  induction xs generalizing ys with
  | nil => simpa using h
  | cons y xs ih =>
    simp only [List.mapM_cons, id_eq, Option.bind_eq_bind, Option.bind_eq_some_iff] at h
    obtain ⟨z, rfl, zs, hzs, hys⟩ := h
    obtain rfl := Option.some.inj hys
    rw [List.map_cons, ih hzs, Option.getD_some]

/-- What is text for a strict reader is the same text for a lenient one. -/
theorem Text.decodeLenient_of_decode? {bytes : List UInt8} {s : String}
    (h : Text.decode? bytes = some s) : Text.decodeLenient bytes = s := by
  obtain ⟨cs, hcs, rfl⟩ := Option.map_eq_some_iff.mp h
  exact congrArg String.ofList (map_getD_of_mapM_id hcs)

theorem FileTree.readText_eq_ok {t : FileTree} {p : Path} {s : String} (h : t.readText p = .ok s) :
    ∃ content, t.read p = .ok content ∧ s = Text.decodeLenient content := by
  unfold FileTree.readText at h
  cases hr : t.read p with
  | error fault => simp [hr, bind, Except.bind] at h
  | ok content =>
    simp only [hr, bind, Except.bind] at h
    split at h
    · rename_i text ht
      obtain rfl := Except.ok.inj h
      exact ⟨content, rfl, (Text.decodeLenient_of_decode? ht).symm⟩
    · cases h

/-! ## Outlines -/

namespace Atlas

variable {w : World} {root : Path} {a : Atlas} {p : Path}

theorem outline_eq_ok {o : Outline} (h : a.outline w p = .ok o) :
    a.closed = false ∧ ∃ content, w.tree.read (.ofText (w.tree.key p)) = .ok content ∧
      w.parsing.outline (w.tree.key p) (Text.decodeLenient content) = .ok o := by
  unfold outline at h
  dsimp only at h
  split at h
  · cases h
  · split at h
    · cases h
    · rename_i source hsource
      obtain ⟨content, hread, rfl⟩ := FileTree.readText_eq_ok hsource
      split at h
      · rename_i ho
        obtain rfl := Except.ok.inj h
        unfold Parsing.outlineIn at ho
        split at ho
        · cases ho
        · rename_i hopen
          exact ⟨by simpa using hopen, content, hread, ho⟩
      · cases h

theorem symbolGraph_eq_ok {g : SymbolGraph} (h : a.symbolGraph w p = .ok g) :
    ∃ o, a.outline w p = .ok o ∧
      g = SymbolGraph.ofOutline a.resolver w.tree (w.tree.key p) o := by
  unfold symbolGraph at h
  cases ho : a.outline w p with
  | error fault => simp [ho, Except.map] at h
  | ok o =>
    rw [ho] at h
    exact ⟨o, rfl, (Except.ok.inj h).symm⟩

theorem Confined.idInside_of_mem_usersOf (ha : a.Confined w root) (hc : w.ColonFree root)
    {ids : List String} {u : Caller} (hu : u ∈ a.callers.usersOf ids) :
    IdInside w.tree root u.symbol := by
  obtain ⟨-, id, -, hmem⟩ := (Callers.of_mem_usersOf hu).1
  exact ha.callers hc _ hmem

end Atlas

namespace Fenced

variable {w : World} {root : Path} {s : Parsing} {a : Atlas} {p : Path} {key : String}

/-! ## Direct uses -/

section

variable (h : Fenced w root s)

include h

theorem outline (a : Atlas) (hp : w.tree.Inside root (w.tree.key p)) :
    a.outline { w with parsing := s } p = a.outline w p := by
  simp only [Atlas.outline, h.outlineIn a.closed hp]

theorem symbolGraph (a : Atlas) (hp : w.tree.Inside root (w.tree.key p)) :
    a.symbolGraph { w with parsing := s } p = a.symbolGraph w p := by
  unfold Atlas.symbolGraph
  rw [h.outline a hp]

variable (ha : a.Confined w root)

include ha

theorem idInside_of_symbolGraph (hc : w.ColonFree root) (hp : w.tree.Inside root (w.tree.key p))
    {g : SymbolGraph} (hg : a.symbolGraph w p = .ok g) :
    ∀ e ∈ g.edges, IdInside w.tree root e.source ∧ IdInside w.tree root e.target := by
  intro e he
  obtain ⟨o, ho, rfl⟩ := Atlas.symbolGraph_eq_ok hg
  obtain ⟨-, content, hread, hout⟩ := Atlas.outline_eq_ok ho
  have hfree := hc _ content o hp hread hout
  refine SymbolGraph.idInside_of_mem_edgesOf hp hfree (fun x hx => ?_) he
  have hin := SymbolGraph.boundInside_of_mem h.wellFormed (r := a.resolver)
    (by rw [ha.resolver]; exact h.home.clean) hfree hx
  rwa [ha.resolver] at hin

theorem enterUses {file : String} (hf : w.tree.Inside root file) :
    a.enterUses { w with parsing := s } file = a.enterUses w file ∧
      (a.enterUses w file).Confined w root := by
  have hp := hf.key
  unfold Atlas.enterUses
  rw [h.symbolGraph a hp]
  refine ⟨rfl, ?_⟩
  split
  · exact ha
  · refine ⟨ha.home, ha.resolver, ha.cached, fun hc u hu => ?_⟩
    dsimp only at hu
    split at hu
    · rename_i g hg
      rcases Callers.mem_uses_foldl_record.mp hu with hu | ⟨e, he, rfl⟩
      · exact ha.callers hc u hu
      · exact (h.idInside_of_symbolGraph ha hc hp hg e he).1
    · exact ha.callers hc u hu

theorem prepareCallers (hk : w.tree.Inside root key) :
    Kept w root (a.prepareCallers { w with parsing := s } key) (a.prepareCallers w key) := by
  obtain ⟨⟨hsame, hconf⟩, -⟩ := h.analyzeLenient ha hk.key
  unfold Atlas.prepareCallers
  dsimp only
  rw [hsame]
  generalize (a.analyzeLenient w (.ofText key)).2 = a' at hconf ⊢
  -- Only imports of cached files are told, so whoever imports the file is inside the root.
  have hfiles : ∀ file ∈ Text.sortedOnce (key :: (a'.referencesTo w (.ofText key)).map (·.source)),
      w.tree.Inside root file := by
    intro file hfile
    rcases List.mem_cons.mp (Text.mem_sortedOnce.mp hfile) with rfl | hfile
    · exact hk
    · obtain ⟨entry, hentry, rfl⟩ := List.mem_map.mp hfile
      obtain ⟨-, hcached⟩ := List.mem_filter.mp hentry
      cases hf : a'.cache.get? entry.source with
      | none => simp [hf] at hcached
      | some f => exact (hconf.cached _ f hf).1
  obtain ⟨hsame', hconf'⟩ := Atlas.foldl_same (P := Atlas.Confined w root) _
    (fun a' file hfile ha' => h.enterUses ha' (hfiles file hfile)) hconf
  exact ⟨congrArg _ hsame', hconf'⟩

/-- An atlas that answers about a symbol goes on with ids of files inside the root. -/
theorem symbolIds (hp : w.tree.Inside root (w.tree.key p)) (name : String) :
    Kept w root (a.symbolIds { w with parsing := s } p name) (a.symbolIds w p name) ∧
      (w.ColonFree root → ∀ ids, (a.symbolIds w p name).1 = .ok ids →
        ∀ id ∈ ids, IdInside w.tree root id) := by
  obtain ⟨⟨hsame, hconf⟩, hnode⟩ := h.analyze ha hp
  unfold Atlas.symbolIds
  rw [hsame]
  split <;> rename_i hx <;> rw [hx] at hconf hnode
  · exact ⟨⟨rfl, hconf⟩, fun _ ids hids => by cases hids⟩
  · rename_i n a'
    dsimp only
    split
    · exact ⟨⟨rfl, hconf⟩, fun _ ids hids => by cases hids⟩
    · refine ⟨⟨rfl, hconf⟩, fun hc ids hids id hid => ?_⟩
      obtain rfl := Except.ok.inj hids
      obtain ⟨x, hx, rfl⟩ := List.mem_map.mp hid
      exact (hnode n rfl).symbols hc x (List.mem_of_mem_filter hx)

omit ha in
/-- An id of a symbol leads to a file inside the root where no name has a colon. -/
theorem keptByQuestions : Atlas.KeptByQuestions w s (fun p => w.tree.Inside root (w.tree.key p))
    (w.tree.Inside root) (fun id => w.ColonFree root → IdInside w.tree root id)
    (Atlas.Confined w root) where
  keys hp := hp
  users ha _ hu hc := ha.idInside_of_mem_usersOf hc hu
  outline a _ hp := h.outline a hp
  analyze ha hp := ⟨(h.analyze ha hp).1.same, (h.analyze ha hp).1.confined⟩
  prepareCallers ha hk := ⟨(h.prepareCallers ha hk).same, (h.prepareCallers ha hk).confined⟩

end

/-! ## Traces -/

theorem outgoing (h : Fenced w root s) (hc : w.ColonFree root) (ha : a.Confined w root) {id : String}
    (hid : IdInside w.tree root id) :
    Trace.outgoing a { w with parsing := s } id = Trace.outgoing a w id ∧
      ∀ e ∈ Trace.outgoing a w id, IdInside w.tree root e.target := by
  unfold Trace.outgoing
  split
  · exact ⟨rfl, by simp⟩
  · rename_i file name hsplit
    have hp := (hid.file hsplit).key
    rw [h.symbolGraph a hp]
    refine ⟨rfl, ?_⟩
    split
    · split
      · rename_i g hg
        intro e he
        exact (h.idInside_of_symbolGraph ha hc hp hg e (List.mem_of_mem_filter he)).2
      · simp
    · simp

theorem idInside_foldl_addCall (depth : Nat) {edges : List SymbolEdge}
    (he : ∀ e ∈ edges, IdInside w.tree root e.target) {x : Trace × List String}
    (hx : ∀ id ∈ x.2, IdInside w.tree root id) :
    ∀ id ∈ (edges.foldl (Trace.addCall depth) x).2, IdInside w.tree root id := by
  refine List.foldlRecOn edges (Trace.addCall depth)
    (motive := fun x => ∀ id ∈ x.2, IdInside w.tree root id) hx ?_
  intro x hx e hmem
  unfold Trace.addCall
  dsimp only
  split
  · exact hx
  · exact List.forall_mem_append.mpr ⟨hx, List.forall_mem_singleton.mpr (he e hmem)⟩

section

variable (h : Fenced w root s) (hc : w.ColonFree root)

include h hc

theorem trace_levels (ha : a.Confined w root) (more depth : Nat) {ids : List String}
    (hids : ∀ id ∈ ids, IdInside w.tree root id) (t : Trace) :
    Trace.levels a { w with parsing := s } more depth ids t = Trace.levels a w more depth ids t := by
  induction more generalizing depth ids t with
  | zero =>
    cases ids with
    | nil => rfl
    | cons id ids =>
      have hany : (id :: ids).any (Trace.outgoing a { w with parsing := s } · ≠ []) =
          (id :: ids).any (Trace.outgoing a w · ≠ []) := by
        rw [Bool.eq_iff_iff, List.any_eq_true, List.any_eq_true]
        exact exists_congr fun i => and_congr_right fun hi => by rw [(h.outgoing hc ha (hids i hi)).1]
      unfold Trace.levels
      rw [hany]
  | succ more ih =>
    cases ids with
    | nil => rfl
    | cons id ids =>
      have hnext : ∀ e ∈ (id :: ids).flatMap (Trace.outgoing a w), IdInside w.tree root e.target := by
        intro e he
        obtain ⟨i, hi, he⟩ := List.mem_flatMap.mp he
        exact (h.outgoing hc ha (hids i hi)).2 e he
      unfold Trace.levels
      rw [List.flatMap_congr fun i hi => (h.outgoing hc ha (hids i hi)).1]
      -- The next level is made of targets of these uses alone.
      exact ih _ (idInside_foldl_addCall depth hnext (by simp)) _

theorem trace (ha : a.Confined w root) (hp : w.tree.Inside root (w.tree.key p)) (name : String)
    (depth : Nat) :
    Kept w root (a.trace { w with parsing := s } p name depth) (a.trace w p name depth) := by
  obtain ⟨⟨hsame, hconf⟩, hids⟩ := h.symbolIds ha hp name
  unfold Atlas.trace
  rw [hsame]
  split <;> rename_i hx <;> rw [hx] at hconf hids
  · exact ⟨rfl, hconf⟩
  · rename_i ids a'
    rw [h.trace_levels hc hconf depth 0 (hids hc ids rfl)]
    exact ⟨rfl, hconf⟩

end

end Fenced

end DepAtlas
