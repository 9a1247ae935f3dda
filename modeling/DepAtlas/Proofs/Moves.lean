import DepAtlas.Atlas.Change
import DepAtlas.Proofs.Scanning
import DepAtlas.Tool.Run
import Mathlib.Logic.Relation

/-! # What can happen to an atlas

Everything that is done with an atlas comes down to a few moves: a file is entered, its symbol uses are
entered, a file is forgotten, the state of the index is noted, the session ends. Questions only learn,
that is, they only enter what was not known, and changes of files only learn and forget. What every
move keeps is kept by all of them.
-/

namespace DepAtlas

theorem Crawl.nodes_foldl_addUnresolved (us : List Unresolved) (c : Crawl) :
    (us.foldl addUnresolved c).nodes = c.nodes ∧ (us.foldl addUnresolved c).edges = c.edges := by
  induction us generalizing c with
  | nil => exact ⟨rfl, rfl⟩
  | cons u us ih =>
    rw [List.foldl_cons, (ih _).1, (ih _).2]
    unfold addUnresolved
    split <;> exact ⟨rfl, rfl⟩

namespace Atlas

open Relation (ReflTransGen)

/-- What a question may do: enter a file of which nothing is known, or the symbol uses of a file. -/
inductive Learn (w : World) : Atlas → Atlas → Prop where
  | store {a : Atlas} {key : String} {content : List UInt8} {node : FileNode} (p : Path)
      (named : key = w.tree.key p) (unknown : a.cache.get? key = none)
      (supported : w.parsing.supportsIn a.closed (.ofText key) = true)
      (read : w.tree.read (.ofText key) = .ok content) (built : a.build w key content = .ok node) :
      Learn w a (a.store key (markOf content) node)
  | uses (a : Atlas) (file : String) : Learn w a (a.enterUses w file)

/-- What questions and changes of files do: learn, and forget files. -/
inductive Edit (w : World) : Atlas → Atlas → Prop where
  | learn {a a' : Atlas} (h : Learn w a a') : Edit w a a'
  | forget (a : Atlas) (key : String) : Edit w a (a.forget key).2

/-- All that can happen to an atlas in one move. -/
inductive Move (w : World) : Atlas → Atlas → Prop where
  | learn {a a' : Atlas} (h : Learn w a a') : Move w a a'
  | index {a : Atlas} {p : Path} {content : List UInt8} {node : FileNode} (plain : p.Plain)
      (read : w.tree.read p = .ok content) (built : a.build w (w.tree.key p) content = .ok node) :
      Move w a (a.store (w.tree.key p) (markOf content) node)
  | forget (a : Atlas) (key : String) : Move w a (a.forget key).2
  | note (a : Atlas) (status : IndexStatus) (warmup : Warmup) : Move w a { a with status, warmup }
  | close (a : Atlas) : Move w a a.close

abbrev Learns (w : World) : Atlas → Atlas → Prop := ReflTransGen (Learn w)

abbrev Edits (w : World) : Atlas → Atlas → Prop := ReflTransGen (Edit w)

abbrev Moves (w : World) : Atlas → Atlas → Prop := ReflTransGen (Move w)

variable {w : World} {a a' : Atlas}

theorem Learns.edits (h : Learns w a a') : Edits w a a' :=
  Relation.ReflTransGen.mono (fun _ _ => .learn) _ _ h

theorem Edit.move (h : Edit w a a') : Move w a a' := by
  cases h with
  | learn h => exact .learn h
  | forget key => exact .forget a key

theorem Edits.moves (h : Edits w a a') : Moves w a a' :=
  Relation.ReflTransGen.mono (fun _ _ => Edit.move) _ _ h

theorem Learns.moves (h : Learns w a a') : Moves w a a' := h.edits.moves

/-- What every move keeps is kept by all of them. -/
theorem Moves.keeps {P : Atlas → Prop} (hmove : ∀ a a', P a → Move w a a' → P a')
    (h : Moves w a a') (ha : P a) : P a' := by
  induction h with
  | refl => exact ha
  | tail _ hstep ih => exact hmove _ _ ih hstep

/-- The setup of an atlas is not touched by moves. -/
theorem Move.setup (h : Move w a a') :
    a'.config = a.config ∧ a'.root = a.root ∧ a'.resolver = a.resolver ∧
      a'.exclusions = a.exclusions := by
  cases h with
  | learn h =>
    cases h with
    | store => exact ⟨rfl, rfl, rfl, rfl⟩
    | uses file => unfold enterUses; split <;> exact ⟨rfl, rfl, rfl, rfl⟩
  | index => exact ⟨rfl, rfl, rfl, rfl⟩
  | forget => exact ⟨rfl, rfl, rfl, rfl⟩
  | note => exact ⟨rfl, rfl, rfl, rfl⟩
  | close => exact ⟨rfl, rfl, rfl, rfl⟩

theorem cache_enterUses (a : Atlas) (file : String) : (a.enterUses w file).cache = a.cache := by
  unfold enterUses
  split <;> rfl

/-- A fold moves an atlas as its steps do. -/
theorem foldl_moves {r : Atlas → Atlas → Prop} {σ β : Type*} {f : σ → β → σ} (view : σ → Atlas)
    (h : ∀ s x, ReflTransGen r (view s) (view (f s x))) (xs : List β) (s : σ) :
    ReflTransGen r (view s) (view (xs.foldl f s)) := by
  induction xs generalizing s with
  | nil => exact .refl
  | cons x xs ih => exact (h s x).trans (ih (f s x))

/-! ## Questions -/

theorem learns_analyze (a : Atlas) (p : Path) : Learns w a (a.analyze w p).2 := by
  unfold analyze
  dsimp only
  split
  · exact .refl
  · rename_i unknown
    split
    · exact .refl
    · split
      · exact .refl
      · rename_i supported
        split
        · exact .refl
        · rename_i content read
          split
          · exact .refl
          · rename_i node built
            exact .single (.store p rfl unknown (by simpa using supported) read built)

theorem analyzeLenient_snd (a : Atlas) (p : Path) :
    (a.analyzeLenient w p).2 = (a.analyze w p).2 := by
  unfold analyzeLenient
  split <;> rename_i h <;> rw [h]

theorem learns_analyzeLenient (a : Atlas) (p : Path) : Learns w a (a.analyzeLenient w p).2 := by
  rw [analyzeLenient_snd]
  exact learns_analyze a p

theorem learns_prepareCallers (a : Atlas) (key : String) :
    Learns w a (a.prepareCallers w key).2 :=
  (learns_analyzeLenient a (.ofText key)).trans
    (foldl_moves id (fun a file => .single (.uses a file)) _ _)

/-- A property that questions about symbols keep, while another service answers them in the same way, if
files are named by paths and keys that are fit. Users of symbols are then named by ids that are fit. -/
structure KeptByQuestions (w : World) (s : Parsing) (Fit : Path → Prop) (FitKey FitId : String → Prop)
    (P : Atlas → Prop) : Prop where
  keys : ∀ {p}, Fit p → FitKey (w.tree.key p)
  users : ∀ {a ids}, P a → ∀ u ∈ a.callers.usersOf ids, FitId u.symbol
  outline : ∀ (a : Atlas) {p}, Fit p → a.outline { w with parsing := s } p = a.outline w p
  analyze : ∀ {a p}, P a → Fit p →
    a.analyze { w with parsing := s } p = a.analyze w p ∧ P (a.analyze w p).2
  prepareCallers : ∀ {a key}, P a → FitKey key →
    a.prepareCallers { w with parsing := s } key = a.prepareCallers w key ∧
      P (a.prepareCallers w key).2

/-- A property that all questions keep, with whatever texts they go on. -/
structure KeptByWalks (w : World) (Fit : Path → Prop) (FitKey FitId : String → Prop)
    (P : Atlas → Prop) : Prop extends KeptByQuestions w w.parsing Fit FitKey FitId P where
  texts : ∀ s, Fit (.ofText s)
  files : ∀ {id file name}, FitId id → splitSymbolId? id = some (file, name) → FitKey file

section

variable {Fit : Path → Prop} {FitKey FitId : String → Prop} {P : Atlas → Prop} {p : Path}

theorem foldl_same {σ β : Type} {P : σ → Prop} {f g : σ → β → σ} (xs : List β)
    (h : ∀ s, ∀ x ∈ xs, P s → g s x = f s x ∧ P (f s x)) {s : σ} (hs : P s) :
    xs.foldl g s = xs.foldl f s ∧ P (xs.foldl f s) := by
  induction xs generalizing s with
  | nil => exact ⟨rfl, hs⟩
  | cons x xs ih =>
    obtain ⟨he, hp⟩ := h s x List.mem_cons_self hs
    rw [List.foldl_cons, List.foldl_cons, he]
    exact ih (fun s y hy => h s y (List.mem_cons_of_mem _ hy)) hp

namespace KeptByQuestions

theorem foldl_reach {x : Impact.State} (h : P x.atlas) (hnext : ∀ id ∈ x.next, FitId id)
    (distance : Nat) {callers : List Caller} (hc : ∀ c ∈ callers, FitId c.symbol) :
    P (callers.foldl (Impact.reach distance) x).atlas ∧
      ∀ id ∈ (callers.foldl (Impact.reach distance) x).next, FitId id := by
  refine List.foldlRecOn (motive := fun x : Impact.State => P x.atlas ∧ ∀ id ∈ x.next, FitId id)
    callers _ ⟨h, hnext⟩ fun x hx c hmem => ?_
  unfold Impact.reach
  split
  · exact hx
  · refine ⟨hx.1, ?_⟩
    dsimp only
    split
    · exact hx.2
    · exact List.forall_mem_append.mpr ⟨hx.2, List.forall_mem_singleton.mpr (hc c hmem)⟩

variable {s : Parsing} (K : KeptByQuestions w s Fit FitKey FitId P)

include K

theorem symbolIds (h : P a) (hp : Fit p) (name : String) :
    a.symbolIds { w with parsing := s } p name = a.symbolIds w p name ∧
      P (a.symbolIds w p name).2 := by
  obtain ⟨hsame, ha⟩ := K.analyze h hp
  unfold Atlas.symbolIds
  rw [hsame]
  refine ⟨rfl, ?_⟩
  split <;> rename_i he <;> rw [he] at ha
  · exact ha
  · dsimp only
    split <;> exact ha

theorem dependents (h : P a) (hp : Fit p) (name : String) :
    a.dependents { w with parsing := s } p name = a.dependents w p name ∧
      P (a.dependents w p name).2 := by
  obtain ⟨hsame, ha⟩ := K.symbolIds h hp name
  unfold Atlas.dependents
  rw [hsame]
  split <;> rename_i he <;> rw [he] at ha
  · exact ⟨rfl, ha⟩
  · obtain ⟨hsame', ha'⟩ := K.prepareCallers ha (K.keys hp)
    dsimp only
    rw [hsame']
    exact ⟨rfl, ha'⟩

theorem callersOf (h : P a) (hp : Fit p) (name : String) :
    a.callersOf { w with parsing := s } p name = a.callersOf w p name ∧
      P (a.callersOf w p name).2 := by
  obtain ⟨hsame, ha⟩ := K.symbolIds h hp name
  unfold Atlas.callersOf
  rw [hsame]
  split <;> rename_i he <;> rw [he] at ha
  · exact ⟨rfl, ha⟩
  · obtain ⟨hsame', ha'⟩ := K.prepareCallers ha (K.keys hp)
    dsimp only
    rw [hsame']
    exact ⟨rfl, ha'⟩

theorem unusedSymbols (h : P a) (hp : Fit p) :
    a.unusedSymbols { w with parsing := s } p = a.unusedSymbols w p ∧ P (a.unusedSymbols w p).2 := by
  unfold Atlas.unusedSymbols symbolGraph
  rw [K.outline a hp]
  cases a.outline w p with
  | error e => exact ⟨rfl, h⟩
  | ok o =>
    obtain ⟨hsame, ha⟩ := K.prepareCallers h (K.keys hp)
    dsimp only [Except.map, SymbolGraph.ofOutline]
    rw [hsame]
    exact ⟨rfl, ha⟩

theorem trace (h : P a) (hp : Fit p) (name : String) (depth : Nat) :
    P (a.trace w p name depth).2 := by
  have ha := (K.symbolIds h hp name).2
  unfold Atlas.trace
  split <;> rename_i he <;> rw [he] at ha <;> exact ha

section

variable (hfiles : ∀ {id file name}, FitId id → splitSymbolId? id = some (file, name) → FitKey file)

include hfiles

theorem dependentsOfId (h : P a) {id : String} (hid : FitId id) :
    a.dependentsOfId { w with parsing := s } id = a.dependentsOfId w id ∧
      P (a.dependentsOfId w id).2 ∧ ∀ c ∈ (a.dependentsOfId w id).1, FitId c.symbol := by
  unfold Atlas.dependentsOfId
  split
  · exact ⟨rfl, h, by simp⟩
  · rename_i file name hsplit
    split
    · exact ⟨rfl, h, by simp⟩
    · obtain ⟨hsame, ha⟩ := K.prepareCallers h (hfiles hid hsplit)
      dsimp only
      rw [hsame]
      exact ⟨rfl, ha, K.users ha⟩

theorem impact_levels (more distance : Nat) {ids : List String} (hids : ∀ id ∈ ids, FitId id)
    {x : Impact.State} (h : P x.atlas) :
    Impact.levels { w with parsing := s } more distance ids x = Impact.levels w more distance ids x ∧
      P (Impact.levels w more distance ids x).atlas := by
  induction more generalizing distance ids x with
  | zero =>
    cases ids with
    | nil => exact ⟨rfl, h⟩
    | cons id ids =>
      refine foldl_same (P := fun x : Impact.State => P x.atlas) (id :: ids) (fun x i hi hx => ?_) h
      obtain ⟨hsame, ha, -⟩ := K.dependentsOfId hfiles hx (hids i hi)
      unfold Impact.peek
      rw [hsame]
      exact ⟨rfl, ha⟩
  | succ more ih =>
    cases ids with
    | nil => exact ⟨rfl, h⟩
    | cons id ids =>
      have hstep : ∀ x : Impact.State, ∀ i ∈ id :: ids, (P x.atlas ∧ ∀ id ∈ x.next, FitId id) →
          Impact.expand { w with parsing := s } distance x i = Impact.expand w distance x i ∧
            P (Impact.expand w distance x i).atlas ∧
              ∀ id ∈ (Impact.expand w distance x i).next, FitId id := by
        intro x i hi hx
        obtain ⟨hsame, ha, hc⟩ := K.dependentsOfId hfiles hx.1 (hids i hi)
        unfold Impact.expand
        rw [hsame]
        exact ⟨rfl, foldl_reach (x := { x with atlas := _ }) ha hx.2 _ hc⟩
      obtain ⟨hsame, ha, hnext⟩ := foldl_same (id :: ids) hstep (s := { x with next := [] })
        ⟨h, by simp⟩
      unfold Impact.levels
      dsimp only
      rw [hsame]
      exact ih _ hnext ha

end

/-- Only what is reached through others is found by ids. -/
theorem impact (h : P a) (hp : Fit p) (name : String) (transitive : Bool) (depth : Nat)
    (hfiles : transitive = true → ∀ {id file name}, FitId id →
      splitSymbolId? id = some (file, name) → FitKey file) :
    a.impact { w with parsing := s } p name transitive depth = a.impact w p name transitive depth ∧
      P (a.impact w p name transitive depth).2 := by
  obtain ⟨hsame, ha⟩ := K.dependents h hp name
  have hids : ∀ d, (a.dependents w p name).1 = .ok d → ∀ c ∈ d.callers, FitId c.symbol := by
    intro d hd
    unfold Atlas.dependents at hd ha
    split at hd
    · cases hd
    · rename_i he
      rw [he] at ha
      obtain rfl := Except.ok.inj hd
      exact K.users ha
  unfold Atlas.impact
  rw [hsame]
  split <;> rename_i he <;> rw [he] at ha hids
  · exact ⟨rfl, ha⟩
  · rename_i d a'
    obtain ⟨hx, hnext⟩ := foldl_reach (x := ⟨d.ids, [], false, [], a'⟩) ha (by simp) 1 (hids d rfl)
    generalize d.callers.foldl (Impact.reach 1) ⟨d.ids, [], false, [], a'⟩ = start at hx hnext ⊢
    dsimp only
    cases transitive with
    | false =>
      simp only [Bool.false_eq_true, if_false]
      exact ⟨trivial, hx⟩
    | true =>
      obtain ⟨hsame', ha'⟩ := K.impact_levels (hfiles rfl) (depth - 1) 1 hnext
        (x := { start with found := [], next := [] }) hx
      rw [hsame']
      exact ⟨rfl, ha'⟩

end KeptByQuestions

namespace KeptByWalks

variable (K : KeptByWalks w Fit FitKey FitId P)

include K

theorem analyzeLenient (h : P a) (hp : Fit p) : P (a.analyzeLenient w p).2 := by
  rw [analyzeLenient_snd]
  exact (K.analyze h hp).2

theorem refresh (h : P a) {files : List Path} (hf : ∀ p ∈ files, Fit p) : P (a.refresh w files) :=
  List.foldlRecOn (motive := P) files _ h fun _ ha p hp => K.analyzeLenient ha (hf p hp)

theorem follow (depth : Nat) {s : Crawl.State} (h : P s.atlas) (d : Dependency) :
    P (Crawl.follow w depth s d).atlas := by
  have ha := K.analyzeLenient h (K.texts d.target)
  unfold Crawl.follow
  dsimp only
  split
  · exact h
  · split <;> rename_i he <;> rw [he] at ha <;> exact ha

theorem expand (depth : Nat) {s : Crawl.State} (h : P s.atlas) (n : FileNode) :
    P (Crawl.expand w depth s n).atlas :=
  List.foldlRecOn (motive := fun s : Crawl.State => P s.atlas) n.dependencies _ (by exact h)
    fun _ hs d _ => K.follow depth hs d

theorem levels (more depth : Nat) (nodes : List FileNode) {s : Crawl.State} (h : P s.atlas) :
    P (Crawl.levels w more depth nodes s).atlas := by
  induction more generalizing depth nodes s with
  | zero =>
    cases nodes with
    | nil => exact h
    | cons => unfold Crawl.levels; split <;> exact h
  | succ more ih =>
    cases nodes with
    | nil => exact h
    | cons n nodes =>
      unfold Crawl.levels
      exact ih _ _ (List.foldlRecOn (motive := fun s : Crawl.State => P s.atlas) (n :: nodes) _
        (by exact h) fun _ hs m _ => K.expand depth hs m)

theorem crawlFrom (h : P a) (hp : Fit p) (known : List String) (depth : Nat) :
    P (a.crawlFrom w p known depth).2 := by
  have ha := (K.analyze h hp).2
  unfold Atlas.crawlFrom
  split <;> rename_i he <;> rw [he] at ha
  · exact ha
  · exact K.levels depth 0 _ ha

end KeptByWalks

/-- What is kept when a file is forgotten is kept when files are. -/
theorem keeps_invalidateAll (hforget : ∀ {a} key, P a → P (a.forget key).2) (h : P a)
    (files : List Path) : P (a.invalidateAll w files).2 := by
  refine List.foldlRecOn (motive := fun x : (List String × List String) × Atlas => P x.2) files _ h
    fun x hx p _ => ?_
  have hm : P (x.2.invalidate w p).2 := hforget _ hx
  dsimp only
  split <;> rename_i he <;> rw [he] at hm <;> exact hm

/-- A property that changes of files keep. -/
structure KeptByChanges (w : World) (Fit : Path → Prop) (FitKey FitId : String → Prop)
    (P : Atlas → Prop) : Prop extends KeptByWalks w Fit FitKey FitId P where
  forget : ∀ {a} key, P a → P (a.forget key).2

namespace KeptByChanges

variable (K : KeptByChanges w Fit FitKey FitId P)

include K

theorem forgetAll (h : P a) (keys : List String) : P (a.forgetAll keys).2 := by
  refine List.foldlRecOn (motive := fun x : List String × Atlas => P x.2) keys _ h fun x hx key _ => ?_
  have hm := K.forget key hx
  dsimp only
  split <;> rename_i he <;> rw [he] at hm <;> exact hm

theorem apply (h : P a) (hp : Fit p) (c : Watch.Change) : P (a.apply w p c) := by
  cases c with
  | modified =>
    have ha : P (a.invalidate w p).2 := K.forget _ h
    simp only [Atlas.apply, fileChanged]
    split
    · exact K.refresh ha (by simpa using hp)
    · exact ha
  | added =>
    have ha := K.forgetAll h (w.tree.key p :: a.waitingFor w (w.tree.key p))
    simp only [Atlas.apply, fileAdded]
    split
    · refine List.foldlRecOn (motive := P) _ _ ha fun b hb source _ => ?_
      split
      · exact K.refresh hb (by simpa using K.texts source)
      · exact hb
    · exact ha
  | removed =>
    simp only [Atlas.apply, fileDeleted]
    split
    · refine K.refresh (K.forgetAll h _) fun q hq => ?_
      obtain ⟨x, -, rfl⟩ := List.mem_map.mp (List.mem_of_mem_filter hq)
      exact K.texts x
    · exact K.forgetAll h _

end KeptByChanges

end

theorem keptByWalks_learns (a : Atlas) :
    KeptByWalks w (fun _ => True) (fun _ => True) (fun _ => True) (Learns w a) where
  keys _ := trivial
  users _ _ _ := trivial
  outline _ _ _ := rfl
  analyze h _ := ⟨rfl, h.trans (learns_analyze _ _)⟩
  prepareCallers h _ := ⟨rfl, h.trans (learns_prepareCallers _ _)⟩
  texts _ := trivial
  files _ _ := trivial

theorem learns_refresh (a : Atlas) (files : List Path) : Learns w a (a.refresh w files) :=
  (keptByWalks_learns a).refresh .refl fun _ _ => trivial

theorem learns_follow (depth : Nat) (s : Crawl.State) (d : Dependency) :
    Learns w s.atlas (Crawl.follow w depth s d).atlas :=
  (keptByWalks_learns s.atlas).follow depth .refl d

theorem learns_crawlFrom (a : Atlas) (p : Path) (known : List String) (depth : Nat) :
    Learns w a (a.crawlFrom w p known depth).2 :=
  (keptByWalks_learns a).crawlFrom .refl trivial known depth

theorem learns_dependents (a : Atlas) (p : Path) (name : String) :
    Learns w a (a.dependents w p name).2 :=
  ((keptByWalks_learns a).dependents .refl trivial name).2

theorem learns_callersOf (a : Atlas) (p : Path) (name : String) :
    Learns w a (a.callersOf w p name).2 :=
  ((keptByWalks_learns a).callersOf .refl trivial name).2

theorem learns_trace (a : Atlas) (p : Path) (name : String) (depth : Nat) :
    Learns w a (a.trace w p name depth).2 :=
  (keptByWalks_learns a).trace .refl trivial name depth

theorem learns_unusedSymbols (a : Atlas) (p : Path) : Learns w a (a.unusedSymbols w p).2 :=
  ((keptByWalks_learns a).unusedSymbols .refl trivial).2

theorem learns_impact (a : Atlas) (p : Path) (name : String) (transitive : Bool) (depth : Nat) :
    Learns w a (a.impact w p name transitive depth).2 :=
  ((keptByWalks_learns a).impact .refl trivial name transitive depth fun _ _ _ _ _ _ => trivial).2

/-! ## Changes of files -/

theorem keptByChanges_edits (a : Atlas) :
    KeptByChanges w (fun _ => True) (fun _ => True) (fun _ => True) (Edits w a) where
  keys _ := trivial
  users _ _ _ := trivial
  outline _ _ _ := rfl
  analyze h _ := ⟨rfl, h.trans (learns_analyze _ _).edits⟩
  prepareCallers h _ := ⟨rfl, h.trans (learns_prepareCallers _ _).edits⟩
  texts _ := trivial
  files _ _ := trivial
  forget key h := h.tail (.forget _ key)

theorem edits_apply (a : Atlas) (p : Path) (c : Watch.Change) : Edits w a (a.apply w p c) :=
  (keptByChanges_edits a).apply .refl trivial c

theorem edits_applyAll (a : Atlas) (changes : List (Path × Watch.Change)) :
    Edits w a (a.applyAll w changes) :=
  foldl_moves id (fun a (x : Path × Watch.Change) => edits_apply a x.1 x.2) changes a

theorem moves_fileDeleted (a : Atlas) (p : Path) : Moves w a (a.fileDeleted w p).2 :=
  (edits_apply a p .removed).moves

/-! ## Passes -/

theorem stepFile_pass (a : Atlas) (pass : IndexPass) (file : Path) (rest : List Path) :
    (a.stepFile w pass file rest).2.1.remaining = rest ∧
      (a.stepFile w pass file rest).2.1.cancelled = pass.cancelled := by
  unfold stepFile
  dsimp only
  split <;> exact ⟨rfl, rfl⟩

theorem mem_remaining_indexStep {pass : IndexPass} {p : Path}
    (h : p ∈ (a.indexStep w pass).2.1.remaining) : p ∈ pass.remaining := by
  unfold indexStep at h
  split at h
  · exact h
  · split at h
    · exact h
    · rename_i file rest hr
      rw [hr]
      exact List.mem_cons_of_mem _ ((stepFile_pass a pass file rest).1 ▸ h)

theorem plain_of_beginIndex {pass : IndexPass} (h : a.beginIndex w = (.ok pass, a')) :
    ∀ p ∈ pass.remaining, p.Plain := by
  intro p hp
  unfold beginIndex at h
  split at h
  · cases h
  · rename_i listed hs
    cases h
    exact (Scan.listed_of_mem_files hs hp).plain

/-- A property that passes keep, if they come to files that are fit. -/
structure KeptByPasses (w : World) (Fit : Path → Prop) (P : Atlas → Prop) : Prop where
  indexFile : ∀ {a p}, P a → Fit p → P (a.indexFile w p).2
  forget : ∀ {a} key, P a → P (a.forget key).2
  note : ∀ {a} status warmup, P a → P { a with status, warmup }

namespace KeptByPasses

variable {Fit : Path → Prop} {P : Atlas → Prop} (K : KeptByPasses w Fit P)

include K

theorem stepFile (h : P a) (pass : IndexPass) {file : Path} (hp : Fit file) (rest : List Path) :
    P (a.stepFile w pass file rest).2.2 :=
  K.note _ _ (K.indexFile (K.note _ a.warmup h) hp)

theorem finishIndex (h : P a) (pass : IndexPass) : P (a.finishIndex w pass) := by
  unfold Atlas.finishIndex
  dsimp only
  split
  · exact K.note _ _ h
  · exact K.note _ _ (List.foldlRecOn (motive := P) _ _ h fun _ ha key _ => K.forget key ha)

theorem indexStep (h : P a) {pass : IndexPass} (hp : ∀ p ∈ pass.remaining, Fit p) :
    P (a.indexStep w pass).2.2 := by
  unfold Atlas.indexStep
  split
  · exact K.finishIndex h pass
  · split
    · exact K.finishIndex h pass
    · rename_i file rest he
      exact K.stepFile h pass (hp file (by simp [he])) rest

theorem indexAll (files : List Path) (pass : IndexPass) (h : P a) (hp : ∀ p ∈ files, Fit p) :
    P (Atlas.indexAll w files pass a).2.2 := by
  induction files generalizing pass a with
  | nil => exact h
  | cons file rest ih =>
    exact ih _ (K.stepFile h pass (hp file List.mem_cons_self) rest)
      fun p hm => hp p (List.mem_cons_of_mem _ hm)

theorem beginIndex (h : P a) : P (a.beginIndex w).2 := by
  unfold Atlas.beginIndex
  split <;> exact K.note _ _ h

theorem buildIndex (h : P a) (hp : ∀ {pass a'}, a.beginIndex w = (.ok pass, a') →
    ∀ p ∈ pass.remaining, Fit p) : P (a.buildIndex w).2 := by
  have hb := K.beginIndex h
  unfold Atlas.buildIndex
  split <;> rename_i he <;> rw [he] at hb
  · exact hb
  · exact K.finishIndex (K.indexAll _ _ hb (hp he)) _

theorem recordWarmup (h : P a) (s : Summary) : P (a.recordWarmup s) := by
  unfold Atlas.recordWarmup
  split
  · exact h
  · exact K.note _ _ h

end KeptByPasses

theorem moves_indexFile (a : Atlas) {p : Path} (hp : p.Plain) : Moves w a (a.indexFile w p).2 := by
  unfold indexFile
  dsimp only
  split
  · exact .refl
  · rename_i content read
    split
    · exact .refl
    · split
      · rename_i node built
        exact .single (.index hp read built)
      · exact .single (.forget a _)

theorem keptByPasses_moves (a : Atlas) : KeptByPasses w Path.Plain (Moves w a) where
  indexFile h hp := h.trans (moves_indexFile _ hp)
  forget key h := h.tail (.forget _ key)
  note status warmup h := h.tail (.note _ status warmup)

theorem moves_indexStep (a : Atlas) {pass : IndexPass} (hp : ∀ p ∈ pass.remaining, p.Plain) :
    Moves w a (a.indexStep w pass).2.2 :=
  (keptByPasses_moves a).indexStep .refl hp

theorem moves_beginIndex (a : Atlas) : Moves w a (a.beginIndex w).2 :=
  (keptByPasses_moves a).beginIndex .refl

theorem moves_buildIndex (a : Atlas) : Moves w a (a.buildIndex w).2 :=
  (keptByPasses_moves a).buildIndex .refl plain_of_beginIndex

theorem moves_recordWarmup (a : Atlas) (s : Summary) : Moves w a (a.recordWarmup s) :=
  (keptByPasses_moves a).recordWarmup .refl s

/-! ## Requests -/

theorem moves_whenOk {R : Atlas → Atlas → Prop} {α β : Type} {e : Except ToolError α}
    {f : α → Except ToolError β × Atlas} (h : ∀ x, ReflTransGen R a (f x).2) :
    ReflTransGen R a (ToolRequest.whenOk a e f).2 := by
  cases e with
  | error => exact .refl
  | ok x => exact h x

/-- Only two requests forget files. -/
theorem learns_run (a : Atlas) {r : ToolRequest} (hr : r ≠ .rebuild)
    (hi : ∀ files, r ≠ .invalidate files) : Learns w a (r.run a w).2 := by
  cases r <;> rw [ToolRequest.run]
  case analyze => exact moves_whenOk fun p => learns_analyze a p
  case crawl => exact moves_whenOk fun p => learns_crawlFrom a p [] _
  case expand => exact moves_whenOk fun p => moves_whenOk fun _ => learns_crawlFrom a p _ _
  case invalidate files => exact absurd rfl (hi files)
  case rebuild => exact absurd rfl hr
  case unused => exact moves_whenOk fun p => learns_unusedSymbols a p
  case dependents => exact moves_whenOk fun p => learns_dependents a p _
  case trace => exact moves_whenOk fun p => learns_trace a p _ _
  case callers => exact moves_whenOk fun p => learns_callersOf a p _
  case impact => exact moves_whenOk fun p => learns_impact a p _ _ _
  case usage => exact moves_whenOk fun _ => moves_whenOk fun _ => .refl
  -- the other requests leave the atlas as it is
  all_goals exact moves_whenOk fun _ => .refl

/-- Only a rebuild does more than learn and forget. -/
theorem edits_run (a : Atlas) {r : ToolRequest} (h : r ≠ .rebuild) : Edits w a (r.run a w).2 := by
  cases r with
  | invalidate files =>
    exact moves_whenOk fun paths => keeps_invalidateAll (keptByChanges_edits a).forget .refl paths
  | _ => exact (learns_run a h fun _ => ToolRequest.noConfusion).edits

theorem moves_run (a : Atlas) (r : ToolRequest) : Moves w a (r.run a w).2 := by
  by_cases h : r = .rebuild
  · subst h
    have hb := moves_buildIndex (w := w) a
    rw [ToolRequest.run]
    split <;> rename_i h <;> rw [h] at hb
    · exact hb
    · exact hb.trans (moves_recordWarmup _ _)
  · exact (edits_run a h).moves

end Atlas

end DepAtlas
