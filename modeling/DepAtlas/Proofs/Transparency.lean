import DepAtlas.Proofs.Rebuild

/-! # The cache does not show

While the files stay as they are, every entry of the cache is what the file behind it has to say. It
came there by a question or by a pass, and may have been forgotten and entered again in between. So an
atlas with a history answers like a new one: of a file, `judge` says what both of them answer, and crawls
are made of such answers.
-/

namespace DepAtlas

/-- A service that says of each file it can read that it can. -/
def Parsing.Candid (s : Parsing) : Prop :=
  ∀ key source o, s.outline key source = .ok o → s.supports (.ofText key) = true

theorem Parsing.candid_byGrammar : byGrammar.Candid := by
  intro key source o h
  simp only [byGrammar] at h
  split at h
  · rename_i language hl
    simp [byGrammar, knowsLanguage, hl]
  · cases h

namespace Atlas

variable {w : World} {a a' b b' : Atlas} {k : String} {p : Path} {content : List UInt8}

/-! ## Faithful caches -/

/-- Each entry is made from the content that its file has now, with the imports followed now. -/
def Faithful (w : World) (a : Atlas) : Prop :=
  ∀ k f, a.cache.get? k = some f → ∃ content o, w.tree.read (.ofText k) = .ok content ∧
    w.parsing.outline k (Text.decodeLenient content) = .ok o ∧ f = ⟨markOf content, a.nodeOf w k o⟩

theorem faithful_of_empty (h : a.cache = .empty) : a.Faithful w := by
  intro k f hf
  simp [h] at hf

theorem Faithful.move (h : a.Faithful w) (hw : w.tree.WellFormed) (hm : Move w a a') :
    a'.Faithful w := by
  intro k f hf
  have hn : ∀ o, a'.nodeOf w k o = a.nodeOf w k o := nodeOf_congr hm.setup.2.2.1 w k
  rcases hm.get?_eq_some hf with hold | ⟨content, node, hb, rfl, hr⟩
  · obtain ⟨content, o, hr, ho, rfl⟩ := h k f hold
    exact ⟨content, o, hr, ho, by rw [hn]⟩
  · obtain ⟨-, o, ho, rfl⟩ := build_eq_ok hb
    exact ⟨content, o, hr hw, ho, by rw [hn]⟩

theorem Faithful.moves (h : a.Faithful w) (hw : w.tree.WellFormed) (hm : Moves w a a') :
    a'.Faithful w :=
  hm.keeps (fun _ _ ha => ha.move hw) h

/-! ## What there is to say of a file -/

/-- What an atlas that knows nothing yet says of the file with a key. -/
def judge (a : Atlas) (w : World) (key : String) : Except ToolError FileNode :=
  if !w.tree.isFile (.ofText key) then .error (.fileNotFound key)
  else if !w.parsing.supportsIn a.closed (.ofText key) then
    .error (ParseError.unsupported key).toToolError
  else
    match w.tree.read (.ofText key) with
    | .error fault => .error ((Failure.ofFault fault).within ("read " ++ key)).toToolError
    | .ok content => (a.build w key content).mapError ParseError.toToolError

theorem judge_congr (hr : b.resolver = a.resolver) (hc : b.closed = a.closed) (w : World)
    (key : String) : b.judge w key = a.judge w key := by
  simp only [judge, hc, build_congr hr hc]

theorem judge_eq_ok {n : FileNode} (h : a.judge w k = .ok n) :
    ∃ content, a.build w k content = .ok n := by
  unfold judge at h
  split at h
  · cases h
  · split at h
    · cases h
    · split at h
      · cases h
      · rename_i content _
        cases hb : a.build w k content with
        | error e =>
          rw [hb] at h
          cases h
        | ok node =>
          rw [hb] at h
          obtain rfl := Except.ok.inj h
          exact ⟨content, hb⟩

theorem analyze_of_unknown (h : a.cache.get? (w.tree.key p) = none) :
    (a.analyze w p).1 = a.judge w (w.tree.key p) := by
  unfold analyze judge
  dsimp only
  rw [h]
  dsimp only
  split
  · rfl
  · split
    · rfl
    · cases w.tree.read (.ofText (w.tree.key p)) with
      | error fault => rfl
      | ok content =>
        dsimp only
        cases a.build w (w.tree.key p) content <;> rfl

theorem judge_of_outline (hs : w.parsing.Candid) (hopen : a.closed = false) {o : Outline}
    (hr : w.tree.read (.ofText k) = .ok content)
    (ho : w.parsing.outline k (Text.decodeLenient content) = .ok o) :
    a.judge w k = .ok (a.nodeOf w k o) := by
  have hsup : w.parsing.supportsIn a.closed (.ofText k) = true := by
    simp [Parsing.supportsIn, hopen, hs k _ o ho]
  simp only [judge, FileTree.isFile_of_read hr, hsup, hr, build_of_open hopen, ho]
  rfl

/-- A hit and a miss give the same answer. -/
theorem Faithful.analyze_eq (h : a.Faithful w) (hs : w.parsing.Candid) (hopen : a.closed = false)
    (p : Path) : (a.analyze w p).1 = a.judge w (w.tree.key p) := by
  cases hc : a.cache.get? (w.tree.key p) with
  | none => exact analyze_of_unknown hc
  | some f =>
    obtain ⟨content, o, hr, ho, rfl⟩ := h _ f hc
    rw [judge_of_outline hs hopen hr ho]
    unfold analyze
    dsimp only
    rw [hc]

theorem analyzeLenient_fst (a : Atlas) (p : Path) :
    (a.analyzeLenient w p).1 =
      match (a.analyze w p).1 with
      | .ok node => some node
      | .error _ => (Language.ofPath? p).map (FileNode.leaf (w.tree.key p)) := by
  unfold analyzeLenient
  split <;> rename_i h <;> rw [h]

/-! ## Questions change no answers -/

theorem analyze_fst (a : Atlas) (w : World) (p : Path) :
    (a.analyze w p).1 =
      match a.cache.get? (w.tree.key p) with
      | some f => .ok f.node
      | none => a.judge w (w.tree.key p) := by
  cases hc : a.cache.get? (w.tree.key p) with
  | none => exact analyze_of_unknown hc
  | some f =>
    unfold analyze
    dsimp only
    rw [hc]

theorem Learn.analyze_fst (h : Learn w a b) (p : Path) :
    (b.analyze w p).1 = (a.analyze w p).1 := by
  have hjudge := judge_congr h.alike.resolver h.alike.closed w (w.tree.key p)
  rw [Atlas.analyze_fst, Atlas.analyze_fst]
  cases hc : a.cache.get? (w.tree.key p) with
  | some f => rw [h.get?_eq_some hc]
  | none =>
    cases h with
    | store q named unknown supported read built =>
      rw [get?_store]
      split
      · -- the file itself has been entered, as it was judged before
        rename_i hit heq
        split at heq
        · rename_i hk
          cases heq
          rw [hk]
          simp only [judge, FileTree.isFile_of_read read, supported, read, built]
          rfl
        · rw [hc] at heq
          cases heq
      · exact hjudge
    | uses file =>
      rw [cache_enterUses, hc]
      exact hjudge

theorem Learns.analyze_fst (h : Learns w a b) (p : Path) :
    (b.analyze w p).1 = (a.analyze w p).1 := by
  induction h with
  | refl => rfl
  | tail _ hl ih => rw [hl.analyze_fst, ih]

/-! ## Two atlases side by side -/

/-- Two atlases that say the same of every file, however much each of them knows already. -/
structure Agree (w : World) (a b : Atlas) : Prop where
  left : a.Faithful w
  right : b.Faithful w
  resolver : b.resolver = a.resolver
  leftOpen : a.closed = false
  rightOpen : b.closed = false

namespace Agree

variable (h : Agree w a b)

include h

theorem analyze (hs : w.parsing.Candid) (p : Path) : (a.analyze w p).1 = (b.analyze w p).1 := by
  have hc : b.closed = a.closed := h.rightOpen.trans h.leftOpen.symm
  rw [h.left.analyze_eq hs h.leftOpen, h.right.analyze_eq hs h.rightOpen, judge_congr h.resolver hc]

end Agree

end Atlas

/-! ## Crawls -/

namespace Crawl

/-- Two crawls that have gone the same way, over atlases that say the same of every file. -/
structure Agree (w : World) (s t : State) : Prop where
  crawl : s.crawl = t.crawl
  visited : s.visited = t.visited
  next : s.next = t.next
  told : ∀ p, (s.atlas.analyze w p).1 = (t.atlas.analyze w p).1

variable {w : World} {s t : State}

theorem Agree.follow (h : Agree w s t) (depth : Nat) (d : Dependency) :
    Agree w (follow w depth s d) (follow w depth t d) := by
  have htold : ∀ p, ((Crawl.follow w depth s d).atlas.analyze w p).1 =
      ((Crawl.follow w depth t d).atlas.analyze w p).1 := fun p => by
    rw [(Atlas.learns_follow depth s d).analyze_fst, (Atlas.learns_follow depth t d).analyze_fst,
      h.told]
  have hfound : (s.atlas.analyzeLenient w (.ofText d.target)).1 =
      (t.atlas.analyzeLenient w (.ofText d.target)).1 := by
    rw [Atlas.analyzeLenient_fst, Atlas.analyzeLenient_fst, h.told]
  unfold Crawl.follow at htold ⊢
  dsimp only at htold ⊢
  rw [← h.visited] at htold ⊢
  cases hv : s.visited.contains d.target with
  | true =>
    simp only [hv, if_true] at htold ⊢
    exact ⟨by rw [h.crawl], rfl, h.next, htold⟩
  | false =>
    simp only [hv, Bool.false_eq_true, if_false] at htold ⊢
    -- both atlases find the same child, or none
    generalize s.atlas.analyzeLenient w (.ofText d.target) = x at hfound htold ⊢
    generalize t.atlas.analyzeLenient w (.ofText d.target) = y at hfound htold ⊢
    obtain ⟨found, a⟩ := x
    obtain ⟨found', b⟩ := y
    obtain rfl : found = found' := hfound
    cases found with
    | none => exact ⟨by rw [h.crawl], rfl, h.next, htold⟩
    | some child => exact ⟨by rw [h.crawl], rfl, by rw [h.next], htold⟩

theorem Agree.expand (h : Agree w s t) (depth : Nat) (n : FileNode) :
    Agree w (expand w depth s n) (expand w depth t n) := by
  refine List.foldl_rel (r := Agree w) ?_ fun d _ s t h => h.follow depth d
  exact ⟨by rw [h.crawl], h.visited, h.next, h.told⟩

theorem Agree.levels (h : Agree w s t) (more depth : Nat) (nodes : List FileNode) :
    Agree w (levels w more depth nodes s) (levels w more depth nodes t) := by
  induction more generalizing depth nodes s t with
  | zero =>
    cases nodes with
    | nil => exact h
    | cons n nodes =>
      unfold Crawl.levels
      split
      · exact ⟨by rw [h.crawl], h.visited, h.next, h.told⟩
      · exact h
  | succ more ih =>
    cases nodes with
    | nil => exact h
    | cons n nodes =>
      unfold Crawl.levels
      have hl : Agree w ((n :: nodes).foldl (Crawl.expand w depth) { s with next := [] })
          ((n :: nodes).foldl (Crawl.expand w depth) { t with next := [] }) :=
        List.foldl_rel (r := Agree w) ⟨h.crawl, h.visited, rfl, h.told⟩
          fun n _ s t h => h.expand depth n
      dsimp only
      rw [← hl.next]
      exact ih hl _ _

end Crawl

/-- A crawl shows of an atlas only what it says of single files. -/
theorem Atlas.crawlFrom_congr {w : World} {a b : Atlas}
    (h : ∀ p, (a.analyze w p).1 = (b.analyze w p).1) (p : Path) (known : List String)
    (depth : Nat) : (a.crawlFrom w p known depth).1 = (b.crawlFrom w p known depth).1 := by
  have hfound := h p
  have hnext : ∀ q, ((a.analyze w p).2.analyze w q).1 = ((b.analyze w p).2.analyze w q).1 :=
    fun q => by rw [(learns_analyze a p).analyze_fst, (learns_analyze b p).analyze_fst, h]
  unfold Atlas.crawlFrom
  generalize a.analyze w p = x at hfound hnext ⊢
  generalize b.analyze w p = y at hfound hnext ⊢
  obtain ⟨found, a'⟩ := x
  obtain ⟨found', b'⟩ := y
  obtain rfl : found = found' := hfound
  cases found with
  | error e => rfl
  | ok node =>
    have hl := Crawl.Agree.levels ⟨rfl, rfl, rfl, hnext⟩ depth 0 [node]
      (s := ⟨⟨node.path, if known.contains node.path then [] else [.ofNode node 0], [], [], false⟩,
        node.path :: known, [], a'⟩)
      (t := ⟨⟨node.path, if known.contains node.path then [] else [.ofNode node 0], [], [], false⟩,
        node.path :: known, [], b'⟩)
    exact congrArg Except.ok hl.crawl

/-! ## Histories against a new beginning -/

/-- In one world, a new atlas is told by its configuration. -/
theorem Atlas.new_unique {w : World} {config config' : WorkspaceConfig} {a b : Atlas}
    (ha : Atlas.new w config = .ok a) (hb : Atlas.new w config' = .ok b)
    (h : b.config = a.config) : b = a := by
  have hva := (Atlas.fresh_of_new ha).valid
  have hvb := (Atlas.fresh_of_new hb).valid
  have hsame : Atlas.new w config' = Atlas.new w config := by
    unfold Atlas.new
    rw [hva, hvb, h]
  exact Except.ok.inj (by rw [← hb, hsame, ha])

namespace Session

variable {w : World} {s : Session} {config : WorkspaceConfig} {b : Atlas}

theorem Reachable.faithful (h : s.Reachable (· = w)) (hw : w.tree.WellFormed) :
    s.atlas.Faithful w := by
  refine h.atlas_of_moves (fun w' config a _ hn => ?_) ?_
  · exact Atlas.faithful_of_empty (Atlas.fresh_of_new hn).cache
  · rintro _ a a' rfl ha hm
    exact ha.move hw hm

/-- Names of modules are still understood as a new atlas understands them. -/
theorem Reachable.resolver_new (h : s.Reachable (· = w)) (hnew : Atlas.new w config = .ok b)
    (hconfig : b.config = s.atlas.config) : b.resolver = s.atlas.resolver := by
  revert hconfig
  refine h.atlas_of_moves (P := fun a => b.config = a.config → b.resolver = a.resolver) ?_ ?_
  · rintro _ config' a rfl hn hc
    rw [Atlas.new_unique hn hnew hc]
  · intro _ a a' _ ha hm hc
    obtain ⟨hconfig, -, hr, -⟩ := hm.setup
    rw [hr]
    exact ha (hc.trans hconfig)

end Session

end DepAtlas
