import DepAtlas.Proofs.Moves

/-! # Histories of an atlas

A session is an atlas in use, together with the passes over it that have been begun. Its history is a
sequence of acts, each of them in the world as it is by then. What holds of a new atlas and is kept by
every move holds after every history.
-/

namespace DepAtlas

structure Session where
  atlas : Atlas
  passes : List IndexPass

namespace Session

/-- What can be done in a session. Questions that leave the atlas as it is are not among it. -/
inductive Act where
  | analyze (p : Path)
  | analyzeLenient (p : Path)
  | crawl (p : Path) (depth : Nat)
  | crawlFrom (p : Path) (known : List String) (depth : Nat)
  | dependents (p : Path) (name : String)
  | callersOf (p : Path) (name : String)
  | unusedSymbols (p : Path)
  | trace (p : Path) (name : String) (depth : Nat)
  | impact (p : Path) (name : String) (transitive : Bool) (depth : Nat)
  | request (r : ToolRequest)
  | invalidate (p : Path)
  | change (p : Path) (c : Watch.Change)
  | beginIndex
  | indexStep (n : Nat)
  | cancel (n : Nat)
  | buildIndex
  | recordWarmup (s : Summary)
  | close

/-- The session after an act. Passes are told by their numbers. -/
def act (w : World) (s : Session) : Act → Session
  | .analyze p => { s with atlas := (s.atlas.analyze w p).2 }
  | .analyzeLenient p => { s with atlas := (s.atlas.analyzeLenient w p).2 }
  | .crawl p depth => { s with atlas := (s.atlas.crawl w p depth).2 }
  | .crawlFrom p known depth => { s with atlas := (s.atlas.crawlFrom w p known depth).2 }
  | .dependents p name => { s with atlas := (s.atlas.dependents w p name).2 }
  | .callersOf p name => { s with atlas := (s.atlas.callersOf w p name).2 }
  | .unusedSymbols p => { s with atlas := (s.atlas.unusedSymbols w p).2 }
  | .trace p name depth => { s with atlas := (s.atlas.trace w p name depth).2 }
  | .impact p name transitive depth =>
    { s with atlas := (s.atlas.impact w p name transitive depth).2 }
  | .request r => { s with atlas := (r.run s.atlas w).2 }
  | .invalidate p => { s with atlas := (s.atlas.invalidate w p).2 }
  | .change p c => { s with atlas := s.atlas.apply w p c }
  | .beginIndex =>
    match s.atlas.beginIndex w with
    | (.ok pass, a) => ⟨a, s.passes ++ [pass]⟩
    | (.error _, a) => { s with atlas := a }
  | .indexStep n =>
    match s.passes[n]? with
    | none => s
    | some pass =>
      let (_, pass, a) := s.atlas.indexStep w pass
      ⟨a, s.passes.set n pass⟩
  | .cancel n => { s with passes := s.passes.modify n IndexPass.cancel }
  | .buildIndex => { s with atlas := (s.atlas.buildIndex w).2 }
  | .recordWarmup summary => { s with atlas := s.atlas.recordWarmup summary }
  | .close => { s with atlas := s.atlas.close }

/-- A session after a history in worlds of a kind, beginning with a new atlas. -/
inductive Reachable (allowed : World → Prop) : Session → Prop where
  | new {w : World} {config : WorkspaceConfig} {a : Atlas} (ok : allowed w)
      (h : Atlas.new w config = .ok a) : Reachable allowed ⟨a, []⟩
  | act {w : World} {s : Session} (ok : allowed w) (h : Reachable allowed s) (x : Act) :
      Reachable allowed (s.act w x)

variable {allowed : World → Prop} {w : World} {s : Session}

/-- All passes are over paths as scans list them. -/
def Plain (s : Session) : Prop := ∀ pass ∈ s.passes, ∀ p ∈ pass.remaining, p.Plain

theorem Plain.act (h : s.Plain) (x : Act) : (s.act w x).Plain := by
  cases x with
  | beginIndex =>
    simp only [Session.act]
    split <;> rename_i hb
    · rename_i begun a
      intro pass hp
      rcases List.mem_append.mp hp with hp | hp
      · exact h pass hp
      · obtain rfl := List.mem_singleton.mp hp
        exact Atlas.plain_of_beginIndex hb
    · exact h
  | indexStep n =>
    simp only [Session.act]
    split
    · exact h
    · rename_i old hold
      intro pass hp p hm
      rcases List.mem_or_eq_of_mem_set hp with hp | rfl
      · exact h pass hp p hm
      · exact h old (List.mem_of_getElem? hold) p (Atlas.mem_remaining_indexStep hm)
  | cancel n =>
    intro pass hp p hm
    obtain ⟨k, hk⟩ := List.mem_iff_getElem?.mp hp
    simp only [Session.act, List.getElem?_modify] at hk
    obtain ⟨old, hold, rfl⟩ := Option.map_eq_some_iff.mp hk
    refine h old (List.mem_of_getElem? hold) p ?_
    split at hm <;> exact hm
  | _ => exact h

theorem moves_act (h : s.Plain) (x : Act) : s.atlas.Moves w (s.act w x).atlas := by
  cases x with
  | analyze p => exact (Atlas.learns_analyze _ p).moves
  | analyzeLenient p => exact (Atlas.learns_analyzeLenient _ p).moves
  | crawl p depth => exact (Atlas.learns_crawlFrom _ p [] depth).moves
  | crawlFrom p known depth => exact (Atlas.learns_crawlFrom _ p known depth).moves
  | dependents p name => exact (Atlas.learns_dependents _ p name).moves
  | callersOf p name => exact (Atlas.learns_callersOf _ p name).moves
  | unusedSymbols p => exact (Atlas.learns_unusedSymbols _ p).moves
  | trace p name depth => exact (Atlas.learns_trace _ p name depth).moves
  | impact p name transitive depth => exact (Atlas.learns_impact _ p name transitive depth).moves
  | request r => exact Atlas.moves_run _ r
  | invalidate p => exact .single (.forget _ _)
  | change p c => exact (Atlas.edits_apply _ p c).moves
  | beginIndex =>
    have hb := Atlas.moves_beginIndex (w := w) s.atlas
    simp only [Session.act]
    split <;> rename_i he <;> rw [he] at hb <;> exact hb
  | indexStep n =>
    simp only [Session.act]
    split
    · exact .refl
    · rename_i pass hp
      exact Atlas.moves_indexStep _ (h pass (List.mem_of_getElem? hp))
  | cancel n => exact .refl
  | buildIndex => exact Atlas.moves_buildIndex _
  | recordWarmup summary => exact Atlas.moves_recordWarmup _ summary
  | close => exact .single (.close _)

theorem Reachable.plain (h : Reachable allowed s) : s.Plain := by
  induction h with
  | new => intro pass hp; cases hp
  | act _ _ x ih => exact ih.act x

/-- What a new atlas has and every move keeps, an atlas has after every history. -/
theorem Reachable.atlas_of_moves {P : Atlas → Prop} (h : Reachable allowed s)
    (hnew : ∀ w config a, allowed w → Atlas.new w config = .ok a → P a)
    (hmove : ∀ w a a', allowed w → P a → Atlas.Move w a a' → P a') : P s.atlas := by
  induction h with
  | new ok h => exact hnew _ _ _ ok h
  | act ok hr x ih => exact (moves_act hr.plain x).keeps (fun a a' => hmove _ a a' ok) ih

end Session

theorem Resolve.Resolver.root_withCompilerPaths {r r' : Resolver} {t : FileTree} {n : Nat}
    (h : r.withCompilerPaths t = .ok (n, r')) : r'.root = r.root := by
  unfold Resolver.withCompilerPaths at h
  cases ha : r.aliases.addCompilerPaths t r.root with
  | error f => simp [ha, bind, Except.bind] at h
  | ok aliases =>
    simp only [ha, bind, Except.bind] at h
    cases h
    rfl

namespace Atlas

variable {w : World} {config : WorkspaceConfig} {a : Atlas}

/-- What a new atlas holds. -/
structure Fresh (w : World) (config : WorkspaceConfig) (a : Atlas) : Prop where
  valid : config.validate w.tree = .ok a.config
  root : a.root = Path.ofText a.config.root
  resolver : a.resolver.root = w.tree.settle a.root
  configured : a.config.compilerPaths = false →
    a.resolver = .new w.tree a.root a.config.aliases
  exclusions : Ignore.Exclusions.ofPatterns a.root a.config.exclude = .ok a.exclusions
  cache : a.cache = .empty
  importers : a.importers = .empty
  callers : a.callers = .empty
  warmup : a.warmup = {}
  closed : a.closed = false

theorem fresh_of_new (h : Atlas.new w config = .ok a) : a.Fresh w config := by
  unfold Atlas.new at h
  cases hv : config.validate w.tree with
  | error f => simp [hv, bind, Except.bind] at h
  | ok valid =>
    simp only [hv, bind, Except.bind] at h
    cases he : Ignore.Exclusions.ofPatterns (Path.ofText valid.root) valid.exclude with
    | error e => simp [he, throw, throwThe, MonadExceptOf.throw] at h
    | ok e =>
      rw [he] at h
      obtain rfl := Except.ok.inj h
      refine ⟨hv, rfl, ?_, fun hc => if_neg (Bool.eq_false_iff.mp hc), he, rfl, rfl, rfl, rfl, rfl⟩
      dsimp only
      split
      · split
        · rename_i hr
          exact Resolve.Resolver.root_withCompilerPaths hr
        · rfl
      · rfl

/-- The root is a directory, by the path that leads to it without links. -/
theorem Fresh.exists_root (h : a.Fresh w config) (hw : w.tree.WellFormed) :
    ∃ l, w.tree.lookup l = some .directory ∧ a.root = l.path := by
  obtain ⟨l, hl, hr⟩ : ∃ l, w.tree.lookup l = some .directory ∧ a.config.root = l.path.toText := by
    have hv := h.valid
    unfold WorkspaceConfig.validate at hv
    split at hv
    · cases hv
    · split at hv
      · cases hv
      · rename_i l _
        split at hv
        · cases hv
        · rename_i hd
          split at hv
          · cases hv
          · exact ⟨l, not_not.mp hd, by rw [← Except.ok.inj hv]⟩
  refine ⟨l, hl, ?_⟩
  rw [h.root, hr, Location.ofText_toText (hw.above (by simp [hl])).1]

theorem Fresh.settle_root (h : a.Fresh w config) (hw : w.tree.WellFormed) :
    w.tree.settle a.root = a.root := by
  obtain ⟨l, hl, hroot⟩ := h.exists_root hw
  rw [hroot, hw.settle_path (by simp [hl]) (by simp [hl])]

end Atlas

namespace Session

variable {allowed : World → Prop} {s : Session}

/-- The setup of an atlas is still the one it was made with. -/
theorem Reachable.setup (h : s.Reachable allowed) :
    s.atlas.root = Path.ofText s.atlas.config.root ∧
      Ignore.Exclusions.ofPatterns s.atlas.root s.atlas.config.exclude = .ok s.atlas.exclusions := by
  refine h.atlas_of_moves (P := fun a => a.root = Path.ofText a.config.root ∧
    Ignore.Exclusions.ofPatterns a.root a.config.exclude = .ok a.exclusions) ?_ ?_
  · intro w config a _ hn
    have hf := Atlas.fresh_of_new hn
    exact ⟨hf.root, hf.exclusions⟩
  · intro w a a' _ ha hm
    obtain ⟨hc, hroot, -, he⟩ := hm.setup
    rw [hc, hroot, he]
    exact ha

/-- Where no paths of a compiler are used, the resolver is told by the configuration. -/
theorem Reachable.resolver_eq (h : s.Reachable allowed)
    (hw : ∀ w, allowed w → w.tree.WellFormed) (hc : s.atlas.config.compilerPaths = false) :
    s.atlas.resolver = ⟨s.atlas.root, .ofTable s.atlas.root s.atlas.config.aliases⟩ := by
  revert hc
  refine h.atlas_of_moves (P := fun a => a.config.compilerPaths = false →
    a.resolver = ⟨a.root, .ofTable a.root a.config.aliases⟩) ?_ ?_
  · intro w config a ok hn hc
    have hf := Atlas.fresh_of_new hn
    rw [hf.configured hc, Resolve.Resolver.new, hf.settle_root (hw w ok)]
  · intro w a a' _ ha hm hc
    obtain ⟨hconfig, hroot, hres, -⟩ := hm.setup
    rw [hconfig] at hc ⊢
    rw [hroot, hres, ha hc]

end Session

end DepAtlas
