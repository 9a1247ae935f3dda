import DepAtlas.Proofs.Changes
import DepAtlas.Proofs.SymbolUses
import DepAtlas.Proofs.Transparency

/-! # The index of callers keeps up with the cache

The uses of symbols in a file are entered when a question needs them, and taken out when the file is
entered anew or forgotten. While the files stay as they are, the index holds for each entered file exactly
the edges of its symbol graph, and files with a graph are entered only as long as they are cached. This is
kept by everything that can be done in a session, as long as files are named by paths that can be written.
-/

namespace DepAtlas

/-- Every path is below the path without steps. -/
def Path.anywhere : Path := ⟨false, []⟩

theorem FileTree.inside_anywhere {t : FileTree} {k : String} :
    t.Inside .anywhere k ↔ t.key (.ofText k) = k :=
  ⟨fun h => h.settled, fun h => ⟨by simp [Path.isUnder, Path.anywhere], h⟩⟩

/-- A world whose ids of symbols can be split again, with a service that reads files of known languages
only and says of each file it can read that it can. -/
structure World.Orderly (w : World) : Prop where
  wellFormed : w.tree.WellFormed
  candid : w.parsing.Candid
  literate : ∀ p, w.parsing.supports p = true → (Language.ofPath? p).isSome = true
  colonFree : w.ColonFree .anywhere

/-- An edge in the graph of a file leads from a symbol of the file to a symbol of the file itself or of
one that it imports, by ids that can be split again. -/
theorem World.Orderly.of_mem_edges {w : World} (hw : w.Orderly) {a : Atlas} {file : String}
    {g : SymbolGraph} {e : SymbolEdge} (hfile : w.tree.key (.ofText file) = file)
    (hg : a.symbolGraph w (.ofText file) = .ok g) (he : e ∈ g.edges) :
    ∃ content o, w.tree.read (.ofText file) = .ok content ∧
      w.parsing.outline file (Text.decodeLenient content) = .ok o ∧
      (∃ user, e.source = symbolId file user ∧ ':' ∉ user.toList) ∧
      ∃ name, e.target = symbolId e.targetFile name ∧ ':' ∉ name.toList ∧
        (e.targetFile = file ∨ ∃ i ∈ o.imports, ∃ path,
          a.resolver.resolve w.tree file i.specifier = .ok (.resolved path) ∧
            e.targetFile = path.toText) := by
  obtain ⟨o, ho, rfl⟩ := Atlas.symbolGraph_eq_ok hg
  obtain ⟨-, content, hread, hout⟩ := Atlas.outline_eq_ok ho
  rw [hfile] at hread hout he
  have hin : w.tree.Inside .anywhere file := FileTree.inside_anywhere.mpr hfile
  have hfree := hw.colonFree _ content o hin hread hout
  have hbounds : ∀ x ∈ SymbolGraph.bounds a.resolver w.tree file o.imports,
      SymbolGraph.BoundInside w.tree .anywhere x.2 := by
    intro x hx
    obtain ⟨i, hi, b, hb, path, hpath, rfl⟩ := SymbolGraph.mem_bounds.mp hx
    obtain ⟨htext, hkey⟩ := Resolve.Resolver.settled_of_resolve hw.wellFormed hpath
    exact ⟨FileTree.inside_anywhere.mpr (by rw [htext, hkey]), hfree.bindings i hi b hb⟩
  obtain ⟨r, hr, x, hx, rfl⟩ := SymbolGraph.exists_of_mem_edgesOf he
  obtain ⟨-, hname⟩ := SymbolGraph.inside_targets hin hfree hr hbounds x hx
  refine ⟨content, o, hread, hout, ⟨_, rfl, SymbolGraph.colon_userOf hfree hr⟩,
    x.name, rfl, hname, ?_⟩
  rcases SymbolGraph.file_of_mem_targets hx with hown | ⟨b, hb, hother⟩
  · exact Or.inl hown
  · obtain ⟨i, hi, _, -, path, hpath, rfl⟩ := SymbolGraph.mem_bounds.mp hb
    exact Or.inr ⟨i, hi, path, hpath, hother⟩

namespace Atlas

variable {w : World} {a a' : Atlas} {k key file : String} {p : Path}

theorem symbolGraph_congr (hr : a'.resolver = a.resolver) (hc : a'.closed = a.closed) (w : World)
    (p : Path) : a'.symbolGraph w p = a.symbolGraph w p := by
  simp only [symbolGraph, outline, hr, hc]

/-- Entering a file adds the edges of its graph, if it has one and was not entered before. -/
theorem enterUses_cases (a : Atlas) (w : World) (file : String) :
    (file ∈ a.callers.entered ∧ a.enterUses w file = a) ∨
      ∃ callers : Callers, a.enterUses w file = { a with callers := callers.enter file } ∧
        callers.entered = a.callers.entered ∧
        ∀ x, x ∈ callers.uses ↔ x ∈ a.callers.uses ∨
          ∃ g, a.symbolGraph w (.ofText file) = .ok g ∧
            ∃ e ∈ g.edges, x = (e.target, .ofEdge file e) := by
  unfold enterUses
  split
  · rename_i hin
    exact .inl ⟨by simpa [Callers.hasEntered] using hin, rfl⟩
  · dsimp only
    split
    · rename_i g hg
      refine .inr ⟨_, rfl, Callers.entered_foldl_record _ _, fun x => ?_⟩
      simp [Callers.mem_uses_foldl_record, hg]
    · rename_i hg
      exact .inr ⟨a.callers, rfl, rfl, by simp [hg]⟩

/-- The index of callers says what the graphs of the entered files say. -/
structure Current (a : Atlas) (w : World) : Prop where
  root : a.root.Legible
  cached : ∀ k f, a.cache.get? k = some f → w.tree.key (.ofText k) = k
  entered : ∀ f ∈ a.callers.entered, w.tree.key (.ofText f) = f ∧
    ∀ g, a.symbolGraph w (.ofText f) = .ok g → a.cache.contains f = true
  uses : ∀ x, x ∈ a.callers.uses ↔ x.2.file ∈ a.callers.entered ∧
    ∃ g, a.symbolGraph w (.ofText x.2.file) = .ok g ∧ ∃ e ∈ g.edges, x = (e.target, .ofEdge x.2.file e)
  shut : a.closed = true → ∀ k, a.cache.get? k = none

namespace Current

/-! ## Moves -/

/-- What is recorded for a file is taken out with the file. -/
theorem uses_remove (h : a.Current w) (ha : Alike a a') (hu : a'.callers = (a.callers.remove key).2)
    (x : String × Caller) :
    x ∈ a'.callers.uses ↔ x.2.file ∈ a'.callers.entered ∧
      ∃ g, a'.symbolGraph w (.ofText x.2.file) = .ok g ∧
        ∃ e ∈ g.edges, x = (e.target, .ofEdge x.2.file e) := by
  rw [symbolGraph_congr ha.resolver ha.closed, hu, Callers.mem_uses_remove,
    Callers.mem_entered_remove, h.uses]
  tauto

/-- The files that stay entered are cached as before. -/
theorem entered_remove (h : a.Current w) (ha : Alike a a')
    (hu : a'.callers = (a.callers.remove key).2)
    (hget : ∀ k, k ≠ key → a'.cache.get? k = a.cache.get? k) {f : String}
    (hf : f ∈ a'.callers.entered) :
    w.tree.key (.ofText f) = f ∧
      ∀ g, a'.symbolGraph w (.ofText f) = .ok g → a'.cache.contains f = true := by
  rw [hu] at hf
  obtain ⟨hf, hne⟩ := Callers.mem_entered_remove.mp hf
  obtain ⟨hsettled, hcached⟩ := h.entered f hf
  refine ⟨hsettled, fun g hg => ?_⟩
  rw [symbolGraph_congr ha.resolver ha.closed] at hg
  obtain ⟨c, hc⟩ := NodeCache.contains_iff.mp (hcached g hg)
  exact NodeCache.contains_iff.mpr ⟨c, (hget f hne).trans hc⟩

theorem forget (h : a.Current w) (key : String) : (a.forget key).2.Current w where
  root := h.root
  cached k f hf := by
    rw [get?_forget] at hf
    split at hf
    · cases hf
    · exact h.cached k f hf
  entered f hf := h.entered_remove (alike_forget a key) rfl (fun k hk => by rw [get?_forget, if_neg hk]) hf
  uses := h.uses_remove (alike_forget a key) rfl
  shut hs k := by
    rw [get?_forget]
    split
    · rfl
    · exact h.shut hs k

theorem store (h : a.Current w) (hk : w.tree.key (.ofText key) = key) (mark : String)
    {node : FileNode} (hopen : a.closed = false) : (a.store key mark node).Current w where
  root := h.root
  cached k f hf := by
    rw [get?_store] at hf
    split at hf
    · rename_i he
      rw [he, hk]
    · exact h.cached k f hf
  entered f hf := h.entered_remove (alike_store a key mark node) rfl (fun k hk => by rw [get?_store, if_neg hk]) hf
  uses := h.uses_remove (alike_store a key mark node) rfl
  shut hs := by
    rw [(alike_store a key mark node).closed, hopen] at hs
    cases hs

theorem close (h : a.Current w) : a.close.Current w where
  root := h.root
  cached k f hf := by cases hf
  entered f hf := by cases hf
  uses x := by simp [Atlas.close, Callers.empty]
  shut _ k := rfl

/-- A file may be entered if it is cached, or has no graph. -/
theorem enterUses (h : a.Current w) (hsettled : w.tree.key (.ofText file) = file)
    (hcached : ∀ g, a.symbolGraph w (.ofText file) = .ok g → a.cache.contains file = true) :
    (a.enterUses w file).Current w := by
  rcases a.enterUses_cases w file with ⟨-, he⟩ | ⟨callers, he, hentered, huses⟩ <;> rw [he]
  · exact h
  · refine ⟨h.root, h.cached, fun f hf => ?_, fun x => ?_, h.shut⟩
    · rw [Callers.mem_entered_enter, hentered] at hf
      rcases hf with hf | rfl
      · exact h.entered f hf
      · exact ⟨hsettled, hcached⟩
    · change x ∈ callers.uses ↔ _
      rw [huses, h.uses, Callers.mem_entered_enter, hentered, or_and_right]
      refine or_congr_right ?_
      constructor
      · rintro ⟨g, hg, e, he, rfl⟩
        exact ⟨rfl, g, hg, e, he, rfl⟩
      · rintro ⟨hf, g, hg, e, he, hx⟩
        rw [hf] at hg hx
        exact ⟨g, hg, e, he, hx⟩

/-! ## Questions about files -/

section

variable (hw : w.Orderly)

include hw

theorem analyze (h : a.Current w) (hp : p.Legible) : (a.analyze w p).2.Current w := by
  rcases a.analyze_cases w p with ⟨f, -, ha⟩ | ⟨content, n, -, hn, ha⟩ | ⟨e, ha⟩ <;> rw [ha]
  · exact h
  · exact h.store (hw.wellFormed.key_ofText_key hp) _ (build_eq_ok hn).1
  · exact h

theorem analyzeLenient (h : a.Current w) (hp : p.Legible) : (a.analyzeLenient w p).2.Current w := by
  rw [analyzeLenient_snd]
  exact h.analyze hw hp

/-! ## Questions about symbols -/

/-- A file with a graph is cached once it has been asked for. -/
theorem contains_of_symbolGraph {g : SymbolGraph} (hk : w.tree.key (.ofText key) = key)
    (hg : a.symbolGraph w (.ofText key) = .ok g) :
    (a.analyzeLenient w (.ofText key)).2.cache.contains key = true := by
  obtain ⟨o, ho, -⟩ := symbolGraph_eq_ok hg
  obtain ⟨hopen, content, hread, hout⟩ := outline_eq_ok ho
  rw [hk] at hread hout
  have hstands : a.Stands w key content :=
    { key := hk
      isFile := FileTree.isFile_of_read hread
      read := hread
      supported := by simp [Parsing.supportsIn, hopen, hw.candid key _ o hout]
      built := ⟨_, by rw [build_of_open hopen, hout]; rfl⟩ }
  exact hstands.contains_refresh hk

/-- The files that are entered before a question are cached, the file itself as far as it has a graph. -/
theorem prepareCallers (h : a.Current w) (hk : w.tree.key (.ofText key) = key) :
    (a.prepareCallers w key).2.Current w := by
  have ha := h.analyzeLenient hw (Path.legible_ofText key)
  have hcached : ∀ g, (a.analyzeLenient w (.ofText key)).2.symbolGraph w (.ofText key) = .ok g →
      (a.analyzeLenient w (.ofText key)).2.cache.contains key = true := by
    intro g hg
    have hl := (learns_analyzeLenient (w := w) a (.ofText key)).alike
    rw [symbolGraph_congr hl.resolver hl.closed] at hg
    exact contains_of_symbolGraph hw hk hg
  unfold Atlas.prepareCallers
  dsimp only
  generalize (a.analyzeLenient w (.ofText key)).2 = a' at ha hcached ⊢
  have hfiles : ∀ file ∈ Text.sortedOnce (key :: (a'.referencesTo w (.ofText key)).map (·.source)),
      w.tree.key (.ofText file) = file ∧
        ∀ g, a'.symbolGraph w (.ofText file) = .ok g → a'.cache.contains file = true := by
    intro file hfile
    rcases List.mem_cons.mp (Text.mem_sortedOnce.mp hfile) with rfl | hfile
    · exact ⟨hk, hcached⟩
    · obtain ⟨entry, hentry, rfl⟩ := List.mem_map.mp hfile
      obtain ⟨-, hany⟩ := List.mem_filter.mp hentry
      cases hf : a'.cache.get? entry.source with
      | none => simp [hf] at hany
      | some f => exact ⟨ha.cached _ f hf, fun _ _ => NodeCache.contains_iff.mpr ⟨f, hf⟩⟩
  refine (List.foldlRecOn (motive := fun b : Atlas => b.Current w ∧ Alike a' b ∧ b.cache = a'.cache)
    _ _ ⟨ha, .refl a', rfl⟩ fun b hb file hfile => ?_).1
  obtain ⟨hb, halike, hcache⟩ := hb
  obtain ⟨hsettled, hin⟩ := hfiles file hfile
  refine ⟨hb.enterUses hsettled ?_, halike.trans (Learn.uses b file).alike, ?_⟩
  · rw [symbolGraph_congr halike.resolver halike.closed, hcache]
    exact hin
  · exact (cache_enterUses b file).trans hcache

/-- Users of symbols are told by ids that can be split again. -/
theorem idInside_of_mem_usersOf (h : a.Current w) {ids : List String} {u : Caller}
    (hu : u ∈ a.callers.usersOf ids) : IdInside w.tree .anywhere u.symbol := by
  obtain ⟨-, id, -, hmem⟩ := (Callers.of_mem_usersOf hu).1
  obtain ⟨hentered, g, hg, e, he, hx⟩ := (h.uses _).mp hmem
  have hsettled := (h.entered _ hentered).1
  obtain ⟨-, -, -, -, ⟨user, hsource, huser⟩, -⟩ := hw.of_mem_edges hsettled hg he
  rw [(Prod.mk.inj hx).2]
  exact ⟨_, user, hsource, huser, FileTree.inside_anywhere.mpr hsettled⟩

theorem keptByChanges : KeptByChanges w Path.Legible (fun key => w.tree.key (.ofText key) = key)
    (IdInside w.tree .anywhere) (·.Current w) where
  keys hp := hw.wellFormed.key_ofText_key hp
  users h _ hu := h.idInside_of_mem_usersOf hw hu
  outline _ _ _ := rfl
  analyze h hp := ⟨rfl, h.analyze hw hp⟩
  prepareCallers h hk := ⟨rfl, h.prepareCallers hw hk⟩
  texts := Path.legible_ofText
  files hid hsplit := FileTree.inside_anywhere.mp (hid.file hsplit)
  forget key h := h.forget key

end

/-! ## Passes -/

/-- A file that can be read is named by a path that can be written. -/
theorem indexFile (hw : w.Orderly) (h : a.Current w) (p : Path) : (a.indexFile w p).2.Current w := by
  unfold Atlas.indexFile
  dsimp only
  split
  · exact h
  · rename_i content hread
    have hp := hw.wellFormed.legible_of_isFile (FileTree.isFile_of_read hread)
    split
    · exact h
    · split
      · rename_i node hn
        exact h.store (hw.wellFormed.key_ofText_key hp) _ (build_eq_ok hn).1
      · exact h.forget _

theorem keptByPasses (hw : w.Orderly) : KeptByPasses w (fun _ => True) (·.Current w) where
  indexFile h _ := h.indexFile hw _
  forget key h := h.forget key
  note _ _ h := ⟨h.root, h.cached, h.entered, h.uses, h.shut⟩

/-! ## Requests -/

theorem whenOk (h : a.Current w) {α β : Type} {e : Except ToolError α}
    {f : α → Except ToolError β × Atlas} (hf : ∀ x, e = .ok x → (f x).2.Current w) :
    (ToolRequest.whenOk a e f).2.Current w := by
  cases e with
  | error => exact h
  | ok x => exact hf x rfl

/-- A path that a client may name can be written. -/
theorem legible_of_confine (hw : w.Orderly) (h : a.Current w) {raw : String}
    (hp : a.confine w raw = .ok p) : p.Legible := by
  unfold Atlas.confine FileTree.confine at hp
  dsimp only at hp
  split at hp
  · cases hp
  · split at hp
    · cases hp
    · split at hp
      · obtain rfl := Except.ok.inj hp
        exact hw.wellFormed.legible_settle (h.root.child _)
      · cases hp

theorem run (hw : w.Orderly) (h : a.Current w) (r : ToolRequest) : (r.run a w).2.Current w := by
  have hl : ∀ {raw p}, a.confine w raw = .ok p → p.Legible := h.legible_of_confine hw
  have K := keptByChanges hw
  cases r <;> rw [ToolRequest.run]
  case analyze => exact h.whenOk fun p hp => h.analyze hw (hl hp)
  case crawl => exact h.whenOk fun p hp => K.crawlFrom h (hl hp) _ _
  case expand => exact h.whenOk fun p hp => h.whenOk fun _ _ => K.crawlFrom h (hl hp) _ _
  case invalidate =>
    exact h.whenOk fun paths _ => keeps_invalidateAll (P := (·.Current w)) K.forget h paths
  case rebuild =>
    have hb := (keptByPasses hw).buildIndex h fun _ _ _ => trivial
    split <;> rename_i he <;> rw [he] at hb
    · exact hb
    · exact (keptByPasses hw).recordWarmup hb _
  case unused => exact h.whenOk fun p hp => (K.unusedSymbols h (hl hp)).2
  case dependents => exact h.whenOk fun p hp => (K.dependents h (hl hp) _).2
  case trace => exact h.whenOk fun p hp => K.trace h (hl hp) _ _
  case callers => exact h.whenOk fun p hp => (K.callersOf h (hl hp) _).2
  case impact => exact h.whenOk fun p hp => (K.impact h (hl hp) _ _ _ fun _ => K.files).2
  case usage => exact h.whenOk fun _ _ => h.whenOk fun _ _ => h
  case status => exact h
  -- the other requests leave the atlas as it is
  all_goals exact h.whenOk fun _ _ => h

end Current

end Atlas

/-! ## Histories -/

namespace Session

/-- The path that an act names, requests apart. -/
def Act.path? : Act → Option Path
  | .analyze p | .analyzeLenient p | .crawl p _ | .crawlFrom p _ _ | .dependents p _
  | .callersOf p _ | .unusedSymbols p | .trace p _ _ | .impact p _ _ _ | .invalidate p
  | .change p _ => some p
  | _ => none

/-- A session after a history in one world, in which files are named by paths that can be written. -/
inductive Lived (w : World) : Session → Prop where
  | new {config : WorkspaceConfig} {a : Atlas} (h : Atlas.new w config = .ok a) : Lived w ⟨a, []⟩
  | act {s : Session} (h : Lived w s) (x : Act) (legible : ∀ p ∈ x.path?, p.Legible) :
      Lived w (s.act w x)

variable {w : World} {s : Session}

theorem Lived.reachable (h : s.Lived w) : s.Reachable (· = w) := by
  induction h with
  | new h => exact .new rfl h
  | act _ x _ ih =>
    refine .act ?_ ih x
    rfl

theorem current_act (hw : w.Orderly) (h : s.atlas.Current w) (x : Act)
    (hx : ∀ p ∈ x.path?, p.Legible) : (s.act w x).atlas.Current w := by
  have K := Atlas.Current.keptByChanges hw
  have Kpasses := Atlas.Current.keptByPasses hw
  cases x with
  | analyze p => exact h.analyze hw (hx p rfl)
  | analyzeLenient p => exact K.analyzeLenient h (hx p rfl)
  | crawl p depth => exact K.crawlFrom h (hx p rfl) _ _
  | crawlFrom p known depth => exact K.crawlFrom h (hx p rfl) _ _
  | dependents p name => exact (K.dependents h (hx p rfl) name).2
  | callersOf p name => exact (K.callersOf h (hx p rfl) name).2
  | unusedSymbols p => exact (K.unusedSymbols h (hx p rfl)).2
  | trace p name depth => exact K.trace h (hx p rfl) name depth
  | impact p name transitive depth => exact (K.impact h (hx p rfl) name transitive depth fun _ => K.files).2
  | request r => exact h.run hw r
  | invalidate p => exact h.forget _
  | change p c => exact K.apply h (hx p rfl) c
  | beginIndex =>
    have hb := Kpasses.beginIndex h
    simp only [Session.act]
    split <;> rename_i he <;> rw [he] at hb <;> exact hb
  | indexStep n =>
    simp only [Session.act]
    split
    · exact h
    · exact Kpasses.indexStep h fun _ _ => trivial
  | cancel n => exact h
  | buildIndex => exact Kpasses.buildIndex h fun _ _ _ => trivial
  | recordWarmup summary => exact Kpasses.recordWarmup h summary
  | close => exact h.close

/-- The index of callers keeps up through every history. -/
theorem Lived.current (h : s.Lived w) (hw : w.Orderly) : s.atlas.Current w := by
  induction h with
  | new hnew =>
    have hf := Atlas.fresh_of_new hnew
    obtain ⟨l, hl, hroot⟩ := hf.exists_root hw.wellFormed
    refine ⟨hroot ▸ (hw.wellFormed.home hl).legible, fun k f hk => ?_, fun f hk => ?_,
      fun x => ?_, fun hc => ?_⟩
    · simp [hf.cache] at hk
    · simp [hf.callers, Callers.empty] at hk
    · simp [hf.callers, Callers.empty]
    · simp [hf.closed] at hc
  | act _ x hx ih => exact current_act hw ih x hx

end Session

end DepAtlas
