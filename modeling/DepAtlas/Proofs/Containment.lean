import DepAtlas.Proofs.SymbolUses

/-! # Requests never leave the root

All requests are served from files inside the root, whatever links there are and wherever they lead.
The exceptions are the requests that go on by the ids of symbols: the name of a symbol may have a colon,
and what stands before it is then taken for a file. If no name has one, there are no exceptions.
-/

namespace DepAtlas

/-! ## Passes -/

theorem Location.isUnder_path_append (base rest : Location) :
    (Location.path (base ++ rest)).isUnder base.path = true := by
  simp [Path.isUnder, Location.path]

/-- A path of a file inside the root that is the one by which the file is known. -/
structure FileTree.Proper (t : FileTree) (root p : Path) : Prop where
  inside : t.Inside root (t.key p)
  ofText_key : Path.ofText (t.key p) = p

/-- What a scan lists lies below the root. -/
theorem Scan.Listed.proper {t : FileTree} {root p : Path} {options : Scan.Options}
    (hw : t.WellFormed) (hroot : t.Home root) (h : Scan.Listed t root options p) :
    t.Proper root p := by
  obtain ⟨-, -, -, -, hkey⟩ := h.readable hw
  refine ⟨?_, hkey⟩
  obtain ⟨-, e, base, l, content, -, hb, rfl, hm, hr⟩ := h
  have hf := hw.lookup_of_mem hm
  -- The root is settled, so the place where it lies is told by its own steps.
  have hbase : root = base.path := by
    rw [← hroot.settled, FileTree.settle, hroot.clean, hb]
  obtain ⟨rest, -, rfl, -⟩ := Scan.reaches_iff.mp hr
  refine hw.inside_key (Path.legible_path (hw.above (by simp [hf])).1) ?_
  rw [hw.settle_path (by simp [hf]) (by simp [hf]), hbase]
  exact Location.isUnder_path_append base rest

namespace Fenced

variable {w : World} {root : Path} {s : Parsing} {a : Atlas} {p : Path}

section

variable (h : Fenced w root s)

include h

theorem indexFile (ha : a.Confined w root) (hp : w.tree.Proper root p) :
    Kept w root (a.indexFile { w with parsing := s } p) (a.indexFile w p) := by
  unfold Atlas.indexFile
  simp only [h.build a hp.inside]
  refine ⟨rfl, ?_⟩
  split
  · exact ha
  · rename_i content hread
    split
    · exact ha
    · split
      · rename_i n hn
        rw [← hp.ofText_key] at hread
        exact ha.store hp.inside _ (h.inside_of_build ha.resolver hp.inside hread hn)
      · exact ha.forget _

theorem keptByPasses : Atlas.KeptByPasses w (w.tree.Proper root) (Atlas.Confined w root) where
  indexFile ha hp := (h.indexFile ha hp).2
  forget key ha := ha.forget key
  note _ _ ha := ha.congr rfl rfl rfl rfl

theorem stepFile (ha : a.Confined w root) (hp : w.tree.Proper root p) (pass : IndexPass)
    (rest : List Path) :
    a.stepFile { w with parsing := s } pass p rest = a.stepFile w pass p rest := by
  have hstart : Atlas.Confined w root
      { a with status := { a.status with currentFile := some (w.tree.key p) } } :=
    ha.congr rfl rfl rfl rfl
  simp only [Atlas.stepFile, (h.indexFile hstart hp).1]

theorem indexAll {files : List Path} (hf : ∀ p ∈ files, w.tree.Proper root p)
    (pass : IndexPass) (ha : a.Confined w root) :
    Atlas.indexAll { w with parsing := s } files pass a = Atlas.indexAll w files pass a := by
  induction files generalizing pass a with
  | nil => rfl
  | cons file rest ih =>
    obtain ⟨hfile, hrest⟩ := List.forall_mem_cons.mp hf
    unfold Atlas.indexAll
    rw [h.stepFile ha hfile pass rest]
    dsimp only
    rw [ih hrest _ (h.keptByPasses.stepFile ha pass hfile rest)]

theorem buildIndex (ha : a.Confined w root) :
    Kept w root (a.buildIndex { w with parsing := s }) (a.buildIndex w) := by
  have hbegin : a.beginIndex { w with parsing := s } = a.beginIndex w := rfl
  have hfiles : ∀ {pass a'}, a.beginIndex w = (.ok pass, a') →
      ∀ p ∈ pass.remaining, w.tree.Proper root p := fun hx p hp =>
    (Scan.listed_of_mem_files (ha.home ▸ (Atlas.beginIndex_eq_ok hx).1) hp).proper h.wellFormed h.home
  have hconf := h.keptByPasses.beginIndex ha
  refine ⟨?_, h.keptByPasses.buildIndex ha hfiles⟩
  unfold Atlas.buildIndex
  rw [hbegin]
  split
  · rfl
  · rename_i hx
    rw [hx] at hconf
    dsimp only
    rw [h.indexAll (hfiles hx) _ hconf]
    rfl

end

end Fenced

/-! ## Requests -/

/-- Whether a request goes on from symbol to symbol by their ids. -/
def ToolRequest.followsIds : ToolRequest → Bool
  | .trace .. => true
  | .impact _ _ transitive _ => transitive.getD true
  | _ => false

/-- The answer to a request as it comes, by the name of the tool and its parameters. -/
def Atlas.answer (a : Atlas) (w : World) (tool : String) (params : Json) :
    Except ToolError Json × Atlas :=
  ToolRequest.whenOk a (ToolRequest.parse tool params) fun r => r.run a w

/-- The answers to requests that come one after the other. -/
def Atlas.serve (w : World) : List (String × Json) → Atlas → List (Except ToolError Json) × Atlas
  | [], a => ([], a)
  | c :: calls, a =>
    let (first, a) := a.answer w c.1 c.2
    let (rest, a) := serve w calls a
    (first :: rest, a)

namespace Kept

variable {w : World} {root : Path} {a : Atlas} {α β : Type}

theorem of {x y : α × Atlas} (h : x = y ∧ y.2.Confined w root) : Kept w root x y := ⟨h.1, h.2⟩

theorem whenOk (ha : a.Confined w root) {e : Except ToolError α}
    {f g : α → Except ToolError β × Atlas} (h : ∀ x, e = .ok x → Kept w root (g x) (f x)) :
    Kept w root (ToolRequest.whenOk a e g) (ToolRequest.whenOk a e f) := by
  cases e with
  | error e => exact ⟨rfl, ha⟩
  | ok x => exact h x rfl

theorem written (write : α → Json) {x y : Except ToolError α × Atlas} (h : Kept w root x y) :
    Kept w root (ToolRequest.written write x) (ToolRequest.written write y) :=
  ⟨congrArg _ h.same, h.confined⟩

end Kept

namespace Fenced

variable {w : World} {root : Path} {s : Parsing} {a : Atlas} {p : Path}

section

variable (h : Fenced w root s)

include h

theorem usage (a : Atlas) (hp : w.tree.Inside root (w.tree.key p)) (targets : Option (List Path)) :
    a.usage { w with parsing := s } p targets = a.usage w p targets := by
  simp only [Atlas.usage, h.outlineIn a.closed hp]

theorem compare (closed : Bool) {key : String} (hk : w.tree.Inside root key) (old new : String)
    (about : Option String) :
    Surface.compare s closed key old new about =
      Surface.compare w.parsing closed key old new about := by
  simp only [Surface.compare, h.outlineIn closed hk]

/-- A request that is about a file is about a file inside the root. -/
theorem whenConfined (ha : a.Confined w root) (raw : String)
    {f g : Path → Except ToolError Json × Atlas}
    (hf : ∀ p, w.tree.Inside root (w.tree.key p) → p.toText = w.tree.key p →
      Kept w root (g p) (f p)) :
    Kept w root (ToolRequest.whenOk a (a.confine { w with parsing := s } raw) g)
      (ToolRequest.whenOk a (a.confine w raw) f) := by
  have hsame : a.confine { w with parsing := s } raw = a.confine w raw := rfl
  rw [hsame]
  refine .whenOk ha fun p hp => ?_
  obtain ⟨hin, htext⟩ := h.inside_of_confine ha hp
  exact hf p hin htext

/-- One request keeps to the root. -/
theorem run (ha : a.Confined w root) (r : ToolRequest)
    (hr : w.ColonFree root ∨ r.followsIds = false) :
    Kept w root (r.run a { w with parsing := s }) (r.run a w) := by
  -- A request that only looks leaves the atlas as it is, so its answer is all that is to be compared.
  have hlook : ∀ {x y : Except ToolError Json}, x = y → Kept w root (x, a) (y, a) := by
    rintro x y rfl
    exact ⟨rfl, ha⟩
  have K := h.keptByQuestions
  cases r <;> dsimp only [ToolRequest.run]
  case analyze file =>
    exact h.whenConfined ha file fun p hp _ => .written _ (h.analyze ha hp).1
  case crawl entry depth =>
    exact h.whenConfined ha entry fun p hp _ => .written _ (h.crawlFrom ha hp _ _).1
  case references file =>
    exact h.whenConfined ha file fun p hp _ => hlook rfl
  case expand file known depth =>
    exact h.whenConfined ha file fun p hp _ => .whenOk ha fun ps _ =>
      .written _ (h.crawlFrom ha hp _ _).1
  case imports file =>
    exact h.whenConfined ha file fun p hp _ => hlook (by rw [h.outline a hp])
  case usage file targets =>
    exact h.whenConfined ha file fun p hp _ => .whenOk ha fun ts _ => hlook (by rw [h.usage a hp])
  case resolve importer specifier =>
    exact h.whenConfined ha importer fun p hp _ => hlook rfl
  case status => exact hlook rfl
  case invalidate files => exact .whenOk ha fun ps _ => ⟨rfl, Atlas.keeps_invalidateAll h.keptByPasses.forget ha ps⟩
  case rebuild =>
    obtain ⟨hsame, hconf⟩ := h.buildIndex ha
    rw [hsame]
    split <;> rename_i hx <;> rw [hx] at hconf
    · exact ⟨rfl, hconf⟩
    · exact ⟨rfl, h.keptByPasses.recordWarmup hconf _⟩
  case symbolGraph file =>
    exact h.whenConfined ha file fun p hp _ => hlook (by rw [h.symbolGraph a hp])
  case unused file =>
    exact h.whenConfined ha file fun p hp _ => .written _ (.of (K.unusedSymbols ha hp))
  case dependents file symbol =>
    exact h.whenConfined ha file fun p hp _ => .written _ (.of (K.dependents ha hp _))
  case trace file symbol depth =>
    have hc : w.ColonFree root := hr.resolve_right (by simp [ToolRequest.followsIds])
    exact h.whenConfined ha file fun p hp _ => .written _ (h.trace hc ha hp _ _)
  case callers file symbol =>
    exact h.whenConfined ha file fun p hp _ => .written _ (.of (K.callersOf ha hp _))
  case breaking file old new symbol =>
    exact h.whenConfined ha file fun p hp htext => hlook (by rw [h.compare a.closed (htext ▸ hp)])
  case impact file symbol transitive depth =>
    refine h.whenConfined ha file fun p hp _ => .written _ (.of (K.impact ha hp _ _ _ fun ht => ?_))
    have hc : w.ColonFree root := hr.resolve_right (by simp [ToolRequest.followsIds, ht])
    exact fun _ _ _ hid hsplit => (hid hc).file hsplit
  case logic file includeExternal =>
    exact h.whenConfined ha file fun p hp _ =>
      hlook (by rw [Atlas.fileLogic, h.symbolGraph a hp, Atlas.fileLogic])

theorem serve (calls : List (String × Json)) (ha : a.Confined w root)
    (hcalls : w.ColonFree root ∨ ∀ c ∈ calls, ∀ r, ToolRequest.parse c.1 c.2 = .ok r →
      r.followsIds = false) :
    Kept w root (Atlas.serve { w with parsing := s } calls a) (Atlas.serve w calls a) := by
  induction calls generalizing a with
  | nil => exact ⟨rfl, ha⟩
  | cons c calls ih =>
    have hfirst : Kept w root (a.answer { w with parsing := s } c.1 c.2) (a.answer w c.1 c.2) :=
      .whenOk ha fun r hr => h.run ha r (hcalls.imp_right fun hf => hf c List.mem_cons_self r hr)
    have hrest := ih hfirst.confined
      (hcalls.imp_right fun hf d hd => hf d (List.mem_cons_of_mem _ hd))
    unfold Atlas.serve
    rw [hfirst.same]
    dsimp only
    rw [hrest.same]
    exact ⟨rfl, hrest.confined⟩

end

end Fenced

/-! ## From a new atlas -/

theorem Atlas.Fresh.home {w : World} {config : WorkspaceConfig} {a : Atlas} (h : a.Fresh w config)
    (hw : w.tree.WellFormed) : w.tree.Home a.root := by
  obtain ⟨l, hl, hroot⟩ := h.exists_root hw
  rw [hroot]
  exact hw.home hl

theorem Atlas.Fresh.confined {w : World} {config : WorkspaceConfig} {a : Atlas} (h : a.Fresh w config)
    (hw : w.tree.WellFormed) : a.Confined w a.root where
  home := rfl
  resolver := h.resolver.trans (h.settle_root hw)
  cached k f hf := by rw [h.cache] at hf; cases hf
  callers _ u hu := by rw [h.callers] at hu; cases hu

/-- Whatever is asked of a new atlas, by requests that do not go on by ids, or where no name has a
colon, all that it learns and tells stays inside the root, and what a file outside the root is to the
parser makes no difference. -/
theorem Atlas.requests_stay_inside {w : World} {config : WorkspaceConfig} {a : Atlas}
    (hw : w.tree.WellFormed) (hnew : Atlas.new w config = .ok a) (calls : List (String × Json))
    (hcalls : w.ColonFree a.root ∨ ∀ c ∈ calls, ∀ r, ToolRequest.parse c.1 c.2 = .ok r →
      r.followsIds = false) :
    w.tree.Home a.root ∧
    (∀ key f, (Atlas.serve w calls a).2.cache.get? key = some f →
      w.tree.Inside a.root key ∧ ∀ d ∈ f.node.dependencies, w.tree.Inside a.root d.target) ∧
    (∀ raw p known depth c, (Atlas.serve w calls a).2.confine w raw = .ok p →
      ((Atlas.serve w calls a).2.crawlFrom w p known depth).1 = .ok c →
        (∀ n ∈ c.nodes, w.tree.Inside a.root n.path) ∧
          ∀ d ∈ c.edges, w.tree.Inside a.root d.target) ∧
    ∀ s, w.parsing.AgreeOn (w.tree.Inside a.root) s →
      Atlas.serve { w with parsing := s } calls a = Atlas.serve w calls a := by
  have hf := Atlas.fresh_of_new hnew
  have hhome := hf.home hw
  have hself : Fenced w a.root w.parsing := ⟨hw, hhome, ⟨fun _ _ _ => rfl, rfl, rfl⟩⟩
  have hconf := (hself.serve calls (hf.confined hw) hcalls).confined
  refine ⟨hhome, fun key f hkey => ?_, fun raw p known depth c hp hc => ?_, fun s hs => ?_⟩
  · obtain ⟨hin, hnode⟩ := hconf.cached key f hkey
    exact ⟨hin, hnode.targets⟩
  · exact (hself.crawlFrom hconf (hself.inside_of_confine hconf hp).1 known depth).2 c hc
  · have hfence : Fenced w a.root s := ⟨hw, hhome, hs⟩
    exact (hfence.serve calls (hf.confined hw) hcalls).same

namespace Leak

/-- A class with a method whose name has a colon. -/
def source : List UInt8 :=
  "class A\x7b'/../../o.ts:m'()\x7bA\x7d\x7d".toList.map fun c => UInt8.ofNat c.toNat

/-- A workspace with this class, and with a link to a file outside. -/
def tree : FileTree :=
  ⟨[(["w"], .directory), (["w", "a.ts"], .file source), (["w", "l.ts"], .link "../o.ts"),
    (["o.ts"], .file [])], []⟩

def world : World := Small.world tree

def impact (transitive : Bool) : String × Json :=
  ("get_impact_analysis", .object [("filePath", .str "a.ts"), ("symbolName", .str "A"),
    ("includeTransitive", .bool transitive)])

/-- Questions about the class and about the link. -/
def calls : List (String × Json) :=
  [impact false, ("analyze_dependencies", .object [("filePath", .str "l.ts")])]

theorem new_eq : Atlas.new world Small.config = .ok Small.atlas := rfl

end Leak

/-- Without what is reached through others, the class is looked at and the file outside is not; nor is
it by its link. -/
theorem Atlas.requests_stay_inside_small :
    (Atlas.serve Leak.world Leak.calls Small.atlas).2.cache.contains "/w/a.ts" = true ∧
      (∀ key f, (Atlas.serve Leak.world Leak.calls Small.atlas).2.cache.get? key = some f →
        Leak.world.tree.Inside Small.atlas.root key) ∧
      ∀ s, Leak.world.parsing.AgreeOn (Leak.world.tree.Inside Small.atlas.root) s →
        Atlas.serve { Leak.world with parsing := s } Leak.calls Small.atlas =
          Atlas.serve Leak.world Leak.calls Small.atlas := by
  have hparse : ∀ c ∈ Leak.calls,
      ((ToolRequest.parse c.1 c.2).toOption.map ToolRequest.followsIds) = some false := by
    decide +kernel
  have hcalls : ∀ c ∈ Leak.calls, ∀ r, ToolRequest.parse c.1 c.2 = .ok r → r.followsIds = false := by
    intro c hc r hr
    simpa [hr, Except.toOption] using hparse c hc
  obtain ⟨-, hcached, -, hsame⟩ := Atlas.requests_stay_inside (by decide +kernel) Leak.new_eq Leak.calls
    (Or.inr hcalls)
  exact ⟨by decide +kernel, fun key f hf => (hcached key f hf).1, hsame⟩

/-- The impact of the class goes on from the method, and takes what stands before the last colon of its
id for a file. -/
theorem Atlas.impact_leaves_root :
    ¬ ∀ (w : World) (config : WorkspaceConfig) (a : Atlas) (calls : List (String × Json)),
      w.tree.WellFormed → Atlas.new w config = .ok a →
        ∀ key f, (Atlas.serve w calls a).2.cache.get? key = some f → w.tree.Inside a.root key := by
  intro h
  have hknown : (Atlas.serve Leak.world [Leak.impact true] Small.atlas).2.cache.contains
      "/o.ts" = true := by decide +kernel
  obtain ⟨f, hf⟩ := NodeCache.contains_iff.mp hknown
  have hin := h _ Small.config _ _ (by decide +kernel) Leak.new_eq "/o.ts" f hf
  exact absurd hin.under (by decide +kernel)

end DepAtlas
