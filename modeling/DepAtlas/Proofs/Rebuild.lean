import DepAtlas.Proofs.Mirror
import DepAtlas.Proofs.Passes

/-! # A pass against a new beginning

A pass leaves a file alone whose content is the one in the cache. So after a pass the cache agrees with
that of a new atlas in all that a content tells by itself. Where the imports lead is found out anew for
files with another content only; for the others it stays as it was when they were read.
-/

namespace DepAtlas

/-- What an entry of the cache owes to the content of its file alone. -/
def CachedFile.own (f : CachedFile) : String × String × Language × List Symbol :=
  (f.mark, f.node.path, f.node.language, f.node.symbols)

namespace Atlas

variable {w : World} {a b : Atlas} {k : String} {p : Path} {content : List UInt8}
  {listed : List Path}

theorem markOf_injective : Function.Injective markOf := by
  intro c d h
  have hc : c.map (fun b => Char.ofNat b.toNat) = d.map (fun b => Char.ofNat b.toNat) :=
    String.ofList_injective h
  have hv (z : UInt8) : (Char.ofNat z.toNat).toNat = z.toNat := by
    have hz : z.toNat.isValidChar := Or.inl (by have := z.toNat_lt; omega)
    have ho : Char.ofNat z.toNat = Char.ofNatAux z.toNat hz := dif_pos hz
    rw [ho]
    rfl
  refine List.map_injective_iff.mpr (fun x y hxy => ?_) hc
  exact UInt8.toNat_inj.mp (by rw [← hv x, ← hv y, hxy])

theorem own_nodeOf (mark : String) (a : Atlas) (w : World) (k : String) (o : Outline) :
    CachedFile.own ⟨mark, a.nodeOf w k o⟩ =
      (mark, k, o.language, o.declarations.map (Symbol.ofDeclaration k)) :=
  rfl

theorem build_of_open (h : a.closed = false) (w : World) (k : String) (content : List UInt8) :
    a.build w k content =
      (w.parsing.outline k (Text.decodeLenient content)).map (a.nodeOf w k) := by
  simp [build, Parsing.outlineIn, h]

/-! ## A whole pass -/

/-- A pass begins where the patterns are well-formed, and runs to its end. -/
theorem buildIndex_eq_ok (hs : Scan.files w.tree a.root a.scanOptions = .ok listed) :
    ∃ summary reports, (a.buildIndex w).1 = .ok (summary, reports) ∧ summary.cancelled = false := by
  unfold buildIndex beginIndex
  rw [hs]
  exact ⟨_, _, rfl, indexAll_pass listed _ _⟩

/-- Of the files that are listed, only one has a certain key. -/
theorem filter_key_eq (hw : w.tree.WellFormed)
    (hs : Scan.files w.tree a.root a.scanOptions = .ok listed) (hp : p ∈ listed) :
    listed.filter (w.tree.key · = w.tree.key p) = [p] := by
  have hk : ∀ q ∈ listed, decide (w.tree.key q = w.tree.key p) = decide (q = p) := fun q hq =>
    decide_eq_decide.mpr ⟨fun h => (Scan.listed_of_mem_files hs hq).eq_of_key hw
      (Scan.listed_of_mem_files hs hp) h, fun h => by rw [h]⟩
  rw [List.filter_congr hk, List.filter_eq, List.count_eq_one_of_mem (Scan.nodup_files hw hs) hp]
  rfl

/-- The entry of a file after a pass. -/
def entryAfterPass (a : Atlas) (w : World) (p : Path) : Option CachedFile :=
  (a.buildIndex w).2.cache.get? (w.tree.key p)

/-- After a pass, each file that was listed has been judged once. -/
theorem entryAfterPass_eq (hw : w.tree.WellFormed)
    (hs : Scan.files w.tree a.root a.scanOptions = .ok listed) (hp : p ∈ listed) :
    a.entryAfterPass w p = a.reindexed w p (a.cache.get? (w.tree.key p)) := by
  obtain ⟨content, -, hf, -, hk⟩ := (Scan.listed_of_mem_files hs hp).readable hw
  unfold entryAfterPass buildIndex beginIndex
  rw [hs]
  dsimp only
  rw [get?_finishIndex _ (indexAll_pass listed _ _), hk, hf, if_pos rfl, get?_indexAll,
    filter_key_eq hw hs hp]
  rfl

theorem reindexed_of_read (hr : w.tree.read p = .ok content) (hc : a.closed = false)
    {old : Option CachedFile} (ho : old.any (·.mark = markOf content) = false) :
    a.reindexed w p old = (w.parsing.outline (w.tree.key p) (Text.decodeLenient content)).toOption.map
      fun o => ⟨markOf content, a.nodeOf w (w.tree.key p) o⟩ := by
  simp only [reindexed, hr, ho, build_of_open hc]
  cases w.parsing.outline (w.tree.key p) (Text.decodeLenient content) <;> rfl

theorem reindexed_of_mark (hr : w.tree.read p = .ok content) {old : Option CachedFile}
    (ho : old.any (·.mark = markOf content) = true) : a.reindexed w p old = old := by
  simp only [reindexed, hr, ho, if_true]

/-! ## Where entries come from -/

/-- The entry is made from some content, with its imports followed in a world of a kind. -/
def Made (a : Atlas) (allowed : World → Prop) (k : String) (f : CachedFile) : Prop :=
  ∃ w content o, allowed w ∧ w.parsing.outline k (Text.decodeLenient content) = .ok o ∧
    f = ⟨markOf content, a.nodeOf w k o⟩

variable {a' : Atlas} {allowed : World → Prop} {f : CachedFile}

theorem Made.congr (h : a.Made allowed k f) (hr : a'.resolver = a.resolver) :
    a'.Made allowed k f := by
  obtain ⟨w, content, o, ok, ho, rfl⟩ := h
  exact ⟨w, content, o, ok, ho, by rw [nodeOf_congr hr]⟩

theorem made_of_build (ok : allowed w) {node : FileNode} (h : a.build w k content = .ok node) :
    a.Made allowed k ⟨markOf content, node⟩ := by
  obtain ⟨-, o, ho, rfl⟩ := build_eq_ok h
  exact ⟨w, content, o, ok, ho, rfl⟩

end Atlas

namespace Session

variable {allowed : World → Prop} {s : Session}

/-- Each entry was made from some content, with its imports followed in a world of the history. -/
theorem Reachable.made (h : s.Reachable allowed) :
    ∀ k f, s.atlas.cache.get? k = some f → s.atlas.Made allowed k f := by
  refine h.atlas_of_moves (P := fun a => ∀ k f, a.cache.get? k = some f → a.Made allowed k f) ?_ ?_
  · intro w config a _ hn k f hf
    simp [(Atlas.fresh_of_new hn).cache] at hf
  · intro w a a' ok ha hm k f hf
    have hr := hm.setup.2.2.1
    rcases hm.get?_eq_some hf with hold | ⟨content, node, hb, rfl, -⟩
    · exact (ha k f hold).congr hr
    · exact (Atlas.made_of_build ok hb).congr hr

variable {w : World} {b : Atlas} {config : WorkspaceConfig}

end Session

/-! ## The small workspace, indexed twice -/

namespace Small

/-- The session after a pass in the workspace as it is at first. -/
def indexed : Session := Session.act (world tree) ⟨atlas, []⟩ .buildIndex

theorem reachable_indexed : indexed.Reachable fun w => w.parsing = .byGrammar := by
  have hn : Session.Reachable (fun w => w.parsing = .byGrammar) ⟨atlas, []⟩ :=
    .new (w := world tree) rfl (new_eq tree (Or.inl rfl))
  refine .act (w := world tree) ?_ hn .buildIndex
  rfl

theorem alike_indexed : Atlas.Alike atlas indexed.atlas := Atlas.alike_buildIndex atlas

theorem mem_listed {t : FileTree} (ht : t = tree ∨ t = grown) {listed : List Path}
    (h : Scan.files t root atlas.scanOptions = .ok listed) : importer ∈ listed := by
  have hl : Scan.Listed t root atlas.scanOptions importer := by
    rcases ht with rfl | rfl
    all_goals
      refine ⟨by decide +kernel, ⟨root, []⟩, ["w"], ["w", "a.ts"], source, rfl, rfl, rfl, ?_, ?_⟩
      · decide +kernel
      · decide +kernel
  exact hl.mem_files h rfl

theorem entryAfterPass_importer {t : FileTree} (ht : t = tree ∨ t = grown) {a : Atlas}
    (ha : Atlas.Alike atlas a) :
    a.entryAfterPass (world t) importer =
      atlas.reindexed (world t) importer (a.cache.get? (t.key importer)) := by
  have hw : t.WellFormed := by
    rcases ht with rfl | rfl <;> decide +kernel
  have hroot : a.root = root := ha.root
  have hoptions : a.scanOptions = atlas.scanOptions := by rw [Atlas.scanOptions, ha.config]; rfl
  obtain ⟨listed, hl⟩ : ∃ listed, Scan.files t root atlas.scanOptions = .ok listed :=
    Scan.exists_files (e := ⟨root, []⟩) rfl
  rw [← ha.reindexed]
  refine Atlas.entryAfterPass_eq (w := world t) hw ?_ (mem_listed ht hl)
  rw [hroot, hoptions]
  exact hl

end Small

end DepAtlas
