import DepAtlas.Proofs.Changes
import DepAtlas.Proofs.Findings
import DepAtlas.Proofs.Mirror

/-! # Deleted files and directories

When a path has gone, what was known of it and below it is forgotten, together with the files that lead
to the path itself or to a known file below it. A file that leads below the path to a file that nobody
has looked at yet is not among them: its dependency stays in the cache and in the index of importers.
-/

namespace DepAtlas

theorem Path.isUnder_self (p : Path) : p.isUnder p = true := by
  simp [isUnder]

namespace FileTree

variable {t : FileTree} {l m : Location} {steps more : List Step} {p q : Path}

/-! ## Nothing is below a path that leads nowhere -/

theorem followWith_of_append {onLink : Location → List Step → Except FileFault Location}
    (hlink : ∀ l steps m, onLink l (steps ++ more) = .ok m → ∃ m', onLink l steps = .ok m')
    (h : t.followWith onLink l (steps ++ more) = .ok m) :
    ∃ m', t.followWith onLink l steps = .ok m' := by
  induction steps generalizing l with
  | nil => exact ⟨l, rfl⟩
  | cons s steps ih =>
    rw [List.cons_append] at h
    unfold followWith at h ⊢
    split at h
    · cases h
    · cases h
    · cases h
    · split at h
      · exact ih h
      · exact ih h
      · split at h
        · cases h
        · rename_i hname
          rw [if_neg hname]
          split at h
          · cases h
          · exact ih h
          · exact ih h
          · rw [← List.append_assoc] at h
            exact hlink _ _ _ h

theorem follow_of_append {links : Nat} (h : t.follow links l (steps ++ more) = .ok m) :
    ∃ m', t.follow links l steps = .ok m' := by
  induction links generalizing l steps m with
  | zero => exact followWith_of_append (fun _ _ _ h => by cases h) h
  | succ links ih => exact followWith_of_append (fun _ _ _ h => ih h) h

/-- A path that leads somewhere leads there through all paths above it. -/
theorem locate_of_isUnder (hne : p ≠ ⟨false, []⟩) (hu : q.isUnder p = true)
    (h : t.locate q = .ok m) : ∃ l, t.locate p = .ok l := by
  simp only [Path.isUnder, hne, decide_false, Bool.false_or, Bool.and_eq_true,
    decide_eq_true_eq, List.isPrefixOf_iff_prefix] at hu
  obtain ⟨hroot, more, hmore⟩ := hu
  unfold locate at h ⊢
  rw [hroot, ← hmore] at h
  split at h
  · rename_i hr
    rw [if_pos hr]
    exact follow_of_append h
  · rename_i hr
    have hsteps : p.steps ≠ [] := by
      intro he
      exact hne (by cases p; simp_all)
    rw [if_neg hr, if_neg hsteps]
    split at h
    · cases h
    · exact follow_of_append h

/-- Nothing is at a path or below it. -/
def Gone (t : FileTree) (p : Path) : Prop := ∀ q l, q.isUnder p = true → t.locate q ≠ .ok l

theorem gone_of_locate {fault : FileFault} (hne : p ≠ ⟨false, []⟩) (h : t.locate p = .error fault) :
    t.Gone p := by
  intro q m hu hm
  obtain ⟨l, hl⟩ := locate_of_isUnder hne hu hm
  rw [h] at hl
  cases hl

theorem Gone.isFile (h : t.Gone p) (hu : q.isUnder p = true) : t.isFile q = false := by
  cases hq : t.locate q with
  | ok l => exact absurd hq (h q l hu)
  | error fault => simp [FileTree.isFile, entry?, hq]

theorem Gone.settle (h : t.Gone p) (hu : q.clean.isUnder p = true) : t.settle q = q.clean := by
  rcases t.settle_cases q with ⟨l, hl, -⟩ | ⟨-, hs⟩
  · exact absurd hl (h q.clean l hu)
  · exact hs

end FileTree

namespace Atlas

variable {w : World} {a a' : Atlas} {k key : String} {p : Path} {d : Dependency}

/-- An entry after questions was there before, or it is the entry of a file that is there. -/
theorem Learns.get?_cases (h : Learns w a a') (hw : w.tree.WellFormed) {f : CachedFile}
    (hf : a'.cache.get? k = some f) :
    a.cache.get? k = some f ∨
      ∃ content node, a.build w k content = .ok node ∧ f = ⟨markOf content, node⟩ ∧
        w.tree.read (.ofText k) = .ok content := by
  induction h with
  | refl => exact Or.inl hf
  | tail hb hl ih =>
    rcases (Move.learn hl).get?_eq_some hf with hf | ⟨content, node, hn, rfl, hread⟩
    · exact ih hf
    · rw [(Learns.alike hb).build] at hn
      exact Or.inr ⟨content, node, hn, rfl, hread hw⟩

/-- The files that are forgotten when the file or directory `key` has gone. -/
def evicted (a : Atlas) (key : String) : List String :=
  let doomed := a.cache.paths.filter fun cached =>
    cached = key || (Path.ofText cached).isUnder (.ofText key)
  doomed ++ (doomed ++ [key]).flatMap a.importers.sourcesOf

/-- After that files are read again, or nothing else happens. -/
theorem learns_fileDeleted (a : Atlas) (p : Path) :
    Learns w (a.forgetAll (a.evicted (w.tree.key p))).2 (a.fileDeleted w p).2 := by
  unfold fileDeleted evicted
  dsimp only
  split
  · exact learns_refresh _ _
  · exact .refl

theorem get?_fileDeleted (hc : a.warmup.completed = false) :
    (a.fileDeleted w p).2.cache.get? k =
      if k ∈ a.evicted (w.tree.key p) then none else a.cache.get? k := by
  have hf := alike_forgetAll a (a.evicted (w.tree.key p))
  unfold fileDeleted
  dsimp only
  rw [← get?_foldl_forget, ← forgetAll_snd, if_neg]
  · rfl
  · rw [Bool.not_eq_true, ← hc, ← hf.warmup]
    rfl

theorem Holds.contains (hd : a.Holds d) (h : a.Mirrored) : a.cache.contains d.source = true := by
  obtain ⟨k, f, hf, hd⟩ := hd
  rw [(h.own k f hf).2 d hd]
  exact NodeCache.contains_iff.mpr ⟨f, hf⟩

theorem Mirrored.mem_sourcesOf (h : a.Mirrored) :
    k ∈ a.importers.sourcesOf key ↔ ∃ d, a.Holds d ∧ d.target = key ∧ d.source = k := by
  rw [Importers.sourcesOf, Text.mem_sortedOnce, List.mem_map]
  constructor
  · rintro ⟨e, he, rfl⟩
    obtain ⟨d, hd, ht, rfl⟩ := h.mem_lookup_iff.mp he
    exact ⟨d, hd, ht, rfl⟩
  · rintro ⟨d, hd, ht, rfl⟩
    exact ⟨_, h.mem_lookup_iff.mpr ⟨d, hd, ht, rfl⟩, rfl⟩

/-- A dependency leads to the path, or below it to a file that is known. -/
def LeadsTo (a : Atlas) (p : Path) (d : Dependency) : Prop :=
  (Path.ofText d.target).isUnder p = true ∧
    (d.target = p.toText ∨ a.cache.contains d.target = true)

theorem Mirrored.mem_evicted (h : a.Mirrored) (hp : Path.ofText p.toText = p) :
    k ∈ a.evicted p.toText ↔
      (a.cache.contains k = true ∧ (Path.ofText k).isUnder p = true) ∨
        ∃ d, a.Holds d ∧ d.source = k ∧ a.LeadsTo p d := by
  have hself := Path.isUnder_self p
  have hdoomed : ∀ k, k ∈ (a.cache.paths.filter fun cached =>
        cached = p.toText || (Path.ofText cached).isUnder (.ofText p.toText)) ↔
      a.cache.contains k = true ∧ (Path.ofText k).isUnder p = true := by
    intro k
    rw [List.mem_filter, NodeCache.mem_paths, hp, Bool.or_eq_true, decide_eq_true_eq]
    refine and_congr_right fun _ => or_iff_right_of_imp ?_
    rintro rfl
    rwa [hp]
  rw [evicted, List.mem_append, hdoomed, List.mem_flatMap]
  refine or_congr_right ?_
  constructor
  · rintro ⟨target, ht, hk⟩
    obtain ⟨d, hd, rfl, hs⟩ := h.mem_sourcesOf.mp hk
    refine ⟨d, hd, hs, ?_⟩
    rcases List.mem_append.mp ht with ht | ht
    · obtain ⟨hcached, hunder⟩ := (hdoomed _).mp ht
      exact ⟨hunder, Or.inr hcached⟩
    · have htarget := List.mem_singleton.mp ht
      exact ⟨by rwa [htarget, hp], Or.inl htarget⟩
  · rintro ⟨d, hd, hs, hunder, ht⟩
    refine ⟨d.target, ?_, h.mem_sourcesOf.mpr ⟨d, hd, rfl, hs⟩⟩
    rcases ht with ht | ht
    · exact List.mem_append_right _ (List.mem_singleton.mpr ht)
    · exact List.mem_append_left _ ((hdoomed _).mpr ⟨ht, hunder⟩)

/-- A dependency that is read from a file leads to a file, unless its name goes up on its own. -/
theorem isFile_of_build (hw : w.tree.WellFormed) (hr : a.resolver.root.clean = a.resolver.root)
    {content : List UInt8} {node : FileNode} (hn : a.build w k content = .ok node)
    (hd : d ∈ node.dependencies) (hc : Resolve.climbs d.source d.specifier = false) :
    w.tree.isFile (.ofText d.target) = true := by
  obtain ⟨-, o, -, rfl⟩ := build_eq_ok hn
  obtain ⟨i, -, hi⟩ := List.mem_map.mp (mem_dependenciesOf.mp hd)
  obtain ⟨path, hres, -, -, rfl⟩ := link_eq_dependency hi
  exact Resolve.Resolver.isFile_of_resolve hw hr hc hres

/-! ## What a deletion leaves -/

section

variable (h : a.Mirrored) (hw : w.tree.WellFormed) (hp : p.Legible) (hgone : w.tree.Gone p.clean)

include h hw hp hgone

omit h in
theorem ofText_toText_of_gone : w.tree.key p = p.clean.toText ∧ Path.ofText p.clean.toText = p.clean := by
  have hs := hgone.settle (Path.isUnder_self p.clean)
  refine ⟨congrArg Path.toText hs, ?_⟩
  rw [← hs]
  exact hw.ofText_key hp

omit h in
/-- An entry after the deletion stands for a file that is there, or it was there before and has
nothing to do with the path. -/
theorem get?_fileDeleted_cases {f : CachedFile}
    (hf : (a.fileDeleted w p).2.cache.get? k = some f) :
    (a.cache.get? k = some f ∧ k ∉ a.evicted p.clean.toText) ∨
      ∃ content node, a.build w k content = .ok node ∧ f = ⟨markOf content, node⟩ ∧
        w.tree.read (.ofText k) = .ok content := by
  have hl := learns_fileDeleted (w := w) a p
  rw [(ofText_toText_of_gone hw hp hgone).1] at hl
  have halike := alike_forgetAll a (a.evicted p.clean.toText)
  rcases hl.get?_cases hw hf with hf | ⟨content, node, hn, hnode, hread⟩
  · rw [forgetAll_snd, get?_foldl_forget] at hf
    split at hf
    · cases hf
    · rename_i hk
      exact Or.inl ⟨hf, hk⟩
  · rw [halike.build] at hn
    exact Or.inr ⟨content, node, hn, hnode, hread⟩

/-- Nothing at or below the path is known any more. -/
theorem not_isUnder_of_contains_fileDeleted
    (hk : (a.fileDeleted w p).2.cache.contains k = true) :
    (Path.ofText k).isUnder p.clean = false := by
  obtain ⟨f, hf⟩ := NodeCache.contains_iff.mp hk
  refine Bool.eq_false_iff.mpr fun hu => ?_
  rcases get?_fileDeleted_cases hw hp hgone hf with ⟨hf, hout⟩ | ⟨content, -, -, -, hread⟩
  · have hcached := NodeCache.contains_iff.mpr ⟨f, hf⟩
    exact hout ((h.mem_evicted (ofText_toText_of_gone hw hp hgone).2).mpr (Or.inl ⟨hcached, hu⟩))
  · have hfile := FileTree.isFile_of_read hread
    rw [hgone.isFile hu] at hfile
    cases hfile

/-- A dependency that leads to the path or below it is left exactly if its file is kept. -/
theorem holds_fileDeleted_iff (hr : a.resolver.root.clean = a.resolver.root)
    (hu : (Path.ofText d.target).isUnder p.clean = true)
    (hc : Resolve.climbs d.source d.specifier = false) :
    (a.fileDeleted w p).2.Holds d ↔
      a.Holds d ∧ (Path.ofText d.source).isUnder p.clean = false ∧
        ∀ e, a.Holds e → e.source = d.source → ¬ a.LeadsTo p.clean e := by
  obtain ⟨hkey, htext⟩ := ofText_toText_of_gone hw hp hgone
  constructor
  · rintro ⟨k, f, hf, hd⟩
    rcases get?_fileDeleted_cases hw hp hgone hf with ⟨hf, hout⟩ | ⟨content, node, hn, rfl, -⟩
    · rw [h.mem_evicted htext, not_or, not_exists] at hout
      obtain rfl := (h.own k f hf).2 d hd
      have hcached := NodeCache.contains_iff.mpr ⟨f, hf⟩
      refine ⟨⟨_, f, hf, hd⟩, ?_, fun e he hs hle => hout.2 e ⟨he, hs, hle⟩⟩
      exact Bool.eq_false_iff.mpr fun hsource => hout.1 ⟨hcached, hsource⟩
    · have hfile := isFile_of_build hw hr hn hd hc
      rw [hgone.isFile hu] at hfile
      cases hfile
  · rintro ⟨⟨k, f, hf, hd⟩, hsource, hothers⟩
    obtain rfl := (h.own k f hf).2 d hd
    have hout : d.source ∉ a.evicted p.clean.toText := by
      rw [h.mem_evicted htext]
      rintro (⟨-, hunder⟩ | ⟨e, he, hs, hle⟩)
      · rw [hsource] at hunder
        cases hunder
      · exact hothers e he hs hle
    refine ⟨d.source, f, (learns_fileDeleted a p).get?_eq_some ?_, hd⟩
    rw [hkey, forgetAll_snd, get?_foldl_forget, if_neg hout]
    exact hf

end

end Atlas

namespace Session

variable {s : Session} {w : World}

theorem Reachable.clean_resolver_root {allowed : World → Prop} (h : s.Reachable allowed) :
    s.atlas.resolver.root.clean = s.atlas.resolver.root := by
  refine h.atlas_of_moves (P := fun a => a.resolver.root.clean = a.resolver.root)
    (fun w config a _ hn => ?_) fun w a a' _ ha hm => ?_
  · rw [(Atlas.fresh_of_new hn).resolver, FileTree.clean_settle]
  · obtain ⟨-, -, hres, -⟩ := hm.setup
    rw [hres]
    exact ha

/-- After every history, when a path has gone with all that was below it, no file at or below it is
known any more. A dependency that leads there stays exactly if it was there before, its file is not
below the path, and that file has no dependency on the path itself or on a known file below it. So
nothing refers to the path, nor to a file below it that was known or to which nobody led. -/
theorem deletion_keeps_ways_to_unknown_files (h : s.Reachable fun _ => True)
    (hw : w.tree.WellFormed) (text : String) (hgone : w.tree.Gone (Path.ofText text).clean) :
    let p := (Path.ofText text).clean
    let a := (s.atlas.fileDeleted w (.ofText text)).2
    (∀ k, a.cache.contains k = true → (Path.ofText k).isUnder p = false) ∧
    (∀ d, (Path.ofText d.target).isUnder p = true → Resolve.climbs d.source d.specifier = false →
      (a.Holds d ↔ s.atlas.Holds d ∧ (Path.ofText d.source).isUnder p = false ∧
        ∀ e, s.atlas.Holds e → e.source = d.source → ¬ s.atlas.LeadsTo p e)) ∧
    ∀ other, (Path.ofText other).clean.isUnder p = true →
      (∀ d, s.atlas.Holds d → d.target = (Path.ofText other).clean.toText →
        d.target = p.toText ∨ s.atlas.cache.contains d.target = true) →
      (∀ d, a.Holds d → d.target = (Path.ofText other).clean.toText →
        Resolve.climbs d.source d.specifier = false) →
      a.referencesTo w (.ofText other) = [] := by
  intro p a
  have hm := h.mirrored
  have hp := Path.legible_ofText text
  have hholds := fun (d : Dependency) hu hc =>
    Atlas.holds_fileDeleted_iff (d := d) hm hw hp hgone h.clean_resolver_root hu hc
  refine ⟨fun k => Atlas.not_isUnder_of_contains_fileDeleted hm hw hp hgone, hholds, ?_⟩
  intro other hu hled hclimbs
  have hma : a.Mirrored := hm.moves (Atlas.moves_fileDeleted _ _)
  have hs := hgone.settle hu
  have hback : Path.ofText (Path.ofText other).clean.toText = (Path.ofText other).clean := by
    rw [← hs]
    exact hw.ofText_key (Path.legible_ofText other)
  rw [hma.referencesTo_eq, FileTree.key, hs, List.eq_nil_iff_forall_not_mem]
  intro e he
  obtain ⟨d, hd, htarget, -⟩ := hma.mem_lookup_iff.mp he
  have hunder : (Path.ofText d.target).isUnder p = true := by rwa [htarget, hback]
  obtain ⟨hold, -, hothers⟩ := (hholds d hunder (hclimbs d hd htarget)).mp hd
  exact hothers d hold rfl ⟨hunder, hled d hold htarget⟩

end Session

namespace Small

/-- A workspace with a file that imports one in a directory. -/
def nested : FileTree where
  entries := [(["w"], .directory),
    (["w", "a.ts"], .file [105, 109, 112, 111, 114, 116, 32, 39, 46, 47, 100, 47, 98, 39]),
    (["w", "d"], .directory), (["w", "d", "b.ts"], .file [])]
  start := []

/-- The workspace when the directory has gone. -/
def flat : FileTree := { nested with entries := nested.entries.take 2 }

theorem new_nested : Atlas.new (world nested) config = .ok atlas := rfl

/-- The file in the directory. -/
def imported : Path := ⟨true, [.enter "w", .enter "d", .enter "b.ts"]⟩

/-- The importing file has been looked at. -/
def halfKnown : Session := Session.act (world nested) ⟨atlas, []⟩ (.analyze importer)

/-- Both files have been looked at. -/
def known : Session := halfKnown.act (world nested) (.analyze imported)

theorem reachable_halfKnown : halfKnown.Reachable fun _ => True :=
  .act trivial (.new trivial new_nested) _

theorem reachable_known : known.Reachable fun _ => True := .act trivial reachable_halfKnown _

/-- None of the files is in Rust. -/
theorem climbs_known {k : String} {f : CachedFile} (h : known.atlas.cache.get? k = some f)
    (spec : String) : Resolve.climbs k spec = false := by
  have hpaths : known.atlas.cache.entries.map (·.1) = ["/w/a.ts", "/w/d/b.ts"] := by
    decide +kernel
  have hlanguages : ∀ k ∈ ["/w/a.ts", "/w/d/b.ts"], Language.ofPath? (.ofText k) ≠ some .rust := by
    decide +kernel
  have hk := NodeCache.mem_paths.mpr (NodeCache.contains_iff.mpr ⟨f, h⟩)
  rw [NodeCache.paths, Text.mem_sorted, hpaths] at hk
  simp [Resolve.climbs, hlanguages k hk]

theorem gone_flat : flat.Gone (Path.ofText "/w/d").clean := by
  have h : flat.locate (Path.ofText "/w/d").clean = .error .missing := by decide +kernel
  exact FileTree.gone_of_locate (by decide) h

end Small

/-- When both files have been looked at and the directory goes, nothing refers to its file any more. -/
theorem Session.deletion_keeps_ways_to_unknown_files_small :
    ∃ s : Session, (s.Reachable fun _ => True) ∧
      s.atlas.referencesTo (Small.world Small.nested) Small.imported =
        [⟨"/w/a.ts", 1, "./d/b", .plain⟩] ∧
      (s.atlas.fileDeleted (Small.world Small.flat) (.ofText "/w/d")).2.referencesTo
        (Small.world Small.flat) (.ofText "/w/d/b.ts") = [] := by
  refine ⟨Small.known, Small.reachable_known, by decide +kernel, ?_⟩
  have h := Session.deletion_keeps_ways_to_unknown_files (w := Small.world Small.flat)
    Small.reachable_known (by decide +kernel) "/w/d" Small.gone_flat
  refine h.2.2 "/w/d/b.ts" (by decide +kernel) ?_ ?_
  · intro d _ htarget
    rw [htarget]
    exact Or.inr (by decide +kernel)
  · rintro d ⟨k, f, hf, hd⟩ -
    rw [Atlas.get?_fileDeleted rfl] at hf
    split at hf
    · cases hf
    · rw [(Small.reachable_known.mirrored.own k f hf).2 d hd]
      exact Small.climbs_known hf d.specifier

/-- A file of the directory that nobody has looked at keeps its importer, though it has gone. -/
theorem Session.deletion_leaves_dangling_edge :
    ∃ s : Session, (s.Reachable fun _ => True) ∧
      Small.flat.Gone (Path.ofText "/w/d").clean ∧
      (Path.ofText "/w/d/b.ts").isUnder (Path.ofText "/w/d").clean = true ∧
      (s.atlas.fileDeleted (Small.world Small.flat) (.ofText "/w/d")).2.referencesTo
        (Small.world Small.flat) (.ofText "/w/d/b.ts") = [⟨"/w/a.ts", 1, "./d/b", .plain⟩] :=
  ⟨Small.halfKnown, Small.reachable_halfKnown, Small.gone_flat, by decide +kernel,
    by decide +kernel⟩

end DepAtlas
