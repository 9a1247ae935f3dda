import DepAtlas.Proofs.Growth
import DepAtlas.Proofs.Waiting

/-! # Imports that a new file overtakes

When a file has come, the known files are forgotten that waited for it, and no others. An import that led
to another file stays as it is known, also where its name stands for the new file by now: the new file
comes earlier in the search. These imports are the only ones that are known wrongly afterwards, as long as
the new file is none of those that steer a search.
-/

namespace DepAtlas

open Resolve (Resolver)

/-- A dependency is what its name stands for. -/
def Resolve.Resolver.Gives (r : Resolver) (t : FileTree) (d : Dependency) : Prop :=
  (r.file? t d.source d.specifier).map Path.toText = some d.target

instance (r : Resolver) (t : FileTree) (d : Dependency) : Decidable (r.Gives t d) :=
  inferInstanceAs (Decidable (_ = _))

/-- A dependency that was right is right in another tree exactly if its name stands for the same there. -/
theorem Resolve.Resolver.Gives.gives_iff {r : Resolver} {t t' : FileTree} {d : Dependency}
    (h : r.Gives t d) (hw : t.WellFormed) (hw' : t'.WellFormed) :
    r.Gives t' d ↔ r.file? t' d.source d.specifier = r.file? t d.source d.specifier := by
  constructor
  · intro h'
    obtain ⟨p, hp, htarget⟩ := Option.map_eq_some_iff.mp h
    obtain ⟨p', hp', htarget'⟩ := Option.map_eq_some_iff.mp h'
    have hback := (Resolver.settled_of_resolve hw (Resolver.file?_eq_some_iff.mp hp)).1
    have hback' := (Resolver.settled_of_resolve hw' (Resolver.file?_eq_some_iff.mp hp')).1
    rw [hp, hp', ← hback, ← hback', htarget, htarget']
  · intro heq
    rw [Resolver.Gives, heq]
    exact h

namespace Atlas

variable {w : World} {a : Atlas} {k : String} {p : Path} {d : Dependency}

/-- A dependency that is read from a file is what its name stands for. -/
theorem gives_of_build {content : List UInt8} {node : FileNode}
    (hn : a.build w k content = .ok node) (hd : d ∈ node.dependencies) :
    a.resolver.Gives w.tree d := by
  obtain ⟨-, o, -, rfl⟩ := build_eq_ok hn
  obtain ⟨i, -, hi⟩ := List.mem_map.mp (mem_dependenciesOf.mp hd)
  obtain ⟨path, hres, -, -, rfl⟩ := link_eq_dependency hi
  exact Option.map_eq_some_iff.mpr ⟨path, Resolver.file?_eq_some_iff.mpr hres, rfl⟩

theorem holds_fileAdded_cases (ha : a.Mirrored) (hw : w.tree.WellFormed)
    (h : (a.fileAdded w p).2.Holds d) :
    a.resolver.Gives w.tree d ∨ a.Holds d ∧ d.source ∉ (a.fileAdded w p).1 := by
  obtain ⟨k, f, hf, hd⟩ := h
  rcases (learns_apply a p .added).get?_cases hw hf with hf | ⟨content, node, hn, rfl, -⟩
  · right
    rw [get?_forgetAll] at hf
    split at hf
    · cases hf
    · rename_i hout
      rw [(ha.own k f hf).2 d hd]
      exact ⟨⟨k, f, hf, hd⟩, hout⟩
  · left
    rw [(alike_forgetAll a _).build] at hn
    exact gives_of_build hn hd

theorem Holds.fileAdded (h : a.Holds d) (ha : a.Mirrored)
    (hout : d.source ∉ (a.fileAdded w p).1) : (a.fileAdded w p).2.Holds d := by
  obtain ⟨k, f, hf, hd⟩ := h
  obtain rfl := (ha.own k f hf).2 d hd
  exact ⟨d.source, f, (footprint_apply a w p .added).cached d.source f hf hout, hd⟩

end Atlas

namespace Session

variable {s : Session} {w : World}

/-- After every history, if every known dependency is what its name stands for and then one file comes:
whichever path is told to have come, wrong afterwards are exactly the dependencies whose names have come
to stand for something else and whose files neither are the told one nor waited for it. Unless the new
file steers a search otherwise, a name has come to stand for something else exactly if it stands for the
new file now. -/
theorem added_file_leaves_overtaken_imports (h : s.Reachable fun _ => True) {t : FileTree}
    {l : Location} (ht : t.WellFormed) (hw : w.tree.WellFormed) (hgains : t.Gains l w.tree)
    (hright : ∀ d, s.atlas.Holds d → s.atlas.resolver.Gives t d) (p : Path) :
    let key := w.tree.key p
    let r := s.atlas.resolver
    let after := (s.atlas.fileAdded w p).2
    (∀ d, after.Holds d ∧ ¬ r.Gives w.tree d ↔
      s.atlas.Holds d ∧ d.source ≠ key ∧ ¬ s.atlas.Waits w key d.source ∧
        r.file? w.tree d.source d.specifier ≠ r.file? t d.source d.specifier) ∧
    ∀ d, s.atlas.Holds d → r.Undiverted w.tree l d.source d.specifier →
      (r.file? w.tree d.source d.specifier ≠ r.file? t d.source d.specifier ↔
        r.Finds w.tree l d.source d.specifier) := by
  intro key r after
  have hkept : ∀ d, s.atlas.Holds d → (d.source ∉ (s.atlas.fileAdded w p).1 ↔
      d.source ≠ key ∧ ¬ s.atlas.Waits w key d.source) := by
    intro d hd
    rw [Atlas.mem_fileAdded h.distinct hw, not_or, not_and_or]
    simp [hd.contains h.mirrored, key]
  refine ⟨fun d => ⟨?_, ?_⟩, fun d hd hu => ?_⟩
  · rintro ⟨hd, hnot⟩
    obtain ⟨hold, hout⟩ := (Atlas.holds_fileAdded_cases h.mirrored hw hd).resolve_left hnot
    obtain ⟨hother, hwaits⟩ := (hkept d hold).mp hout
    exact ⟨hold, hother, hwaits, mt ((hright d hold).gives_iff ht hw).mpr hnot⟩
  · rintro ⟨hold, hother, hwaits, hchanged⟩
    exact ⟨hold.fileAdded h.mirrored ((hkept d hold).mpr ⟨hother, hwaits⟩),
      mt ((hright d hold).gives_iff ht hw).mp hchanged⟩
  · obtain ⟨q, hq, -⟩ := Option.map_eq_some_iff.mp (hright d hd)
    exact Resolver.file?_ne_iff_finds hgains ht hw h.clean_resolver_root hu hq

end Session

namespace Small

/-- A workspace with a file that imports another, which is in JavaScript. -/
def older : FileTree :=
  ⟨[(["w"], .directory), (["w", "a.ts"], .file source), (["w", "b.js"], .file [])], []⟩

/-- The workspace when a file of the same name in TypeScript has come. -/
def newer : FileTree := older.put ["w", "b.ts"] (.file [])

theorem gains_newer : older.Gains ["w", "b.ts"] newer := FileTree.gains_put (by decide) []

theorem reachable_older : (warmed older).Reachable fun _ => True := reachable_warmed rfl

/-- The import, as it was read. -/
def overtaken : Dependency := ⟨"/w/a.ts", "/w/b.js", .plain, 1, "./b"⟩

theorem read_older :
    (warmed older).atlas.cache.entries.map (fun x => (x.2.node.dependencies, x.2.node.unresolved)) =
      [([overtaken], [])] := by
  decide +kernel

theorem holds_older_iff {d : Dependency} : (warmed older).atlas.Holds d ↔ d = overtaken := by
  have hall := congrArg (List.flatMap Prod.fst) read_older
  rw [List.flatMap_map] at hall
  rw [← List.mem_singleton, ← show _ = [overtaken] from hall, List.mem_flatMap]
  constructor
  · rintro ⟨k, f, hf, hd⟩
    exact ⟨(k, f), NodeCache.mem_entries_of_get? hf, hd⟩
  · rintro ⟨⟨k, f⟩, hf, hd⟩
    exact ⟨k, f, reachable_older.distinct.get?_eq_some_iff.mpr hf, hd⟩

theorem not_waits_older {w : World} {key k : String} : ¬ (warmed older).atlas.Waits w key k := by
  rintro ⟨f, u, -, hf, hu, -⟩
  have hm := List.mem_map_of_mem (f := fun x : String × CachedFile =>
    (x.2.node.dependencies, x.2.node.unresolved)) (NodeCache.mem_entries_of_get? hf)
  rw [read_older, List.mem_singleton, Prod.mk.injEq] at hm
  rw [show f.node.unresolved = [] from hm.2] at hu
  cases hu

theorem gives_older (d : Dependency) (h : (warmed older).atlas.Holds d) :
    (warmed older).atlas.resolver.Gives older d := by
  obtain rfl := holds_older_iff.mp h
  decide +kernel

end Small

/-- The import that the new file overtakes is known as before, though its name stands for the new file. -/
theorem Session.added_file_leaves_overtaken_imports_small :
    ∃ s : Session, (s.Reachable fun _ => True) ∧ s.atlas.warmup.completed = true ∧
      s.atlas.resolver.Finds Small.newer ["w", "b.ts"] "/w/a.ts" "./b" ∧
      (s.atlas.fileAdded (Small.world Small.newer) (.ofText "/w/b.ts")).2.Holds Small.overtaken := by
  have hfinds : (Small.warmed Small.older).atlas.resolver.Finds Small.newer ["w", "b.ts"] "/w/a.ts"
      "./b" :=
    ⟨.ofText "/w/b.ts", by decide +kernel, by decide +kernel⟩
  have h := Session.added_file_leaves_overtaken_imports (w := Small.world Small.newer)
    Small.reachable_older (by decide +kernel) (by decide +kernel) Small.gains_newer
    Small.gives_older (.ofText "/w/b.ts")
  have hchanged := (h.2 Small.overtaken (Small.holds_older_iff.mpr rfl)
    ⟨by decide +kernel, by decide +kernel, by decide +kernel⟩).mpr hfinds
  exact ⟨_, Small.reachable_older, by decide +kernel, hfinds, ((h.1 Small.overtaken).mpr
    ⟨Small.holds_older_iff.mpr rfl, by decide +kernel, Small.not_waits_older, hchanged⟩).1⟩

/-- Not every dependency is what its name stands for when a source file has come and has been told. -/
theorem Session.added_file_leaves_wrong_import :
    ¬ ∀ (s : Session) (t : FileTree) (w : World) (l : Location) (p : Path),
      (s.Reachable fun _ => True) → s.atlas.warmup.completed = true → t.WellFormed →
      w.tree.WellFormed → t.Gains l w.tree → w.tree.key p = l.path.toText →
      (Language.ofPath? p).isSome = true →
      (∀ d, s.atlas.Holds d → s.atlas.resolver.Gives t d) →
      ∀ d, (s.atlas.fileAdded w p).2.Holds d → s.atlas.resolver.Gives w.tree d := by
  intro h
  have hkept : Small.overtaken.source ∉
      ((Small.warmed Small.older).atlas.fileAdded (Small.world Small.newer) (.ofText "/w/b.ts")).1 := by
    rw [Atlas.mem_fileAdded Small.reachable_older.distinct (by decide +kernel)]
    rintro (⟨hkey, -⟩ | hwaits)
    · exact absurd hkey (by decide +kernel)
    · exact Small.not_waits_older hwaits
  have hgives := h _ _ (Small.world Small.newer) _ (.ofText "/w/b.ts") Small.reachable_older
    (by decide +kernel) (by decide +kernel) (by decide +kernel) Small.gains_newer
    (by decide +kernel) (by decide +kernel) Small.gives_older Small.overtaken
    (Atlas.Holds.fileAdded (Small.holds_older_iff.mpr rfl) Small.reachable_older.mirrored hkept)
  exact absurd hgives (by decide +kernel)

end DepAtlas
