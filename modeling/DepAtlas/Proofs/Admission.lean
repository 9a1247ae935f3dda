import DepAtlas.Proofs.Waiting

/-! # Files that changes let in

A change enters only files that it reads again, each under the path by which it is known. Before that,
containment in the root is asked of the path of the event or of the key of a known file, as it is written.
A link that stands there by now leads wherever it likes, so the file that is read may be outside. As long
as keys of known files are still the paths by which the files are known, and a changed file is inside the
root, all that is known stays inside.
-/

namespace DepAtlas

namespace Atlas

variable {w : World} {a a' : Atlas} {k : String} {p q : Path}

/-! ## What is known after a change -/

theorem Alike.symm (h : Alike a a') : Alike a' a :=
  ⟨h.config.symm, h.root.symm, h.resolver.symm, h.exclusions.symm, h.warmup.symm, h.closed.symm⟩

/-- What can be read does not depend on what is known already. -/
theorem Alike.stands_iff (h : Alike a a') {content : List UInt8} :
    a'.Stands w k content ↔ a.Stands w k content :=
  ⟨fun hs => hs.alike h.symm, fun hs => hs.alike h⟩

/-- A question about a file enters the file if it can be read, and no other. -/
theorem contains_analyze_iff (hw : w.tree.WellFormed) (hq : q.Legible) :
    (a.analyze w q).2.cache.contains k = true ↔
      a.cache.contains k = true ∨ w.tree.key q = k ∧ ∃ content, a.Stands w k content := by
  constructor
  · intro h
    unfold analyze at h
    dsimp only at h
    split at h
    · exact Or.inl h
    · split at h
      · exact Or.inl h
      · rename_i hfile
        split at h
        · exact Or.inl h
        · rename_i hsupported
          split at h
          · exact Or.inl h
          · rename_i content hread
            split at h
            · exact Or.inl h
            · rename_i node hnode
              rw [NodeCache.contains, get?_store] at h
              split at h
              · rename_i hk
                subst hk
                exact Or.inr ⟨rfl, content, hw.key_ofText_key hq, by simpa using hfile, hread,
                  by simpa using hsupported, node, hnode⟩
              · exact Or.inl h
  · rintro (hk | ⟨hkey, content, hstands⟩)
    · exact (learns_analyze a q).contains hk
    · have hr : a.refresh w [q] = (a.analyze w q).2 := analyzeLenient_snd a q
      rw [← hr]
      exact hstands.contains_refresh hkey

theorem contains_refresh_iff (hw : w.tree.WellFormed) {files : List Path}
    (hf : ∀ q ∈ files, q.Legible) (a : Atlas) :
    (a.refresh w files).cache.contains k = true ↔
      a.cache.contains k = true ∨ ∃ q ∈ files, w.tree.key q = k ∧ ∃ content, a.Stands w k content := by
  induction files generalizing a with
  | nil => simp [refresh]
  | cons q files ih =>
    rw [List.forall_mem_cons] at hf
    rw [refresh_cons, ih hf.2, contains_analyze_iff hw hf.1, or_assoc]
    simp only [(learns_analyze a q).alike.stands_iff, List.exists_mem_cons_iff]

theorem legible_reread (hp : p.Legible) (c : Watch.Change) : ∀ q ∈ a.reread w p c, q.Legible := by
  intro q hq
  cases c with
  | modified =>
    obtain rfl := List.mem_singleton.mp (List.mem_of_mem_filter hq)
    exact hp
  | added =>
    obtain ⟨source, -, rfl⟩ := List.mem_map.mp (List.mem_of_mem_filter hq)
    exact Path.legible_ofText source
  | removed =>
    obtain ⟨source, -, rfl⟩ := List.mem_map.mp (List.mem_of_mem_filter hq)
    exact Path.legible_ofText source

/-- What is known after a change was known before and has not been dropped, or it has been read again. -/
theorem contains_apply_iff (hw : w.tree.WellFormed) (hp : p.Legible) (c : Watch.Change) :
    (a.apply w p c).cache.contains k = true ↔
      (a.cache.contains k = true ∧ k ∉ a.dropped w p c) ∨
        a.warmup.completed = true ∧
          ∃ q ∈ a.reread w p c, w.tree.key q = k ∧ ∃ content, a.Stands w k content := by
  have hkept : (a.forgetAll (a.dropped w p c)).2.cache.contains k = true ↔
      a.cache.contains k = true ∧ k ∉ a.dropped w p c := by
    rw [forgetAll_snd, contains_foldl_forget]
    simp
  rw [apply_eq]
  cases a.warmup.completed with
  | false => simpa using hkept
  | true =>
    rw [if_pos rfl, contains_refresh_iff hw (legible_reread hp c), hkept]
    simp only [(alike_forgetAll a _).stands_iff, true_and]

theorem Mirrored.contains_of_mem_referrers (h : a.Mirrored) {key source : String}
    (hs : source ∈ a.referrers key) : a.cache.contains source = true := by
  obtain ⟨target, -, hs⟩ := List.mem_flatMap.mp hs
  obtain ⟨d, hd, -, rfl⟩ := h.mem_sourcesOf.mp hs
  exact hd.contains h

theorem Waits.mem_reread {source : String} (h : a.Waits w (w.tree.key p) source)
    (hd : a.cache.Distinct) (hw : w.tree.WellFormed) (ht : a.tracks (.ofText source) = true)
    (hfile : w.tree.isFile (.ofText source) = true) : .ofText source ∈ a.reread w p .added := by
  have hgone : source ∈ (a.fileAdded w p).1 := (mem_fileAdded hd hw).mpr (Or.inr h)
  refine List.mem_filter.mpr ⟨List.mem_map_of_mem (List.mem_append_left _ hgone), ?_⟩
  rw [ht, hfile]
  rfl

/-- Whether the path by which a file is known is written below the root. -/
def encloses (a : Atlas) (k : String) : Bool := Path.isWithin a.root (.ofText k)

/-- What is read again lies inside, if the known files and the changed one do. -/
theorem encloses_of_mem_reread (h : a.Mirrored) (hw : w.tree.WellFormed) (hp : p.Legible)
    (hin : ∀ k, a.cache.contains k = true → a.encloses k = true) {c : Watch.Change}
    (hchanged : c = .modified → a.encloses (w.tree.key p) = true)
    (hsettled : c ≠ .modified → ∀ k, a.cache.contains k = true → w.tree.key (.ofText k) = k)
    (hq : q ∈ a.reread w p c) : a.encloses (w.tree.key q) = true := by
  have hknown : c ≠ .modified → ∀ k, a.cache.contains k = true →
      a.encloses (w.tree.key (.ofText k)) = true := by
    intro hc k hk
    rw [hsettled hc k hk]
    exact hin k hk
  cases c with
  | modified =>
    obtain rfl := List.mem_singleton.mp (List.mem_of_mem_filter hq)
    exact hchanged rfl
  | added =>
    obtain ⟨hm, htracks⟩ := List.mem_filter.mp hq
    obtain ⟨source, hsource, rfl⟩ := List.mem_map.mp hm
    rcases List.mem_append.mp hsource with hgone | hkey
    · exact hknown (by decide) source (mem_forgetAll_fst.mp hgone).2
    · obtain rfl := List.mem_singleton.mp hkey
      simp only [tracks, Bool.and_eq_true] at htracks
      rw [hw.key_ofText_key hp]
      exact htracks.1.1.1
  | removed =>
    obtain ⟨source, hsource, rfl⟩ := List.mem_map.mp (List.mem_of_mem_filter hq)
    exact hknown (by decide) source (h.contains_of_mem_referrers hsource)

end Atlas

namespace Session

variable {s : Session} {w : World}

/-- After every history, with any links: if all known files are inside the root, a change lets in exactly
those files from outside that it reads again and that can be read, once the workspace has been indexed.
None is read if a changed file is inside the root by the path by which it is known, and if for the other
changes every known file is still known by its key. -/
theorem changes_let_in_only_reread_files (h : s.Reachable fun _ => True) (hw : w.tree.WellFormed)
    (hin : ∀ k, s.atlas.cache.contains k = true → s.atlas.encloses k = true) (text : String)
    (c : Watch.Change) :
    let p := Path.ofText text
    (∀ k, s.atlas.encloses k = false →
      ((s.atlas.apply w p c).cache.contains k = true ↔
        s.atlas.warmup.completed = true ∧
          ∃ q ∈ s.atlas.reread w p c, w.tree.key q = k ∧ ∃ content, s.atlas.Stands w k content)) ∧
    ((c = .modified → s.atlas.encloses (w.tree.key p) = true) →
      (c ≠ .modified → ∀ k, s.atlas.cache.contains k = true → w.tree.key (.ofText k) = k) →
      ∀ k, (s.atlas.apply w p c).cache.contains k = true → s.atlas.encloses k = true) := by
  intro p
  have hp := Path.legible_ofText text
  constructor
  · intro k hout
    rw [Atlas.contains_apply_iff hw hp, or_iff_right]
    rintro ⟨hk, -⟩
    rw [hin k hk] at hout
    cases hout
  · intro hchanged hsettled k hk
    rcases (Atlas.contains_apply_iff hw hp c).mp hk with ⟨hk, -⟩ | ⟨-, q, hq, rfl, -⟩
    · exact hin k hk
    · exact Atlas.encloses_of_mem_reread h.mirrored hw hp hin hchanged hsettled hq

end Session

namespace Small

/-- A workspace with a file that imports one that is there and one that is not. -/
def paired : FileTree where
  entries := [(["w"], .directory),
    (["w", "a.ts"], .file [105, 109, 112, 111, 114, 116, 32, 39, 46, 47, 98, 39, 10,
      105, 109, 112, 111, 114, 116, 32, 39, 46, 47, 99, 39]),
    (["w", "b.ts"], .file [])]
  start := []

/-- The workspace when of the two imported files one has gone and the other has come, and the importing
file has given way to a link to a file outside. -/
def astray : FileTree where
  entries := [(["w"], .directory), (["w", "a.ts"], .link "../o.ts"), (["w", "c.ts"], .file []),
    (["o.ts"], .file [])]
  start := []

theorem reachable_paired : (warmed paired).Reachable fun _ => True := reachable_warmed rfl

theorem known_paired (k : String) (hk : (warmed paired).atlas.cache.contains k = true) :
    k = "/w/a.ts" ∧ (warmed paired).atlas.encloses k = true := by
  have hpaths : (warmed paired).atlas.cache.entries.map (·.1) = ["/w/a.ts"] := by decide +kernel
  rw [← NodeCache.mem_paths, NodeCache.paths, Text.mem_sorted, hpaths, List.mem_singleton] at hk
  subst hk
  exact ⟨rfl, by decide +kernel⟩

theorem stands_outside : (warmed paired).atlas.Stands (world astray) "/o.ts" [] :=
  ⟨by decide +kernel, by decide +kernel, by decide +kernel, by decide +kernel, _, rfl⟩

end Small

/-- Of none of the changes is it true that it keeps files from outside out, with all known files inside. -/
theorem Session.changes_let_in_files_from_outside :
    ¬ ∃ c : Watch.Change, ∀ (s : Session) (w : World) (text : String), (s.Reachable fun _ => True) →
      w.tree.WellFormed →
      (∀ k, s.atlas.cache.contains k = true → s.atlas.encloses k = true) →
      ∀ k, (s.atlas.apply w (.ofText text) c).cache.contains k = true → s.atlas.encloses k = true := by
  rintro ⟨c, h⟩
  have hw : Small.astray.WellFormed := by decide +kernel
  -- the link must not be read again, whatever has happened
  have hnot : ∀ text, .ofText "/w/a.ts" ∉
      (Small.warmed Small.paired).atlas.reread (Small.world Small.astray) (.ofText text) c := by
    intro text hread
    have hcontains := (Atlas.contains_apply_iff (w := Small.world Small.astray) hw
      (Path.legible_ofText text) c).mpr
      (Or.inr ⟨by decide +kernel, _, hread, by decide +kernel, [], Small.stands_outside⟩)
    exact absurd (h _ _ text Small.reachable_paired hw (fun k hk => (Small.known_paired k hk).2) _
      hcontains) (by decide +kernel)
  cases c with
  | modified => exact hnot "/w/a.ts" (by decide +kernel)
  | added =>
    have hwaits : (Small.warmed Small.paired).atlas.Waits (Small.world Small.astray)
        (Small.astray.key (.ofText "/w/c.ts")) "/w/a.ts" := by
      decide +kernel
    exact hnot "/w/c.ts" (hwaits.mem_reread Small.reachable_paired.distinct hw (by decide +kernel)
      (by decide +kernel))
  | removed =>
    have hsource : "/w/a.ts" ∈ (Small.warmed Small.paired).atlas.referrers
        (Small.astray.key (.ofText "/w/b.ts")) := by
      refine List.mem_flatMap.mpr ⟨_, List.mem_append_right _ (List.mem_singleton_self _), ?_⟩
      rw [Importers.sourcesOf, Text.mem_sortedOnce]
      decide +kernel
    exact hnot "/w/b.ts" (List.mem_filter.mpr ⟨List.mem_map_of_mem hsource, by decide +kernel⟩)

/-- A link that has taken the place of the importing file lets a file in; where the importing file still
stands, the arrival of the other file does not. -/
theorem Session.changes_let_in_only_reread_files_small :
    ∃ (s : Session) (w : World), (s.Reachable fun _ => True) ∧ w.tree.WellFormed ∧
      s.atlas.encloses "/o.ts" = false ∧
      (s.atlas.apply (Small.world Small.astray) (.ofText "/w/a.ts") .modified).cache.contains
        "/o.ts" = true ∧
      ∀ k, (s.atlas.apply w (.ofText "/w/c.ts") .added).cache.contains k = true →
        s.atlas.encloses k = true := by
  have hw : (Small.paired.put ["w", "c.ts"] (.file [])).WellFormed := by decide +kernel
  have hin := fun k hk => (Small.known_paired k hk).2
  refine ⟨_, Small.world _, Small.reachable_paired, hw, by decide +kernel, ?_, ?_⟩
  · have h := Session.changes_let_in_only_reread_files (w := Small.world Small.astray)
      Small.reachable_paired (by decide +kernel) hin "/w/a.ts" .modified
    exact (h.1 "/o.ts" (by decide +kernel)).mpr ⟨by decide +kernel, .ofText "/w/a.ts",
      by decide +kernel, by decide +kernel, [], Small.stands_outside⟩
  · have h := Session.changes_let_in_only_reread_files (w := Small.world _)
      Small.reachable_paired hw hin "/w/c.ts" .added
    refine h.2 (by rintro ⟨⟩) fun _ k hk => ?_
    obtain rfl := (Small.known_paired k hk).1
    decide +kernel

end DepAtlas
