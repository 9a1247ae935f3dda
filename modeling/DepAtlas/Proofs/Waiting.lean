import DepAtlas.Proofs.Footprints

/-! # Files that wait for another

An import that leads nowhere may lead to a file that comes later; until then the importing file waits
for it. When the file has come, exactly the files that wait for it are forgotten, and nobody waits for it
any more: an entry that was kept did not wait, and one that is made now finds the file.
-/

namespace DepAtlas

namespace Atlas

variable {w : World} {a : Atlas} {key source : String}

/-- A known file has an import that led nowhere and now leads to the file `key`. -/
def Waits (a : Atlas) (w : World) (key source : String) : Prop :=
  ∃ f u p, a.cache.get? source = some f ∧ u ∈ f.node.unresolved ∧
    a.resolver.resolve w.tree source u.specifier = .ok (.resolved p) ∧ p.toText = key

theorem waits_iff : a.Waits w key source ↔
    (a.cache.get? source).any (fun f => f.node.unresolved.any fun u =>
      (a.resolver.file? w.tree source u.specifier).any (·.toText = key)) = true := by
  simp only [Waits, Option.any_eq_true, List.any_eq_true, decide_eq_true_eq,
    Resolve.Resolver.file?_eq_some_iff]
  constructor
  · rintro ⟨f, u, p, hf, hu, hp, hkey⟩
    exact ⟨f, hf, u, hu, p, hp, hkey⟩
  · rintro ⟨f, hf, u, hu, p, hp, hkey⟩
    exact ⟨f, u, p, hf, hu, hp, hkey⟩

instance (a : Atlas) (w : World) (key source : String) : Decidable (a.Waits w key source) :=
  decidable_of_iff _ waits_iff.symm

theorem mem_waitingFor (hd : a.cache.Distinct) (hw : w.tree.WellFormed) :
    source ∈ a.waitingFor w key ↔ a.Waits w key source := by
  simp only [waitingFor, Text.mem_sorted, List.mem_map, List.mem_filter, List.any_eq_true,
    Option.any_eq_true, decide_eq_true_eq, Resolve.Resolver.file?_eq_some_iff]
  constructor
  · rintro ⟨⟨_, f⟩, ⟨hm, u, hu, p, hp, hkey⟩, rfl⟩
    refine ⟨f, u, p, hd.get?_eq_some_iff.mpr hm, hu, hp, ?_⟩
    rw [← hkey, (Resolve.Resolver.settled_of_resolve hw hp).2]
  · rintro ⟨f, u, p, hf, hu, hp, hkey⟩
    refine ⟨(source, f), ⟨NodeCache.mem_entries_of_get? hf, u, hu, p, hp, ?_⟩, rfl⟩
    rw [← hkey, (Resolve.Resolver.settled_of_resolve hw hp).2]

theorem Waits.contains (h : a.Waits w key source) : a.cache.contains source = true := by
  obtain ⟨f, -, -, hf, -⟩ := h
  exact NodeCache.contains_iff.mpr ⟨f, hf⟩

/-- The files that are told when a file has come: it and those that waited for it, if they were known. -/
theorem mem_fileAdded (hd : a.cache.Distinct) (hw : w.tree.WellFormed) {p : Path} :
    source ∈ (a.fileAdded w p).1 ↔
      (source = w.tree.key p ∧ a.cache.contains source = true) ∨
        a.Waits w (w.tree.key p) source := by
  have htold : (a.fileAdded w p).1 = (a.forgetAll (a.dropped w p .added)).1 := rfl
  rw [htold, mem_forgetAll_fst, dropped, List.mem_cons, mem_waitingFor hd hw]
  constructor
  · rintro ⟨rfl | hwaits, hk⟩
    · exact Or.inl ⟨rfl, hk⟩
    · exact Or.inr hwaits
  · rintro (⟨rfl, hk⟩ | hwaits)
    · exact ⟨Or.inl rfl, hk⟩
    · exact ⟨Or.inr hwaits, hwaits.contains⟩

/-! ## Entries that are made now -/

/-- An import that leads to a source file is not told to lead nowhere. -/
theorem link_eq_unresolved {i : Import} {u : Unresolved} (h : a.link w key i = .unresolved u) :
    u.specifier = i.specifier ∧ ∀ p, a.resolver.resolve w.tree key i.specifier = .ok (.resolved p) →
      Language.ofPath? p = none := by
  unfold link at h
  dsimp only at h
  split at h <;> rename_i hr
  · obtain rfl := Link.unresolved.inj h
    exact ⟨rfl, fun p hp => by rw [hr] at hp; cases hp⟩
  · obtain rfl := Link.unresolved.inj h
    exact ⟨rfl, fun p hp => by rw [hr] at hp; cases hp⟩
  · split at h
    · rename_i hlanguage
      obtain rfl := Link.unresolved.inj h
      refine ⟨rfl, fun p hp => ?_⟩
      obtain rfl := Resolve.Resolution.resolved.inj (Except.ok.inj (hr.symm.trans hp))
      simpa using hlanguage
    · split at h <;> cases h

theorem mem_unresolvedOf {links : List Link} {u : Unresolved} :
    u ∈ unresolvedOf links ↔ .unresolved u ∈ links := by
  rw [unresolvedOf, List.mem_filterMap]
  constructor
  · rintro ⟨x, hx, hu⟩
    cases x <;> simp only [Option.some.injEq, reduceCtorEq] at hu
    exact hu ▸ hx
  · intro h
    exact ⟨_, h, rfl⟩

theorem language_of_unresolved {content : List UInt8} {node : FileNode} {u : Unresolved} {p : Path}
    (hn : a.build w source content = .ok node) (hu : u ∈ node.unresolved)
    (hp : a.resolver.resolve w.tree source u.specifier = .ok (.resolved p)) :
    Language.ofPath? p = none := by
  obtain ⟨-, o, -, rfl⟩ := build_eq_ok hn
  obtain ⟨i, -, hi⟩ := List.mem_map.mp (mem_unresolvedOf.mp hu)
  obtain ⟨hspec, hlanguage⟩ := link_eq_unresolved hi
  exact hlanguage p (hspec ▸ hp)

/-! ## When the file has come -/

/-- Files that are told in order, with one of them in front if it was known. -/
theorem exists_told_in_order {xs : List String} (hxs : xs.Pairwise (· ≤ ·))
    (hknown : ∀ x ∈ xs, a.cache.contains x = true) :
    ∃ others, (a.forgetAll (key :: xs)).1 =
        (if a.cache.contains key then [key] else []) ++ others ∧
      others.Pairwise (· < ·) ∧ ∀ x, x ∈ others ↔ x ≠ key ∧ x ∈ xs := by
  have hfilter : xs.filter a.cache.contains = xs := List.filter_eq_self.mpr hknown
  have hsublist : (xs.filter fun x => !x == key).eraseDups.Sublist xs :=
    (Text.eraseDups_sublist _).trans List.filter_sublist
  refine ⟨(xs.filter fun x => !x == key).eraseDups, ?_, ?_, fun x => ?_⟩
  · rw [forgetAll_fst, List.filter_cons, hfilter]
    split
    · rw [List.eraseDups_cons, List.singleton_append]
    · rename_i hkey
      rw [List.nil_append, List.filter_eq_self.mpr]
      intro x hx
      have hne : x ≠ key := by
        rintro rfl
        exact hkey (hknown x hx)
      simpa using hne
  · exact (hxs.sublist hsublist).imp₂ (fun _ _ => lt_of_le_of_ne) (Text.nodup_eraseDups _)
  · rw [List.mem_eraseDups, List.mem_filter, and_comm]
    simp

theorem not_waits_fileAdded (hd : a.cache.Distinct) (hw : w.tree.WellFormed) {p : Path}
    (hsource : (Language.ofPath? (.ofText (w.tree.key p))).isSome = true) :
    ¬ (a.fileAdded w p).2.Waits w (w.tree.key p) source := by
  rintro ⟨f, u, q, hf, hu, hq, hkey⟩
  rw [(alike_fileAdded a p).resolver] at hq
  rcases (learns_apply a p .added).get?_cases hw hf with hf | ⟨content, node, hn, rfl, -⟩
  · -- the entry was kept, so its file did not wait
    rw [get?_forgetAll] at hf
    split at hf
    · cases hf
    · rename_i hout
      exact hout ((mem_fileAdded hd hw).mpr (Or.inr ⟨f, u, q, hf, hu, hq, hkey⟩))
  · rw [(alike_forgetAll a _).build] at hn
    have hlanguage := language_of_unresolved hn hu hq
    rw [← hkey, (Resolve.Resolver.settled_of_resolve hw hq).1, hlanguage] at hsource
    cases hsource

end Atlas

namespace Session

variable {s : Session} {w : World}

theorem Reachable.distinct {allowed : World → Prop} (h : s.Reachable allowed) :
    s.atlas.cache.Distinct := by
  refine h.atlas_of_moves (P := fun a => a.cache.Distinct) (fun w config a _ hn => ?_) ?_
  · rw [(Atlas.fresh_of_new hn).cache]
    exact NodeCache.distinct_empty
  · intro w a a' _ ha hm
    cases hm with
    | learn hl =>
      cases hl with
      | store => exact ha.put ..
      | uses file =>
        rw [Atlas.cache_enterUses]
        exact ha
    | index => exact ha.put ..
    | forget key => exact ha.erase key
    | note => exact ha
    | close => exact NodeCache.distinct_empty

/-- After every history, when a file is told to have come, the answer names each file once: the file
itself in front, if it was known, and then in order exactly the other known files that have an import
that led nowhere and now leads to it. If it is a source file, no file waits for it afterwards, whether
or not files are read again. -/
theorem added_file_ends_waiting (h : s.Reachable fun _ => True) (hw : w.tree.WellFormed) (p : Path) :
    let key := w.tree.key p
    let told := s.atlas.fileAdded w p
    told.1.Nodup ∧
    (∃ others, told.1 = (if s.atlas.cache.contains key then [key] else []) ++ others ∧
      others.Pairwise (· < ·) ∧
      ∀ source, source ∈ others ↔ source ≠ key ∧ s.atlas.Waits w key source) ∧
    ((Language.ofPath? (.ofText key)).isSome = true →
      ∀ source, ¬ told.2.Waits w key source) := by
  intro key told
  have hd := h.distinct
  have hmem : ∀ source, source ∈ s.atlas.waitingFor w key ↔ s.atlas.Waits w key source :=
    fun source => Atlas.mem_waitingFor hd hw
  have htold : told.1 = (s.atlas.forgetAll (key :: s.atlas.waitingFor w key)).1 := rfl
  refine ⟨?_, ?_, fun hsource source => Atlas.not_waits_fileAdded hd hw hsource⟩
  · rw [htold, Atlas.forgetAll_fst]
    exact Text.nodup_eraseDups _
  · have hsorted : (s.atlas.waitingFor w key).Pairwise (· ≤ ·) := Text.pairwise_sorted _
    obtain ⟨others, heq, horder, hothers⟩ := Atlas.exists_told_in_order hsorted
      fun source hsource => ((hmem source).mp hsource).contains
    refine ⟨others, htold.trans heq, horder, fun source => ?_⟩
    rw [hothers, hmem]

end Session

namespace Small

/-- The importing file has been read, and the workspace is told to have been indexed. -/
def warmed (t : FileTree) : Session :=
  (Session.act (world t) ⟨atlas, []⟩ (.analyze importer)).act (world t)
    (.recordWarmup ⟨1, 0, 0, false⟩)

theorem reachable_warmed {t : FileTree} (h : Atlas.new (world t) config = .ok atlas) :
    (warmed t).Reachable fun _ => True :=
  .act trivial (.act trivial (.new trivial h) _) _

end Small

/-- When the imported file has come, its importer is told and has stopped waiting. -/
theorem Session.added_file_ends_waiting_small :
    ∃ s : Session, (s.Reachable fun _ => True) ∧ s.atlas.warmup.completed = true ∧
      s.atlas.Waits (Small.world Small.grown) "/w/b.ts" "/w/a.ts" ∧
      "/w/a.ts" ∈ (s.atlas.fileAdded (Small.world Small.grown) (.ofText "/w/b.ts")).1 ∧
      ∀ source, ¬ (s.atlas.fileAdded (Small.world Small.grown) (.ofText "/w/b.ts")).2.Waits
        (Small.world Small.grown) "/w/b.ts" source := by
  have hkey : (Small.world Small.grown).tree.key (.ofText "/w/b.ts") = "/w/b.ts" := by
    decide +kernel
  have hs := Small.reachable_warmed (Small.new_eq Small.tree (Or.inl rfl))
  have hwaits : (Small.warmed Small.tree).atlas.Waits (Small.world Small.grown) "/w/b.ts"
      "/w/a.ts" := by
    decide +kernel
  obtain ⟨-, ⟨others, htold, -, hothers⟩, hended⟩ := Session.added_file_ends_waiting hs
    (w := Small.world Small.grown) (by decide +kernel) (.ofText "/w/b.ts")
  rw [hkey] at hothers hended
  refine ⟨_, hs, by decide +kernel, hwaits, ?_, hended (by decide +kernel)⟩
  rw [htold]
  exact List.mem_append_right _ ((hothers _).mpr ⟨by decide, hwaits⟩)

end DepAtlas
