import DepAtlas.Proofs.UseIndex

/-! # Requests keep what is known

A request that is no order to forget only adds: cached files stay as they are, and so do the imports that
lead to a file. The uses of symbols stay too, but for those that were recorded for a file while nothing
was known of it: they go when the file is entered. An order that is refused takes nothing away.
-/

namespace DepAtlas

/-- Whether a request may forget files. -/
def ToolRequest.forgets : ToolRequest → Bool
  | invalidate _ | rebuild => true
  | _ => false

namespace Atlas

variable {w : World} {a a' a'' : Atlas} {key : String}

/-- A file has come to be known. -/
def Discovers (a a' : Atlas) (file : String) : Prop :=
  a.cache.contains file = false ∧ a'.cache.contains file = true

/-- What is known stays known. What was recorded of the uses of symbols stays as well, unless the file for
which it was recorded has come to be known only now. -/
structure Keeps (a a' : Atlas) : Prop where
  cached : ∀ k f, a.cache.get? k = some f → a'.cache.get? k = some f
  edges : ∀ x ∈ a.importers.edges, x ∈ a'.importers.edges
  uses : ∀ x ∈ a.callers.uses, x ∈ a'.callers.uses ∨ a.Discovers a' x.2.file
  entered : ∀ file ∈ a.callers.entered, file ∈ a'.callers.entered ∨ a.Discovers a' file

namespace Keeps

theorem refl (a : Atlas) : Keeps a a where
  cached _ _ hf := hf
  edges _ hx := hx
  uses _ hx := Or.inl hx
  entered _ hf := Or.inl hf

theorem contains (h : Keeps a a') (hk : a.cache.contains key = true) :
    a'.cache.contains key = true := by
  obtain ⟨f, hf⟩ := NodeCache.contains_iff.mp hk
  exact NodeCache.contains_iff.mpr ⟨f, h.cached key f hf⟩

theorem discovers_left (h : Keeps a' a'') (hd : a.Discovers a' key) : a.Discovers a'' key :=
  ⟨hd.1, h.contains hd.2⟩

theorem discovers_right (h : Keeps a a') (hd : a'.Discovers a'' key) : a.Discovers a'' key := by
  refine ⟨Bool.eq_false_iff.mpr fun hk => ?_, hd.2⟩
  rw [Discovers, h.contains hk] at hd
  cases hd.1

theorem trans (h : Keeps a a') (h' : Keeps a' a'') : Keeps a a'' where
  cached k f hf := h'.cached k f (h.cached k f hf)
  edges x hx := h'.edges x (h.edges x hx)
  uses x hx := by
    rcases h.uses x hx with hx | hd
    · exact (h'.uses x hx).imp_right h.discovers_right
    · exact Or.inr (h'.discovers_left hd)
  entered file hf := by
    rcases h.entered file hf with hf | hd
    · exact (h'.entered file hf).imp_right h.discovers_right
    · exact Or.inr (h'.discovers_left hd)

end Keeps

/-- Entering a file of which nothing is known takes out only uses that were recorded for it. -/
theorem Mirrored.keeps_store (h : a.Mirrored) (hunknown : a.cache.get? key = none) (mark : String)
    (node : FileNode) : Keeps a (a.store key mark node) := by
  have hnew : a.Discovers (a.store key mark node) key := by
    simp [Discovers, NodeCache.contains, Atlas.store, NodeCache.get?_put, hunknown]
  refine ⟨fun k f hf => ?_, fun x hx => ?_, fun x hx => ?_, fun file hf => ?_⟩
  · have hk : k ≠ key := by
      rintro rfl
      rw [hunknown] at hf
      cases hf
    rw [Atlas.store, NodeCache.get?_put, if_neg hk]
    exact hf
  · -- an edge comes from a cached file, which is another one
    obtain ⟨d, hd, rfl⟩ := (h.edges x).mp hx
    have hd' := hd
    obtain ⟨k, f, hf, hdep⟩ := hd'
    have hother : d.source ≠ key := by
      rintro rfl
      rw [(h.own k f hf).2 d hdep, hf] at hunknown
      cases hunknown
    rw [Atlas.store, Importers.mem_edges_foldl_recordDependency]
    exact Or.inl ((mem_edges_remove_iff h).mpr ⟨d, ⟨hd, hother⟩, rfl⟩)
  · by_cases hfile : x.2.file = key
    · exact Or.inr (hfile ▸ hnew)
    · exact Or.inl (Callers.mem_uses_remove.mpr ⟨hx, hfile⟩)
  · by_cases hfile : file = key
    · exact Or.inr (hfile ▸ hnew)
    · exact Or.inl (Callers.mem_entered_remove.mpr ⟨hf, hfile⟩)

theorem keeps_enterUses (a : Atlas) (w : World) (file : String) : Keeps a (a.enterUses w file) := by
  rcases a.enterUses_cases w file with ⟨-, he⟩ | ⟨callers, he, hentered, huses⟩
  · rw [he]
    exact .refl a
  · rw [he]
    refine ⟨fun _ _ hf => hf, fun _ hx => hx, fun x hx => Or.inl ((huses x).mpr (Or.inl hx)),
      fun f hf => Or.inl (Callers.mem_entered_enter.mpr (Or.inl ?_))⟩
    rwa [hentered]

theorem Learn.keeps (h : Learn w a a') (hm : a.Mirrored) : Keeps a a' := by
  cases h with
  | store p named unknown supported read built => exact hm.keeps_store unknown _ _
  | uses file => exact keeps_enterUses a w file

theorem Learns.keeps (h : Learns w a a') (hm : a.Mirrored) : Keeps a a' := by
  induction h with
  | refl => exact .refl a
  | tail hbefore hstep ih => exact ih.trans (hstep.keeps (hm.moves (Learns.moves hbefore)))

/-! ## Orders that are refused -/

theorem confineAll_error {raw : String} {files : List String} {e : ToolError} (hraw : raw ∈ files)
    (h : a.confine w raw = .error e) : ∃ e, ToolRequest.confineAll a w files = .error e := by
  induction files with
  | nil => cases hraw
  | cons first files ih =>
    rw [ToolRequest.confineAll, List.mapM_cons]
    cases hfirst : a.confine w first with
    | error e => exact ⟨e, rfl⟩
    | ok p =>
      have hrest : raw ∈ files := by
        rcases List.mem_cons.mp hraw with rfl | hrest
        · rw [h] at hfirst
          cases hfirst
        · exact hrest
      obtain ⟨e, he⟩ := ih hrest
      rw [ToolRequest.confineAll] at he
      exact ⟨e, by rw [he]; rfl⟩

/-- Files are forgotten only if all of them may be named. -/
theorem run_invalidate_error {files : List String} {e : ToolError}
    (h : ToolRequest.confineAll a w files = .error e) :
    (ToolRequest.invalidate files).run a w = (.error e, a) := by
  rw [ToolRequest.run, h]
  rfl

theorem run_invalidate_ok {files : List String} {paths : List Path}
    (h : ToolRequest.confineAll a w files = .ok paths) :
    ∃ answer, ((ToolRequest.invalidate files).run a w).1 = .ok answer := by
  rw [ToolRequest.run, h]
  exact ⟨_, rfl⟩

/-- A rebuild fails before anything is read. -/
theorem run_rebuild_error {e : ToolError} (h : (ToolRequest.rebuild.run a w).1 = .error e) :
    ∃ status, (ToolRequest.rebuild.run a w).2 = { a with status } := by
  rw [ToolRequest.run] at h ⊢
  unfold buildIndex beginIndex at h ⊢
  cases hs : Scan.files w.tree a.root a.scanOptions with
  | error fault => exact ⟨_, rfl⟩
  | ok files => simp [hs] at h

end Atlas

namespace Session

variable {s : Session}

/-- A request that may not forget files keeps what is known; of the uses of symbols, those that were
recorded for a file that was not known and is known now may go. One that may forget files takes nothing
away if it fails, and one file that may not be named keeps all others from being forgotten. -/
theorem requests_keep_what_is_known (h : s.Reachable fun _ => True) (w : World) (r : ToolRequest) :
    (r.forgets = false → s.atlas.Keeps (r.run s.atlas w).2) ∧
    (r.forgets = true → ∀ e, (r.run s.atlas w).1 = .error e →
      (r.run s.atlas w).2.cache = s.atlas.cache ∧
      (r.run s.atlas w).2.importers = s.atlas.importers ∧
      (r.run s.atlas w).2.callers = s.atlas.callers) ∧
    ∀ files raw e, r = .invalidate files → raw ∈ files → s.atlas.confine w raw = .error e →
      ∃ e, r.run s.atlas w = (.error e, s.atlas) := by
  refine ⟨fun hr => ?_, fun hr e he => ?_, fun files raw e hr hraw he => ?_⟩
  · refine (Atlas.learns_run s.atlas ?_ fun files => ?_).keeps h.mirrored
    · rintro rfl
      cases hr
    · rintro rfl
      cases hr
  · cases r with
    | rebuild =>
      obtain ⟨status, hs⟩ := Atlas.run_rebuild_error he
      rw [hs]
      exact ⟨rfl, rfl, rfl⟩
    | invalidate files =>
      cases hpaths : ToolRequest.confineAll s.atlas w files with
      | error e =>
        rw [Atlas.run_invalidate_error hpaths]
        exact ⟨rfl, rfl, rfl⟩
      | ok paths =>
        obtain ⟨answer, ha⟩ := Atlas.run_invalidate_ok (w := w) hpaths
        rw [ha] at he
        cases he
    | _ => cases hr
  · obtain ⟨e, he⟩ := Atlas.confineAll_error hraw he
    exact ⟨e, hr ▸ Atlas.run_invalidate_error he⟩

end Session

/-- The importing file of the grown workspace has been looked at. -/
def Small.visited : Session :=
  Session.act (Small.world Small.grown) ⟨Small.atlas, []⟩ (.analyze Small.importer)

theorem Small.reachable_visited : visited.Reachable fun _ => True :=
  .act trivial (.new trivial (new_eq _ (Or.inr rfl))) _

/-- The importing file is known. A question about the other file keeps it, with its import; an order to
forget it is refused for another name that leads out of the workspace. -/
theorem Session.requests_keep_what_is_known_small :
    Small.visited.atlas.cache.contains "/w/a.ts" = true ∧
      ((ToolRequest.analyze "b.ts").run Small.visited.atlas
        (Small.world Small.grown)).2.cache.contains "/w/a.ts" = true ∧
      ("/w/b.ts", ⟨"/w/a.ts", 1, "./b", .plain⟩) ∈ ((ToolRequest.analyze "b.ts").run
        Small.visited.atlas (Small.world Small.grown)).2.importers.edges ∧
      ∃ e, (ToolRequest.invalidate ["a.ts", "../o"]).run Small.visited.atlas
        (Small.world Small.grown) = (.error e, Small.visited.atlas) := by
  have hknown : Small.visited.atlas.cache.contains "/w/a.ts" = true := by decide +kernel
  have hedge : ("/w/b.ts", ⟨"/w/a.ts", 1, "./b", .plain⟩) ∈ Small.visited.atlas.importers.edges := by
    decide +kernel
  have hkeeps := (Session.requests_keep_what_is_known Small.reachable_visited
    (Small.world Small.grown) (.analyze "b.ts")).1 rfl
  have hrefused : (Small.visited.atlas.confine (Small.world Small.grown) "../o").toOption = none := by
    decide +kernel
  refine ⟨hknown, hkeeps.contains hknown, hkeeps.edges _ hedge, ?_⟩
  cases hc : Small.visited.atlas.confine (Small.world Small.grown) "../o" with
  | ok p => simp [hc, Except.toOption] at hrefused
  | error e =>
    exact (Session.requests_keep_what_is_known Small.reachable_visited (Small.world Small.grown)
      (.invalidate ["a.ts", "../o"])).2.2 _ _ e rfl (by simp) hc

namespace Replaced

/-- A class with a method whose name has a colon. -/
def source : List UInt8 :=
  "class A\x7b'b.ts:m'()\x7bA\x7d\x7d".toList.map fun c => UInt8.ofNat c.toNat

/-- A workspace with this class. What stands before the last colon of the method's id is the path of a link
to the file. -/
def linked : FileTree :=
  ⟨[(["w"], .directory), (["w", "a.ts"], .file source),
    (["w", "a.ts:A.'b.ts"], .link "a.ts")], []⟩

/-- The workspace with a file in place of the link. -/
def replaced : FileTree := linked.put ["w", "a.ts:A.'b.ts"] (.file [])

theorem new_linked : Atlas.new (Small.world linked) Small.config = .ok Small.atlas := rfl

/-- The impact of the class has been asked for. -/
def asked : Session :=
  Session.act (Small.world linked) ⟨Small.atlas, []⟩ (.request (.impact "a.ts" "A" none none))

theorem reachable_asked : asked.Reachable fun _ => True := .act trivial (.new trivial new_linked) _

/-- A use of the class, recorded for the link. -/
def use : String × Caller := ("/w/a.ts:A", ⟨"/w/a.ts:A.'b.ts:m'", "/w/a.ts:A.'b.ts", false, 1⟩)

theorem use_lost : use ∈ asked.atlas.callers.uses ∧
    use ∉ ((ToolRequest.analyze "a.ts:A.'b.ts").run asked.atlas
      (Small.world replaced)).2.callers.uses := by
  decide +kernel

end Replaced

/-- What was recorded for a link goes when a file stands in its place and is looked at. -/
theorem Session.entering_file_drops_uses_of_link :
    ¬ ∀ (s : Session) (w : World) (r : ToolRequest), (s.Reachable fun _ => True) →
      r.forgets = false → ∀ x ∈ s.atlas.callers.uses, x ∈ (r.run s.atlas w).2.callers.uses := by
  intro h
  obtain ⟨hbefore, hafter⟩ := Replaced.use_lost
  exact hafter (h _ _ _ Replaced.reachable_asked rfl _ hbefore)

end DepAtlas
