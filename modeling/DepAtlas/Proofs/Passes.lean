import DepAtlas.Proofs.Index
import DepAtlas.Proofs.Moves

/-! # What a pass does to the cache

A step of a pass concerns one entry of the cache, that of its file; what becomes of it is told by the
entry before and by the content of the file. The end of a pass takes out the entries of files that are
not there.
-/

namespace DepAtlas.Atlas

variable {w : World} {a a' a'' : Atlas} {k key : String} {p : Path}

/-! ## What stays -/

/-- Two states of one atlas between which neither its setup nor its session has changed. -/
structure Alike (a a' : Atlas) : Prop where
  config : a'.config = a.config
  root : a'.root = a.root
  resolver : a'.resolver = a.resolver
  exclusions : a'.exclusions = a.exclusions
  warmup : a'.warmup = a.warmup
  closed : a'.closed = a.closed

theorem Alike.refl (a : Atlas) : Alike a a := ⟨rfl, rfl, rfl, rfl, rfl, rfl⟩

theorem Alike.trans (h : Alike a a') (h' : Alike a' a'') : Alike a a'' :=
  ⟨h'.config.trans h.config, h'.root.trans h.root, h'.resolver.trans h.resolver,
    h'.exclusions.trans h.exclusions, h'.warmup.trans h.warmup, h'.closed.trans h.closed⟩

theorem nodeOf_congr (h : a'.resolver = a.resolver) (w : World) (key : String) (o : Outline) :
    a'.nodeOf w key o = a.nodeOf w key o := by
  have hl : a'.link w key = a.link w key := by
    funext i
    simp only [link, h]
  simp only [nodeOf, hl]

theorem build_congr (hr : a'.resolver = a.resolver) (hc : a'.closed = a.closed) (w : World)
    (key : String) (content : List UInt8) : a'.build w key content = a.build w key content := by
  have hn : a'.nodeOf w key = a.nodeOf w key := funext (nodeOf_congr hr w key)
  simp only [build, hc, hn]

theorem Alike.build (h : Alike a a') (w : World) (key : String) (content : List UInt8) :
    a'.build w key content = a.build w key content :=
  build_congr h.resolver h.closed w key content

theorem Alike.tracks (h : Alike a a') (p : Path) : a'.tracks p = a.tracks p := by
  simp only [Atlas.tracks, h.root, h.exclusions]

theorem alike_forget (a : Atlas) (key : String) : Alike a (a.forget key).2 :=
  ⟨rfl, rfl, rfl, rfl, rfl, rfl⟩

theorem alike_store (a : Atlas) (key mark : String) (node : FileNode) :
    Alike a (a.store key mark node) :=
  ⟨rfl, rfl, rfl, rfl, rfl, rfl⟩

theorem Learn.alike (h : Learn w a a') : Alike a a' := by
  cases h with
  | store => exact alike_store ..
  | uses file =>
    unfold enterUses
    split
    · exact .refl a
    · exact ⟨rfl, rfl, rfl, rfl, rfl, rfl⟩

theorem Edit.alike (h : Edit w a a') : Alike a a' := by
  cases h with
  | learn h => exact h.alike
  | forget key => exact alike_forget a key

theorem Edits.alike (h : Edits w a a') : Alike a a' := by
  induction h with
  | refl => exact .refl a
  | tail _ he ih => exact ih.trans he.alike

theorem Learns.alike (h : Learns w a a') : Alike a a' := h.edits.alike

/-! ## Entries -/

theorem get?_forget (a : Atlas) (key k : String) :
    (a.forget key).2.cache.get? k = if k = key then none else a.cache.get? k :=
  NodeCache.get?_erase ..

theorem get?_store (a : Atlas) (key mark : String) (node : FileNode) (k : String) :
    (a.store key mark node).cache.get? k = if k = key then some ⟨mark, node⟩ else a.cache.get? k :=
  NodeCache.get?_put ..

theorem get?_foldl_forget (keys : List String) (a : Atlas) (k : String) :
    (keys.foldl (fun a key => (a.forget key).2) a).cache.get? k =
      if k ∈ keys then none else a.cache.get? k := by
  induction keys generalizing a with
  | nil => simp
  | cons key keys ih =>
    rw [List.foldl_cons, ih, get?_forget]
    by_cases hk : k = key
    · simp [hk]
    · simp [hk]

theorem alike_foldl_forget (keys : List String) (a : Atlas) :
    Alike a (keys.foldl (fun a key => (a.forget key).2) a) := by
  induction keys generalizing a with
  | nil => exact .refl a
  | cons key keys ih => exact (alike_forget a key).trans (ih _)

/-- Questions do not touch what is known. -/
theorem Learn.get?_eq_some (h : Learn w a a') {f : CachedFile} (hf : a.cache.get? k = some f) :
    a'.cache.get? k = some f := by
  cases h with
  | store p named unknown =>
    rw [get?_store, if_neg]
    · exact hf
    · rintro rfl
      rw [unknown] at hf
      cases hf
  | uses file =>
    unfold enterUses
    split <;> exact hf

theorem Learns.get?_eq_some (h : Learns w a a') {f : CachedFile} (hf : a.cache.get? k = some f) :
    a'.cache.get? k = some f := by
  induction h with
  | refl => exact hf
  | tail _ hl ih => exact hl.get?_eq_some ih

/-- An entry after a move was there before, or it has been built from the content of its file. -/
theorem Move.get?_eq_some (h : Move w a a') {f : CachedFile} (hf : a'.cache.get? k = some f) :
    a.cache.get? k = some f ∨
      ∃ content node, a.build w k content = .ok node ∧ f = ⟨markOf content, node⟩ ∧
        (w.tree.WellFormed → w.tree.read (.ofText k) = .ok content) := by
  have hstore : ∀ {key content node}, a.build w key content = .ok node →
      (w.tree.WellFormed → w.tree.read (.ofText key) = .ok content) →
      (a.store key (markOf content) node).cache.get? k = some f →
      a.cache.get? k = some f ∨
        ∃ content node, a.build w k content = .ok node ∧ f = ⟨markOf content, node⟩ ∧
          (w.tree.WellFormed → w.tree.read (.ofText k) = .ok content) := by
    intro key content node hb hr hf
    rw [get?_store] at hf
    split at hf
    · rename_i hk
      subst hk
      exact Or.inr ⟨content, node, hb, (Option.some.inj hf).symm, hr⟩
    · exact Or.inl hf
  cases h with
  | learn h =>
    cases h with
    | store p named unknown supported read built => exact hstore built (fun _ => read) hf
    | uses file =>
      unfold enterUses at hf
      split at hf <;> exact Or.inl hf
  | index plain read built =>
    obtain ⟨l, rfl⟩ := plain
    exact hstore built (fun hw => hw.read_key read) hf
  | forget key =>
    rw [get?_forget] at hf
    split at hf
    · cases hf
    · exact Or.inl hf
  | note => exact Or.inl hf
  | close => cases hf

/-- What becomes of the entry of a file when a pass comes to it. -/
def reindexed (a : Atlas) (w : World) (p : Path) (old : Option CachedFile) : Option CachedFile :=
  match w.tree.read p with
  | .error _ => old
  | .ok content =>
    if old.any (·.mark = markOf content) then old
    else (a.build w (w.tree.key p) content).toOption.map (⟨markOf content, ·⟩)

theorem Alike.reindexed (h : Alike a a') (w : World) (p : Path) (old : Option CachedFile) :
    a'.reindexed w p old = a.reindexed w p old := by
  simp only [Atlas.reindexed, h.build]

/-- A file that is understood has an entry for its content when a pass has come to it. -/
theorem exists_reindexed {content : List UInt8} {node : FileNode} (hr : w.tree.read p = .ok content)
    (hn : a.build w (w.tree.key p) content = .ok node) (old : Option CachedFile) :
    ∃ f, a.reindexed w p old = some f ∧ f.mark = markOf content := by
  simp only [reindexed, hr, hn]
  split
  · rename_i hm
    obtain ⟨f, rfl, hf⟩ := (Option.any_eq_true _ _).mp hm
    exact ⟨f, rfl, by simpa using hf⟩
  · exact ⟨_, rfl, rfl⟩

theorem get?_indexFile (a : Atlas) (p : Path) (k : String) :
    (a.indexFile w p).2.cache.get? k =
      if k = w.tree.key p then a.reindexed w p (a.cache.get? k) else a.cache.get? k := by
  unfold indexFile reindexed
  cases hr : w.tree.read p with
  | error fault => simp
  | ok content =>
    by_cases hm : (a.cache.get? (w.tree.key p)).any (·.mark = markOf content) = true
    · by_cases hk : k = w.tree.key p
      · simp [hm, hk]
      · simp [hm, hk]
    · cases hb : a.build w (w.tree.key p) content with
      | ok node =>
        by_cases hk : k = w.tree.key p
        · simp [hm, hk, hb, get?_store, Except.toOption]
        · simp [hm, hk, hb, get?_store]
      | error e =>
        by_cases hk : k = w.tree.key p
        · simp [hm, hk, hb, get?_forget, Except.toOption]
        · simp [hm, hk, hb, get?_forget]

theorem alike_indexFile (a : Atlas) (p : Path) : Alike a (a.indexFile w p).2 := by
  unfold indexFile
  dsimp only
  split
  · exact .refl a
  · split
    · exact .refl a
    · split
      · exact alike_store ..
      · exact alike_forget ..

/-! ## Steps -/

section Steps

variable {pass : IndexPass} {file : Path} {rest : List Path}

theorem alike_stepFile (a : Atlas) (pass : IndexPass) (file : Path) (rest : List Path) :
    Alike a (a.stepFile w pass file rest).2.2 := by
  have h := alike_indexFile (w := w)
    { a with status := { a.status with currentFile := some (w.tree.key file) } } file
  exact ⟨h.config, h.root, h.resolver, h.exclusions, h.warmup, h.closed⟩

theorem get?_stepFile (a : Atlas) (pass : IndexPass) (file : Path) (rest : List Path) (k : String) :
    (a.stepFile w pass file rest).2.2.cache.get? k =
      if k = w.tree.key file then a.reindexed w file (a.cache.get? k) else a.cache.get? k :=
  get?_indexFile { a with status := { a.status with currentFile := some (w.tree.key file) } } file k

/-- A pass that begins has what a scan lists before it. -/
theorem beginIndex_eq_ok (h : a.beginIndex w = (.ok pass, a')) :
    Scan.files w.tree a.root a.scanOptions = .ok pass.remaining ∧ pass.cancelled = false ∧
      Alike a a' := by
  unfold beginIndex at h
  split at h
  · cases h
  · rename_i listed hs
    cases h
    exact ⟨hs, rfl, rfl, rfl, rfl, rfl, rfl, rfl⟩

/-- A step of a pass that is not cancelled ends it, or handles its next file. -/
theorem indexStep_cases (a : Atlas) (w : World) (hc : pass.cancelled = false) :
    (pass.remaining = [] ∧ a.indexStep w pass = (.done pass.summary, pass, a.finishIndex w pass)) ∨
      ∃ file rest, pass.remaining = file :: rest ∧
        a.indexStep w pass = (.progress (a.stepFile w pass file rest).1,
          (a.stepFile w pass file rest).2) := by
  unfold indexStep
  rw [hc]
  cases hr : pass.remaining with
  | nil => exact Or.inl ⟨rfl, rfl⟩
  | cons file rest => exact Or.inr ⟨file, rest, rfl, rfl⟩

theorem get?_sweep (a : Atlas) (k : String) :
    (a.sweep w).cache.get? k = if w.tree.isFile (.ofText k) then a.cache.get? k else none := by
  rw [sweep, get?_foldl_forget]
  by_cases hf : w.tree.isFile (.ofText k) = true
  · simp [hf]
  · cases hg : a.cache.get? k with
    | none => simp
    | some f =>
      have hp : k ∈ a.cache.paths := NodeCache.mem_paths.mpr (NodeCache.contains_iff.mpr ⟨f, hg⟩)
      simp [hf, hp]

theorem alike_finishIndex (a : Atlas) (pass : IndexPass) : Alike a (a.finishIndex w pass) := by
  have hs : Alike a (a.sweep w) := alike_foldl_forget _ a
  unfold finishIndex
  dsimp only
  split
  · exact ⟨rfl, rfl, rfl, rfl, rfl, rfl⟩
  · exact ⟨hs.config, hs.root, hs.resolver, hs.exclusions, hs.warmup, hs.closed⟩

theorem alike_indexStep (a : Atlas) (pass : IndexPass) : Alike a (a.indexStep w pass).2.2 := by
  unfold indexStep
  split
  · exact alike_finishIndex a pass
  · split
    · exact alike_finishIndex a pass
    · exact alike_stepFile ..

theorem get?_finishIndex (a : Atlas) (hc : pass.cancelled = false) (k : String) :
    (a.finishIndex w pass).cache.get? k =
      if w.tree.isFile (.ofText k) then a.cache.get? k else none := by
  rw [← get?_sweep]
  unfold finishIndex
  rw [hc]
  rfl

/-- All steps together: an entry is judged anew for each file with its key. -/
theorem get?_indexAll (files : List Path) (pass : IndexPass) (a : Atlas) (k : String) :
    (indexAll w files pass a).2.2.cache.get? k =
      (files.filter (w.tree.key · = k)).foldl (fun old p => a.reindexed w p old)
        (a.cache.get? k) := by
  induction files generalizing pass a with
  | nil => rfl
  | cons file rest ih =>
    have hi : (indexAll w (file :: rest) pass a).2.2 =
        (indexAll w rest (a.stepFile w pass file rest).2.1 (a.stepFile w pass file rest).2.2).2.2 :=
      rfl
    rw [hi, ih, get?_stepFile, List.filter_cons]
    simp only [(alike_stepFile a pass file rest).reindexed]
    by_cases hk : w.tree.key file = k
    · simp [hk]
    · simp [hk, Ne.symm hk]

theorem alike_indexAll (files : List Path) (pass : IndexPass) (a : Atlas) :
    Alike a (indexAll w files pass a).2.2 := by
  induction files generalizing pass a with
  | nil => exact .refl a
  | cons file rest ih => exact (alike_stepFile a pass file rest).trans (ih _ _)

theorem alike_buildIndex (a : Atlas) : Alike a (a.buildIndex w).2 := by
  unfold buildIndex beginIndex
  split <;> rename_i h
  · split at h <;> cases h
    exact ⟨rfl, rfl, rfl, rfl, rfl, rfl⟩
  · split at h <;> cases h
    refine Alike.trans ?_ ((alike_indexAll _ _ _).trans (alike_finishIndex _ _))
    exact ⟨rfl, rfl, rfl, rfl, rfl, rfl⟩

theorem indexAll_pass (files : List Path) (pass : IndexPass) (a : Atlas) :
    (indexAll w files pass a).2.1.cancelled = pass.cancelled := by
  induction files generalizing pass a with
  | nil => rfl
  | cons file rest ih => exact (ih _ _).trans (stepFile_pass a pass file rest).2

end Steps

end DepAtlas.Atlas
