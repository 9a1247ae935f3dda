import DepAtlas.Proofs.Changes
import DepAtlas.Proofs.Mirror

/-! # Changes while a pass is running

Between the steps of a pass changes of files may be told to the atlas. A file that had its step is still
known at the end of the pass, as long as no change takes its entry out of the cache for good: before the
workspace has been indexed every such change does, later none for a file that is tracked.
-/

namespace DepAtlas

namespace Atlas

/-- What happens to an atlas while a pass is running. -/
inductive Turn where
  | step
  | changed (p : Path)
  | added (p : Path)
  deriving DecidableEq

/-- An atlas and a pass over it after a turn. -/
def turn (w : World) (s : Atlas × IndexPass) : Turn → Atlas × IndexPass
  | .step => ((s.1.indexStep w s.2).2.2, (s.1.indexStep w s.2).2.1)
  | .changed p => ((s.1.fileChanged w p).2, s.2)
  | .added p => ((s.1.fileAdded w p).2, s.2)

def turns (w : World) (s : Atlas × IndexPass) (ts : List Turn) : Atlas × IndexPass :=
  ts.foldl (turn w) s

/-- Whether a turn takes the entry of a file out of the cache. -/
def evicts (w : World) (k : String) (a : Atlas) : Turn → Bool
  | .step => false
  | .changed p => k = w.tree.key p
  | .added p => k ∈ w.tree.key p :: a.waitingFor w (w.tree.key p)

/-- Whether no turn takes the entry of a file out of the cache. -/
def spares (w : World) (k : String) : Atlas × IndexPass → List Turn → Bool
  | _, [] => true
  | s, t :: ts => !evicts w k s.1 t && spares w k (turn w s t) ts

theorem turns_cons (w : World) (s : Atlas × IndexPass) (t : Turn) (ts : List Turn) :
    turns w s (t :: ts) = turns w (turn w s t) ts :=
  rfl

theorem turns_append (w : World) (s : Atlas × IndexPass) (ts ts' : List Turn) :
    turns w s (ts ++ ts') = turns w (turns w s ts) ts' :=
  List.foldl_append

theorem turns_concat (w : World) (s : Atlas × IndexPass) (ts : List Turn) (t : Turn) :
    turns w s (ts ++ [t]) = turn w (turns w s ts) t :=
  turns_append w s ts [t]

variable {w : World} {a a' : Atlas} {k : String} {p : Path} {content : List UInt8}
  {pass : IndexPass} {s : Atlas × IndexPass}

theorem spares_of_steps {ts : List Turn} (h : ∀ t ∈ ts, t = .step) : spares w k s ts = true := by
  induction ts generalizing s with
  | nil => rfl
  | cons t ts ih =>
    obtain ⟨rfl, hts⟩ := List.forall_mem_cons.mp h
    simpa [spares, evicts] using ih hts

/-! ## One turn -/

theorem alike_turn (s : Atlas × IndexPass) (t : Turn) : Alike s.1 (turn w s t).1 := by
  cases t with
  | step => exact alike_indexStep ..
  | changed p => exact alike_fileChanged ..
  | added p => exact alike_fileAdded ..

theorem alike_turns (s : Atlas × IndexPass) (ts : List Turn) : Alike s.1 (turns w s ts).1 := by
  induction ts generalizing s with
  | nil => exact .refl _
  | cons t ts ih => exact (alike_turn s t).trans (ih _)

theorem moves_turn (hp : ∀ q ∈ s.2.remaining, q.Plain) (t : Turn) :
    Moves w s.1 (turn w s t).1 := by
  cases t with
  | step => exact moves_indexStep _ hp
  | changed p => exact (edits_apply _ _ .modified).moves
  | added p => exact (edits_apply _ _ .added).moves

theorem mem_remaining_turn {t : Turn} (h : p ∈ (turn w s t).2.remaining) : p ∈ s.2.remaining := by
  cases t with
  | step => exact mem_remaining_indexStep h
  | changed => exact h
  | added => exact h

theorem moves_turns (hp : ∀ q ∈ s.2.remaining, q.Plain) (ts : List Turn) :
    Moves w s.1 (turns w s ts).1 := by
  induction ts generalizing s with
  | nil => exact .refl
  | cons t ts ih =>
    exact (moves_turn hp t).trans (ih fun q hq => hp q (mem_remaining_turn hq))

/-- A pass that is running, with a certain list of files before it. -/
def Runs (pass : IndexPass) (files : List Path) : Prop :=
  pass.cancelled = false ∧ pass.remaining = files

theorem Runs.turn {files : List Path} (h : Runs s.2 files) (t : Turn) :
    Runs (turn w s t).2 (if t = .step then files.tail else files) := by
  cases t with
  | step =>
    obtain ⟨hc, rfl⟩ := h
    rcases indexStep_cases s.1 w hc with ⟨hr, he⟩ | ⟨file, rest, hr, he⟩
    · simp only [Atlas.turn, he, hr]
      exact ⟨hc, hr⟩
    · obtain ⟨hrest, hcancel⟩ := stepFile_pass (w := w) s.1 s.2 file rest
      simp only [Atlas.turn, he, hr]
      exact ⟨hcancel.trans hc, hrest⟩
  | changed p => exact h
  | added p => exact h

theorem Runs.turns {files : List Path} (h : Runs s.2 files) (ts : List Turn) :
    Runs (turns w s ts).2 (files.drop (ts.count .step)) := by
  induction ts generalizing s files with
  | nil => exact h
  | cons t ts ih =>
    have ht := ih (h.turn (w := w) t)
    rw [turns_cons]
    cases t with
    | step => simpa using ht
    | changed p => simpa using ht
    | added p => simpa using ht

/-- The step that comes to a file of the pass, if there are as many steps. -/
theorem exists_step {ts : List Turn} {n : Nat} (h : n < ts.count .step) :
    ∃ before after : List Turn, ts = before ++ .step :: after ∧ before.count .step = n := by
  induction ts generalizing n with
  | nil => simp at h
  | cons t ts ih =>
    by_cases ht : t = .step
    · subst ht
      cases n with
      | zero => exact ⟨[], ts, rfl, rfl⟩
      | succ n =>
        obtain ⟨before, after, rfl, hn⟩ := ih (n := n) (by simpa using h)
        exact ⟨.step :: before, after, rfl, by simp [hn]⟩
    · obtain ⟨before, after, rfl, hn⟩ := ih (n := n) (by simpa [List.count_cons, ht] using h)
      exact ⟨t :: before, after, rfl, by simp [ht, hn]⟩

/-! ## After the step of a file -/

/-- A pass that is running and has no file with a certain key before it. -/
structure Past (w : World) (k : String) (pass : IndexPass) : Prop where
  running : pass.cancelled = false
  other : ∀ q ∈ pass.remaining, w.tree.key q ≠ k

theorem Past.turn (h : Past w k s.2) (t : Turn) : Past w k (turn w s t).2 :=
  ⟨(Runs.turn (w := w) ⟨h.running, rfl⟩ t).1, fun q hq => h.other q (mem_remaining_turn hq)⟩

/-- The step that comes to a file of a pass enters it, and no later step comes to it again. -/
theorem past_step (hw : w.tree.WellFormed) {root : Path} {options : Scan.Options}
    {files rest : List Path} {file : Path} {node : FileNode}
    (hs : Scan.files w.tree root options = .ok files) (hrest : (file :: rest).Sublist files)
    (hp : Runs s.2 (file :: rest)) (hr : w.tree.read file = .ok content)
    (hn : s.1.build w (w.tree.key file) content = .ok node) :
    Past w (w.tree.key file) (Atlas.turn w s .step).2 ∧
      ∃ f, (Atlas.turn w s .step).1.cache.get? (w.tree.key file) = some f ∧
        f.mark = markOf content := by
  obtain ⟨hc, hremaining⟩ := Runs.turn (w := w) hp .step
  constructor
  · refine ⟨hc, fun q hq hk => ?_⟩
    have hq' : q ∈ rest := by simpa [hremaining] using hq
    have hnodup := List.nodup_cons.mp (hrest.nodup (Scan.nodup_files hw hs))
    have hlisted : ∀ q ∈ file :: rest, Scan.Listed w.tree root options q := fun q hq =>
      Scan.listed_of_mem_files hs (hrest.subset hq)
    obtain rfl : q = file :=
      (hlisted q (List.mem_cons_of_mem _ hq')).eq_of_key hw (hlisted file List.mem_cons_self) hk
    exact hnodup.1 hq'
  · obtain ⟨hcancelled, hnext⟩ := hp
    rcases indexStep_cases s.1 w hcancelled with ⟨hnil, -⟩ | ⟨file', rest', hcons, he⟩
    · simp [hnil] at hnext
    · obtain ⟨rfl, rfl⟩ : file' = file ∧ rest' = rest := by simpa [hcons] using hnext
      simp only [Atlas.turn, he]
      rw [get?_stepFile, if_pos rfl]
      exact exists_reindexed hr hn _

/-- The steps that are left do not touch the entry of the file. -/
theorem Past.get?_step (h : Past w k s.2) (hf : w.tree.isFile (.ofText k) = true) :
    (Atlas.turn w s .step).1.cache.get? k = s.1.cache.get? k := by
  rcases indexStep_cases s.1 w h.running with ⟨-, he⟩ | ⟨file, rest, hr, he⟩
  · simp only [Atlas.turn, he]
    rw [get?_finishIndex _ h.running, if_pos hf]
  · simp only [Atlas.turn, he]
    rw [get?_stepFile, if_neg]
    rintro rfl
    exact h.other file (by simp [hr]) rfl

/-- Before the workspace has been indexed, the file stays known as long as it is spared. -/
theorem Past.contains_turns (h : Past w k s.2) (hf : w.tree.isFile (.ofText k) = true)
    (hc : s.1.warmup.completed = false) (ts : List Turn) :
    (turns w s ts).1.cache.contains k = (s.1.cache.contains k && spares w k s ts) := by
  induction ts generalizing s with
  | nil => simp [turns, spares]
  | cons t ts ih =>
    have hturn : (Atlas.turn w s t).1.cache.contains k =
        (s.1.cache.contains k && !evicts w k s.1 t) := by
      cases t with
      | step => simp [NodeCache.contains, h.get?_step hf, evicts]
      | changed p =>
        simp only [NodeCache.contains, Atlas.turn, get?_fileChanged hc, evicts]
        split <;> simp [*]
      | added p =>
        simp only [NodeCache.contains, Atlas.turn, get?_fileAdded hc, evicts]
        split <;> simp [*]
    rw [turns_cons, ih (h.turn t) ((congrArg Warmup.completed (alike_turn s t).warmup).trans hc),
      hturn, spares, Bool.and_assoc]

/-- Once the workspace has been indexed, a file that is tracked stays known. -/
theorem Past.contains_turns_of_indexed (h : Past w k s.2) (hk : s.1.Stands w k content)
    (hc : s.1.warmup.completed = true) (ht : s.1.tracks (.ofText k) = true) (ts : List Turn)
    (hts : ∀ p, .changed p ∈ ts → w.tree.key p = k → s.1.tracks p = true)
    (hknown : s.1.cache.contains k = true) : (turns w s ts).1.cache.contains k = true := by
  induction ts generalizing s with
  | nil => exact hknown
  | cons t ts ih =>
    have ha := alike_turn (w := w) s t
    refine ih (h.turn t) (hk.alike ha) ((congrArg Warmup.completed ha.warmup).trans hc)
      ((ha.tracks _).trans ht) (fun p hp hpk => (ha.tracks _).trans ?_) ?_
    · exact hts p (List.mem_cons_of_mem _ hp) hpk
    · cases t with
      | step =>
        rw [NodeCache.contains_iff] at hknown ⊢
        rwa [h.get?_step hk.isFile]
      | changed p =>
        exact hk.contains_fileChanged hc (hts p List.mem_cons_self) hknown
      | added p => exact hk.contains_fileAdded hc ht hknown

/-! ## What is known is up to date -/

/-- What is known of a file, if anything, comes from a content. -/
def UpToDate (a : Atlas) (k : String) (content : List UInt8) : Prop :=
  ∀ f, a.cache.get? k = some f → f.mark = markOf content

theorem UpToDate.move (h : a.UpToDate k content) (hw : w.tree.WellFormed)
    (hr : w.tree.read (.ofText k) = .ok content) (hm : Move w a a') : a'.UpToDate k content := by
  intro f hf
  rcases hm.get?_eq_some hf with hold | ⟨read, node, -, rfl, hread⟩
  · exact h f hold
  · obtain rfl : content = read := Except.ok.inj (hr.symm.trans (hread hw))
    rfl

theorem UpToDate.moves (h : a.UpToDate k content) (hw : w.tree.WellFormed)
    (hr : w.tree.read (.ofText k) = .ok content) (hm : Moves w a a') : a'.UpToDate k content :=
  hm.keeps (P := fun a => a.UpToDate k content) (fun _ _ ha => ha.move hw hr) h

/-! ## A whole pass -/

/-- In a pass that comes to its end, each file has its step. -/
theorem exists_step_of_done {files : List Path} {ts : List Turn} {summary : Summary} {file : Path}
    (hruns : Runs s.2 files)
    (hdone : ((turns w s ts).1.indexStep w (turns w s ts).2).1 = .done summary)
    (hfile : file ∈ files) :
    ∃ (before after : List Turn) (rest : List Path), ts ++ [Turn.step] = before ++ .step :: after ∧
      Runs (turns w s before).2 (file :: rest) ∧ (file :: rest).Sublist files := by
  obtain ⟨n, hn⟩ := List.mem_iff_getElem?.mp hfile
  obtain ⟨hlt, hget⟩ := List.getElem?_eq_some_iff.mp hn
  -- nothing is left at the end, so there are more steps than files
  have hcount : n < (ts ++ [Turn.step]).count .step := by
    obtain ⟨hc, hleft⟩ := hruns.turns (w := w) ts
    rcases indexStep_cases (turns w s ts).1 w hc with ⟨hnil, -⟩ | ⟨file, rest, -, he⟩
    · have hle := List.drop_eq_nil_iff.mp (hleft.symm.trans hnil)
      rw [List.count_append, List.count_singleton_self]
      omega
    · rw [he] at hdone
      cases hdone
  obtain ⟨before, after, hts, hbefore⟩ := exists_step hcount
  have hcons : files.drop n = file :: files.drop (n + 1) := by
    rw [List.drop_eq_getElem_cons hlt, hget]
  refine ⟨before, after, files.drop (n + 1), hts, ?_, hcons ▸ List.drop_sublist n files⟩
  rw [← hcons, ← hbefore]
  exact hruns.turns before

theorem stands_of_listed {root : Path} {options : Scan.Options} {node : FileNode}
    (hw : w.tree.WellFormed) (hl : Scan.Listed w.tree root options p)
    (hsup : w.parsing.supports = Parsing.knowsLanguage) (hr : w.tree.read p = .ok content)
    (hn : a.build w (w.tree.key p) content = .ok node) :
    a.Stands w (w.tree.key p) content := by
  obtain ⟨-, -, hf, -, hk⟩ := hl.readable hw
  obtain ⟨hopen, -⟩ := build_eq_ok hn
  constructor
  · rw [hk]
  · rw [hk, hf]
  · rw [hk, hr]
  · simpa [hk, Parsing.supportsIn, hopen, hsup, Parsing.knowsLanguage] using hl.known
  · exact ⟨node, hn⟩

/-- Changes of the files that a scan lists concern the atlas, unless the way to its root leads through a
directory that is skipped. -/
theorem tracks_of_listed (hw : w.tree.WellFormed) (hl : Scan.Listed w.tree a.root a.scanOptions p)
    (he : Ignore.Exclusions.ofPatterns a.root a.config.exclude = .ok a.exclusions) {base : Location}
    (hroot : a.root = base.path) (hb : w.tree.locate a.root = .ok base)
    (hn : ∀ n ∈ base, n ∉ Ignore.skippedNames) : a.tracks p = true := by
  obtain ⟨hwithin, hkept⟩ := hl.not_excluded hw he hroot hb hn
  simp [tracks, hwithin, hl.known, hkept]

end Atlas

/-! ## A change during the first pass -/

namespace Small

theorem files_tree : Scan.files tree root atlas.scanOptions = .ok [importer] := by
  have hfound : Scan.found tree ⟨root, []⟩ [] ["w"] = [importer] := by decide +kernel
  have hfiles : Scan.files tree root atlas.scanOptions =
      .ok ((Scan.found tree ⟨root, []⟩ [] ["w"]).mergeSort Path.le).eraseReps := rfl
  rw [hfiles, hfound, List.mergeSort_singleton]
  rfl

/-- The atlas when the first pass has begun. -/
def begun : Atlas :=
  { atlas with status := { IndexStatus.counting with state := .indexing, total := 1 } }

theorem beginIndex_eq : atlas.beginIndex (world tree) = (.ok { remaining := [importer] }, begun) := by
  have hf : Scan.files (world tree).tree atlas.root atlas.scanOptions = .ok [importer] := files_tree
  rw [Atlas.beginIndex, hf]
  rfl

theorem exists_build : ∃ node,
    begun.build (world tree) ((world tree).tree.key importer) source = .ok node := by
  have h : (begun.build (world tree) ((world tree).tree.key importer) source).toOption.isSome =
      true := by
    decide +kernel
  cases hb : begun.build (world tree) ((world tree).tree.key importer) source with
  | ok node => exact ⟨node, rfl⟩
  | error e =>
    rw [hb] at h
    cases h

theorem reachable_new : Session.Reachable (fun _ => True) ⟨atlas, []⟩ :=
  .new (w := world tree) trivial (new_eq tree (Or.inl rfl))

end Small

end DepAtlas
