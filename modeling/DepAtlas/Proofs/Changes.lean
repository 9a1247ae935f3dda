import DepAtlas.Proofs.Passes

/-! # What a change does to the cache

A change that is told to an atlas takes entries out of the cache. As long as the workspace has not been
indexed, they stay out. After that they are entered again, as far as changes of their files concern the
atlas.
-/

namespace DepAtlas.Atlas

variable {w : World} {a a' : Atlas} {k : String} {p : Path} {content : List UInt8}

/-! ## Forgetting -/

theorem forgetAll_concat (a : Atlas) (keys : List String) (key : String) :
    a.forgetAll (keys ++ [key]) =
      let (gone, a) := a.forgetAll keys
      (if a.cache.contains key && !gone.contains key then gone ++ [key] else gone,
        (a.forget key).2) := by
  unfold forgetAll
  rw [List.foldl_append, List.foldl_cons, List.foldl_nil]
  generalize List.foldl _ _ keys = s
  obtain ⟨gone, a⟩ := s
  cases hc : a.cache.contains key <;> cases hg : gone.contains key <;> simp [forget, hc]

theorem forgetAll_snd (a : Atlas) (keys : List String) :
    (a.forgetAll keys).2 = keys.foldl (fun a key => (a.forget key).2) a := by
  induction keys using List.reverseRecOn with
  | nil => rfl
  | append_singleton keys key ih => rw [forgetAll_concat, List.foldl_append, ← ih]; rfl

theorem mem_forgetAll {keys : List String} (hk : k ∈ keys) (hc : a.cache.contains k = true) :
    k ∈ (a.forgetAll keys).1 := by
  induction keys using List.reverseRecOn with
  | nil => cases hk
  | append_singleton keys key ih =>
    rw [forgetAll_concat]
    by_cases hm : k ∈ keys
    · dsimp only
      split
      · exact List.mem_append_left _ (ih hm)
      · exact ih hm
    · -- the last one to be forgotten is still known until then
      obtain rfl : k = key := by simpa [hm] using hk
      have hlast : (a.forgetAll keys).2.cache.contains k = true := by
        rw [NodeCache.contains_iff] at hc ⊢
        rw [forgetAll_snd, get?_foldl_forget, if_neg hm]
        exact hc
      by_cases hg : k ∈ (a.forgetAll keys).1 <;> simp [hlast, hg]

/-! ## Entering again -/

/-- A file of the tree that the atlas can read and understand. -/
structure Stands (a : Atlas) (w : World) (k : String) (content : List UInt8) : Prop where
  key : w.tree.key (.ofText k) = k
  isFile : w.tree.isFile (.ofText k) = true
  read : w.tree.read (.ofText k) = .ok content
  supported : w.parsing.supportsIn a.closed (.ofText k) = true
  built : ∃ node, a.build w k content = .ok node

theorem Stands.alike (h : a.Stands w k content) (ha : Alike a a') : a'.Stands w k content where
  key := h.key
  isFile := h.isFile
  read := h.read
  supported := ha.closed ▸ h.supported
  built := by
    obtain ⟨node, hn⟩ := h.built
    exact ⟨node, (ha.build w k content).trans hn⟩

theorem Learns.contains (h : Learns w a a') (hc : a.cache.contains k = true) :
    a'.cache.contains k = true := by
  obtain ⟨f, hf⟩ := NodeCache.contains_iff.mp hc
  exact NodeCache.contains_iff.mpr ⟨f, h.get?_eq_some hf⟩

/-- A file that stands is known once it has been asked for. -/
theorem Stands.contains_refresh (h : a.Stands w k content) (hp : w.tree.key p = k) :
    (a.refresh w [p]).cache.contains k = true := by
  have hr : a.refresh w [p] = (a.analyze w p).2 := analyzeLenient_snd a p
  obtain ⟨node, hn⟩ := h.built
  rw [hr, NodeCache.contains_iff]
  unfold analyze
  simp only [hp]
  cases hk : a.cache.get? k with
  | some hit => exact ⟨hit, hk⟩
  | none =>
    simp only [h.isFile, h.supported, h.read, hn, Bool.not_true, Bool.false_eq_true, if_false]
    exact ⟨_, by rw [get?_store, if_pos rfl]⟩

/-! ## Changed files -/

theorem alike_fileChanged (a : Atlas) (p : Path) : Alike a (a.fileChanged w p).2 :=
  (edits_apply a p .modified).alike

theorem get?_fileChanged (hc : a.warmup.completed = false) (p : Path) (k : String) :
    (a.fileChanged w p).2.cache.get? k = if k = w.tree.key p then none else a.cache.get? k := by
  have hf : (a.invalidate w p).2.warmup = a.warmup := rfl
  unfold fileChanged
  dsimp only
  rw [hf, hc]
  exact get?_forget ..

theorem Stands.contains_fileChanged (h : a.Stands w k content)
    (hc : a.warmup.completed = true) (ht : w.tree.key p = k → a.tracks p = true)
    (hk : a.cache.contains k = true) : (a.fileChanged w p).2.cache.contains k = true := by
  have hf : Alike a (a.invalidate w p).2 := alike_forget ..
  unfold fileChanged
  dsimp only
  rw [hf.warmup, hc, hf.tracks, Bool.true_and]
  by_cases hp : w.tree.key p = k
  · rw [if_pos (ht hp)]
    exact (h.alike hf).contains_refresh hp
  · have hkept : (a.invalidate w p).2.cache.contains k = true := by
      rw [NodeCache.contains_iff] at hk ⊢
      rw [invalidate, get?_forget, if_neg (Ne.symm hp)]
      exact hk
    split
    · exact (learns_refresh _ _).contains hkept
    · exact hkept

/-! ## New files -/

/-- Reads a file again if changes of it concern the atlas and it is there. -/
def readAgain (w : World) (a : Atlas) (source : String) : Atlas :=
  if a.tracks (.ofText source) && w.tree.isFile (.ofText source) then a.refresh w [.ofText source]
  else a

theorem learns_readAgain (a : Atlas) (source : String) : Learns w a (readAgain w a source) := by
  unfold readAgain
  split
  · exact learns_refresh _ _
  · exact .refl

theorem fileAdded_snd (a : Atlas) (w : World) (p : Path) :
    (a.fileAdded w p).2 =
      let (gone, b) := a.forgetAll (w.tree.key p :: a.waitingFor w (w.tree.key p))
      if b.warmup.completed then (gone ++ [w.tree.key p]).foldl (readAgain w) b else b :=
  rfl

theorem alike_forgetAll (a : Atlas) (keys : List String) : Alike a (a.forgetAll keys).2 :=
  forgetAll_snd a keys ▸ alike_foldl_forget keys a

theorem alike_fileAdded (a : Atlas) (p : Path) : Alike a (a.fileAdded w p).2 :=
  (edits_apply a p .added).alike

theorem get?_fileAdded (hc : a.warmup.completed = false) (p : Path) (k : String) :
    (a.fileAdded w p).2.cache.get? k =
      if k ∈ w.tree.key p :: a.waitingFor w (w.tree.key p) then none else a.cache.get? k := by
  have hf := alike_forgetAll a (w.tree.key p :: a.waitingFor w (w.tree.key p))
  rw [fileAdded_snd]
  dsimp only
  rw [hf.warmup, hc, forgetAll_snd]
  exact get?_foldl_forget _ a k

/-- A file that stands is known when the files to be read again are through, if it was known or is
among them. -/
theorem Stands.contains_foldl_readAgain (sources : List String) (a : Atlas)
    (h : a.Stands w k content) (ht : a.tracks (.ofText k) = true)
    (hk : a.cache.contains k = true ∨ k ∈ sources) :
    (sources.foldl (readAgain w) a).cache.contains k = true := by
  induction sources generalizing a with
  | nil => simpa using hk
  | cons source sources ih =>
    have hl := learns_readAgain (w := w) a source
    refine ih _ (h.alike hl.alike) ((hl.alike.tracks _).trans ht) ?_
    rcases hk with hk | hk
    · exact Or.inl (hl.contains hk)
    · rcases List.mem_cons.mp hk with rfl | hk
      · left
        rw [readAgain, ht, h.isFile, Bool.and_self, if_pos rfl]
        exact h.contains_refresh h.key
      · exact Or.inr hk

theorem Stands.contains_fileAdded (h : a.Stands w k content) (hc : a.warmup.completed = true)
    (ht : a.tracks (.ofText k) = true) (hk : a.cache.contains k = true) :
    (a.fileAdded w p).2.cache.contains k = true := by
  have hf := alike_forgetAll a (w.tree.key p :: a.waitingFor w (w.tree.key p))
  rw [fileAdded_snd]
  dsimp only
  rw [hf.warmup, hc, if_pos rfl]
  refine (h.alike hf).contains_foldl_readAgain _ _ ((hf.tracks _).trans ht) ?_
  by_cases hm : k ∈ w.tree.key p :: a.waitingFor w (w.tree.key p)
  · exact Or.inr (List.mem_append_left _ (mem_forgetAll hm hk))
  · left
    rw [NodeCache.contains_iff] at hk ⊢
    rw [forgetAll_snd, get?_foldl_forget, if_neg hm]
    exact hk

end DepAtlas.Atlas
