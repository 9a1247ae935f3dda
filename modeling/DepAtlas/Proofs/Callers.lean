import DepAtlas.Atlas.Dependents
import DepAtlas.Proofs.Order

/-! # The index of callers

What is recorded for a file stays until the file is taken out. Of all uses of some symbols by one and the
same symbol one is told: a use at run time rather than as a type, and among those the first.
-/

namespace DepAtlas

/-- The use of a symbol that an edge in a file stands for. -/
def Caller.ofEdge (file : String) (e : SymbolEdge) : Caller := ⟨e.source, file, e.typeOnly, e.line⟩

namespace Callers

variable {c : Callers} {file : String} {ids : List String} {u v : Caller}

/-! ## Recording -/

theorem mem_uses_foldl_record {edges : List SymbolEdge} {c : Callers} {x : String × Caller} :
    x ∈ (edges.foldl (record · file ·) c).uses ↔
      x ∈ c.uses ∨ ∃ e ∈ edges, x = (e.target, .ofEdge file e) := by
  induction edges generalizing c with
  | nil => simp
  | cons e edges ih =>
    have hone : x ∈ (c.record file e).uses ↔ x ∈ c.uses ∨ x = (e.target, .ofEdge file e) :=
      mem_addOnce
    rw [List.foldl_cons, ih, hone]
    simp only [List.mem_cons, or_and_right, exists_or, exists_eq_left, or_assoc]

theorem entered_foldl_record (edges : List SymbolEdge) (c : Callers) :
    (edges.foldl (record · file ·) c).entered = c.entered := by
  induction edges generalizing c with
  | nil => rfl
  | cons e edges ih => exact ih _

theorem mem_entered_enter {f : String} : f ∈ (c.enter file).entered ↔ f ∈ c.entered ∨ f = file :=
  mem_addOnce

/-- Of the uses on record those of the file go, and no others. -/
theorem uses_remove (c : Callers) (file : String) :
    (c.remove file).2.uses = c.uses.filter (·.2.file ≠ file) := by
  refine List.filter_congr fun x hx => ?_
  rw [goesWith_eq hx, decide_not]

theorem mem_uses_remove {x : String × Caller} :
    x ∈ (c.remove file).2.uses ↔ x ∈ c.uses ∧ x.2.file ≠ file := by
  simp [uses_remove]

theorem mem_entered_remove {f : String} :
    f ∈ (c.remove file).2.entered ↔ f ∈ c.entered ∧ f ≠ file := by
  simp [remove]

/-! ## The use that counts -/

/-- A use counts at least as much as another by the same symbol. -/
def Outdoes (u v : Caller) : Prop :=
  (u.typeOnly = true → v.typeOnly = true) ∧ (v.typeOnly = u.typeOnly → u.line ≤ v.line)

theorem Outdoes.refl (u : Caller) : Outdoes u u := ⟨id, fun _ => le_rfl⟩

theorem Outdoes.trans {x : Caller} (h : Outdoes u v) (h' : Outdoes v x) : Outdoes u x := by
  refine ⟨h'.1 ∘ h.1, fun he => ?_⟩
  cases hu : u.typeOnly with
  | true =>
    have hv := h.1 hu
    exact (h.2 (hv.trans hu.symm)).trans (h'.2 ((he.trans hu).trans hv.symm))
  | false =>
    cases hv : v.typeOnly with
    | true =>
      have := h'.1 hv
      rw [he, hu] at this
      cases this
    | false => exact (h.2 (hv.trans hu.symm)).trans (h'.2 ((he.trans hu).trans hv.symm))

theorem outdoes_prefer (u v : Caller) : Outdoes (prefer u v) u ∧ Outdoes (prefer u v) v := by
  unfold prefer
  split
  · rename_i h
    refine ⟨?_, .refl v⟩
    rw [Bool.or_eq_true, Bool.and_eq_true, Bool.and_eq_true, decide_eq_true_eq,
      decide_eq_true_eq] at h
    rcases h with ⟨hu, hv⟩ | ⟨he, hlt⟩
    · exact ⟨fun _ => hu, fun he => by simp [← he, hu] at hv⟩
    · exact ⟨fun hv => he.trans hv, fun _ => hlt.le⟩
  · rename_i h
    refine ⟨.refl u, ?_⟩
    rw [Bool.or_eq_true, not_or, Bool.and_eq_true, Bool.and_eq_true, decide_eq_true_eq,
      decide_eq_true_eq] at h
    refine ⟨fun hu => ?_, fun he => not_lt.mp fun hlt => h.2 ⟨he.symm, hlt⟩⟩
    by_contra hv
    exact h.1 ⟨hu, by simpa using hv⟩

theorem outdoes_foldl_prefer (cs : List Caller) (u : Caller) :
    cs.foldl prefer u ∈ u :: cs ∧ ∀ v ∈ u :: cs, Outdoes (cs.foldl prefer u) v := by
  induction cs generalizing u with
  | nil => simp [Outdoes.refl]
  | cons v cs ih =>
    obtain ⟨hmem, hall⟩ := ih (prefer u v)
    rw [List.foldl_cons]
    have hkept : prefer u v = u ∨ prefer u v = v := by
      unfold prefer
      split
      · exact Or.inr rfl
      · exact Or.inl rfl
    refine ⟨?_, ?_⟩
    · rcases List.mem_cons.mp hmem with he | hm
      · rcases hkept with hk | hk <;> rw [he, hk] <;> simp
      · exact List.mem_cons_of_mem _ (List.mem_cons_of_mem _ hm)
    · have hfirst := hall _ List.mem_cons_self
      obtain ⟨hu, hv⟩ := outdoes_prefer u v
      rintro x hx
      rcases List.mem_cons.mp hx with rfl | hx
      · exact hfirst.trans hu
      · rcases List.mem_cons.mp hx with rfl | hx
        · exact hfirst.trans hv
        · exact hall x (List.mem_cons_of_mem _ hx)

theorem strongest?_eq_some {cs : List Caller} (h : strongest? cs = some u) :
    u ∈ cs ∧ ∀ v ∈ cs, Outdoes u v := by
  cases cs with
  | nil => cases h
  | cons first cs =>
    obtain rfl := Option.some.inj h
    exact outdoes_foldl_prefer cs first

theorem strongest?_isSome {cs : List Caller} (h : v ∈ cs) : ∃ u, strongest? cs = some u := by
  cases cs with
  | nil => cases h
  | cons first cs => exact ⟨_, rfl⟩

theorem symbol_of_strongest? {cs : List Caller} {id : String}
    (h : strongest? (cs.filter (·.symbol = id)) = some u) : u.symbol = id := by
  simpa using List.of_mem_filter (strongest?_eq_some h).1

/-! ## Users of symbols -/

/-- A symbol other than `ids` uses one of them. -/
def UsedBy (c : Callers) (ids : List String) (u : Caller) : Prop :=
  u.symbol ∉ ids ∧ ∃ id ∈ ids, (id, u) ∈ c.uses

theorem mem_usersOf_uses :
    u ∈ (ids.flatMap c.lookup).filter (fun u => !ids.contains u.symbol) ↔ c.UsedBy ids u := by
  simp only [List.mem_filter, List.mem_flatMap, lookup, List.mem_map, UsedBy]
  constructor
  · rintro ⟨⟨id, hid, ⟨target, user⟩, ⟨hmem, htarget⟩, rfl⟩, hout⟩
    obtain rfl : target = id := of_decide_eq_true htarget
    exact ⟨by simpa using hout, target, hid, hmem⟩
  · rintro ⟨hout, id, hid, hmem⟩
    exact ⟨⟨id, hid, (id, u), ⟨hmem, by simp⟩, rfl⟩, by simpa using hout⟩

/-- What is told of a symbol is its use that counts. -/
theorem of_mem_usersOf (h : u ∈ c.usersOf ids) :
    c.UsedBy ids u ∧ ∀ v, c.UsedBy ids v → v.symbol = u.symbol → Outdoes u v := by
  obtain ⟨symbol, -, hu⟩ := List.mem_filterMap.mp h
  obtain ⟨hmem, hall⟩ := strongest?_eq_some hu
  obtain ⟨hmem, hsymbol⟩ := List.mem_filter.mp hmem
  refine ⟨mem_usersOf_uses.mp hmem, fun v hv he => hall v (List.mem_filter.mpr ⟨?_, ?_⟩)⟩
  · exact mem_usersOf_uses.mpr hv
  · rwa [he]

theorem exists_mem_usersOf (h : c.UsedBy ids v) : ∃ u ∈ c.usersOf ids, u.symbol = v.symbol := by
  have hv := mem_usersOf_uses.mpr h
  have hin : v ∈ (((ids.flatMap c.lookup).filter fun u => !ids.contains u.symbol).filter
      (·.symbol = v.symbol)) := List.mem_filter.mpr ⟨hv, by simp⟩
  obtain ⟨u, hu⟩ := strongest?_isSome hin
  refine ⟨u, List.mem_filterMap.mpr ⟨v.symbol, ?_, hu⟩, ?_⟩
  · exact Text.mem_sortedOnce.mpr (List.mem_map_of_mem hv)
  · exact symbol_of_strongest? hu

/-- Users are told in the order of their symbols, and no symbol is told twice. -/
theorem pairwise_usersOf (c : Callers) (ids : List String) :
    (c.usersOf ids).Pairwise (·.symbol < ·.symbol) := by
  refine List.Pairwise.filterMap _ ?_ (Text.strictly_sortedOnce _)
  intro x y hxy u hu v hv
  rwa [symbol_of_strongest? hu, symbol_of_strongest? hv]

/-- Who is told depends on the uses alone, and not on how they came to be recorded, as long as the
symbol of a use tells its file. -/
theorem usersOf_congr {c' : Callers} (h : ∀ u, c.UsedBy ids u ↔ c'.UsedBy ids u)
    (hfile : ∀ u v, c.UsedBy ids u → c.UsedBy ids v → u.symbol = v.symbol → u.file = v.file) :
    c.usersOf ids = c'.usersOf ids := by
  have hsub : ∀ {c c' : Callers}, (∀ u, c.UsedBy ids u ↔ c'.UsedBy ids u) →
      (∀ u v, c.UsedBy ids u → c.UsedBy ids v → u.symbol = v.symbol → u.file = v.file) →
      ∀ u ∈ c.usersOf ids, u ∈ c'.usersOf ids := by
    intro c c' h hfile u hu
    obtain ⟨hused, hbest⟩ := of_mem_usersOf hu
    obtain ⟨v, hv, hsymbol⟩ := exists_mem_usersOf ((h u).mp hused)
    obtain ⟨hused', hbest'⟩ := of_mem_usersOf hv
    have huv := hbest v ((h v).mpr hused') hsymbol
    have hvu := hbest' u ((h u).mp hused) hsymbol.symm
    have htype : u.typeOnly = v.typeOnly := Bool.eq_iff_iff.mpr ⟨huv.1, hvu.1⟩
    have hline : u.line = v.line := le_antisymm (huv.2 htype.symm) (hvu.2 htype)
    have hsame : u = v := by
      have hf := hfile u v hused ((h v).mpr hused') hsymbol.symm
      cases u
      cases v
      simp_all
    rwa [hsame]
  have hfile' : ∀ u v, c'.UsedBy ids u → c'.UsedBy ids v → u.symbol = v.symbol →
      u.file = v.file := fun u v hu hv => hfile u v ((h u).mpr hu) ((h v).mpr hv)
  have hnodup : ∀ c : Callers, (c.usersOf ids).Nodup := fun c =>
    (pairwise_usersOf c ids).imp fun hlt he => absurd hlt (by rw [he]; exact lt_irrefl _)
  refine List.Perm.eq_of_pairwise (fun u v _ _ huv hvu => absurd huv hvu.asymm)
    (pairwise_usersOf c ids) (pairwise_usersOf c' ids) ?_
  rw [List.perm_ext_iff_of_nodup (hnodup c) (hnodup c')]
  exact fun u => ⟨hsub h hfile u, hsub (fun u => (h u).symm) hfile' u⟩

end Callers

end DepAtlas
