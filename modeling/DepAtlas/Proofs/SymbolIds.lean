import DepAtlas.Atlas.SymbolGraph
import DepAtlas.Proofs.Destinations

/-! # Files in the ids of symbols

The id of a symbol is split at its last colon, so the file in it is found again if the name has no colon.
Where the names of an outline have none, all ids in the symbol graph of a file inside the root lead to
files inside the root.
-/

namespace DepAtlas

theorem takeWhile_ne_append_cons {α : Type*} [DecidableEq α] {x : α} {xs : List α} (h : x ∉ xs)
    (ys : List α) : (xs ++ x :: ys).takeWhile (· ≠ x) = xs := by
  have hall : ∀ y ∈ xs, decide (y ≠ x) = true := by
    intro y hy
    have hne : y ≠ x := by
      rintro rfl
      exact h hy
    exact decide_eq_true hne
  rw [List.takeWhile_append_of_pos hall, List.takeWhile_cons_of_neg (by simp), List.append_nil]

theorem toList_symbolId (file name : String) :
    (symbolId file name).toList = file.toList ++ ':' :: name.toList := by
  simp [symbolId]

/-- A name without colons is what stands after the last one. -/
theorem takeWhile_symbolId (file : String) {name : String} (hn : ':' ∉ name.toList) :
    ((symbolId file name).toList.reverse.takeWhile (· ≠ ':')).reverse = name.toList := by
  rw [toList_symbolId, List.reverse_append, List.reverse_cons, List.append_assoc,
    List.singleton_append, takeWhile_ne_append_cons (by simpa using hn), List.reverse_reverse]

/-- Ids are told apart by their files and names, if these have no colons. -/
theorem symbolId_inj {file file' name name' : String} (hn : ':' ∉ name.toList)
    (hn' : ':' ∉ name'.toList) (h : symbolId file name = symbolId file' name') :
    file = file' ∧ name = name' := by
  have hname : name.toList = name'.toList := by
    rw [← takeWhile_symbolId file hn, h, takeWhile_symbolId file' hn']
  have hfile : file.toList ++ ':' :: name.toList = file'.toList ++ ':' :: name'.toList := by
    rw [← toList_symbolId, ← toList_symbolId, h]
  rw [hname] at hfile
  exact ⟨String.ext (List.append_cancel_right hfile), String.ext hname⟩

/-- A name without colons leaves the file in an id as it is. -/
theorem fst_of_splitSymbolId? {file name : String} {x : String × String} (hn : ':' ∉ name.toList)
    (h : splitSymbolId? (symbolId file name) = some x) : x.1 = file := by
  have hlist := toList_symbolId file name
  have hlast := takeWhile_symbolId file hn
  have hfile : (symbolId file name).toList.take
      ((symbolId file name).length - name.toList.length - 1) = file.toList := by
    have hlen : (symbolId file name).length = file.toList.length + (name.toList.length + 1) := by
      rw [← String.length_toList, hlist]
      simp
    rw [hlen, hlist]
    have hsub : file.toList.length + (name.toList.length + 1) - name.toList.length - 1 =
        file.toList.length := by omega
    rw [hsub, List.take_left]
  unfold splitSymbolId? at h
  rw [if_pos (by simp [hlist])] at h
  dsimp only at h
  rw [hlast, hfile] at h
  split at h
  · cases h
  · rw [← Option.some.inj h]
    exact String.ofList_toList

/-- The id names a file inside the root, and can be split again. -/
def IdInside (t : FileTree) (root : Path) (id : String) : Prop :=
  ∃ file name, id = symbolId file name ∧ ':' ∉ name.toList ∧ t.Inside root file

theorem IdInside.file {t : FileTree} {root : Path} {id file name : String} (h : IdInside t root id)
    (hs : splitSymbolId? id = some (file, name)) : t.Inside root file := by
  obtain ⟨f, n, rfl, hn, hf⟩ := h
  obtain rfl : file = f := fst_of_splitSymbolId? hn hs
  exact hf

/-- The names from which ids are made have no colons. -/
structure Outline.ColonFree (o : Outline) : Prop where
  declarations : ∀ d ∈ o.declarations, ':' ∉ d.qualifiedName.toList
  origins : ∀ r ∈ o.references, ∀ n ∈ r.origin, ':' ∉ n.toList
  members : ∀ r ∈ o.references, ∀ n ∈ r.member, ':' ∉ n.toList
  bindings : ∀ i ∈ o.imports, ∀ b ∈ i.bindings, ':' ∉ b.imported.toList

instance (o : Outline) : Decidable o.ColonFree :=
  decidable_of_iff
    ((∀ d ∈ o.declarations, ':' ∉ d.qualifiedName.toList) ∧
      (∀ r ∈ o.references, ∀ n ∈ r.origin, ':' ∉ n.toList) ∧
      (∀ r ∈ o.references, ∀ n ∈ r.member, ':' ∉ n.toList) ∧
      ∀ i ∈ o.imports, ∀ b ∈ i.bindings, ':' ∉ b.imported.toList)
    ⟨fun ⟨hd, ho, hm, hb⟩ => ⟨hd, ho, hm, hb⟩, fun h =>
      ⟨h.declarations, h.origins, h.members, h.bindings⟩⟩

namespace SymbolGraph

variable {t : FileTree} {root : Path} {key : String} {o : Outline} {r : Reference}
  {bs : List (String × Bound)}

theorem mem_foldl_addEdge {edges found : List SymbolEdge} {e : SymbolEdge}
    (h : e ∈ edges.foldl addEdge found) : e ∈ found ∨ e ∈ edges := by
  induction edges generalizing found with
  | nil => exact Or.inl h
  | cons f edges ih =>
    rcases ih h with hf | he
    · unfold addEdge at hf
      split at hf
      · exact Or.inl hf
      · rcases List.mem_append.mp hf with hf | hf
        · exact Or.inl hf
        · exact Or.inr (by simpa using Or.inl hf)
    · exact Or.inr (List.mem_cons_of_mem _ he)

theorem mem_of_lookup_eq_some {α β : Type*} [BEq α] [LawfulBEq α] {xs : List (α × β)} {x : α} {y : β}
    (h : xs.lookup x = some y) : (x, y) ∈ xs := by
  obtain ⟨l, r, rfl, -⟩ := List.lookup_eq_some_iff.mp h
  simp

/-- A symbol to which a use leads is inside the root, and its name has no colon. -/
def Target.Inside (t : FileTree) (root : Path) (x : Target) : Prop :=
  t.Inside root x.file ∧ ':' ∉ x.name.toList

/-- Local names are bound to files inside the root, by names without colons. -/
def BoundInside (t : FileTree) (root : Path) (b : Bound) : Prop :=
  t.Inside root b.targetFile ∧ ':' ∉ b.imported.toList

/-- Local names are bound by imports that lead to files. -/
theorem mem_bounds {r : Resolve.Resolver} {imports : List Import} {x : String × Bound} :
    x ∈ bounds r t key imports ↔ ∃ i ∈ imports, ∃ b ∈ i.bindings, ∃ path,
      r.resolve t key i.specifier = .ok (.resolved path) ∧
      x = (b.localName,
        ⟨path.toText, b.imported, b.typeOnly || i.kind.isTypeOnly, b.isNamespace⟩) := by
  have hfile : ∀ spec path, r.file? t key spec = some path ↔
      r.resolve t key spec = .ok (.resolved path) := by
    intro spec path
    unfold Resolve.Resolver.file?
    split <;> simp_all
  simp only [bounds, List.mem_flatMap]
  refine exists_congr fun i => and_congr_right fun _ => ?_
  constructor
  · intro hx
    split at hx
    · cases hx
    · rename_i path hpath
      obtain ⟨b, hb, rfl⟩ := List.mem_map.mp hx
      exact ⟨b, hb, path, (hfile _ _).mp hpath, rfl⟩
  · rintro ⟨b, hb, path, hpath, rfl⟩
    rw [(hfile _ _).mpr hpath]
    exact List.mem_map_of_mem hb

theorem boundInside_of_mem {r : Resolve.Resolver} (hw : t.WellFormed)
    (hc : r.root.clean = r.root) (ho : o.ColonFree) {x : String × Bound}
    (h : x ∈ bounds r t key o.imports) : BoundInside t r.root x.2 := by
  obtain ⟨i, hi, b, hb, path, hpath, rfl⟩ := mem_bounds.mp h
  exact ⟨Resolve.Resolver.inside_of_resolve hw hc hpath, ho.bindings i hi b hb⟩

theorem colon_append_dot {a b : String} (ha : ':' ∉ a.toList) (hb : ':' ∉ b.toList) :
    ':' ∉ (a ++ "." ++ b).toList := by
  simp [ha, hb]

theorem inside_importTargets (ho : ∀ n ∈ r.member, ':' ∉ n.toList) {b : Bound}
    (hb : BoundInside t root b) : ∀ x ∈ importTargets r b, x.Inside t root := by
  intro x hx
  unfold importTargets at hx
  dsimp only at hx
  split at hx
  · obtain ⟨m, hm, rfl⟩ := List.mem_map.mp hx
    exact ⟨hb.1, ho m (by simpa using hm)⟩
  · rcases List.mem_cons.mp hx with rfl | hx
    · exact hb
    · obtain ⟨m, hm, rfl⟩ := List.mem_map.mp hx
      exact ⟨hb.1, colon_append_dot hb.2 (ho m (by simpa using hm))⟩

theorem colon_localTarget (ho : o.ColonFree) {name : String}
    (h : (localNames o.declarations).lookup r.name = some name) :
    ':' ∉ (localTarget o.declarations r name).toList := by
  have hname : ':' ∉ name.toList := by
    obtain ⟨d, hd, hm⟩ := List.mem_flatMap.mp (mem_of_lookup_eq_some h)
    have hq : name = d.qualifiedName := by
      rcases List.mem_cons.mp hm with hm | hm
      · exact (Prod.mk.inj hm).2
      · split at hm
        · exact (Prod.mk.inj (List.mem_singleton.mp hm)).2
        · cases hm
    exact hq ▸ ho.declarations d hd
  unfold localTarget
  split
  · exact hname
  · dsimp only
    split
    · rename_i hany
      obtain ⟨d, hd, hm⟩ := List.any_eq_true.mp hany
      exact of_decide_eq_true hm ▸ ho.declarations d hd
    · exact hname

theorem inside_targets (hkey : t.Inside root key) (ho : o.ColonFree) (hr : r ∈ o.references)
    (hbs : ∀ x ∈ bs, BoundInside t root x.2) : ∀ x ∈ targets key o bs r, x.Inside t root := by
  intro x hx
  unfold targets at hx
  split at hx
  · rename_i b hb
    have hmem := mem_of_lookup_eq_some hb
    exact inside_importTargets (ho.members r hr) (hbs _ (List.mem_reverse.mp hmem)) x hx
  · split at hx
    · cases hx
    · rename_i name hname
      dsimp only at hx
      split at hx
      · cases hx
      · obtain rfl := List.mem_singleton.mp hx
        exact ⟨hkey, colon_localTarget ho hname⟩

theorem colon_userOf (ho : o.ColonFree) (hr : r ∈ o.references) : ':' ∉ (userOf r).toList := by
  unfold userOf
  cases h : r.origin with
  | none => decide
  | some n => exact ho.origins r hr n h

/-- An edge comes from a use, and leads to one of the symbols that are meant by it. -/
theorem exists_of_mem_edgesOf {e : SymbolEdge} (h : e ∈ edgesOf key o bs) :
    ∃ r ∈ o.references, ∃ x ∈ targets key o bs r,
      e = ⟨symbolId key (userOf r), symbolId x.file x.name, x.file, x.typeOnly, r.line⟩ := by
  rcases mem_foldl_addEdge h with h | h
  · cases h
  · obtain ⟨r, hr, h⟩ := List.mem_flatMap.mp h
    obtain ⟨x, hx, rfl⟩ := List.mem_map.mp h
    exact ⟨r, hr, x, hx, rfl⟩

/-- What is meant by a use is in the file itself, or in one to which an import leads. -/
theorem file_of_mem_targets {x : Target} (h : x ∈ targets key o bs r) :
    x.file = key ∨ ∃ b ∈ bs, x.file = b.2.targetFile := by
  unfold targets at h
  split at h
  · rename_i b hb
    refine Or.inr ⟨_, List.mem_reverse.mp (mem_of_lookup_eq_some hb), ?_⟩
    unfold importTargets at h
    dsimp only at h
    split at h
    · obtain ⟨m, -, rfl⟩ := List.mem_map.mp h
      rfl
    · rcases List.mem_cons.mp h with rfl | h
      · rfl
      · obtain ⟨m, -, rfl⟩ := List.mem_map.mp h
        rfl
  · split at h
    · cases h
    · dsimp only at h
      split at h
      · cases h
      · exact Or.inl (congrArg Target.file (List.mem_singleton.mp h))

/-- All ids in the graph of a file inside the root are of files inside the root. -/
theorem idInside_of_mem_edgesOf (hkey : t.Inside root key) (ho : o.ColonFree)
    (hbs : ∀ x ∈ bs, BoundInside t root x.2) {e : SymbolEdge} (h : e ∈ edgesOf key o bs) :
    IdInside t root e.source ∧ IdInside t root e.target := by
  obtain ⟨r, hr, x, hx, rfl⟩ := exists_of_mem_edgesOf h
  obtain ⟨hfile, hname⟩ := inside_targets hkey ho hr hbs x hx
  exact ⟨⟨key, _, rfl, colon_userOf ho hr, hkey⟩, ⟨x.file, x.name, rfl, hname, hfile⟩⟩

end SymbolGraph

end DepAtlas
