import DepAtlas.Syntax.Grammar

/-! # What a grammar reads

The runs of a grammar as a relation between states, without the bound on their nesting. Whatever
holds of every reading holds of every run, and so of every tree that a source is parsed to.

A reading moves onward in the source. A construct spans what was read for it, so what stands in one
of its tokens stands in its text.
-/

namespace DepAtlas

namespace Text

theorem mem_dropWhile {α : Type} {p : α → Bool} {x : α} (hx : p x = false) {xs : List α}
    (h : x ∈ xs) : x ∈ xs.dropWhile p := by
  induction xs with
  | nil => cases h
  | cons y ys ih =>
    rw [List.dropWhile_cons]
    split
    · rename_i hy
      rcases List.mem_cons.mp h with rfl | h
      · rw [hx] at hy
        cases hy
      · exact ih h
    · exact h

/-- What is more than blanks is more than nothing without the blanks around it. -/
theorem trim_ne_empty {s : String} {x : Char} (h : x ∈ s.toList) (hx : isBlank x = false) :
    trim s ≠ "" := by
  have hmem : x ∈ stripBy isBlank s.toList :=
    List.mem_reverse.mpr (mem_dropWhile hx (List.mem_reverse.mpr (mem_dropWhile hx h)))
  intro hempty
  have hnil : stripBy isBlank s.toList = [] := String.ofList_inj.mp hempty
  rw [hnil] at hmem
  cases hmem

end Text

end DepAtlas

namespace DepAtlas.Syntax

namespace Cursor

/-- The second position is the first one or comes after it. -/
def Onward (c d : Cursor) : Prop :=
  ∃ k ≤ c.rest.length, d.rest = c.rest.drop k ∧ d.offset = c.offset + k

theorem Onward.refl (c : Cursor) : c.Onward c := ⟨0, by simp⟩

theorem Onward.trans {c d e : Cursor} (h : c.Onward d) (h' : d.Onward e) : c.Onward e := by
  obtain ⟨j, hj, hd, hdo⟩ := h
  obtain ⟨k, hk, he, heo⟩ := h'
  rw [hd, List.length_drop] at hk
  refine ⟨j + k, by omega, ?_, by omega⟩
  rw [he, hd, List.drop_drop]

theorem Onward.length_le {c d : Cursor} (h : c.Onward d) : d.rest.length ≤ c.rest.length := by
  obtain ⟨k, -, hd, -⟩ := h
  simp [hd]

theorem advance_nil {c : Cursor} (h : c.rest = []) (n : Nat) : c.advance n = c := by
  obtain ⟨rest, o, l, y⟩ := c
  subst h
  cases n <;> rfl

theorem rest_advance (c : Cursor) (n : Nat) : (c.advance n).rest = c.rest.drop n := by
  induction n generalizing c with
  | zero => rfl
  | succ n ih =>
    obtain ⟨rest, o, l, y⟩ := c
    cases rest with
    | nil => simp [advance_nil]
    | cons x rest => simp [advance, ih]

theorem offset_advance (c : Cursor) (n : Nat) :
    (c.advance n).offset = c.offset + min n c.rest.length := by
  induction n generalizing c with
  | zero => simp [advance]
  | succ n ih =>
    obtain ⟨rest, o, l, y⟩ := c
    cases rest with
    | nil => simp [advance_nil]
    | cons x rest =>
      simp only [advance, ih, List.length_cons]
      omega

theorem onward_advance (c : Cursor) (n : Nat) : c.Onward (c.advance n) := by
  refine ⟨min n c.rest.length, Nat.min_le_right _ _, ?_, offset_advance c n⟩
  rw [rest_advance]
  rcases Nat.le_total n c.rest.length with h | h
  · rw [Nat.min_eq_left h]
  · rw [Nat.min_eq_right h, List.drop_eq_nil_of_le h, List.drop_length]

theorem advance_one_onward (c : Cursor) (k : Nat) : (c.advance 1).Onward (c.advance (k + 1)) := by
  obtain ⟨rest, o, l, y⟩ := c
  cases rest with
  | nil => exact .refl _
  | cons x rest => exact onward_advance _ k

theorem toList_text_extentTo (c d : Cursor) :
    (c.extentTo d).text.toList = c.rest.take (d.offset - c.offset) := by
  simp [extentTo]

/-- What stands after a position and before the end of a stretch stands in the stretch. -/
theorem mem_text_extentTo {c c' d : Cursor} {x : Char} {xs : List Char} (h : c.Onward c')
    (hx : c'.rest = x :: xs) (h' : (c'.advance 1).Onward d) :
    x ∈ (c.extentTo d).text.toList := by
  obtain ⟨j, hj, hc', ho⟩ := h
  obtain ⟨k, -, -, ho'⟩ := h'
  rw [offset_advance, hx, List.length_cons] at ho'
  rw [toList_text_extentTo, List.mem_take_iff_getElem]
  have hdrop : c.rest.drop j = x :: xs := hc' ▸ hx
  have hget : c.rest[j]? = some x := by
    rw [← Nat.add_zero j, ← List.getElem?_drop, hdrop, List.getElem?_cons_zero]
  obtain ⟨hlt, hget⟩ := List.getElem?_eq_some_iff.mp hget
  exact ⟨j, by omega, hget⟩

theorem mem_take_of_mem_extentTo {c : Cursor} {n : Nat} {x : Char}
    (h : x ∈ (c.extentTo (c.advance n)).text.toList) : x ∈ c.rest.take n := by
  rw [toList_text_extentTo, offset_advance, Nat.add_sub_cancel_left] at h
  exact List.take_subset_take_left _ (Nat.min_le_left _ _) h

end Cursor

namespace Grammar

variable {κ τ ν : Type}

/-- The trees that `grow` wraps, in the part they get. -/
def held (f : Option Field) (ts : List (Tree κ)) : List (Tree κ) :=
  match f with
  | none => ts
  | some f => ts.map (·.inField f)

/-- The readings of an expression. -/
inductive Reads (g : Grammar κ τ ν) (blanks : Nat) : Peg κ τ ν → State κ → State κ → Prop where
  | done {s} : Reads g blanks .done s s
  | token {t s s'} (h : g.read blanks t .token s = some s') : Reads g blanks (.token t) s s'
  | leaf {k t s s'} (h : g.read blanks t (fun _ => .kind k) s = some s') :
      Reads g blanks (.leaf k t) s s'
  | rule {r s s'} (h : Reads g blanks (g.rule r) s s') : Reads g blanks (.rule r) s s'
  | seq {p q s s' s''} (h : Reads g blanks p s s') (h' : Reads g blanks q s' s'') :
      Reads g blanks (.seq p q) s s''
  | left {p q s s'} (h : Reads g blanks p s s') : Reads g blanks (.alt p q) s s'
  | right {p q s s'} (h : Reads g blanks q s s') : Reads g blanks (.alt p q) s s'
  | nothing {p s} : Reads g blanks (.many p) s s
  | more {p s s' s''} (h : Reads g blanks p s s') (h' : Reads g blanks (.many p) s' s'') :
      Reads g blanks (.many p) s s''
  | node {k p s c ts s'} (hs : g.skipAll blanks s.cursor s.trees = (c, ts))
      (h : Reads g blanks p ⟨c, c, []⟩ s') :
      Reads g blanks (.node k p) s ⟨s'.cursor, s.start,
        .node (.kind k) none (c.extentTo s'.cursor) s'.trees.reverse :: ts⟩
  | field {f p s c ts s'} (hs : g.skipAll blanks s.cursor s.trees = (c, ts))
      (h : Reads g blanks p ⟨c, s.start, []⟩ s') :
      Reads g blanks (.field f p) s ⟨s'.cursor, s.start, s'.trees.map (·.inField f) ++ ts⟩
  | frame {p s c ts s'} (hs : g.skipAll blanks s.cursor s.trees = (c, ts))
      (h : Reads g blanks p ⟨c, c, []⟩ s') :
      Reads g blanks (.frame p) s ⟨s'.cursor, s.start, s'.trees ++ ts⟩
  | grow {k f p s s'} (h : Reads g blanks p { s with trees := held f s.trees } s') :
      Reads g blanks (.grow k f p) s { s' with
        trees := [.node (.kind k) none (s.start.extentTo s'.cursor) s'.trees.reverse] }
  | ahead {p s} : Reads g blanks (.ahead p) s s
  | absent {p s} : Reads g blanks (.absent p) s s
  | enclosed {b p s s' y y'} (h : Reads g blanks p
        { s with cursor := { s.cursor with layout := y } } s') :
      Reads g blanks (.enclosed b p) s { s' with cursor := { s'.cursor with layout := y' } }

variable {g : Grammar κ τ ν} {blanks : Nat} {s s' : State κ}

theorem reads_of_run {n : Nat} {p : Peg κ τ ν} (h : g.run blanks n p s = some s') :
    Reads g blanks p s s' := by
  induction n generalizing p s s' with
  | zero => simp [run] at h
  | succ n ih =>
    cases p with
    | done =>
      cases h
      exact .done
    | token t => exact .token h
    | leaf k t => exact .leaf h
    | rule r => exact .rule (ih h)
    | seq p q =>
      simp only [run] at h
      split at h
      · cases h
      · rename_i s₁ h₁
        exact .seq (ih h₁) (ih h)
    | alt p q =>
      simp only [run] at h
      split at h
      · exact .right (ih h)
      · rename_i s₁ h₁
        cases h
        exact .left (ih h₁)
    | many p =>
      simp only [run] at h
      split at h
      · cases h
        exact .nothing
      · rename_i s₁ h₁
        split at h
        · cases h
          exact .nothing
        · exact .more (ih h₁) (ih h)
    | node k p =>
      simp only [run] at h
      split at h
      · cases h
      · rename_i s₁ h₁
        cases h
        exact .node rfl (ih h₁)
    | field f p =>
      simp only [run] at h
      split at h
      · cases h
      · rename_i s₁ h₁
        cases h
        exact .field rfl (ih h₁)
    | frame p =>
      simp only [run] at h
      split at h
      · cases h
      · rename_i s₁ h₁
        cases h
        exact .frame rfl (ih h₁)
    | grow k f p =>
      simp only [run] at h
      split at h
      · cases h
      · rename_i s₁ h₁
        cases h
        exact .grow (ih h₁)
    | ahead p =>
      simp only [run] at h
      split at h
      · cases h
      · cases h
        exact .ahead
    | absent p =>
      simp only [run] at h
      split at h
      · cases h
        exact .absent
      · cases h
    | enclosed b p =>
      simp only [run] at h
      split at h
      · cases h
      · rename_i s₁ h₁
        cases h
        exact .enclosed (ih h₁)

/-- A parsed tree is the first that its grammar's start rule reads. -/
theorem reads_of_parse {source : String} {t : Tree κ} (h : g.parse? source = some t) :
    ∃ s', Reads g (source.length + 1) (.rule g.start)
      ⟨.ofText source, .ofText source, []⟩ s' ∧ t ∈ s'.trees := by
  simp only [parse?] at h
  split at h
  · cases h
  · rename_i s' hs'
    exact ⟨s', reads_of_run hs', List.mem_of_mem_head? h⟩

/-! ## The readings of each expression -/

theorem Reads.seq_inv {p q : Peg κ τ ν} (h : Reads g blanks (p ++ q) s s') :
    ∃ s₁, Reads g blanks p s s₁ ∧ Reads g blanks q s₁ s' := by
  cases h with
  | seq h h' => exact ⟨_, h, h'⟩

theorem Reads.alt_inv {p q : Peg κ τ ν} (h : Reads g blanks (p <|> q) s s') :
    Reads g blanks p s s' ∨ Reads g blanks q s s' := by
  cases h with
  | left h => exact .inl h
  | right h => exact .inr h

theorem Reads.leaf_inv {k : κ} {t : τ} (h : Reads g blanks (.leaf k t) s s') :
    g.read blanks t (fun _ => .kind k) s = some s' := by
  cases h with
  | leaf h => exact h

theorem Reads.node_inv {k : κ} {p : Peg κ τ ν} (h : Reads g blanks (.node k p) s s') :
    ∃ c ts s₁, g.skipAll blanks s.cursor s.trees = (c, ts) ∧ Reads g blanks p ⟨c, c, []⟩ s₁ ∧
      s' = ⟨s₁.cursor, s.start,
        .node (.kind k) none (c.extentTo s₁.cursor) s₁.trees.reverse :: ts⟩ := by
  cases h with
  | node hs h => exact ⟨_, _, _, hs, h, rfl⟩

theorem Reads.field_inv {f : Field} {p : Peg κ τ ν} (h : Reads g blanks (.field f p) s s') :
    ∃ c ts s₁, g.skipAll blanks s.cursor s.trees = (c, ts) ∧
      Reads g blanks p ⟨c, s.start, []⟩ s₁ ∧
      s' = ⟨s₁.cursor, s.start, s₁.trees.map (·.inField f) ++ ts⟩ := by
  cases h with
  | field hs h => exact ⟨_, _, _, hs, h, rfl⟩

/-! ## Blanks, comments and tokens -/

/-- A comment between tokens. -/
def IsComment (g : Grammar κ τ ν) (t : Tree κ) : Prop :=
  ∃ c k kind, g.skip c = some (k, some kind) ∧
    t = .node (.kind kind) none (c.extentTo (c.advance k)) []

/-- Passing over blanks and comments moves onward and adds comments. -/
theorem skipAll_spec (g : Grammar κ τ ν) (n : Nat) (c : Cursor) (ts : List (Tree κ)) :
    c.Onward (g.skipAll n c ts).1 ∧
      ∃ new, (g.skipAll n c ts).2 = new ++ ts ∧ ∀ t ∈ new, g.IsComment t := by
  induction n generalizing c ts with
  | zero => exact ⟨.refl c, [], rfl, by simp⟩
  | succ n ih =>
    unfold skipAll
    split
    · exact ⟨.refl c, [], rfl, by simp⟩
    · rename_i k _
      obtain ⟨hc, hts⟩ := ih (c.advance k) ts
      exact ⟨(c.onward_advance k).trans hc, hts⟩
    · rename_i k kind hskip
      obtain ⟨hc, new, hnew, hall⟩ :=
        ih (c.advance k) (.node (.kind kind) none (c.extentTo (c.advance k)) [] :: ts)
      refine ⟨(c.onward_advance k).trans hc,
        new ++ [.node (.kind kind) none (c.extentTo (c.advance k)) []], by simp [hnew], ?_⟩
      intro t ht
      rcases List.mem_append.mp ht with ht | ht
      · exact hall t ht
      · exact ⟨c, k, kind, hskip, List.mem_singleton.mp ht⟩

theorem skipAll_cases {n : Nat} {c c' : Cursor} {ts ts' : List (Tree κ)}
    (h : g.skipAll n c ts = (c', ts')) :
    c.Onward c' ∧ ∃ new, ts' = new ++ ts ∧ ∀ t ∈ new, g.IsComment t := by
  have hspec := g.skipAll_spec n c ts
  rwa [h] at hspec

theorem forall_mem_skipAll {P : Tree κ → Prop} (hP : ∀ t, g.IsComment t → P t) {n : Nat}
    {c c' : Cursor} {ts ts' : List (Tree κ)} (h : g.skipAll n c ts = (c', ts'))
    (hts : ∀ t ∈ ts, P t) : ∀ t ∈ ts', P t := by
  obtain ⟨-, new, rfl, hall⟩ := skipAll_cases h
  intro t ht
  rcases List.mem_append.mp ht with ht | ht
  · exact hP t (hall t ht)
  · exact hts t ht

/-- What reading a token does: it has no length and changes the layout at most, or its tree is added
after the comments before it. -/
theorem read_cases {t : τ} {label : String → Label κ} (h : g.read blanks t label s = some s') :
    (∃ c y, g.scan t c = some (0, y) ∧ s' = { s with cursor := { s.cursor with layout := y } }) ∨
      ∃ c new k y, s.cursor.Onward c ∧ (∀ t ∈ new, g.IsComment t) ∧
        g.scan t c = some (k + 1, y) ∧ s' = { s with
          cursor := { c.advance (k + 1) with layout := y }
          trees := .node (label (c.extentTo (c.advance (k + 1))).text) none
            (c.extentTo (c.advance (k + 1))) [] :: (new ++ s.trees) } := by
  have hspec : ∃ c new, s.cursor.Onward c ∧ (∀ t ∈ new, g.IsComment t) ∧
      (if g.glued t then (s.cursor, s.trees) else g.skipAll blanks s.cursor s.trees) =
        (c, new ++ s.trees) := by
    split
    · exact ⟨s.cursor, [], .refl _, by simp, rfl⟩
    · obtain ⟨hc, new, hnew, hall⟩ := g.skipAll_spec blanks s.cursor s.trees
      exact ⟨_, new, hc, hall, Prod.ext rfl hnew⟩
  obtain ⟨c, new, hc, hall, heq⟩ := hspec
  simp only [read, heq] at h
  split at h
  · cases h
  · rename_i y hscan
    cases h
    exact .inl ⟨c, y, hscan, rfl⟩
  · rename_i k y hscan
    cases h
    exact .inr ⟨c, new, k, y, hc, hall, hscan, rfl⟩

theorem Reads.onward {p : Peg κ τ ν} (h : Reads g blanks p s s') : s.cursor.Onward s'.cursor := by
  induction h with
  | done | nothing | ahead | absent => exact .refl _
  | token h | leaf h =>
    obtain ⟨c, y, -, rfl⟩ | ⟨c, new, k, y, hc, -, -, rfl⟩ := read_cases h
    · exact .refl _
    · exact hc.trans (c.onward_advance (k + 1))
  | rule _ ih | left _ ih | right _ ih | grow _ ih => exact ih
  | seq _ _ ih ih' | more _ _ ih ih' => exact ih.trans ih'
  | node hs _ ih | field hs _ ih | frame hs _ ih => exact (skipAll_cases hs).1.trans ih
  | enclosed _ ih => exact ih

end Grammar

namespace Peg

variable {κ τ ν : Type}

/-- The constructs that an expression grows around what was read before it. -/
def grows : Peg κ τ ν → List (κ × Option Field)
  | seq p q | alt p q => p.grows ++ q.grows
  | many p | enclosed _ p => p.grows
  | grow k f p => (k, f) :: p.grows
  | _ => []

end Peg

namespace Grammar

variable {κ τ ν : Type} {g : Grammar κ τ ν} {blanks : Nat} {s s' : State κ}

/-- A reading that grows nothing keeps the trees that were read before. -/
theorem Reads.exists_append {p : Peg κ τ ν} (hg : ∀ r, (g.rule r).grows = [])
    (h : Reads g blanks p s s') (hp : p.grows = []) : ∃ new, s'.trees = new ++ s.trees := by
  induction h with
  | done | nothing | ahead | absent => exact ⟨[], rfl⟩
  | token h | leaf h =>
    obtain ⟨c, y, -, rfl⟩ | ⟨c, new, k, y, -, -, -, rfl⟩ := read_cases h
    · exact ⟨[], rfl⟩
    · exact ⟨_ :: new, rfl⟩
  | rule _ ih => exact ih (hg _)
  | seq _ _ ih ih' =>
    obtain ⟨hp, hq⟩ := List.append_eq_nil_iff.mp hp
    obtain ⟨new, h⟩ := ih hp
    obtain ⟨new', h'⟩ := ih' hq
    exact ⟨new' ++ new, by rw [h', h, List.append_assoc]⟩
  | left _ ih => exact ih (List.append_eq_nil_iff.mp hp).1
  | right _ ih => exact ih (List.append_eq_nil_iff.mp hp).2
  | more _ _ ih ih' =>
    obtain ⟨new, h⟩ := ih hp
    obtain ⟨new', h'⟩ := ih' hp
    exact ⟨new' ++ new, by rw [h', h, List.append_assoc]⟩
  | node hs =>
    obtain ⟨-, new, rfl, -⟩ := skipAll_cases hs
    exact ⟨_ :: new, rfl⟩
  | field hs | frame hs =>
    obtain ⟨-, new, rfl, -⟩ := skipAll_cases hs
    exact ⟨_ ++ new, (List.append_assoc _ _ _).symm⟩
  | grow => cases hp
  | enclosed _ ih => exact ih hp

end Grammar

end DepAtlas.Syntax
