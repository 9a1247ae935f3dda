import DepAtlas.Proofs.Readings

/-! # How constructs are formed

Every construct of a parsed tree is a comment, or was read by one of the expressions that the rules
of the grammar have for its kind. What such an expression says of the parts of a construct therefore
holds of all constructs of the kind.

Blanks and comments are passed over to the end. So after they have been passed over before a part,
the part starts with a token, and no comment gets between the two.
-/

namespace DepAtlas.Syntax

variable {κ τ ν : Type}

namespace Grammar

variable {g : Grammar κ τ ν} {blanks : Nat} {s s' : State κ}

/-! ## Blanks are passed over to the end -/

/-- What is passed over is some text. -/
def SkipsText (g : Grammar κ τ ν) : Prop := ∀ c k m, g.skip c = some (k, m) → 0 < k ∧ c.rest ≠ []

/-- Where blanks and comments have been passed over, there are none. -/
theorem skip_skipAll (hg : g.SkipsText) {n : Nat} {c : Cursor} (hlen : c.rest.length < n)
    (ts : List (Tree κ)) : g.skip (g.skipAll n c ts).1 = none := by
  induction n generalizing c ts with
  | zero => omega
  | succ n ih =>
    have hless : ∀ k m, g.skip c = some (k, m) → (c.advance k).rest.length < n := by
      intro k m hskip
      obtain ⟨hk, hne⟩ := hg c k m hskip
      have hpos := List.length_pos_iff.mpr hne
      rw [Cursor.rest_advance, List.length_drop]
      omega
    unfold skipAll
    split
    · rename_i hskip
      exact hskip
    · rename_i hskip
      exact ih (hless _ _ hskip) ts
    · rename_i hskip
      exact ih (hless _ _ hskip) _

theorem skipAll_of_skip {c : Cursor} (h : g.skip c = none) (n : Nat) (ts : List (Tree κ)) :
    g.skipAll n c ts = (c, ts) := by
  cases n with
  | zero => rfl
  | succ n => simp [skipAll, h]

theorem Reads.node_of_skip {k : κ} {p : Peg κ τ ν} (hs : g.skip s.cursor = none)
    (h : Reads g blanks (.node k p) s s') :
    ∃ s₁, Reads g blanks p ⟨s.cursor, s.cursor, []⟩ s₁ ∧ s' = ⟨s₁.cursor, s.start,
      .node (.kind k) none (s.cursor.extentTo s₁.cursor) s₁.trees.reverse :: s.trees⟩ := by
  obtain ⟨c, ts, s₁, hskip, hparts, rfl⟩ := h.node_inv
  rw [skipAll_of_skip hs] at hskip
  cases hskip
  exact ⟨s₁, hparts, rfl⟩

theorem Reads.field_of_skip {f : Field} {p : Peg κ τ ν} (hs : g.skip s.cursor = none)
    (h : Reads g blanks (.field f p) s s') :
    ∃ s₁, Reads g blanks p ⟨s.cursor, s.start, []⟩ s₁ ∧
      s' = ⟨s₁.cursor, s.start, s₁.trees.map (·.inField f) ++ s.trees⟩ := by
  obtain ⟨c, ts, s₁, hskip, hparts, rfl⟩ := h.field_inv
  rw [skipAll_of_skip hs] at hskip
  cases hskip
  exact ⟨s₁, hparts, rfl⟩

theorem Reads.leaf_of_skip {k : κ} {t : τ} (hs : g.skip s.cursor = none)
    (h : Reads g blanks (.leaf k t) s s') : ∃ n y, g.scan t s.cursor = some (n, y) ∧
      (n = 0 ∨ s'.trees = .node (.kind k) none (s.cursor.extentTo (s.cursor.advance n)) [] ::
        s.trees) := by
  have h := h.leaf_inv
  have hskip : (if g.glued t then (s.cursor, s.trees) else g.skipAll blanks s.cursor s.trees) =
      (s.cursor, s.trees) := by
    rw [skipAll_of_skip hs, ite_self]
  simp only [read, hskip] at h
  split at h
  · cases h
  · rename_i y hscan
    exact ⟨0, y, hscan, .inl rfl⟩
  · rename_i n y hscan
    cases h
    exact ⟨n + 1, y, hscan, .inr rfl⟩

theorem length_skipAll_lt {n m : Nat} {c c' : Cursor} {ts ts' : List (Tree κ)}
    (h : g.skipAll n c ts = (c', ts')) (hlen : c.rest.length < m) : c'.rest.length < m := by
  exact Nat.lt_of_le_of_lt (skipAll_cases h).1.length_le hlen

end Grammar

/-! ## Origins -/

/-- The sub-expressions that build a construct of kind `k`. -/
def Peg.constructions [DecidableEq κ] (k : κ) : Peg κ τ ν → List (Peg κ τ ν)
  | .done | .token _ | .rule _ | .ahead _ | .absent _ => []
  | .leaf k' t => if k' = k then [.leaf k' t] else []
  | .seq p q | .alt p q => p.constructions k ++ q.constructions k
  | .many p | .field _ p | .frame p | .enclosed _ p => p.constructions k
  | .node k' p => (if k' = k then [.node k' p] else []) ++ p.constructions k
  | .grow k' f p => (if k' = k then [.grow k' f p] else []) ++ p.constructions k

@[simp] theorem Peg.constructions_append [DecidableEq κ] (k : κ) (p q : Peg κ τ ν) :
    (p ++ q).constructions k = p.constructions k ++ q.constructions k := rfl

namespace Grammar

variable [DecidableEq κ] {g : Grammar κ τ ν} {blanks : Nat} {s s' : State κ}

/-- Where a construct comes from. -/
def Origin (g : Grammar κ τ ν) (blanks : Nat) (k : κ) (e : Extent) (cs : List (Tree κ)) : Prop :=
  g.IsComment (.node (.kind k) none e cs) ∨
    ∃ r, ∃ p ∈ (g.rule r).constructions k, ∃ s s' ts, s.cursor.rest.length < blanks ∧
      Reads g blanks p s s' ∧ s'.trees = .node (.kind k) none e cs :: ts

/-- A tree all of whose constructs come from the grammar. -/
inductive Formed (g : Grammar κ τ ν) (blanks : Nat) : Tree κ → Prop where
  | token {text f e} : Formed g blanks (.node (.token text) f e [])
  | kind {k f e cs} (h : g.Origin blanks k e cs) (hs : ∀ c ∈ cs, Formed g blanks c) :
      Formed g blanks (.node (.kind k) f e cs)

theorem Formed.inField {t : Tree κ} (h : g.Formed blanks t) (f : Field) :
    g.Formed blanks (t.inField f) := by
  cases h with
  | token => exact .token
  | kind h hs => exact .kind h hs

theorem Formed.of_mem {t c : Tree κ} (h : g.Formed blanks t) (hc : c ∈ t.children) :
    g.Formed blanks c := by
  cases h with
  | token => cases hc
  | kind _ hs => exact hs c hc

theorem IsComment.formed {t : Tree κ} (h : g.IsComment t) : g.Formed blanks t := by
  obtain ⟨c, k, kind, hskip, rfl⟩ := h
  exact .kind (.inl ⟨c, k, kind, hskip, rfl⟩) (by simp)

/-- The sub-expressions of `p` that build constructs are sub-expressions of rules. -/
def Covers (g : Grammar κ τ ν) (p : Peg κ τ ν) : Prop :=
  ∀ k, ∀ q ∈ p.constructions k, ∃ r, q ∈ (g.rule r).constructions k

theorem Covers.rule (g : Grammar κ τ ν) (r : ν) : g.Covers (g.rule r) := fun _ _ hq => ⟨r, hq⟩

theorem Covers.seq {p q : Peg κ τ ν} (h : g.Covers (.seq p q)) : g.Covers p ∧ g.Covers q :=
  ⟨fun k q hq => h k q (List.mem_append_left _ hq), fun k q hq => h k q (List.mem_append_right _ hq)⟩

theorem Covers.node {k : κ} {p : Peg κ τ ν} (h : g.Covers (.node k p)) : g.Covers p :=
  fun k' q hq => h k' q (List.mem_append_right _ hq)

theorem Covers.grow {k : κ} {f : Option Field} {p : Peg κ τ ν} (h : g.Covers (.grow k f p)) :
    g.Covers p :=
  fun k' q hq => h k' q (List.mem_append_right _ hq)

theorem Reads.formed {p : Peg κ τ ν} (h : Reads g blanks p s s') (hp : g.Covers p)
    (hlen : s.cursor.rest.length < blanks) (hs : ∀ t ∈ s.trees, g.Formed blanks t) :
    ∀ t ∈ s'.trees, g.Formed blanks t := by
  induction h with
  | done | nothing | ahead | absent => exact hs
  | token h =>
    obtain ⟨c, y, -, rfl⟩ | ⟨c, new, k, y, -, hall, -, rfl⟩ := read_cases h
    · exact hs
    · intro t ht
      rcases List.mem_cons.mp ht with rfl | ht
      · exact .token
      · exact (List.mem_append.mp ht).elim (fun ht => (hall t ht).formed) (hs t)
  | @leaf kind tok s s' h =>
    obtain ⟨c, y, -, heq⟩ | ⟨c, new, k, y, -, hall, -, heq⟩ := read_cases h
    · rw [heq]
      exact hs
    · obtain ⟨r, hr⟩ := hp kind (.leaf kind tok) (by simp [Peg.constructions])
      intro t ht
      rw [heq] at ht
      rcases List.mem_cons.mp ht with rfl | ht
      · exact .kind (.inr ⟨r, _, hr, s, s', new ++ s.trees, hlen, .leaf h, by rw [heq]⟩) (by simp)
      · exact (List.mem_append.mp ht).elim (fun ht => (hall t ht).formed) (hs t)
  | @rule r _ _ _ ih => exact ih (.rule g r) hlen hs
  | seq h _ ih ih' =>
    have hfirst := ih hp.seq.1 hlen hs
    exact ih' hp.seq.2 (by have := h.onward.length_le; omega) hfirst
  | left _ ih => exact ih hp.seq.1 hlen hs
  | right _ ih => exact ih hp.seq.2 hlen hs
  | more h _ ih ih' =>
    have hfirst := ih hp hlen hs
    exact ih' hp (by have := h.onward.length_le; omega) hfirst
  | @node kind p s c ts s' hskip h ih =>
    obtain ⟨r, hr⟩ := hp kind (.node kind p) (by simp [Peg.constructions])
    have hparts := ih hp.node (length_skipAll_lt hskip hlen) (by simp)
    intro t ht
    rcases List.mem_cons.mp ht with rfl | ht
    · refine .kind (.inr ⟨r, _, hr, s, _, ts, hlen, .node hskip h, rfl⟩) fun c hc => ?_
      exact hparts c (List.mem_reverse.mp hc)
    · exact forall_mem_skipAll (fun _ => IsComment.formed) hskip hs t ht
  | field hskip _ ih =>
    have hparts := ih hp (length_skipAll_lt hskip hlen) (by simp)
    intro t ht
    rcases List.mem_append.mp ht with ht | ht
    · obtain ⟨c, hc, rfl⟩ := List.mem_map.mp ht
      exact (hparts c hc).inField _
    · exact forall_mem_skipAll (fun _ => IsComment.formed) hskip hs t ht
  | frame hskip _ ih =>
    have hparts := ih hp (length_skipAll_lt hskip hlen) (by simp)
    intro t ht
    rcases List.mem_append.mp ht with ht | ht
    · exact hparts t ht
    · exact forall_mem_skipAll (fun _ => IsComment.formed) hskip hs t ht
  | @grow kind f p s s' h ih =>
    obtain ⟨r, hr⟩ := hp kind (.grow kind f p) (by simp [Peg.constructions])
    have hheld : ∀ t ∈ held f s.trees, g.Formed blanks t := by
      intro t ht
      cases f with
      | none => exact hs t ht
      | some f =>
        obtain ⟨t', ht', rfl⟩ := List.mem_map.mp ht
        exact (hs t' ht').inField f
    have hparts := ih hp.grow hlen hheld
    intro t ht
    obtain rfl := List.mem_singleton.mp ht
    refine .kind (.inr ⟨r, _, hr, s, _, [], hlen, .grow h, rfl⟩) fun c hc => ?_
    exact hparts c (List.mem_reverse.mp hc)
  | enclosed _ ih => exact ih hp hlen hs

theorem formed_of_parse {source : String} {t : Tree κ} (h : g.parse? source = some t) :
    g.Formed (source.length + 1) t := by
  obtain ⟨s', hreads, ht⟩ := reads_of_parse h
  have hlen : (Cursor.ofText source).rest.length < source.length + 1 := by
    simp [Cursor.ofText, String.length_toList]
  exact hreads.formed (fun k q hq => by simp [Peg.constructions] at hq) hlen (by simp) t ht

end Grammar

/-- A construct of a kind for which the rules have one expression was read by it. -/
theorem Grammar.Formed.exists_reads [DecidableEq κ] {g : Grammar κ τ ν} {blanks : Nat}
    {t : Tree κ} {k : κ} {p : Peg κ τ ν} (h : g.Formed blanks t) (hk : t.hasKind k = true)
    (hcomment : ∀ c n, g.skip c ≠ some (n, some k))
    (hall : ∀ r, ∀ q ∈ (g.rule r).constructions k, q = .node k p) :
    ∃ c s', c.rest.length < blanks ∧ Reads g blanks p ⟨c, c, []⟩ s' ∧
      t.children = s'.trees.reverse := by
  have hk : t.label = .kind k := of_decide_eq_true hk
  cases h with
  | token => cases hk
  | kind horigin _ =>
    cases hk
    rcases horigin with ⟨c, n, kind, hskip, heq⟩ | ⟨r, q, hq, s, s', ts, hlen, hreads, htrees⟩
    · cases heq
      exact absurd hskip (hcomment c n)
    · obtain rfl := hall r q hq
      obtain ⟨c, ts, s₁, hskip, hparts, rfl⟩ := hreads.node_inv
      cases htrees
      exact ⟨c, s₁, length_skipAll_lt hskip hlen, hparts, rfl⟩

/-! ## Parts that a construct always has -/

namespace Peg

/-- Whether an expression always adds a tree, where `solid` are the tokens that have some length. -/
def adds (solid : τ → Bool) : Peg κ τ ν → Bool
  | .token t | .leaf _ t => solid t
  | .seq p q => p.adds solid || q.adds solid
  | .alt p q => p.adds solid && q.adds solid
  | .field _ p | .frame p | .enclosed _ p => p.adds solid
  | .node _ _ | .grow _ _ _ => true
  | .done | .rule _ | .many _ | .ahead _ | .absent _ => false

/-- Whether an expression always adds something in the part `f`. -/
def hasPart (solid : τ → Bool) (f : Field) : Peg κ τ ν → Bool
  | .field f' p => f' = f && p.adds solid
  | .seq p q => p.hasPart solid f || q.hasPart solid f
  | .alt p q => p.hasPart solid f && q.hasPart solid f
  | .enclosed _ p => p.hasPart solid f
  | _ => false

/-- Whether every construct that an expression builds has something in the part `f`. -/
def ensures (solid : τ → Bool) (f : Field) : Peg κ τ ν → Bool
  | .node _ p => p.grows.isEmpty && p.hasPart solid f
  | _ => false

end Peg

namespace Grammar

variable {g : Grammar κ τ ν} {blanks : Nat} {s s' : State κ} {solid : τ → Bool}

/-- The tokens have some length. -/
def Solid (g : Grammar κ τ ν) (solid : τ → Bool) : Prop :=
  ∀ t c y, solid t = true → g.scan t c ≠ some (0, y)

theorem Reads.trees_ne_nil {p : Peg κ τ ν} (h : Reads g blanks p s s') (hs : s.trees ≠ []) :
    s'.trees ≠ [] := by
  induction h with
  | done | nothing | ahead | absent => exact hs
  | token h | leaf h =>
    obtain ⟨c, y, -, rfl⟩ | ⟨c, new, k, y, -, -, -, rfl⟩ := read_cases h
    · exact hs
    · simp
  | rule _ ih | left _ ih | right _ ih | enclosed _ ih => exact ih hs
  | seq _ _ ih ih' | more _ _ ih ih' => exact ih' (ih hs)
  | node | grow => simp
  | field hskip | frame hskip =>
    obtain ⟨-, new, rfl, -⟩ := skipAll_cases hskip
    simp [hs]

theorem Reads.adds (hg : g.Solid solid) {p : Peg κ τ ν} (h : Reads g blanks p s s')
    (hp : p.adds solid = true) : s'.trees ≠ [] := by
  induction h with
  | done | nothing | ahead | absent | rule | more => cases hp
  | token h | leaf h =>
    obtain ⟨c, y, hscan, rfl⟩ | ⟨c, new, k, y, -, -, -, rfl⟩ := read_cases h
    · exact absurd hscan (hg _ _ _ hp)
    · simp
  | left _ ih => exact ih (Bool.and_eq_true_iff.mp hp).1
  | right _ ih => exact ih (Bool.and_eq_true_iff.mp hp).2
  | seq _ h' ih ih' =>
    rcases Bool.or_eq_true_iff.mp hp with hp | hp
    · exact h'.trees_ne_nil (ih hp)
    · exact ih' hp
  | node | grow => simp
  | field _ _ ih => simp [ih hp]
  | frame _ _ ih => simp [ih hp]
  | enclosed _ ih => exact ih hp

theorem Reads.mem_of_mem (hg : ∀ r, (g.rule r).grows = []) {p : Peg κ τ ν}
    (h : Reads g blanks p s s') (hp : p.grows = []) {t : Tree κ} (ht : t ∈ s.trees) :
    t ∈ s'.trees := by
  obtain ⟨new, hnew⟩ := h.exists_append hg hp
  rw [hnew]
  exact List.mem_append_right _ ht

theorem Reads.exists_part (hg : g.Solid solid) (hrules : ∀ r, (g.rule r).grows = []) {f : Field}
    {p : Peg κ τ ν} (h : Reads g blanks p s s') (hgrows : p.grows = [])
    (hp : p.hasPart solid f = true) : ∃ t ∈ s'.trees, t.field = some f := by
  induction h with
  | done | nothing | ahead | absent | rule | more | token | leaf | node | frame | grow => cases hp
  | left _ ih =>
    exact ih (List.append_eq_nil_iff.mp hgrows).1 (Bool.and_eq_true_iff.mp hp).1
  | right _ ih =>
    exact ih (List.append_eq_nil_iff.mp hgrows).2 (Bool.and_eq_true_iff.mp hp).2
  | seq _ h' ih ih' =>
    obtain ⟨hfirst, hsecond⟩ := List.append_eq_nil_iff.mp hgrows
    rcases Bool.or_eq_true_iff.mp hp with hp | hp
    · obtain ⟨t, ht, hf⟩ := ih hfirst hp
      exact ⟨t, h'.mem_of_mem hrules hsecond ht, hf⟩
    · exact ih' hsecond hp
  | field _ h _ =>
    obtain ⟨hf, hadds⟩ := Bool.and_eq_true_iff.mp hp
    obtain ⟨t, ht⟩ := List.exists_mem_of_ne_nil _ (h.adds hg hadds)
    refine ⟨t.inField _, List.mem_append_left _ (List.mem_map_of_mem ht), ?_⟩
    cases t
    rw [of_decide_eq_true hf]
    rfl
  | enclosed _ ih => exact ih hgrows hp

/-- If all expressions for a kind ensure a part, every construct of the kind has it. -/
theorem Formed.exists_part [DecidableEq κ] (hg : g.Solid solid)
    (hrules : ∀ r, (g.rule r).grows = []) {k : κ} {f : Field}
    (hcomment : ∀ c n, g.skip c ≠ some (n, some k))
    (hall : ∀ r, ((g.rule r).constructions k).all (Peg.ensures solid f) = true) {t : Tree κ}
    (h : g.Formed blanks t) (hk : t.hasKind k = true) : ∃ c ∈ t.children, c.field = some f := by
  have hk : t.label = .kind k := of_decide_eq_true hk
  cases h with
  | token => cases hk
  | kind horigin _ =>
    cases hk
    rcases horigin with ⟨c, n, kind, hskip, heq⟩ | ⟨r, p, hp, s, s', ts, -, hreads, htrees⟩
    · cases heq
      exact absurd hskip (hcomment c n)
    · have hensures := List.all_eq_true.mp (hall r) p hp
      cases hreads with
      | node _ hparts =>
        obtain ⟨hgrows, hpart⟩ := Bool.and_eq_true_iff.mp hensures
        obtain ⟨t, ht, hf⟩ := hparts.exists_part hg hrules (List.isEmpty_iff.mp hgrows) hpart
        cases htrees
        exact ⟨t, List.mem_reverse.mpr ht, hf⟩
      | _ => cases hensures

end Grammar

/-! ## Trees that play no part -/

/-- Whether an expression adds only trees that play no part, where `bare` are the rules that do. -/
def Peg.isBare (bare : ν → Bool) : Peg κ τ ν → Bool
  | .rule r => bare r
  | .seq p q | .alt p q => p.isBare bare && q.isBare bare
  | .many p | .enclosed _ p | .frame p => p.isBare bare
  | .field _ _ => false
  | .done | .token _ | .leaf _ _ | .node _ _ | .grow _ _ _ | .ahead _ | .absent _ => true

namespace Grammar

variable {g : Grammar κ τ ν} {blanks : Nat} {s s' : State κ}

theorem IsComment.field {t : Tree κ} (h : g.IsComment t) : t.field = none := by
  obtain ⟨c, k, kind, -, rfl⟩ := h
  rfl

theorem Reads.field_eq_none {bare : ν → Bool}
    (hg : ∀ r, bare r = true → (g.rule r).isBare bare = true) {p : Peg κ τ ν}
    (h : Reads g blanks p s s') (hp : p.isBare bare = true)
    (hs : ∀ t ∈ s.trees, t.field = none) : ∀ t ∈ s'.trees, t.field = none := by
  induction h with
  | done | nothing | ahead | absent => exact hs
  | token h | leaf h =>
    obtain ⟨c, y, -, rfl⟩ | ⟨c, new, k, y, -, hall, -, rfl⟩ := read_cases h
    · exact hs
    · intro t ht
      rcases List.mem_cons.mp ht with rfl | ht
      · rfl
      · exact (List.mem_append.mp ht).elim (fun ht => (hall t ht).field) (hs t)
  | rule _ ih => exact ih (hg _ hp) hs
  | left _ ih => exact ih (Bool.and_eq_true_iff.mp hp).1 hs
  | right _ ih => exact ih (Bool.and_eq_true_iff.mp hp).2 hs
  | seq _ _ ih ih' =>
    obtain ⟨hp, hq⟩ := Bool.and_eq_true_iff.mp hp
    exact ih' hq (ih hp hs)
  | more _ _ ih ih' => exact ih' hp (ih hp hs)
  | node hskip =>
    intro t ht
    rcases List.mem_cons.mp ht with rfl | ht
    · rfl
    · exact forall_mem_skipAll (fun _ => IsComment.field) hskip hs t ht
  | field => cases hp
  | frame hskip _ ih =>
    intro t ht
    rcases List.mem_append.mp ht with ht | ht
    · exact ih hp (by simp) t ht
    · exact forall_mem_skipAll (fun _ => IsComment.field) hskip hs t ht
  | grow =>
    intro t ht
    obtain rfl := List.mem_singleton.mp ht
    rfl
  | enclosed _ ih => exact ih hp hs

end Grammar

end DepAtlas.Syntax
