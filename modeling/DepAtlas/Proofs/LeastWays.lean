import DepAtlas.Graph.Cycles
import Mathlib.Data.Finset.Max
import Mathlib.Data.List.Cycle
import Mathlib.Data.List.Lex
import Mathlib.Data.String.Basic
import Mathlib.Order.WithBot

/-! # Least ways through a graph

A way goes along edges and comes to no node twice. Of all ways to a node, the least one has the lesser name
where it parts from another. An edge from the end of a least way back to a node on it closes a cycle. Every
circuit has such an edge: if there were none, each node of the circuit would be left later, in the order of a
search, than the next one.
-/

namespace DepAtlas.Cycles

variable {edges : List (String × String)} {p q l r c : List String} {a b u v x y : String}

/-! ## Ways -/

/-- An edge leads from one node to another. -/
def Leads (edges : List (String × String)) (a b : String) : Prop := (a, b) ∈ edges

/-- A way along edges that comes to no node twice. -/
structure Way (edges : List (String × String)) (p : List String) : Prop where
  simple : p.Nodup
  linked : p.IsChain (Leads edges)

/-- Of the ways to its end this one comes first, by the names of its nodes in turn. -/
structure Least (edges : List (String × String)) (p : List String) : Prop extends Way edges p where
  le : ∀ q, Way edges q → q.getLast? = p.getLast? → p ≤ q

theorem Way.of_append_left (h : Way edges (p ++ q)) : Way edges p :=
  ⟨h.simple.of_append_left, h.linked.left_of_append⟩

theorem Way.snoc (h : Way edges p) (hlink : ∀ x ∈ p.getLast?, Leads edges x y) (hout : y ∉ p) :
    Way edges (p ++ [y]) where
  simple := by
    refine List.nodup_append.mpr ⟨h.simple, List.nodup_singleton y, ?_⟩
    rintro z hz _ hy rfl
    exact hout (List.mem_singleton.mp hy ▸ hz)
  linked := h.linked.append (List.isChain_singleton y) (by simpa using hlink)

theorem Least.unique (hp : Least edges p) (hq : Least edges q) (he : p.getLast? = q.getLast?) :
    p = q :=
  le_antisymm (hp.le q hq.toWay he.symm) (hq.le p hp.toWay he)

/-! ## The order of ways -/

section Order

variable {α : Type*} [LinearOrder α]

/-- Two lists part, and the second one turns to what is greater. -/
def Before (p q : List α) : Prop :=
  ∃ l a r b s, p = l ++ a :: r ∧ q = l ++ b :: s ∧ a < b

variable {p q r : List α}

theorem Before.lt (h : Before p q) : p < q := by
  obtain ⟨l, a, r, b, s, rfl, rfl, hab⟩ := h
  exact List.Lex.append_left _ (.rel hab) l

theorem Before.append_left (h : Before p q) (r : List α) : Before (p ++ r) q := by
  obtain ⟨l, a, s, b, t, rfl, rfl, hab⟩ := h
  exact ⟨l, a, s ++ r, b, t, by simp, rfl, hab⟩

theorem prefix_or_before (p q : List α) : p <+: q ∨ q <+: p ∨ Before p q ∨ Before q p := by
  induction p generalizing q with
  | nil => exact .inl List.nil_prefix
  | cons a p ih =>
    cases q with
    | nil => exact .inr (.inl List.nil_prefix)
    | cons b q =>
      rcases lt_trichotomy a b with hab | rfl | hab
      · exact .inr (.inr (.inl ⟨[], a, p, b, q, rfl, rfl, hab⟩))
      · have hcons : ∀ {p q : List α}, Before p q → Before (a :: p) (a :: q) := by
          rintro _ _ ⟨l, x, r, y, s, rfl, rfl, hxy⟩
          exact ⟨a :: l, x, r, y, s, rfl, rfl, hxy⟩
        simp only [List.prefix_cons_inj]
        exact (ih q).imp_right (.imp_right (.imp hcons hcons))
      · exact .inr (.inr (.inr ⟨[], b, q, a, p, rfl, rfl, hab⟩))

theorem le_of_isPrefix (h : p <+: q) : p ≤ q := by
  obtain ⟨s, rfl⟩ := h
  cases s with
  | nil => simp
  | cons b s =>
    refine le_of_lt ?_
    simpa using List.Lex.append_left (· < ·) (.nil (a := b) (l := s)) p

theorem not_before_of_isPrefix (h : p <+: q) : ¬ Before p q := by
  rintro ⟨l, a, r, b, s, rfl, rfl, hab⟩
  rw [List.prefix_append_right_inj, List.cons_prefix_cons] at h
  exact hab.ne h.1

end Order

/-- A least way comes before every way on which its end lies. -/
theorem Least.le_of_mem (hp : Least edges p) (hx : p.getLast? = some x) (hq : Way edges q)
    (hmem : x ∈ q) : p ≤ q := by
  obtain ⟨l, r, rfl⟩ := List.append_of_mem hmem
  have hstart : l ++ [x] <+: l ++ x :: r := ⟨r, by simp⟩
  obtain ⟨s, hs⟩ := hstart
  have hway : Way edges (l ++ [x]) := (hs ▸ hq).of_append_left
  exact (hp.le _ hway (by simp [hx])).trans (le_of_isPrefix ⟨s, hs⟩)

/-! ## When nodes are left -/

/-- When a search leaves the end of a way: in the order of names, and after all that lies beyond it. -/
def leaving (p : List String) : List (WithTop String) := p.map (↑) ++ [⊤]

theorem leaving_lt_of_before (h : Before p q) : leaving p < leaving q := by
  obtain ⟨l, a, r, b, s, rfl, rfl, hab⟩ := h
  refine Before.lt ⟨l.map (↑), a, r.map (↑) ++ [⊤], b, s.map (↑) ++ [⊤], ?_, ?_, ?_⟩
  · simp [leaving]
  · simp [leaving]
  · exact WithTop.coe_lt_coe.mpr hab

theorem leaving_lt_of_isPrefix (h : p <+: q) (hne : p ≠ q) : leaving q < leaving p := by
  obtain ⟨s, rfl⟩ := h
  cases s with
  | nil => simp at hne
  | cons b s =>
    refine Before.lt ⟨p.map (↑), b, s.map (↑) ++ [⊤], ⊤, [], ?_, rfl, WithTop.coe_lt_top b⟩
    simp [leaving]

/-- Where an edge leads on and not back, the node it leads to is left earlier. -/
theorem Least.leaving_lt (hp : Least edges p) (hx : p.getLast? = some x) (hq : Least edges q)
    (hy : q.getLast? = some y) (he : Leads edges x y) (hout : y ∉ p) : leaving q < leaving p := by
  have hle := hq.le _ (hp.toWay.snoc (by simpa [hx] using he) hout) (by simp [hy])
  have hmem : y ∈ q := List.mem_of_getLast? hy
  rcases prefix_or_before p q with h | h | h | h
  · exact leaving_lt_of_isPrefix h (by rintro rfl; exact hout hmem)
  · exact absurd (h.subset hmem) hout
  · exact absurd (h.append_left [y]).lt hle.not_gt
  · exact leaving_lt_of_before h

/-! ## Circuits -/

/-- Nodes with an edge from each to the next, and from the last to the first. -/
structure Circuit (edges : List (String × String)) (c : List String) : Prop where
  nonempty : c ≠ []
  linked : (c : Cycle String).Chain (Leads edges)

/-- The nodes of a circuit in turn, up to the first one again. -/
def lap (c : List String) : List String := c ++ c.head?.toList

theorem Circuit.isChain_lap (h : Circuit edges c) : (lap c).IsChain (Leads edges) := by
  cases c with
  | nil => exact absurd rfl h.nonempty
  | cons v r => exact (Cycle.chain_coe_cons _ v r).mp h.linked

theorem Circuit.rotated {d : List String} (h : Circuit edges c) (hr : d ~r c) : Circuit edges d where
  nonempty := by
    rintro rfl
    exact h.nonempty (List.isRotated_nil_iff'.mp hr).symm
  linked := by
    rw [Cycle.coe_eq_coe.mpr hr]
    exact h.linked

theorem Circuit.leads (h : Circuit edges c) (hnext : [x, y] <:+: lap c) : Leads edges x y :=
  List.isChain_pair.mp ( List.IsChain.infix h.isChain_lap hnext)

theorem Way.circuit (h : Way edges (l ++ v :: r)) (hend : (v :: r).getLast? = some u)
    (hback : Leads edges u v) : Circuit edges (v :: r) where
  nonempty := List.cons_ne_nil v r
  linked := by
    rw [Cycle.chain_coe_cons, ← List.cons_append]
    exact h.linked.right_of_append.append (List.isChain_singleton v) (by simpa [hend] using hback)

theorem mem_lap : x ∈ lap c ↔ x ∈ c := by
  rw [lap, List.mem_append, Option.mem_toList]
  exact or_iff_left_of_imp List.mem_of_head?

theorem exists_infix_lap (hx : x ∈ c) : ∃ y ∈ c, [x, y] <:+: lap c := by
  obtain ⟨l, r, rfl⟩ := List.append_of_mem hx
  cases r with
  | cons y r => exact ⟨y, by simp, l, r ++ (l ++ x :: y :: r).head?.toList, by simp [lap]⟩
  | nil =>
    cases l with
    | nil => exact ⟨x, by simp, [], [], rfl⟩
    | cons v l => exact ⟨v, by simp, v :: l, [], by simp [lap]⟩

/-- All nodes of a circuit lead to each other. -/
theorem Circuit.reaches (h : Circuit edges c) (hx : x ∈ c) (hy : y ∈ c) :
    Relation.ReflTransGen (Leads edges) x y := by
  have hchain := Cycle.Chain.imp (fun a b => Relation.ReflTransGen.single) h.linked
  exact Cycle.chain_iff_pairwise.mp hchain x hx y hy

/-- Every circuit has an edge from the end of a least way back to a node on this way. -/
theorem Circuit.exists_return (h : Circuit edges c)
    (hleast : ∀ x ∈ c, ∃ p, Least edges p ∧ p.getLast? = some x) :
    ∃ x y p, [x, y] <:+: lap c ∧ Least edges p ∧ p.getLast? = some x ∧ y ∈ p := by
  choose! way hway hend using hleast
  -- of all nodes of the circuit, the one that is left first
  obtain ⟨x, hx, hmin⟩ := c.toFinset.exists_min_image (leaving ∘ way)
    (List.toFinset_nonempty_iff _ |>.mpr h.nonempty)
  rw [List.mem_toFinset] at hx
  obtain ⟨y, hy, hnext⟩ := exists_infix_lap hx
  refine ⟨x, y, way x, hnext, hway x hx, hend x hx, ?_⟩
  by_contra hout
  have hlt := (hway x hx).leaving_lt (hend x hx) (hway y hy) (hend y hy) (h.leads hnext) hout
  exact absurd hlt (hmin y (List.mem_toFinset.mpr hy)).not_gt

/-- A circuit that the edge from the end of a least way back to a node on it closes. -/
structure Returns (edges : List (String × String)) (c : List String) : Prop extends Circuit edges c where
  least : ∃ l, Least edges (l ++ c)

theorem Returns.nodup (h : Returns edges c) : c.Nodup := by
  obtain ⟨l, hl⟩ := h.least
  exact hl.simple.of_append_right

/-- No such circuit is found twice, with different ends. -/
theorem Returns.eq_of_rotated {d : List String} (hc : Returns edges c) (hd : Returns edges d)
    (hr : c ~r d) : c = d := by
  obtain ⟨l, hl⟩ := hc.least
  obtain ⟨m, hm⟩ := hd.least
  obtain ⟨x, hx⟩ := Option.ne_none_iff_exists'.mp (mt List.getLast?_eq_none_iff.mp hc.nonempty)
  obtain ⟨y, hy⟩ := Option.ne_none_iff_exists'.mp (mt List.getLast?_eq_none_iff.mp hd.nonempty)
  -- each of the two ends lies on the least way to the other
  have hxd : x ∈ m ++ d := List.mem_append_right m (hr.mem_iff.mp (List.mem_of_getLast? hx))
  have hyc : y ∈ l ++ c := List.mem_append_right l (hr.mem_iff.mpr (List.mem_of_getLast? hy))
  have hsame : l ++ c = m ++ d := le_antisymm
    (hl.le_of_mem (by simp [hx]) hm.toWay hxd) (hm.le_of_mem (by simp [hy]) hl.toWay hyc)
  exact (List.append_inj' hsame hr.perm.length_eq).2

end DepAtlas.Cycles
