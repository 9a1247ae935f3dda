import DepAtlas.Syntax.Tree
import Mathlib.Data.List.Forall2

/-! # Walks over trees

A spot is a node of a tree together with the nodes around it. Two things can be said of a walk from
what it does at one spot. What every step leads to, the whole walk leads to; and what a walk gathers
is, in order, what it gathers at some of the spots of the tree, of which none is left out that counts,
if the walk goes past no child with such a spot below.
-/

namespace DepAtlas.Syntax

variable {κ : Type}

/-- A node and the nodes around it, the innermost first. -/
structure Spot (κ : Type) where
  node : Tree κ
  around : List (Tree κ)

namespace Spot

def child (x : Spot κ) (t : Tree κ) : Spot κ := ⟨t, x.node :: x.around⟩

/-- The spots around a node, each with the part of it that the node is in or is. -/
def stepsFrom (t : Tree κ) : List (Tree κ) → List (Tree κ × Spot κ)
  | [] => []
  | a :: as => (t, ⟨a, as⟩) :: stepsFrom a as

def steps (x : Spot κ) : List (Tree κ × Spot κ) := stepsFrom x.node x.around

@[simp] theorem node_child (x : Spot κ) (t : Tree κ) : (x.child t).node = t := rfl

@[simp] theorem around_child (x : Spot κ) (t : Tree κ) :
    (x.child t).around = x.node :: x.around := rfl

@[simp] theorem steps_child (x : Spot κ) (t : Tree κ) : (x.child t).steps = (t, x) :: x.steps := rfl

theorem mem_of_mem_stepsFrom {t : Tree κ} {as : List (Tree κ)} {s : Tree κ × Spot κ}
    (h : s ∈ stepsFrom t as) : s.2.node ∈ as := by
  induction as generalizing t with
  | nil => cases h
  | cons a as ih =>
    rcases List.mem_cons.mp h with rfl | h
    · exact List.mem_cons_self
    · exact List.mem_cons_of_mem _ (ih h)

theorem mem_around_of_mem_steps {x : Spot κ} {s : Tree κ × Spot κ} (h : s ∈ x.steps) :
    s.2.node ∈ x.around :=
  mem_of_mem_stepsFrom h

end Spot

namespace Tree

theorem hasKind_of_kind? [DecidableEq κ] {t : Tree κ} {k : κ} (h : t.kind? = some k) (k' : κ) :
    t.hasKind k' = decide (k = k') := by
  obtain ⟨l, f, e, cs⟩ := t
  cases l with
  | kind k₁ =>
    obtain rfl := Option.some.inj h
    simp [hasKind, label]
  | token text => cases h

theorem kind?_of_hasKind [DecidableEq κ] {t : Tree κ} {k : κ} (h : t.hasKind k = true) :
    t.kind? = some k := by
  rw [kind?, of_decide_eq_true h]

mutual

/-- The spots of a tree that stands inside `as`, in the order in which they are met. -/
def spotsIn (as : List (Tree κ)) : Tree κ → List (Spot κ)
  | node l f e cs => ⟨node l f e cs, as⟩ :: spotsInAll (node l f e cs :: as) cs

def spotsInAll (as : List (Tree κ)) : List (Tree κ) → List (Spot κ)
  | [] => []
  | t :: ts => spotsIn as t ++ spotsInAll as ts

end

def spots (t : Tree κ) : List (Spot κ) := spotsIn [] t

theorem spotsIn_eq (as : List (Tree κ)) (t : Tree κ) :
    spotsIn as t = ⟨t, as⟩ :: spotsInAll (t :: as) t.children := by
  cases t
  rw [spotsIn]
  rfl

theorem spotsInAll_eq_flatMap (as ts : List (Tree κ)) :
    spotsInAll as ts = ts.flatMap (spotsIn as) := by
  induction ts with
  | nil => rfl
  | cons t ts ih => rw [spotsInAll, ih, List.flatMap_cons]

theorem mem_spotsIn_self (as : List (Tree κ)) (t : Tree κ) : ⟨t, as⟩ ∈ spotsIn as t := by
  rw [spotsIn_eq]
  exact List.mem_cons_self

theorem mem_spots_self (t : Tree κ) : ⟨t, []⟩ ∈ t.spots := mem_spotsIn_self [] t

/-- The spots of a tree are its root and those of its children. -/
theorem mem_spotsIn_iff {as : List (Tree κ)} {t : Tree κ} {x : Spot κ} :
    x ∈ spotsIn as t ↔ x = ⟨t, as⟩ ∨ ∃ c ∈ t.children, x ∈ spotsIn (t :: as) c := by
  rw [spotsIn_eq, List.mem_cons, spotsInAll_eq_flatMap, List.mem_flatMap]

mutual

theorem child_mem_spotsIn {as : List (Tree κ)} {x : Spot κ} {c : Tree κ}
    (hc : c ∈ x.node.children) : (t : Tree κ) → x ∈ spotsIn as t → x.child c ∈ spotsIn as t
  | node l f e cs, hx => by
    rw [spotsIn, List.mem_cons] at hx ⊢
    rcases hx with rfl | hx
    · right
      rw [spotsInAll_eq_flatMap]
      exact List.mem_flatMap.mpr ⟨c, hc, mem_spotsIn_self _ c⟩
    · exact .inr (child_mem_spotsInAll hc cs hx)

theorem child_mem_spotsInAll {as : List (Tree κ)} {x : Spot κ} {c : Tree κ}
    (hc : c ∈ x.node.children) : (ts : List (Tree κ)) → x ∈ spotsInAll as ts →
      x.child c ∈ spotsInAll as ts
  | t :: ts, hx => by
    rw [spotsInAll, List.mem_append] at hx ⊢
    exact hx.imp (child_mem_spotsIn hc t) (child_mem_spotsInAll hc ts)

end

/-- Where a node is, its children are. -/
theorem child_mem_spots {t c : Tree κ} {x : Spot κ} (hx : x ∈ t.spots)
    (hc : c ∈ x.node.children) : x.child c ∈ t.spots :=
  child_mem_spotsIn hc t hx

mutual

/-- What holds of the steps from the root of a tree holds of the steps from all its nodes. -/
theorem mem_steps_of_mem_spotsIn {as : List (Tree κ)} {a : Tree κ × Spot κ} {x : Spot κ} :
    (t : Tree κ) → x ∈ spotsIn as t → a ∈ (⟨t, as⟩ : Spot κ).steps → a ∈ x.steps
  | node l f e cs, hx, ha => by
    rw [spotsIn, List.mem_cons] at hx
    rcases hx with rfl | hx
    · exact ha
    · exact mem_steps_of_mem_spotsInAll cs hx fun c => List.mem_cons_of_mem _ ha

theorem mem_steps_of_mem_spotsInAll {as : List (Tree κ)} {a : Tree κ × Spot κ} {x : Spot κ} :
    (ts : List (Tree κ)) → x ∈ spotsInAll as ts → (∀ t, a ∈ (⟨t, as⟩ : Spot κ).steps) →
      a ∈ x.steps
  | t :: ts, hx, ha => by
    rw [spotsInAll, List.mem_append] at hx
    exact hx.elim (fun hx => mem_steps_of_mem_spotsIn t hx (ha t))
      fun hx => mem_steps_of_mem_spotsInAll ts hx ha

end

/-! ## What a walk leads to -/

variable {γ σ α : Type}

/-- Each step leads on from what was gathered before, and the places that it goes on to fit. -/
structure Leads (enter : Enter κ γ σ) (Fits : γ → Spot κ → σ → Prop) (Later : σ → σ → Prop) :
    Prop where
  refl : ∀ s, Later s s
  trans : ∀ {s₁ s₂ s₃}, Later s₁ s₂ → Later s₂ s₃ → Later s₁ s₃
  keeps : ∀ {c x s s'}, Fits c x s → Later s s' → Fits c x s'
  step : ∀ {c x s}, Fits c x s → Later s (enter c x.node s).1
  visit : ∀ {c x s t ts c'}, Fits c x s → t ∈ x.node.children →
    (enter c x.node s).2 t ts = some c' → Fits c' (x.child t) (enter c x.node s).1

mutual

theorem Leads.walk {enter : Enter κ γ σ} {Fits : γ → Spot κ → σ → Prop} {Later : σ → σ → Prop}
    (h : Leads enter Fits Later) {as : List (Tree κ)} {c : γ} {s : σ} :
    (t : Tree κ) → Fits c ⟨t, as⟩ s → Later s (walk enter c t s)
  | node l f e cs, hfits => by
    rw [Tree.walk]
    have hrest : ∀ t ∈ cs, ∀ rest c', (enter c (node l f e cs) s).2 t rest = some c' →
        Fits c' ⟨t, node l f e cs :: as⟩ (enter c (node l f e cs) s).1 :=
      fun t ht rest c' hc' => h.visit hfits ht hc'
    exact h.trans (h.step hfits) (h.walkAll cs hrest)

theorem Leads.walkAll {enter : Enter κ γ σ} {Fits : γ → Spot κ → σ → Prop} {Later : σ → σ → Prop}
    (h : Leads enter Fits Later) {as : List (Tree κ)} {plan : Tree κ → List (Tree κ) → Option γ}
    {s : σ} : (ts : List (Tree κ)) →
      (∀ t ∈ ts, ∀ rest c', plan t rest = some c' → Fits c' ⟨t, as⟩ s) →
      Later s (walkAll enter plan ts s)
  | [], _ => by
    rw [Tree.walkAll]
    exact h.refl s
  | t :: ts, hfits => by
    rw [Tree.walkAll]
    split
    · exact h.walkAll ts fun t' ht' => hfits t' (List.mem_cons_of_mem _ ht')
    · rename_i c' hc'
      have hfirst := h.walk t (hfits t List.mem_cons_self ts c' hc')
      have hrest : ∀ t' ∈ ts, ∀ rest c'', plan t' rest = some c'' →
          Fits c'' ⟨t', as⟩ (Tree.walk enter c' t s) :=
        fun t' ht' rest c'' hc'' =>
          h.keeps (hfits t' (List.mem_cons_of_mem _ ht') rest c'' hc'') hfirst
      exact h.trans hfirst (h.walkAll ts hrest)

end

/-- What a walk over a whole tree leads to. -/
theorem Leads.walk_root {enter : Enter κ γ σ} {Fits : γ → Spot κ → σ → Prop}
    {Later : σ → σ → Prop} (h : Leads enter Fits Later) {c : γ} {t : Tree κ} {s : σ}
    (hfits : Fits c ⟨t, []⟩ s) : Later s (Tree.walk enter c t s) :=
  h.walk t hfits

/-! ## What a walk gathers -/

/-- At each spot the walk gathers something that `R` says, last first, and it goes past no child below
which something counts. -/
structure Gathers (enter : Enter κ γ σ) (Fits : γ → Spot κ → Prop) (out : σ → List α)
    (R : List α → Spot κ → Prop) (counts : Spot κ → Bool) : Prop where
  step : ∀ {c x s}, Fits c x → ∃ new, out (enter c x.node s).1 = new.reverse ++ out s ∧ R new x
  visit : ∀ {c x s t ts c'}, Fits c x → t ∈ x.node.children →
    (enter c x.node s).2 t ts = some c' → Fits c' (x.child t)
  pass : ∀ {c x s t ts}, Fits c x → t ∈ x.node.children → (enter c x.node s).2 t ts = none →
    ∀ y ∈ spotsIn (x.node :: x.around) t, counts y = false

/-- What was gathered between two states at spots of a list, in their order. -/
def Gathered (out : σ → List α) (R : List α → Spot κ → Prop) (counts : Spot κ → Bool)
    (xs : List (Spot κ)) (s s' : σ) : Prop :=
  ∃ vs : List (List α × Spot κ), out s' = (vs.flatMap Prod.fst).reverse ++ out s ∧
    (∀ v ∈ vs, R v.1 v.2) ∧ (vs.map Prod.snd).Sublist xs ∧
    (vs.map Prod.snd).filter counts = xs.filter counts

variable {out : σ → List α} {R : List α → Spot κ → Prop} {counts : Spot κ → Bool}

theorem Gathered.nil (s : σ) : Gathered out R counts [] s s :=
  ⟨[], by simp⟩

theorem Gathered.append {xs ys : List (Spot κ)} {s₁ s₂ s₃ : σ}
    (h : Gathered out R counts xs s₁ s₂) (h' : Gathered out R counts ys s₂ s₃) :
    Gathered out R counts (xs ++ ys) s₁ s₃ := by
  obtain ⟨vs, hout, hR, hsub, hcount⟩ := h
  obtain ⟨vs', hout', hR', hsub', hcount'⟩ := h'
  refine ⟨vs ++ vs', ?_, ?_, ?_, ?_⟩
  · rw [hout', hout, List.flatMap_append, List.reverse_append, List.append_assoc]
  · exact fun v hv => (List.mem_append.mp hv).elim (hR v) (hR' v)
  · rw [List.map_append]
    exact hsub.append hsub'
  · rw [List.map_append, List.filter_append, List.filter_append, hcount, hcount']

/-- Spots that are passed over count for nothing. -/
theorem Gathered.passed {xs : List (Spot κ)} (h : ∀ x ∈ xs, counts x = false) (s : σ) :
    Gathered out R counts xs s s := by
  refine ⟨[], by simp, by simp, by simp, ?_⟩
  symm
  simpa using h

theorem Gathered.cons {x : Spot κ} {xs : List (Spot κ)} {s₁ s₂ s₃ : σ} {new : List α}
    (hnew : out s₂ = new.reverse ++ out s₁) (hx : R new x)
    (h : Gathered out R counts xs s₂ s₃) : Gathered out R counts (x :: xs) s₁ s₃ := by
  have hfirst : Gathered out R counts [x] s₁ s₂ :=
    ⟨[(new, x)], by simpa using hnew, by simpa using hx, by simp, by simp⟩
  exact hfirst.append h

/-- If nothing is gathered at spots that do not count, the spots that count have shares in what is
gathered. -/
theorem Gathered.exists_shares {IsShare : Spot κ → List α → Prop} {xs : List (Spot κ)} {s s' : σ}
    (h : Gathered out (fun new x => if counts x then IsShare x new else new = []) counts xs s s') :
    ∃ shares, List.Forall₂ IsShare (xs.filter counts) shares ∧
      out s' = shares.flatten.reverse ++ out s := by
  obtain ⟨vs, hout, hR, -, hcount⟩ := h
  suffices hshares : ∃ shares, List.Forall₂ IsShare ((vs.map Prod.snd).filter counts) shares ∧
      vs.flatMap Prod.fst = shares.flatten by
    obtain ⟨shares, hshares, hflat⟩ := hshares
    exact ⟨shares, hcount ▸ hshares, by rw [hout, hflat]⟩
  clear hout hcount
  induction vs with
  | nil => exact ⟨[], .nil, rfl⟩
  | cons v vs ih =>
    obtain ⟨shares, hshares, hflat⟩ := ih fun v hv => hR v (List.mem_cons_of_mem _ hv)
    have hv : if counts v.2 then IsShare v.2 v.1 else v.1 = [] := hR v List.mem_cons_self
    cases hc : counts v.2 with
    | false =>
      rw [hc] at hv
      have hnil : v.1 = [] := hv
      exact ⟨shares, by simpa [hc] using hshares, by simp [hnil, hflat]⟩
    | true =>
      rw [hc] at hv
      exact ⟨v.1 :: shares, by simpa [hc] using ⟨hv, hshares⟩, by simp [hflat]⟩

/-- If at most one thing is gathered at a spot, everything that is gathered has a spot of its own. -/
theorem Gathered.exists_sources {P : α → Spot κ → Prop} {xs : List (Spot κ)} {s s' : σ}
    (h : Gathered out (fun new x => new = [] ∨ ∃ y, new = [y] ∧ P y x) counts xs s s') :
    ∃ ys, List.SublistForall₂ P ys xs ∧ out s' = ys.reverse ++ out s := by
  obtain ⟨vs, hout, hR, hsub, -⟩ := h
  suffices hsources : ∃ zs, List.Forall₂ P (vs.flatMap Prod.fst) zs ∧
      zs.Sublist (vs.map Prod.snd) by
    obtain ⟨zs, hP, hzs⟩ := hsources
    exact ⟨_, List.sublistForall₂_iff.mpr ⟨zs, hP, hzs.trans hsub⟩, hout⟩
  clear hout hsub
  induction vs with
  | nil => exact ⟨[], .nil, .slnil⟩
  | cons v vs ih =>
    obtain ⟨zs, hP, hzs⟩ := ih fun v hv => hR v (List.mem_cons_of_mem _ hv)
    rw [List.flatMap_cons, List.map_cons]
    rcases hR v List.mem_cons_self with hnil | ⟨y, hy, hPy⟩
    · exact ⟨zs, by rwa [hnil], hzs.cons _⟩
    · exact ⟨v.2 :: zs, by rw [hy]; exact .cons hPy hP, hzs.cons_cons _⟩

mutual

theorem Gathers.walk {enter : Enter κ γ σ} {Fits : γ → Spot κ → Prop}
    (h : Gathers enter Fits out R counts) {as : List (Tree κ)} {c : γ} {s : σ} :
    (t : Tree κ) → Fits c ⟨t, as⟩ →
      Gathered out R counts (spotsIn as t) s (walk enter c t s)
  | node l f e cs, hfits => by
    rw [Tree.walk, spotsIn]
    obtain ⟨new, hnew, hR⟩ := h.step (s := s) hfits
    refine .cons hnew hR (h.walkAll cs (fun t ht ts c' hc' => ?_) fun t ht ts hnone => ?_)
    · exact h.visit hfits ht hc'
    · exact h.pass hfits ht hnone

theorem Gathers.walkAll {enter : Enter κ γ σ} {Fits : γ → Spot κ → Prop}
    (h : Gathers enter Fits out R counts) {as : List (Tree κ)}
    {plan : Tree κ → List (Tree κ) → Option γ} {s : σ} : (ts : List (Tree κ)) →
      (∀ t ∈ ts, ∀ rest c', plan t rest = some c' → Fits c' ⟨t, as⟩) →
      (∀ t ∈ ts, ∀ rest, plan t rest = none → ∀ y ∈ spotsIn as t, counts y = false) →
      Gathered out R counts (spotsInAll as ts) s (walkAll enter plan ts s)
  | [], _, _ => by
    rw [Tree.walkAll, spotsInAll]
    exact .nil s
  | t :: ts, hvisit, hpass => by
    have hrest : ∀ s, Gathered out R counts (spotsInAll as ts) s (Tree.walkAll enter plan ts s) :=
      fun s => h.walkAll ts (fun t' ht' => hvisit t' (List.mem_cons_of_mem _ ht'))
        fun t' ht' => hpass t' (List.mem_cons_of_mem _ ht')
    rw [Tree.walkAll, spotsInAll]
    split
    · rename_i hnone
      exact (Gathered.passed (hpass t List.mem_cons_self ts hnone) s).append (hrest s)
    · rename_i c' hc'
      exact (h.walk t (hvisit t List.mem_cons_self ts c' hc')).append (hrest _)

end

end Tree

end DepAtlas.Syntax
