import DepAtlas.Proofs.Readings

/-! # Sorts of constructs

Some constructs of a language stand in some places only: a method in the body of a class or in an
object, an import where a statement can stand. A sorting names the sorts of such constructs, says in
which parts of which constructs they are allowed, and of which sorts a rule may add trees. Whether the
rules of a grammar keep to it is computed; if they do, so does every tree that is parsed.
-/

namespace DepAtlas.Syntax

/-- Constructs without a sort may stand everywhere, and so may bare tokens. -/
structure Sorting (κ ν σ : Type) where
  sort : κ → Option σ
  /-- Whether a construct may have a part of the sort. -/
  allowed : κ → Option Field → σ → Bool
  /-- The sorts of the trees that a rule may add, with the part they play. -/
  adds : ν → List (Option Field × σ)

namespace Sorting

variable {κ τ ν σ : Type} (S : Sorting κ ν σ)

/-- The sort of a node. -/
def sortOf (t : Tree κ) : Option σ := t.kind?.bind S.sort

/-- The node is of no sort or of one that may stand in its part. -/
def Permits (ok : Option Field → σ → Bool) (t : Tree κ) : Prop :=
  ∀ x, S.sortOf t = some x → ok t.field x = true

/-- Every construct of the tree has only parts of sorts that it allows, and tokens have no parts. -/
inductive Follows : Tree κ → Prop where
  | token {text f e} : Follows (.node (.token text) f e [])
  | kind {k f e cs} (h : ∀ c ∈ cs, S.Permits (S.allowed k) c) (hs : ∀ c ∈ cs, Follows c) :
      Follows (.node (.kind k) f e cs)

/-- What may stand in a list of trees of which each construct that `p` grows may take everything. -/
def growable (ok : Option Field → σ → Bool) (p : Peg κ τ ν) (f : Option Field) (x : σ) : Bool :=
  ok f x && p.grows.all fun g => S.allowed g.1 (g.2 <|> f) x

/-- Whether an expression adds only trees that `ok` lets stand, and builds only constructs with parts
that they allow. -/
def fits (ok : Option Field → σ → Bool) : Peg κ τ ν → Bool
  | .done | .token _ | .ahead _ | .absent _ => true
  | .leaf k _ => (S.sort k).all (ok none)
  | .rule r => (S.adds r).all fun a => ok a.1 a.2
  | .seq p q | .alt p q => fits ok p && fits ok q
  | .many p | .enclosed _ p => fits ok p
  | .node k p => (S.sort k).all (ok none) && fits (S.growable (S.allowed k) p) p
  | .field f p => fits (S.growable (fun _ => ok (some f)) p) p
  | .frame p => fits (S.growable ok p) p
  | .grow k _ p => (S.sort k).all (ok none) && p.grows.isEmpty && fits (S.allowed k) p

end Sorting

/-- The rules of the grammar keep to the sorting. -/
structure Grammar.Sorted {κ τ ν σ : Type} [DecidableEq σ] (g : Grammar κ τ ν)
    (S : Sorting κ ν σ) : Prop where
  fits : ∀ r, S.fits (fun f x => (S.adds r).contains (f, x)) (g.rule r) = true
  grows : ∀ r, (g.rule r).grows = []
  comments : ∀ c k kind, g.skip c = some (k, some kind) → S.sort kind = none

namespace Sorting

variable {κ τ ν σ : Type} {S : Sorting κ ν σ} {ok ok' : Option Field → σ → Bool}

/-- The tree keeps to the sorting and may stand where `ok` says. -/
def Suits (S : Sorting κ ν σ) (ok : Option Field → σ → Bool) (t : Tree κ) : Prop :=
  S.Follows t ∧ S.Permits ok t

theorem Suits.mono {t : Tree κ} (h : S.Suits ok t)
    (hok : ∀ f x, ok f x = true → ok' f x = true) : S.Suits ok' t :=
  ⟨h.1, fun x hx => hok _ _ (h.2 x hx)⟩

theorem Suits.inField {t : Tree κ} {f : Field} (h : S.Suits (fun _ => ok (some f)) t) :
    S.Suits ok (t.inField f) := by
  obtain ⟨hfollows, hpermits⟩ := h
  cases hfollows with
  | token => exact ⟨.token, hpermits⟩
  | kind h hs => exact ⟨.kind h hs, hpermits⟩

theorem suits_token (text : String) (e : Extent) : S.Suits ok (.node (.token text) none e []) := by
  refine ⟨.token, fun x hx => ?_⟩
  simp [sortOf, Tree.kind?, Tree.label] at hx

theorem suits_node {k : κ} {e : Extent} {cs : List (Tree κ)}
    (hk : (S.sort k).all (ok none) = true) (h : ∀ c ∈ cs, S.Suits (S.allowed k) c) :
    S.Suits ok (.node (.kind k) none e cs.reverse) := by
  refine ⟨.kind (fun c hc => (h c (List.mem_reverse.mp hc)).2)
    fun c hc => (h c (List.mem_reverse.mp hc)).1, fun x hx => ?_⟩
  have hx : S.sort k = some x := hx
  rw [hx] at hk
  exact hk

theorem suits_leaf {k : κ} (e : Extent) (hk : (S.sort k).all (ok none) = true) :
    S.Suits ok (.node (.kind k) none e []) := by
  have h : ∀ c ∈ ([] : List (Tree κ)), S.Suits (S.allowed k) c := by simp
  exact suits_node hk h

/-- A comment may stand everywhere. -/
theorem suits_comment [DecidableEq σ] {g : Grammar κ τ ν} (hg : g.Sorted S) {t : Tree κ}
    (ht : g.IsComment t) : S.Suits ok t := by
  obtain ⟨c, k, kind, hskip, rfl⟩ := ht
  refine ⟨.kind (by simp) (by simp), fun x hx => ?_⟩
  have hx : S.sort kind = some x := hx
  simp [hg.comments c k kind hskip] at hx

/-- The parts of a construct. -/
theorem Follows.of_mem {t c : Tree κ} (h : S.Follows t) (hc : c ∈ t.children) :
    S.Follows c ∧ ∃ k, t.kind? = some k ∧ S.Permits (S.allowed k) c := by
  cases h with
  | token => cases hc
  | kind h hs => exact ⟨hs c hc, _, rfl, h c hc⟩

theorem ok_of_growable {p : Peg κ τ ν} {f : Option Field} {x : σ}
    (h : S.growable ok p f x = true) : ok f x = true :=
  (Bool.and_eq_true_iff.mp h).1

theorem allowed_of_growable {p : Peg κ τ ν} {f f' : Option Field} {x : σ} {k : κ}
    (h : S.growable ok p f x = true) (hk : (k, f') ∈ p.grows) :
    S.allowed k (f' <|> f) x = true :=
  List.all_eq_true.mp (Bool.and_eq_true_iff.mp h).2 _ hk

theorem suits_of_mem_held {f : Option Field} {ts : List (Tree κ)} {k : κ}
    (hok : ∀ f' x, ok f' x = true → S.allowed k (f <|> f') x = true)
    (h : ∀ t ∈ ts, S.Suits ok t) {t : Tree κ} (ht : t ∈ Grammar.held f ts) :
    S.Suits (S.allowed k) t := by
  cases f with
  | none => exact (h t ht).mono hok
  | some f =>
    obtain ⟨t', ht', rfl⟩ := List.mem_map.mp ht
    exact ((h t' ht').mono hok).inField

end Sorting

namespace Grammar

variable {κ τ ν σ : Type} [DecidableEq σ] {g : Grammar κ τ ν} {S : Sorting κ ν σ}
  {ok : Option Field → σ → Bool} {blanks : Nat} {s s' : State κ}

theorem Sorted.skipAll (hg : g.Sorted S) {n : Nat} {c c' : Cursor} {ts ts' : List (Tree κ)}
    (hs : g.skipAll n c ts = (c', ts')) {t : Tree κ} (ht : t ∈ ts') : t ∈ ts ∨ S.Suits ok t := by
  obtain ⟨-, new, rfl, hall⟩ := skipAll_cases hs
  rcases List.mem_append.mp ht with ht | ht
  · exact .inr (Sorting.suits_comment hg (hall t ht))
  · exact .inl ht

theorem Sorted.read (hg : g.Sorted S) {t : τ} {label : String → Label κ}
    (h : g.read blanks t label s = some s')
    (hlabel : ∀ e, S.Suits ok (.node (label e.text) none e [])) {t : Tree κ}
    (ht : t ∈ s'.trees) : t ∈ s.trees ∨ S.Suits ok t := by
  obtain ⟨c, y, -, rfl⟩ | ⟨c, new, k, y, -, hall, -, rfl⟩ := read_cases h
  · exact .inl ht
  · rcases List.mem_cons.mp ht with rfl | ht
    · exact .inr (hlabel _)
    · rcases List.mem_append.mp ht with ht | ht
      · exact .inr (Sorting.suits_comment hg (hall t ht))
      · exact .inl ht

/-- Every tree of a list was there before or suits it, if the expression fits. What was there before
must suit only where something is grown from it: everything in the list may become a part of that. -/
theorem Reads.suits (hg : g.Sorted S) {p : Peg κ τ ν} (h : Reads g blanks p s s')
    (hfits : S.fits ok p = true)
    (hgrow : ∀ k f, (k, f) ∈ p.grows → ∀ f' x, ok f' x = true → S.allowed k (f <|> f') x = true)
    (hs : p.grows ≠ [] → ∀ t ∈ s.trees, S.Suits ok t) :
    ∀ t ∈ s'.trees, t ∈ s.trees ∨ S.Suits ok t := by
  induction h generalizing ok with
  | done | nothing | ahead | absent => exact fun t ht => .inl ht
  | token h => exact fun t ht => hg.read h (fun e => Sorting.suits_token _ e) ht
  | leaf h => exact fun t ht => hg.read h (fun e => Sorting.suits_leaf e hfits) ht
  | @rule r s s' h ih =>
    intro t ht
    have hadds := ih (hg.fits r) (by simp [hg.grows r]) (by simp [hg.grows r]) t ht
    refine hadds.imp_right fun hsuits => hsuits.mono fun f x hx => ?_
    exact List.all_eq_true.mp hfits _ (List.contains_iff_mem.mp hx)
  | seq _ _ ih ih' =>
    obtain ⟨hp, hq⟩ := Bool.and_eq_true_iff.mp hfits
    have hfirst := ih hp (fun k f hk => hgrow k f (List.mem_append_left _ hk))
      fun hne => hs (by simp [Peg.grows, hne])
    have hsecond := ih' hq (fun k f hk => hgrow k f (List.mem_append_right _ hk))
      fun hne t ht => (hfirst t ht).elim (hs (by simp [Peg.grows, hne]) t) id
    exact fun t ht => (hsecond t ht).elim (hfirst t) .inr
  | left _ ih =>
    exact ih (Bool.and_eq_true_iff.mp hfits).1
      (fun k f hk => hgrow k f (List.mem_append_left _ hk)) fun hne => hs (by simp [Peg.grows, hne])
  | right _ ih =>
    exact ih (Bool.and_eq_true_iff.mp hfits).2
      (fun k f hk => hgrow k f (List.mem_append_right _ hk)) fun hne => hs (by simp [Peg.grows, hne])
  | more _ _ ih ih' =>
    have hfirst := ih hfits hgrow hs
    have hrest := ih' hfits hgrow fun hne t ht => (hfirst t ht).elim (hs hne t) id
    exact fun t ht => (hrest t ht).elim (hfirst t) .inr
  | node hskip _ ih =>
    obtain ⟨hk, hp⟩ := Bool.and_eq_true_iff.mp hfits
    have hparts := ih hp (fun k f hk f' x hx => Sorting.allowed_of_growable hx hk) (by simp)
    intro t ht
    rcases List.mem_cons.mp ht with rfl | ht
    · refine .inr (Sorting.suits_node hk fun c hc => ?_)
      exact ((hparts c hc).resolve_left List.not_mem_nil).mono fun _ _ => Sorting.ok_of_growable
    · exact hg.skipAll hskip ht
  | field hskip _ ih =>
    have hparts := ih hfits (fun k f hk f' x hx => Sorting.allowed_of_growable hx hk) (by simp)
    intro t ht
    rcases List.mem_append.mp ht with ht | ht
    · obtain ⟨c, hc, rfl⟩ := List.mem_map.mp ht
      have hsuits := (hparts c hc).resolve_left List.not_mem_nil
      exact .inr (hsuits.mono fun _ _ => Sorting.ok_of_growable).inField
    · exact hg.skipAll hskip ht
  | frame hskip _ ih =>
    have hparts := ih hfits (fun k f hk f' x hx => Sorting.allowed_of_growable hx hk) (by simp)
    intro t ht
    rcases List.mem_append.mp ht with ht | ht
    · have hsuits := (hparts t ht).resolve_left List.not_mem_nil
      exact .inr (hsuits.mono fun _ _ => Sorting.ok_of_growable)
    · exact hg.skipAll hskip ht
  | @grow k f p s s' _ ih =>
    obtain ⟨hkp, hfits⟩ := Bool.and_eq_true_iff.mp hfits
    obtain ⟨hk, hp⟩ := Bool.and_eq_true_iff.mp hkp
    have hheld : ∀ t ∈ held f s.trees, S.Suits (S.allowed k) t := fun t ht =>
      Sorting.suits_of_mem_held (hgrow k f List.mem_cons_self) (hs (by simp [Peg.grows])) ht
    have hparts := ih hfits (by simp [List.isEmpty_iff.mp hp]) (by simp [List.isEmpty_iff.mp hp])
    intro t ht
    obtain rfl := List.mem_singleton.mp ht
    exact .inr (Sorting.suits_node hk fun c hc => (hparts c hc).elim (hheld c) id)
  | enclosed _ ih => exact ih hfits hgrow hs

/-- Every tree that is parsed by a sorted grammar keeps to the sorting, and it is of a sort that the
start rule adds. -/
theorem Sorted.suits_of_parse (hg : g.Sorted S) {source : String} {t : Tree κ}
    (h : g.parse? source = some t) :
    S.Suits (fun f x => (S.adds g.start).contains (f, x)) t := by
  obtain ⟨s', hreads, ht⟩ := reads_of_parse h
  have hfits : S.fits (fun f x => (S.adds g.start).contains (f, x))
      (.rule g.start : Peg κ τ ν) = true :=
    List.all_eq_true.mpr fun a ha => List.contains_iff_mem.mpr ha
  have hsuits := hreads.suits hg hfits (by simp [Peg.grows]) (by simp) t ht
  exact hsuits.resolve_left List.not_mem_nil

end Grammar

end DepAtlas.Syntax
