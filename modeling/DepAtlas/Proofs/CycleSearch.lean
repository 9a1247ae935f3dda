import DepAtlas.Proofs.LeastWays
import DepAtlas.Proofs.Order

/-! # The search for cycles

A search goes down to a node only by the least way to it: whatever comes before on another way has been left
by then, and all that can be reached from it with it. So the edges that close a cycle are those from the end
of a least way back to a node on this way, and each of them is met once.
-/

namespace DepAtlas.Cycles

variable {edges : List (String × String)} {way rest path p q c : List String} {s s' : Search}
  {x y next : String} {fuel : Nat}

theorem mem_targets : y ∈ targets edges x ↔ Leads edges x y := by
  simp [targets, Text.mem_sortedOnce, Leads]

theorem mem_sources : x ∈ sources edges ↔ ∃ y, Leads edges x y := by
  simp [sources, Text.mem_sortedOnce, Leads]

/-- All nodes of the graph, in order. -/
def nodes (edges : List (String × String)) : List String :=
  Text.sortedOnce (edges.map (·.1) ++ edges.map (·.2))

theorem Leads.source_mem_nodes (h : Leads edges x y) : x ∈ nodes edges :=
  Text.mem_sortedOnce.mpr (List.mem_append_left _ (List.mem_map_of_mem (f := (·.1)) h))

theorem Leads.target_mem_nodes (h : Leads edges x y) : y ∈ nodes edges :=
  Text.mem_sortedOnce.mpr (List.mem_append_right _ (List.mem_map_of_mem (f := (·.2)) h))

/-- What a search does about an edge to a node, from the end of a path. -/
def visit (edges : List (String × String)) (fuel : Nat) (path : List String) (s : Search)
    (next : String) : Search :=
  if path.contains next then { s with cycles := s.cycles ++ [closing next path] }
  else if s.visited.contains next then s
  else explore edges fuel path s next

theorem explore_succ (edges : List (String × String)) (fuel : Nat) (path : List String) (s : Search)
    (node : String) :
    explore edges (fuel + 1) path s node = (targets edges node).foldl (visit edges fuel (node :: path))
      { s with visited := node :: s.visited } :=
  rfl

/-- The part of a way from a node on it. -/
theorem closing_reverse {l r : List String} (h : x ∉ r) : closing x (l ++ x :: r).reverse = x :: r := by
  have hall : ∀ z ∈ r.reverse, decide (z ≠ x) = true := by
    intro z hz
    have hne : z ≠ x := fun he => h (he ▸ List.mem_reverse.mp hz)
    exact decide_eq_true hne
  rw [closing, List.reverse_append, List.reverse_cons, List.append_assoc,
    List.takeWhile_append_of_pos hall, List.singleton_append, List.takeWhile_cons_of_neg (by simp)]
  simp

/-! ## Where a search stands -/

/-- What has been told of an edge to a node, from the end of a way. -/
def Told (s : Search) (p : List String) (y : String) : Prop :=
  y ∈ s.visited ∧ (y ∈ p → closing y p.reverse ∈ s.cycles)

/-- A search that goes on forgets nothing. -/
structure Grown (s s' : Search) : Prop where
  visited : s.visited ⊆ s'.visited
  cycles : s.cycles ⊆ s'.cycles

theorem Grown.refl (s : Search) : Grown s s := ⟨List.Subset.refl _, List.Subset.refl _⟩

theorem Grown.trans {s'' : Search} (h : Grown s s') (h' : Grown s' s'') : Grown s s'' :=
  ⟨List.Subset.trans h.visited h'.visited, List.Subset.trans h.cycles h'.cycles⟩

theorem grown_visited (s : Search) (x : String) : Grown s { s with visited := x :: s.visited } :=
  ⟨List.subset_cons_self _ _, List.Subset.refl _⟩

theorem grown_cycles (s : Search) (c : List String) : Grown s { s with cycles := s.cycles ++ [c] } :=
  ⟨List.Subset.refl _, List.subset_append_left _ _⟩

theorem Told.grown (h : Told s p y) (hs : Grown s s') : Told s' p y :=
  ⟨hs.visited h.1, fun hy => hs.cycles (h.2 hy)⟩

/-- A search that has gone down a way, with edges from its end to the nodes `rest` still to come. -/
structure Searching (edges : List (String × String)) (way rest : List String) (s : Search) : Prop where
  isWay : Way edges way
  known : ∀ x ∈ way, x ∈ nodes edges
  seen : ∀ x ∈ way, x ∈ s.visited
  sorted : rest.Pairwise (· < ·)
  linked : ∀ y ∈ rest, y ∈ nodes edges ∧ ∀ x ∈ way.getLast?, Leads edges x y
  least : ∀ x ∈ way.getLast?, ∀ y, Leads edges x y → Least edges way
  /-- The other edges from the end of the way have been told. -/
  going : ∀ x ∈ way.getLast?, ∀ y, Leads edges x y → y ∈ rest ∨ Told s way y
  /-- All edges of the nodes that were left have been told. -/
  left : ∀ x ∈ s.visited, x ∉ way → ∀ y, Leads edges x y →
    ∃ p, Least edges p ∧ p.getLast? = some x ∧ Told s p y
  /-- To a node that was not seen, all ways go on from here or turn off later. -/
  ahead : ∀ q x y, Way edges q → q.getLast? = some x → x ∉ s.visited → Leads edges x y →
    (∃ z r, q = way ++ z :: r ∧ z ∈ rest) ∨ Before way q
  sound : ∀ c ∈ s.cycles, Returns edges c

namespace Searching

/-- The next node is the first one to which ways to unseen nodes go on. -/
theorem prefix_or_before (h : Searching edges way (next :: rest) s) (hq : Way edges q)
    (hx : q.getLast? = some x) (hnew : x ∉ s.visited) (he : Leads edges x y) :
    way ++ [next] <+: q ∨ Before (way ++ [next]) q := by
  rcases h.ahead q x y hq hx hnew he with ⟨z, r, rfl, hz⟩ | hb
  · rcases List.mem_cons.mp hz with rfl | hz
    · exact .inl ⟨r, by simp⟩
    · exact .inr ⟨way, next, [], z, r, rfl, rfl, (List.pairwise_cons.mp h.sorted).1 z hz⟩
  · exact .inr (hb.append_left [next])

/-- Going down to a node that was not seen. -/
theorem enter (h : Searching edges way (next :: rest) s) (hnew : next ∉ s.visited) :
    Searching edges (way ++ [next]) (targets edges next) { s with visited := next :: s.visited } := by
  have hout : next ∉ way := fun hn => hnew (h.seen next hn)
  obtain ⟨hnode, hlink⟩ := h.linked next List.mem_cons_self
  have hgrown := grown_visited s next
  have hway := h.isWay.snoc hlink hout
  refine ⟨hway, ?_, ?_, Text.strictly_sortedOnce _, fun y hy => ?_, ?_, ?_, ?_, ?_, h.sound⟩
  · exact List.forall_mem_append.mpr ⟨h.known, by simpa using hnode⟩
  · exact List.forall_mem_append.mpr ⟨fun x hx => hgrown.visited (h.seen x hx), by simp⟩
  · have he := mem_targets.mp hy
    exact ⟨he.target_mem_nodes, by simpa using he⟩
  · -- this is the least way to the node, since it was not seen before
    intro x hx y he
    obtain rfl : next = x := by simpa using hx
    refine ⟨hway, fun q hq hend => ?_⟩
    rcases h.prefix_or_before hq (by simpa using hend) hnew he with hp | hb
    · exact le_of_isPrefix hp
    · exact hb.lt.le
  · intro x hx y he
    obtain rfl : next = x := by simpa using hx
    exact .inl (mem_targets.mpr he)
  · intro x hx hoff y he
    rw [List.mem_append, not_or, List.mem_singleton] at hoff
    obtain ⟨p, hp, hend, htold⟩ := h.left x ((List.mem_cons.mp hx).resolve_left hoff.2) hoff.1 y he
    exact ⟨p, hp, hend, htold.grown hgrown⟩
  · intro q x y hq hx hunseen he
    rw [List.mem_cons, not_or] at hunseen
    rcases h.prefix_or_before hq hx hunseen.2 he with ⟨r, rfl⟩ | hb
    · cases r with
      | nil => exact absurd (by simpa using hx.symm) hunseen.1
      | cons z r =>
        have hz : Leads edges next z := by
          have := hq.linked
          simp only [List.append_assoc, List.singleton_append] at this
          exact (List.isChain_append_cons_cons.mp this).2.1
        exact .inl ⟨z, r, rfl, mem_targets.mpr hz⟩
    · exact .inr hb

/-- An edge back to a node on the way closes a cycle. -/
theorem close (h : Searching edges way (next :: rest) s) (hon : next ∈ way) :
    Searching edges way rest { s with cycles := s.cycles ++ [closing next way.reverse] } := by
  have hgrown := grown_cycles s (closing next way.reverse)
  refine ⟨h.isWay, h.known, h.seen, h.sorted.of_cons, fun y hy => h.linked y (.tail _ hy), h.least, ?_, ?_,
    ?_, ?_⟩
  · intro x hx y he
    rcases h.going x hx y he with hy | htold
    · rcases List.mem_cons.mp hy with rfl | hy
      · exact .inr ⟨h.seen y hon, fun _ => List.mem_append_right _ (List.mem_singleton_self _)⟩
      · exact .inl hy
    · exact .inr (htold.grown hgrown)
  · intro x hx hoff y he
    obtain ⟨p, hp, hend, htold⟩ := h.left x hx hoff y he
    exact ⟨p, hp, hend, htold.grown hgrown⟩
  · intro q x y hq hx hnew he
    rcases h.ahead q x y hq hx hnew he with ⟨z, r, rfl, hz⟩ | hb
    · rcases List.mem_cons.mp hz with rfl | hz
      · exact absurd List.mem_cons_self ((List.nodup_append.mp hq.simple).2.2 z hon z · rfl)
      · exact .inl ⟨z, r, rfl, hz⟩
    · exact .inr hb
  · intro c hc
    rcases List.mem_append.mp hc with hc | hc
    · exact h.sound c hc
    · obtain ⟨l, r, rfl⟩ := List.append_of_mem hon
      have hr : next ∉ r := (List.nodup_cons.mp h.isWay.simple.of_append_right).1
      obtain ⟨x, hx⟩ := Option.ne_none_iff_exists'.mp
        (mt List.getLast?_eq_none_iff.mp (List.append_ne_nil_of_right_ne_nil l (List.cons_ne_nil next r)))
      have hback : Leads edges x next := (h.linked next List.mem_cons_self).2 x hx
      have hleast := h.least x hx next hback
      rw [List.getLast?_append_cons] at hx
      rw [List.mem_singleton.mp hc, closing_reverse hr]
      exact ⟨h.isWay.circuit hx hback, l, hleast⟩

/-- All that a node leads to beside the way was seen with it. -/
theorem seen_of_isChain (h : Searching edges way rest s) {r : List String} (hx : x ∈ s.visited)
    (hoff : ∀ z ∈ x :: r, z ∉ way) (hr : (x :: r).IsChain (Leads edges)) :
    ∀ z ∈ x :: r, z ∈ s.visited := by
  induction r generalizing x with
  | nil => simpa using hx
  | cons y r ih =>
    rw [List.isChain_cons_cons] at hr
    obtain ⟨p, -, -, hy, -⟩ := h.left x hx (hoff x List.mem_cons_self) y hr.1
    exact List.forall_mem_cons.mpr ⟨hx, ih hy (fun z hz => hoff z (.tail _ hz)) hr.2⟩

/-- An edge to a node that was left leads to nothing new. -/
theorem pass (h : Searching edges way (next :: rest) s) (hseen : next ∈ s.visited)
    (hoff : next ∉ way) : Searching edges way rest s := by
  refine ⟨h.isWay, h.known, h.seen, h.sorted.of_cons, fun y hy => h.linked y (.tail _ hy), h.least, ?_,
    h.left, ?_, h.sound⟩
  · intro x hx y he
    rcases h.going x hx y he with hy | htold
    · rcases List.mem_cons.mp hy with rfl | hy
      · exact .inr ⟨hseen, fun hy => absurd hy hoff⟩
      · exact .inl hy
    · exact .inr htold
  · intro q x y hq hx hnew he
    rcases h.ahead q x y hq hx hnew he with ⟨z, r, rfl, hz⟩ | hb
    · rcases List.mem_cons.mp hz with rfl | hz
      · have hapart : ∀ a ∈ z :: r, a ∉ way := fun a ha hway =>
          (List.nodup_append.mp hq.simple).2.2 a hway a ha rfl
        have hall := h.seen_of_isChain hseen hapart hq.linked.right_of_append
        rw [List.getLast?_append_cons] at hx
        exact absurd (hall x (List.mem_of_getLast? hx)) hnew
      · exact .inl ⟨z, r, rfl, hz⟩
    · exact .inr hb

/-- Coming back from a node when all its edges have been told. -/
theorem leave (h : Searching edges way (next :: rest) s) (hnew : next ∉ s.visited)
    (h' : Searching edges (way ++ [next]) [] s') (hs : Grown s s') : Searching edges way rest s' := by
  refine ⟨h.isWay, h.known, fun x hx => hs.visited (h.seen x hx), h.sorted.of_cons,
    fun y hy => h.linked y (.tail _ hy), h.least, ?_, ?_, ?_, h'.sound⟩
  · intro x hx y he
    rcases h.going x hx y he with hy | htold
    · rcases List.mem_cons.mp hy with rfl | hy
      · exact .inr ⟨h'.seen y (by simp), fun hy => absurd (h.seen y hy) hnew⟩
      · exact .inl hy
    · exact .inr (htold.grown hs)
  · intro x hx hoff y he
    by_cases hlast : x = next
    · have hend : (way ++ [next]).getLast? = some x := by simp [hlast]
      exact ⟨_, h'.least x hend y he, hend, (h'.going x hend y he).resolve_left (by simp)⟩
    · exact h'.left x hx (by simp [hoff, hlast]) y he
  · intro q x y hq hx hunseen he
    have hb : Before (way ++ [next]) q :=
      (h'.ahead q x y hq hx hunseen he).resolve_left (by simp)
    rcases h.ahead q x y hq hx (fun hv => hunseen (hs.visited hv)) he with ⟨z, r, rfl, hz⟩ | hb'
    · rcases List.mem_cons.mp hz with rfl | hz
      · exact absurd hb (not_before_of_isPrefix ⟨r, by simp⟩)
      · exact .inl ⟨z, r, rfl, hz⟩
    · exact .inr hb'

/-- The way down has no more nodes than the graph. -/
theorem length_lt (h : Searching edges way (next :: rest) s) (hnew : next ∉ s.visited) :
    way.length < (nodes edges).length := by
  have hsub : way ++ [next] ⊆ nodes edges := (h.enter hnew).known
  have hle := ((h.enter hnew).isWay.simple.subperm hsub).length_le
  rwa [List.length_append, List.length_singleton] at hle

end Searching

/-! ## Whole searches -/

/-- What has to be shown of going down to a node, if `fuel` is enough for the rest of the way. -/
def Explores (edges : List (String × String)) (fuel : Nat) : Prop :=
  ∀ path next rest s, path.length + fuel = (nodes edges).length →
    Searching edges path.reverse (next :: rest) s → next ∉ s.visited →
      Searching edges path.reverse rest (explore edges fuel path s next) ∧
        Grown s (explore edges fuel path s next)

theorem Explores.visit (h : Explores edges fuel) (hfuel : path.length + fuel = (nodes edges).length)
    (hs : Searching edges path.reverse (next :: rest) s) :
    Searching edges path.reverse rest (visit edges fuel path s next) ∧
      Grown s (visit edges fuel path s next) := by
  unfold Cycles.visit
  split
  · rename_i hon
    have hclosed := hs.close (List.mem_reverse.mpr (List.contains_iff_mem.mp hon))
    rw [List.reverse_reverse] at hclosed
    exact ⟨hclosed, grown_cycles s _⟩
  · rename_i hoff
    split
    · rename_i hseen
      exact ⟨hs.pass (List.contains_iff_mem.mp hseen) (by simpa using hoff), .refl s⟩
    · rename_i hnew
      exact h path next rest s hfuel hs (by simpa using hnew)

theorem Explores.foldl (h : Explores edges fuel) (path : List String)
    (hfuel : path.length + fuel = (nodes edges).length) (hs : Searching edges path.reverse rest s) :
    Searching edges path.reverse [] (rest.foldl (Cycles.visit edges fuel path) s) ∧
      Grown s (rest.foldl (Cycles.visit edges fuel path) s) := by
  induction rest generalizing s with
  | nil => exact ⟨hs, .refl s⟩
  | cons next rest ih =>
    obtain ⟨hone, hgrown⟩ := h.visit hfuel hs
    obtain ⟨hall, hgrown'⟩ := ih hone
    exact ⟨hall, hgrown.trans hgrown'⟩

theorem explores (edges : List (String × String)) (fuel : Nat) : Explores edges fuel := by
  induction fuel with
  | zero =>
    intro path next rest s hfuel hs hnew
    have hlt := hs.length_lt hnew
    rw [List.length_reverse] at hlt
    omega
  | succ fuel ih =>
    intro path next rest s hfuel hs hnew
    have hin := hs.enter hnew
    rw [← List.reverse_cons] at hin
    rw [explore_succ]
    obtain ⟨hdone, hgrown⟩ := ih.foldl (next :: path) (by rw [List.length_cons]; omega) hin
    have hall := (grown_visited s next).trans hgrown
    rw [List.reverse_cons] at hdone
    exact ⟨hs.leave hnew hdone hall, hall⟩

/-- A search through the whole graph. -/
def search (edges : List (String × String)) : Search :=
  (sources edges).foldl (visit edges (nodes edges).length []) ⟨[], []⟩

theorem find_eq (edges : List (String × String)) : find edges = distinct [] (search edges).cycles := by
  have hvisit : visit edges (nodes edges).length [] = fun s root =>
      if s.visited.contains root then s else explore edges (nodes edges).length [] s root := by
    funext s root
    simp [visit]
  rw [search, hvisit]
  rfl

theorem searching_outset (edges : List (String × String)) :
    Searching edges [] (sources edges) ⟨[], []⟩ := by
  refine ⟨⟨by simp, by simp⟩, by simp, by simp, Text.strictly_sortedOnce _, fun y hy => ?_, by simp,
    by simp, by simp, ?_, by simp⟩
  · obtain ⟨z, hz⟩ := mem_sources.mp hy
    exact ⟨hz.source_mem_nodes, by simp⟩
  · intro q x y hq hx _ he
    cases q with
    | nil => cases hx
    | cons z r =>
      refine .inl ⟨z, r, rfl, mem_sources.mpr ?_⟩
      cases r with
      | nil =>
        obtain rfl : z = x := by simpa using hx
        exact ⟨y, he⟩
      | cons z' r => exact ⟨z', (List.isChain_cons_cons.mp hq.linked).1⟩

theorem searching_search (edges : List (String × String)) : Searching edges [] [] (search edges) :=
  ((explores edges _).foldl [] (by simp) (searching_outset edges)).1

/-- Each edge comes from the end of a least way, and has been told if it leads back to a node on it. -/
theorem exists_least_of_leads (h : Leads edges x y) :
    ∃ p, Least edges p ∧ p.getLast? = some x ∧ (y ∈ p → closing y p.reverse ∈ (search edges).cycles) := by
  have hs := searching_search edges
  have hx : x ∈ (search edges).visited := by
    by_contra hnew
    rcases hs.ahead [x] x y ⟨by simp, by simp⟩ rfl hnew h with ⟨_, _, -, hz⟩ | ⟨l, a, r, _, _, hl, -⟩
    · cases hz
    · simp at hl
  obtain ⟨p, hp, hend, -, htold⟩ := hs.left x hx (by simp) y h
  exact ⟨p, hp, hend, htold⟩

theorem mem_cycles_search : c ∈ (search edges).cycles ↔ Returns edges c := by
  refine ⟨(searching_search edges).sound c, fun h => ?_⟩
  obtain ⟨l, hl⟩ := h.least
  cases c with
  | nil => exact absurd rfl h.nonempty
  | cons v r =>
    obtain ⟨x, hx⟩ := Option.ne_none_iff_exists'.mp (mt List.getLast?_eq_none_iff.mp h.nonempty)
    have hback : Leads edges x v := by
      have hlap := h.isChain_lap
      exact (List.isChain_append.mp hlap).2.2 x hx v (by simp)
    obtain ⟨p, hp, hend, htold⟩ := exists_least_of_leads hback
    obtain rfl : p = l ++ v :: r := hp.unique hl (by rw [hend, List.getLast?_append_cons, hx])
    have hv : v ∉ r := (List.nodup_cons.mp h.nodup).1
    rw [← closing_reverse (l := l) hv]
    exact htold (by simp)

/-! ## Telling each cycle once -/

theorem least_eq_none_iff {c : List String} : Cycles.least c = none ↔ c = [] := by
  cases c with
  | nil => simp [Cycles.least]
  | cons a c => cases h : Cycles.least c <;> simp [Cycles.least, h]

theorem canonical_isRotated (c : List String) : canonical c ~r c := by
  unfold canonical
  split
  · rename_i h
    rw [least_eq_none_iff.mp h]
  · rename_i m _
    conv_rhs => rw [← List.takeWhile_append_dropWhile (p := (· ≠ m)) (l := c)]
    exact List.isRotated_append

theorem mem_of_mem_distinct {seen cs : List (List String)} (h : c ∈ distinct seen cs) :
    c ∈ cs ∧ canonical c ∉ seen := by
  fun_induction distinct seen cs with
  | case1 => cases h
  | case2 seen d cs hin ih => exact ⟨.tail _ (ih h).1, (ih h).2⟩
  | case3 seen d cs hout ih =>
    rcases List.mem_cons.mp h with rfl | h
    · exact ⟨List.mem_cons_self, by simpa using hout⟩
    · exact ⟨.tail _ (ih h).1, fun hc => (ih h).2 (.tail _ hc)⟩

theorem pairwise_distinct (seen cs : List (List String)) :
    (distinct seen cs).Pairwise fun c d => canonical c ≠ canonical d := by
  fun_induction distinct seen cs with
  | case1 => exact .nil
  | case2 _ _ _ _ ih => exact ih
  | case3 seen c cs _ ih =>
    refine .cons (fun d hd he => ?_) ih
    exact (mem_of_mem_distinct hd).2 (he ▸ List.mem_cons_self)

theorem exists_mem_distinct (seen : List (List String)) {cs : List (List String)} (h : c ∈ cs) :
    canonical c ∈ seen ∨ ∃ d ∈ distinct seen cs, canonical d = canonical c := by
  fun_induction distinct seen cs with
  | case1 => cases h
  | case2 seen d cs hin ih =>
    rcases List.mem_cons.mp h with rfl | h
    · exact .inl (List.contains_iff_mem.mp hin)
    · exact ih h
  | case3 seen d cs hout ih =>
    rcases List.mem_cons.mp h with rfl | h
    · exact .inr ⟨_, List.mem_cons_self, rfl⟩
    · rcases ih h with hin | ⟨e, he, hsame⟩
      · rcases List.mem_cons.mp hin with hsame | hin
        · exact .inr ⟨d, List.mem_cons_self, hsame.symm⟩
        · exact .inl hin
      · exact .inr ⟨e, .tail _ he, hsame⟩

/-- The cycles that are found are those that an edge from the end of a least way closes. -/
theorem mem_find : c ∈ find edges ↔ Returns edges c := by
  rw [find_eq]
  refine ⟨fun h => mem_cycles_search.mp (mem_of_mem_distinct h).1, fun h => ?_⟩
  rcases exists_mem_distinct [] (mem_cycles_search.mpr h) with hin | ⟨d, hd, hsame⟩
  · cases hin
  · have hrotated : d ~r c :=
      (canonical_isRotated d).symm.trans (hsame ▸ canonical_isRotated c)
    obtain rfl := (mem_cycles_search.mp (mem_of_mem_distinct hd).1).eq_of_rotated h hrotated
    exact hd

theorem pairwise_find (edges : List (String × String)) :
    (find edges).Pairwise fun c d => ¬ c ~r d := by
  have hpairs : (find edges).Pairwise fun c d => canonical c ≠ canonical d := by
    rw [find_eq]
    exact pairwise_distinct _ _
  refine hpairs.imp_of_mem fun hc hd hne hrotated => hne ?_
  rw [(mem_find.mp hc).eq_of_rotated (mem_find.mp hd) hrotated]

/-- Every circuit runs through the edge that closes one of the cycles found. -/
theorem Circuit.exists_closing (h : Circuit edges c) :
    ∃ d ∈ find edges, ∃ u ∈ d.getLast?, ∃ v ∈ d.head?, [u, v] <:+: lap c := by
  have hleast : ∀ x ∈ c, ∃ p, Least edges p ∧ p.getLast? = some x := by
    intro x hx
    obtain ⟨y, -, hnext⟩ := exists_infix_lap hx
    obtain ⟨p, hp, hend, -⟩ := exists_least_of_leads (h.leads hnext)
    exact ⟨p, hp, hend⟩
  obtain ⟨u, v, p, hnext, hp, hend, hback⟩ := h.exists_return hleast
  obtain ⟨l, r, rfl⟩ := List.append_of_mem hback
  rw [List.getLast?_append_cons] at hend
  exact ⟨v :: r, mem_find.mpr ⟨hp.circuit hend (h.leads hnext), l, hp⟩, u, hend, v, rfl, hnext⟩

/-! ## Reports -/

/-- What is found are simple cycles, none of them a rotation of another. Every circuit of the graph runs
through the edge that closes one of them. So nothing is found exactly if there is no circuit, and where nodes
lead to each other along a circuit, a cycle among such nodes is found. -/
theorem closing_edges_break_circuits (edges : List (String × String)) :
    (∀ c ∈ find edges, Circuit edges c ∧ c.Nodup) ∧
    ((find edges).Pairwise fun c d => ¬ c ~r d) ∧
    (∀ c, Circuit edges c →
      ∃ d ∈ find edges, ∃ u ∈ d.getLast?, ∃ v ∈ d.head?, [u, v] <:+: lap c) ∧
    (find edges = [] ↔ ∀ c, ¬ Circuit edges c) ∧
    ∀ c, Circuit edges c → ∃ d ∈ find edges, ∀ x ∈ c, ∀ y ∈ d,
      Relation.ReflTransGen (Leads edges) x y ∧ Relation.ReflTransGen (Leads edges) y x := by
  have hsound : ∀ c ∈ find edges, Circuit edges c ∧ c.Nodup := fun c hc =>
    ⟨(mem_find.mp hc).toCircuit, (mem_find.mp hc).nodup⟩
  refine ⟨hsound, pairwise_find edges, fun c hc => hc.exists_closing, ⟨fun hnil c hc => ?_, fun hnone => ?_⟩,
    fun c hc => ?_⟩
  · obtain ⟨d, hd, -⟩ := hc.exists_closing
    rw [hnil] at hd
    cases hd
  · exact List.eq_nil_iff_forall_not_mem.mpr fun c hc => hnone c (hsound c hc).1
  · obtain ⟨d, hd, u, hu, v, -, hnext⟩ := hc.exists_closing
    have huc : u ∈ c := mem_lap.mp (hnext.subset List.mem_cons_self)
    have hud : u ∈ d := List.mem_of_getLast? hu
    exact ⟨d, hd, fun x hx y hy =>
      ⟨(hc.reaches hx huc).trans ((hsound d hd).1.reaches hud hy),
        ((hsound d hd).1.reaches hy hud).trans (hc.reaches huc hx)⟩⟩

/-- Two cycles that share a node, and a circuit that runs through both. -/
theorem closing_edges_break_circuits_small :
    Circuit [("b", "c"), ("a", "b"), ("c", "b"), ("b", "a")] ["b", "c", "b", "a"] ∧
      ∃ d ∈ find [("b", "c"), ("a", "b"), ("c", "b"), ("b", "a")], ∃ u ∈ d.getLast?, ∃ v ∈ d.head?,
        [u, v] <:+: lap ["b", "c", "b", "a"] := by
  have hc : Circuit [("b", "c"), ("a", "b"), ("c", "b"), ("b", "a")] ["b", "c", "b", "a"] :=
    ⟨by simp, by simp [Cycle.chain_coe_cons, Leads]⟩
  exact ⟨hc, (closing_edges_break_circuits _).2.2.1 _ hc⟩

/-- Of each cycle at most one rotation is found, and one is exactly if some rotation of it ends the least way
to its last node. That is so for a cycle that shares no node with another simple one. -/
theorem found_once_on_least_way (hc : Circuit edges c) :
    (find edges).countP (· ~r c) ≤ 1 ∧
    ((find edges).countP (· ~r c) = 1 ↔ ∃ d l, d ~r c ∧ Least edges (l ++ d)) ∧
    ((∀ d, Circuit edges d → d.Nodup → (∃ x ∈ d, x ∈ c) → d ~r c) →
      (find edges).countP (· ~r c) = 1) := by
  have hle : (find edges).countP (· ~r c) ≤ 1 := by
    have hpairs := (pairwise_find edges).filter (· ~r c)
    have hall : ∀ d ∈ (find edges).filter (· ~r c), d ~r c := by simp
    rw [List.countP_eq_length_filter]
    match hfound : (find edges).filter (· ~r c) with
    | [] => simp
    | [_] => simp
    | d :: e :: _ =>
      rw [hfound] at hpairs hall
      have hde := (List.pairwise_cons.mp hpairs).1 e List.mem_cons_self
      exact absurd ((hall d (by simp)).trans (hall e (by simp)).symm) hde
  have hone : (find edges).countP (· ~r c) = 1 ↔ ∃ d ∈ find edges, d ~r c := by
    have hpos : 0 < (find edges).countP (· ~r c) ↔ ∃ d ∈ find edges, d ~r c := by
      simp [List.countP_pos_iff]
    rw [← hpos]
    omega
  rw [hone]
  refine ⟨hle, ⟨?_, ?_⟩, fun halone => ?_⟩
  · rintro ⟨d, hd, hr⟩
    obtain ⟨l, hl⟩ := (mem_find.mp hd).least
    exact ⟨d, l, hr, hl⟩
  · rintro ⟨d, l, hr, hl⟩
    exact ⟨d, mem_find.mpr ⟨hc.rotated hr, l, hl⟩, hr⟩
  · obtain ⟨d, hd, u, hu, v, -, hnext⟩ := hc.exists_closing
    have huc : u ∈ c := mem_lap.mp (hnext.subset List.mem_cons_self)
    have hfound := mem_find.mp hd
    exact ⟨d, hd, halone d hfound.toCircuit hfound.nodup ⟨u, List.mem_of_getLast? hu, huc⟩⟩

/-- A cycle that is found from another node than its first, at the end of a way into it. -/
theorem found_once_on_least_way_small :
    Circuit [("d", "c"), ("c", "e"), ("e", "d"), ("a", "d")] ["c", "e", "d"] ∧
      ∃ d l, d ~r ["c", "e", "d"] ∧
        Least [("d", "c"), ("c", "e"), ("e", "d"), ("a", "d")] (l ++ d) := by
  have hc : Circuit [("d", "c"), ("c", "e"), ("e", "d"), ("a", "d")] ["c", "e", "d"] :=
    ⟨by simp, by simp [Cycle.chain_coe_cons, Leads]⟩
  have hfind : find [("d", "c"), ("c", "e"), ("e", "d"), ("a", "d")] = [["d", "c", "e"]] := by cbv
  refine ⟨hc, (found_once_on_least_way hc).2.1.mp ?_⟩
  rw [hfind]
  decide

/-- Two ways from one node to another make two cycles with the edge back, and only one of them is found. -/
theorem second_cycle_not_found :
    ¬ ∀ (edges : List (String × String)) (c : List String), Circuit edges c → c.Nodup →
      (find edges).countP (· ~r c) = 1 := by
  intro h
  have hc : Circuit [("A", "B"), ("A", "C"), ("B", "D"), ("C", "D"), ("D", "A")] ["A", "C", "D"] :=
    ⟨by simp, by simp [Cycle.chain_coe_cons, Leads]⟩
  have hfind : find [("A", "B"), ("A", "C"), ("B", "D"), ("C", "D"), ("D", "A")] =
      [["A", "B", "D"]] := by cbv
  have hcount := h _ _ hc (by decide)
  rw [hfind] at hcount
  revert hcount
  decide

/-! ## Order and repetition of edges -/

theorem explore_congr {edges' : List (String × String)} (h : targets edges = targets edges')
    (fuel : Nat) : explore edges fuel = explore edges' fuel := by
  induction fuel with
  | zero => rfl
  | succ fuel ih =>
    funext path s node
    simp only [explore, h, ih]

/-- What is found, in which order and from which nodes, depends on nothing but the set of the edges. -/
theorem find_of_same_edges {edges' : List (String × String)} (h : ∀ e, e ∈ edges ↔ e ∈ edges') :
    find edges = find edges' := by
  have htargets : targets edges = targets edges' := by
    funext node
    refine Text.sortedOnce_congr fun x => ?_
    simp [h]
  have hsources : sources edges = sources edges' := Text.sortedOnce_congr fun x => by simp [h]
  have hnodes : nodes edges = nodes edges' := Text.sortedOnce_congr fun x => by simp [h]
  have hvisit : visit edges (nodes edges).length [] = visit edges' (nodes edges').length [] := by
    funext s next
    simp only [visit, hnodes, explore_congr htargets]
  rw [find_eq, find_eq, search, search, hsources, hvisit]

theorem find_of_same_edges_small :
    find [("b", "a"), ("a", "c"), ("a", "b"), ("c", "a"), ("a", "b")] =
      find [("a", "b"), ("a", "c"), ("b", "a"), ("c", "a")] :=
  find_of_same_edges fun e => by simp; tauto

end DepAtlas.Cycles
