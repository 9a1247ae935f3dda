import DepAtlas.Proofs.Callers
import Mathlib.Algebra.BigOperators.Finprod

/-! # The index of callers as a log

What an index tells is told by its history alone: a use is on record, and a file is entered, from the
event that notes it until an event takes the file out. The index forgets the events, and takes out a file
by what it remembers of the file's symbols.
-/

namespace DepAtlas.Callers

/-- What can happen to an index. -/
inductive Event where
  | record (file : String) (e : SymbolEdge)
  | enter (file : String)
  | remove (file : String)
  | clear

namespace Event

def apply (c : Callers) : Event → Callers
  | record file e => c.record file e
  | enter file => c.enter file
  | remove file => (c.remove file).2
  | clear => .empty

/-- Whether what was noted under a file does not outlast the event. -/
def takesOut (file : String) : Event → Bool
  | remove other => other = file
  | clear => true
  | record .. | enter _ => false

/-- The use of a symbol that the event records. -/
def use? (id : String) : Event → Option Caller
  | record file e => if e.target = id then some (.ofEdge file e) else none
  | enter _ | remove _ | clear => none

/-- The file that the event enters. -/
def entered? : Event → Option String
  | enter file => some file
  | record .. | remove _ | clear => none

end Event

/-- The index after a history. -/
def after (history : List Event) : Callers := history.foldl Event.apply empty

/-- What the events of a history note, in order, as far as no later event takes out its file. -/
def standing {α : Type} (noted : Event → Option α) (fileOf : α → String) : List Event → List α
  | [] => []
  | event :: later =>
    (noted event).toList.filter (fun x => !later.any (·.takesOut (fileOf x))) ++
      standing noted fileOf later

section

variable {α : Type} {noted : Event → Option α} {fileOf : α → String}

/-- One more event takes out what does not outlast it, and may note something. -/
theorem standing_concat (history : List Event) (event : Event) :
    standing noted fileOf (history ++ [event]) =
      (standing noted fileOf history).filter (fun x => !event.takesOut (fileOf x)) ++
        (noted event).toList := by
  induction history with
  | nil => simp [standing]
  | cons first history ih =>
    rw [List.cons_append, standing, standing, ih, List.filter_append, List.append_assoc,
      List.filter_filter]
    congr 2
    funext x
    rw [List.any_append, Bool.not_or, Bool.and_comm]
    simp

variable [BEq α] [LawfulBEq α]

theorem filter_addOnce (keep : α → Bool) (xs : List α) (x : α) :
    (addOnce xs x).filter keep = if keep x then addOnce (xs.filter keep) x else xs.filter keep := by
  unfold addOnce
  by_cases hx : x ∈ xs <;> by_cases hkeep : keep x = true <;> simp [hx, hkeep]

theorem eraseDups_concat (xs : List α) (x : α) :
    (xs ++ [x]).eraseDups = addOnce xs.eraseDups x := by
  by_cases hx : x ∈ xs <;>
    simp [List.eraseDups_append, List.removeAll, List.eraseDups_cons, addOnce, hx]

theorem eraseDups_filter (keep : α → Bool) (xs : List α) :
    (xs.filter keep).eraseDups = xs.eraseDups.filter keep := by
  induction xs using List.reverseRecOn with
  | nil => rfl
  | append_singleton xs x ih =>
    rw [List.filter_append, eraseDups_concat, filter_addOnce, ← ih]
    split
    · rw [List.filter_cons_of_pos ‹_›, List.filter_nil, eraseDups_concat]
    · rw [List.filter_cons_of_neg ‹_›, List.filter_nil, List.append_nil]

/-- A list that changes with every event as the log does is what stands in the log, each once. -/
theorem eq_standing (view : Callers → List α) (hempty : view empty = [])
    (happly : ∀ c event, view (event.apply c) = (noted event).toList.foldl addOnce
      ((view c).filter fun x => !event.takesOut (fileOf x))) (history : List Event) :
    view (after history) = (standing noted fileOf history).eraseDups := by
  induction history using List.reverseRecOn with
  | nil => simpa [after, standing] using hempty
  | append_singleton history event ih =>
    have hafter : after (history ++ [event]) = event.apply (after history) := by
      rw [after, List.foldl_append]
      rfl
    rw [hafter, happly, ih, standing_concat, ← eraseDups_filter]
    cases noted event with
    | none => rw [Option.toList_none, List.append_nil, List.foldl_nil]
    | some x => rw [Option.toList_some, eraseDups_concat, List.foldl_cons, List.foldl_nil]

end

/-! ## What one event changes -/

variable (c : Callers) (file symbol : String)

theorem lookup_record (e : SymbolEdge) : (c.record file e).lookup symbol =
    if e.target = symbol then addOnce (c.lookup symbol) (.ofEdge file e) else c.lookup symbol := by
  have huses : (c.record file e).uses = addOnce c.uses (e.target, .ofEdge file e) := rfl
  rw [lookup, huses, filter_addOnce]
  by_cases hsymbol : e.target = symbol
  · subst hsymbol
    by_cases hin : (e.target, Caller.ofEdge file e) ∈ c.uses <;> simp [addOnce, lookup, hin]
  · simp [hsymbol, lookup]

/-- What a file has recorded of a symbol goes with it, and the rest stays in its order. -/
theorem lookup_remove :
    (c.remove file).2.lookup symbol = (c.lookup symbol).filter (·.file ≠ file) := by
  rw [lookup, uses_remove, lookup, List.filter_map, List.filter_filter, List.filter_filter]
  simp [Bool.and_comm]

theorem lookup_apply (event : Event) : (event.apply c).lookup symbol =
    (event.use? symbol).toList.foldl addOnce
      ((c.lookup symbol).filter fun u => !event.takesOut u.file) := by
  cases event with
  | record file e =>
    rw [Event.apply, lookup_record, Event.use?]
    split <;> simp [Event.takesOut]
  | enter file => simp [Event.apply, Event.use?, Event.takesOut, lookup, enter]
  | remove file => simp [Event.apply, Event.use?, Event.takesOut, lookup_remove, eq_comm]
  | clear => simp [Event.apply, Event.use?, Event.takesOut, lookup, empty]

theorem entered_apply (event : Event) : (event.apply c).entered =
    event.entered?.toList.foldl addOnce (c.entered.filter fun f => !event.takesOut (id f)) := by
  cases event with
  | record file e => simp [Event.apply, Event.entered?, Event.takesOut, record]
  | enter file => simp [Event.apply, Event.entered?, Event.takesOut, enter]
  | remove file => simp [Event.apply, Event.entered?, Event.takesOut, remove, eq_comm]
  | clear => simp [Event.apply, Event.entered?, Event.takesOut, empty]

/-- As many uses go with a file as it has recorded of all symbols together. -/
theorem remove_fst :
    (c.remove file).1 = ∑ᶠ symbol, (c.lookup symbol).countP (·.file = file) := by
  let symbols := (c.uses.filter (·.2.file = file)).map (·.1)
  have hcount : ∀ symbol, (c.lookup symbol).countP (·.file = file) = symbols.count symbol := by
    intro symbol
    rw [lookup, List.countP_map, List.countP_filter, List.count, List.countP_map, List.countP_filter]
    refine List.countP_congr fun x _ => ?_
    simp [and_comm]
  have hgone : (c.remove file).1 = symbols.length := by
    rw [remove, List.length_map]
    exact congrArg List.length (List.filter_congr fun x hx => goesWith_eq hx)
  have hsupport : Function.support (symbols.count ·) ⊆ symbols.toFinset := by
    intro symbol hsymbol
    simpa [List.count_eq_zero] using hsymbol
  simp only [hcount]
  rw [hgone, finsum_eq_sum_of_support_subset _ hsupport, List.sum_toFinset_count_eq_length]

/-- The index tells what its history tells: of each symbol the distinct uses that were recorded since
their files were last taken out, in the order of their first recording, and as entered the files that
were entered since. Taking out a file tells how many uses it has on record, takes out these and no
others, and keeps the others in order. -/
theorem index_tells_log (history : List Event) :
    (∀ symbol, (after history).lookup symbol =
      (standing (Event.use? symbol) Caller.file history).eraseDups) ∧
    (∀ file, ((after history).remove file).1 =
        ∑ᶠ symbol, ((after history).lookup symbol).countP (·.file = file) ∧
      (∀ symbol, ((after history).remove file).2.lookup symbol =
        ((after history).lookup symbol).filter (·.file ≠ file)) ∧
      ∀ other, ((after history).remove file).2.hasEntered other =
        ((after history).hasEntered other && other ≠ file)) ∧
    (∀ file, (after history).hasEntered file = true ↔ file ∈ standing Event.entered? id history) ∧
    (after history).enteredCount = (standing Event.entered? id history).toFinset.card := by
  have hentered : (after history).entered = (standing Event.entered? id history).eraseDups :=
    eq_standing (·.entered) rfl entered_apply history
  refine ⟨fun symbol => eq_standing (·.lookup symbol) rfl (lookup_apply · symbol) history,
    fun file => ⟨remove_fst _ file, lookup_remove _ file, fun other => ?_⟩, fun file => ?_, ?_⟩
  · rw [Bool.eq_iff_iff]
    simp [hasEntered, mem_entered_remove]
  · rw [hasEntered, hentered, List.contains_iff_mem, List.mem_eraseDups]
  · rw [enteredCount, hentered, ← List.toFinset_card_of_nodup (Text.nodup_eraseDups _)]
    congr 1
    ext file
    simp [List.mem_eraseDups]

end DepAtlas.Callers
