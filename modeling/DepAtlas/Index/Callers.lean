import DepAtlas.Graph.Symbol

/-! # Who uses a symbol

The edges between symbols, turned round, for the files that have been entered so far. Each file is known
with the symbols of which it recorded uses, so that these can be taken out again.
-/

namespace DepAtlas

/-- A use of a symbol, seen from the symbol. -/
structure Caller where
  symbol : String
  file : String
  typeOnly : Bool
  line : Nat
  deriving DecidableEq, Repr

def Caller.toJson (c : Caller) : Json :=
  .object [("callerSymbolId", .str c.symbol), ("callerFilePath", .str c.file),
    ("isTypeOnly", .bool c.typeOnly), ("line", .nat c.line)]

structure Callers where
  /-- Each symbol with a use of it, in the order of recording. -/
  uses : List (String × Caller)
  /-- Each file with a symbol of which it recorded a use. -/
  recorded : List (String × String)
  /-- The files that have been entered, each once. -/
  entered : List String
  /-- Every use is one that its file is known to have recorded. -/
  known : ∀ use ∈ uses, (use.2.file, use.1) ∈ recorded
  deriving Repr

namespace Callers

/-- Adds to a list what is not there yet. -/
def addOnce {α : Type} [BEq α] (xs : List α) (x : α) : List α :=
  if xs.contains x then xs else xs ++ [x]

theorem mem_addOnce {α : Type} [BEq α] [LawfulBEq α] {xs : List α} {x y : α} :
    y ∈ addOnce xs x ↔ y ∈ xs ∨ y = x := by
  unfold addOnce
  split
  · rename_i hin
    refine ⟨.inl, ?_⟩
    rintro (hy | rfl)
    · exact hy
    · exact List.contains_iff_mem.mp hin
  · rw [List.mem_append, List.mem_singleton]

def empty : Callers := ⟨[], [], [], fun _ h => by cases h⟩

/-- Records an edge found in a file; what is there already is not recorded twice. -/
def record (c : Callers) (file : String) (e : SymbolEdge) : Callers where
  uses := addOnce c.uses (e.target, ⟨e.source, file, e.typeOnly, e.line⟩)
  recorded := addOnce c.recorded (file, e.target)
  entered := c.entered
  known use h := by
    rw [mem_addOnce] at h ⊢
    rcases h with h | rfl
    · exact .inl (c.known use h)
    · exact .inr rfl

/-- Notes that a file has been entered, even if it has no edges. -/
def enter (c : Callers) (file : String) : Callers := { c with entered := addOnce c.entered file }

def hasEntered (c : Callers) (file : String) : Bool := c.entered.contains file

/-- Whether a use goes when a file is taken out. -/
def goesWith (c : Callers) (file : String) (use : String × Caller) : Bool :=
  c.recorded.contains (file, use.1) && use.2.file = file

theorem goesWith_eq {c : Callers} {file : String} {use : String × Caller} (h : use ∈ c.uses) :
    c.goesWith file use = decide (use.2.file = file) := by
  unfold goesWith
  by_cases hfile : use.2.file = file
  · subst hfile
    simp [c.known use h]
  · simp [hfile]

/-- Takes out what a file has recorded, and tells how many uses went. -/
def remove (c : Callers) (file : String) : Nat × Callers :=
  ((c.uses.filter (c.goesWith file)).length, {
    uses := c.uses.filter (!c.goesWith file ·)
    recorded := c.recorded.filter (·.1 ≠ file)
    entered := c.entered.filter (· ≠ file)
    known := fun use h => by
      obtain ⟨huse, hstays⟩ := List.mem_filter.mp h
      rw [goesWith_eq huse] at hstays
      exact List.mem_filter.mpr ⟨c.known use huse, by simpa using hstays⟩ })

/-- The uses of a symbol. -/
def lookup (c : Callers) (id : String) : List Caller :=
  (c.uses.filter (·.1 = id)).map (·.2)

/-- How many files have been entered. -/
def enteredCount (c : Callers) : Nat := c.entered.length

end Callers

end DepAtlas
