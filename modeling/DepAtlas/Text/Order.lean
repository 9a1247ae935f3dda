/-! # Texts in order -/

namespace DepAtlas.Text

/-- Texts are ordered by their characters. -/
def le (a b : String) : Bool := !(b < a)

def sorted (texts : List String) : List String := texts.mergeSort le

/-- The texts in order, each once. -/
def sortedOnce (texts : List String) : List String := (sorted texts).eraseReps

end DepAtlas.Text
