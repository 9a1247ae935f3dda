import DepAtlas.Atlas.Basic
import DepAtlas.Watch.Debouncer

/-! # Changes told to an atlas -/

namespace DepAtlas.Atlas

/-- Tells an atlas that a file has changed, come or gone. -/
def apply (a : Atlas) (w : World) (p : Path) : Watch.Change → Atlas
  | .modified => (a.fileChanged w p).2
  | .added => (a.fileAdded w p).2
  | .removed => (a.fileDeleted w p).2

/-- Tells an atlas changes one after the other. -/
def applyAll (a : Atlas) (w : World) (changes : List (Path × Watch.Change)) : Atlas :=
  changes.foldl (fun a (p, change) => a.apply w p change) a

end DepAtlas.Atlas
