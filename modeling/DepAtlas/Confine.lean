import DepAtlas.Error
import DepAtlas.Text.Blank

/-! # Paths that stay in a workspace

Clients name files by texts. Each is taken from the root of the workspace and refused if it leads
out of it, links included.
-/

namespace DepAtlas.FileTree

/-- The path by which a file named by a client is known. -/
def confine (t : FileTree) (root : Path) (raw : String) : Except ToolError Path :=
  let text := Text.trim raw
  if text = "" then .error (.validation "path must not be empty")
  else if text.toList.contains '\x00' then .error (.validation "path contains a NUL byte")
  else
    let path := t.settle (root.child text)
    let home := t.settle root
    if path.isUnder home then .ok path
    else
      .error (.security ("path " ++ text ++ " escapes workspace root " ++ home.toText))

end DepAtlas.FileTree
