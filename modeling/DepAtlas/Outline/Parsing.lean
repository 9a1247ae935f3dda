import DepAtlas.Outline.Python
import DepAtlas.Outline.Read
import DepAtlas.Outline.Rust
import DepAtlas.Outline.Script
import DepAtlas.Scan

/-! # Parsing services

A parsing service makes outlines of sources. The rest of the library sees a service only through its
two functions, and a session that is closed makes no more outlines.
-/

namespace DepAtlas

structure Parsing where
  /-- The outline of a source, given by the path of its file and its text. -/
  outline : String → String → Except ParseError Outline
  supports : Path → Bool
  /-- Whether files are still said to be supported when the session is closed. -/
  supportsWhenClosed : Bool

namespace Parsing

/-- The outline of a source in a language. A source that does not follow its grammar declares
nothing. -/
def outlineOf (language : Language) (source : String) : Outline :=
  (match language with
    | .python => Outline.Python.outline? source
    | .rust => Outline.Rust.outline? source
    | .typeScript | .tsx | .javaScript => Outline.Script.outline? language source).getD
    (.empty language)

def knowsLanguage (p : Path) : Bool := (Language.ofPath? p).isSome

/-- The service that reads sources by the grammars of their languages. -/
def byGrammar : Parsing where
  outline path source :=
    match Language.ofPath? (.ofText path) with
    | some language => .ok (outlineOf language source)
    | none => .error (.unsupported path)
  supports := knowsLanguage
  supportsWhenClosed := false

/-- What a service that looks outlines up finds under a key. -/
def entryOutline (path : String) (entry : Json) : Except ParseError Outline :=
  match entry.get? "fail" with
  | some (.str "timeout") => .error (.timeout path)
  | some (.str "unavailable") => .error (.unavailable "table")
  | some (.str reason) => .error (.failed path reason)
  | _ =>
    match Outline.ofJson entry with
    | .ok outline => .ok outline
    | .error e => .error (.failed path e.message)

/-- The key in the first line of a source. -/
def key? (source : String) : Option String :=
  ((Text.lines source).head?.bind (Text.stripOpening? "@")).map Text.trim

/-- A service that looks outlines up in a table, by a key that a source names in its first line. -/
def byTable (table : Json) : Parsing where
  outline path source :=
    match Language.ofPath? (.ofText path) with
    | none => .error (.unsupported path)
    | some language =>
      match (key? source).bind table.get? with
      | some entry => entryOutline path entry
      | none => .ok (.empty language)
  supports := knowsLanguage
  supportsWhenClosed := true

/-- The outline that a session of the service makes. -/
def outlineIn (s : Parsing) (closed : Bool) (path source : String) : Except ParseError Outline :=
  if closed then .error (.unavailable "parser session closed") else s.outline path source

def supportsIn (s : Parsing) (closed : Bool) (p : Path) : Bool :=
  (!closed || s.supportsWhenClosed) && s.supports p

end Parsing

end DepAtlas
