import DepAtlas.Config
import DepAtlas.Tool.Basic

/-! # Requests

A request is a tool with its parameters. Parameters first have to fit the shape that the tool gives;
then texts that name something must not be blank, and depths must be within their limit.
-/

namespace DepAtlas

inductive ToolRequest where
  | analyze (file : String)
  | crawl (entry : String) (depth : Option Nat)
  | references (file : String)
  | expand (file : String) (known : List String) (depth : Option Nat)
  | imports (file : String)
  | usage (file : String) (targets : Option (List String))
  | resolve (importer specifier : String)
  | status
  | invalidate (files : List String)
  | rebuild
  | symbolGraph (file : String)
  | unused (file : String)
  | dependents (file symbol : String)
  | trace (file symbol : String) (depth : Option Nat)
  | callers (file symbol : String)
  | breaking (file old new : String) (symbol : Option String)
  | impact (file symbol : String) (transitive : Option Bool) (depth : Option Nat)
  | logic (file : String) (includeExternal : Option Bool)
  deriving DecidableEq, Repr

namespace ToolRequest

open Json.Decode

/-- The request of a tool with parameters that fit its shape. -/
def ofFields (t : Tool) (fields : Fields) : Except Json.DecodeError ToolRequest := do
  let text (key : String) := fields.required key text
  let depth (key : String) := fields.optional key count
  match t with
  | .analyze => return analyze (← text "filePath")
  | .crawl => return crawl (← text "entryFile") (← depth "maxDepth")
  | .references => return references (← text "filePath")
  | .expand =>
    return expand (← text "filePath") (← fields.orElse "knownFiles" [] (list Json.Decode.text))
      (← depth "extraDepth")
  | .imports => return imports (← text "filePath")
  | .usage => return usage (← text "filePath") (← fields.optional "targets" (list Json.Decode.text))
  | .resolve => return resolve (← text "fromFile") (← text "moduleSpecifier")
  | .status => return status
  | .invalidate => return invalidate (← fields.required "filePaths" (list Json.Decode.text))
  | .rebuild => return rebuild
  | .symbolGraph => return symbolGraph (← text "filePath")
  | .unused => return unused (← text "filePath")
  | .dependents => return dependents (← text "filePath") (← text "symbolName")
  | .trace => return trace (← text "filePath") (← text "symbolName") (← depth "maxDepth")
  | .callers => return callers (← text "filePath") (← text "symbolName")
  | .breaking =>
    return breaking (← text "filePath") (← text "oldContent") (← text "newContent")
      (← fields.optional "symbolName" Json.Decode.text)
  | .impact =>
    return impact (← text "filePath") (← text "symbolName")
      (← fields.optional "includeTransitive" flag) (← depth "maxDepth")
  | .logic => return logic (← text "filePath") (← fields.optional "includeExternal" flag)

/-- The request of a tool with parameters; null stands for none. -/
def ofJson (t : Tool) (params : Json) : Except Json.DecodeError ToolRequest := do
  ofFields t (← t.shape.read .direct (if params.isNull then .obj [] else params))

/-- The texts of a request that must not be blank, under the names of their parameters. -/
def named : ToolRequest → List (String × String)
  | analyze file | references file | imports file | symbolGraph file | unused file
  | expand file _ _ | usage file _ | breaking file _ _ _ | logic file _ => [("filePath", file)]
  | crawl entry _ => [("entryFile", entry)]
  | resolve importer specifier => [("fromFile", importer), ("moduleSpecifier", specifier)]
  | status | rebuild => []
  | invalidate files => files.map ("filePaths[]", ·)
  | dependents file symbol | callers file symbol | trace file symbol _ | impact file symbol _ _ =>
    [("filePath", file), ("symbolName", symbol)]

/-- The depth that a request asks for, under the name of its parameter. -/
def depth? : ToolRequest → Option (String × Nat)
  | crawl _ depth | trace _ _ depth | impact _ _ _ depth => depth.map ("maxDepth", ·)
  | expand _ _ depth => depth.map ("extraDepth", ·)
  | _ => none

/-- Whether the texts and the depth of a request are allowed. -/
def validate (r : ToolRequest) : Except ToolError Unit :=
  match r.named.find? fun (_, value) => Text.isBlankText value with
  | some (key, _) => .error (.validation (key ++ " must not be empty"))
  | none =>
    match r.depth? with
    | some (key, depth) =>
      if WorkspaceConfig.depthLimit < depth then
        .error (.validation (key ++ " must be within 0..=50, got " ++ toString depth))
      else .ok ()
    | none => .ok ()

/-- The request that a client puts by the name of a tool. -/
def parse (name : String) (params : Json) : Except ToolError ToolRequest :=
  match Tool.ofName? name with
  | none => .error (.validation ("unknown tool: " ++ name))
  | some t =>
    match ofJson t params with
    | .error e => .error (.validation ("invalid params for " ++ name ++ ": " ++ e.message))
    | .ok r => r.validate.map fun _ => r

end ToolRequest

end DepAtlas
