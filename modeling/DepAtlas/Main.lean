import DepAtlas.CommandLine.Run

/-! # The program

The program takes the files of a workspace into a tree, runs its command on the tree and writes what
comes of it. A server takes the files anew before each line, so that it sees them as they are.
-/

namespace DepAtlas.Program

open CommandLine

/-- Where a path leads when links are not looked at. -/
def locationOf (path : String) : Location := (Path.ofText path).clean.steps.map Step.text

/-- The files with rules in a directory, below it. -/
def ruleFiles : List String := [".ignore", ".gitignore", ".git/info/exclude"]

/-- Takes a file of the system, if it can be read. -/
def takeFile (t : FileTree) (path : String) : IO FileTree := do
  let file := (← IO.currentDir) / path
  try
    return t.place (locationOf file.toString) (.file (← IO.FS.readBinFile file).toList)
  catch _ => return t

/-- Takes what is in a directory of the system. Directories that are never searched stay empty. -/
partial def takeDirectory (t : FileTree) (l : Location) : IO FileTree := do
  let directory := (← IO.currentDir) / l.path.toText
  let entries ← try directory.readDir catch _ => pure #[]
  entries.foldlM (fun t e => do
    let l := l ++ [e.fileName]
    try
      match (← e.path.symlinkMetadata).type with
      | .dir =>
        let t := t.put l .directory
        if Ignore.skippedNames.contains e.fileName then return t else takeDirectory t l
      | .file => return t.put l (.file (← IO.FS.readBinFile e.path).toList)
      | .symlink => return t.put l (.link (← IO.FS.realPath e.path).toString)
      | .other => return t
    catch _ => return t) t

/-- Takes a workspace, and the rules in the directories above it. -/
def takeWorkspace (t : FileTree) (root : String) : IO FileTree := do
  let given := (← IO.currentDir) / root
  let real ← try IO.FS.realPath given catch _ => pure given
  let l := locationOf real.toString
  if !(← real.isDir) then takeFile t root
  else
    let t := t.place l .directory
    let t := if locationOf given.toString = l then t
      else t.place (locationOf given.toString) (.link real.toString)
    let directories : List Location := (List.range l.length).map fun n => l.take (n + 1)
    let t ← directories.foldlM (fun t l =>
      ruleFiles.foldlM (fun t name => takeFile t ((Location.path l).child name).toText) t) t
    takeDirectory t l

/-- The tree of files in which a command works. -/
def takeTree (roots files : List String) : IO FileTree := do
  let start := locationOf (← IO.currentDir).toString
  let t : FileTree := { FileTree.empty.place start .directory with start }
  let t ← files.foldlM takeFile t
  roots.foldlM takeWorkspace t

/-- The workspaces and the other files that a command is about. -/
def subjects : Command → List String × List String
  | .serve a _ | .mcpServe a _ | .crawl a _ _ | .index a => ([a.root], [])
  | .request a _ _ paramsFile _ => ([a.root], paramsFile.toList)
  | .worker => ([], [])

/-- The workspace that a line for a worker opens. -/
def opened (settings : Settings) (s : Server) (line : String) : List String :=
  match s, Worker.inputOfLine settings line with
  | .worker _, some (.message (.init config)) => [config.root]
  | _, _ => []

/-- Answers lines until there are no more. -/
partial def serve (settings : Settings) (roots : List String) (s : Server) : IO Unit := do
  let line ← (← IO.getStdin).getLine
  if line.isEmpty then return
  let line := Text.dropTrailing (· = '\n') line
  let roots := if roots.isEmpty then opened settings s line else roots
  let w : World := ⟨← takeTree roots [], .byGrammar, settings⟩
  let (out, s) := s.line w line
  let output ← IO.getStdout
  out.forM output.putStrLn
  output.flush
  serve settings roots s

/-- Writes what a run has written and gives its code. -/
def finish (e : Exit) : IO UInt32 := do
  IO.print e.output
  IO.eprint e.errors
  return e.code.toUInt32

def run (args : List String) : IO UInt32 := do
  match Command.ofArguments args with
  | .error e => finish (usage e)
  | .ok command =>
    let values ← Settings.variableNames.mapM fun key => return (key, ← IO.getEnv key)
    let (settings, warnings) := Settings.ofEnvironment fun key => (values.lookup key).join
    warnings.forM fun text => IO.eprintln text
    let (roots, files) := subjects command
    let w : World := ⟨← takeTree roots files, .byGrammar, settings⟩
    match launch w command with
    | .finished e => finish e
    | .serving s =>
      serve settings roots s
      return 0

end DepAtlas.Program

def main (args : List String) : IO UInt32 := DepAtlas.Program.run args
