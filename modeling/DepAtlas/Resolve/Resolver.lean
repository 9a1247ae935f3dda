import DepAtlas.Json.Reader
import DepAtlas.Resolve.Alias
import DepAtlas.Resolve.Candidates

/-! # From names of modules to files

A resolver answers which file of the workspace a module's name stands for in a file that imports it.
Aliases come first; then each language has its own way to look. What does not exist is unresolved,
with the reason, and never an error.
-/

namespace DepAtlas.Resolve

/-- Why a name stands for no file of the workspace. -/
inductive Reason where
  | aliasWithoutFile (opening path : String)
  | noRelativeFile (spec : String)
  | noFileUnderRoot (spec : String)
  | builtin (spec : String)
  | externalPackage (spec : String)
  | noRelativeModule (spec : String)
  | badModulePath (spec : String)
  | externalModule (spec : String)
  | noModuleFile (spec : String)
  | externalCrate (name : String)
  | outsideRoot (spec : String)
  deriving DecidableEq, Repr

def Reason.message : Reason → String
  | aliasWithoutFile opening path =>
    "alias " ++ opening ++ " matched but " ++ path ++ " does not exist"
  | noRelativeFile spec => "no file matches relative specifier " ++ spec
  | noFileUnderRoot spec => "no file matches " ++ spec ++ " under the workspace root"
  | builtin spec => spec ++ " is a runtime builtin"
  | externalPackage spec => "external package " ++ spec
  | noRelativeModule spec => "no module matches relative import " ++ spec
  | badModulePath spec => "invalid module path " ++ spec
  | externalModule spec => "external module " ++ spec
  | noModuleFile spec => "no module file for " ++ spec
  | externalCrate name => "external crate " ++ name
  | outsideRoot spec => spec ++ " resolves outside the workspace root"

inductive Resolution where
  | resolved (path : Path)
  | unresolved (reason : Reason)
  deriving DecidableEq, Repr

def Resolution.ofFile? (reason : Reason) : Option Path → Resolution
  | some path => resolved path
  | none => unresolved reason

/-- The directory of a file, by the text of its path. -/
def directoryOf (p : Path) : Path := (p.parent?.getD .root).clean

/-- Files that mark the root of a project. -/
def manifests : List String := ["package.json", "Cargo.toml", "pyproject.toml", "setup.py"]

/-- What a package says of itself. -/
structure Package where
  name : Option String
  main : Option String

namespace Package

open Json.Decode

def shape : Shape := ⟨"struct PackageJson", [.of "name" (option text), .of "main" (option text)], false⟩

/-- The package described in a file; none if the file cannot be understood. -/
def read? (t : FileTree) (file : Path) : Option Package :=
  match t.readText file with
  | .error _ => none
  | .ok source =>
    match Json.readWritten source with
    | .error _ => none
    | .ok j =>
      match (do
        let fields ← shape.read .direct j
        return ⟨← fields.optional "name" text, ← fields.optional "main" text⟩ :
          Except Json.DecodeError Package) with
      | .ok package => some package
      | .error _ => none

end Package

structure Resolver where
  root : Path
  aliases : Aliases
  deriving Repr

namespace Resolver

/-- A resolver for a workspace with configured aliases. -/
def new (t : FileTree) (root : Path) (table : List (String × String)) : Resolver :=
  ⟨t.settle root, .ofTable (t.settle root) table⟩

/-- Adds the paths of the compiler's configuration, and tells how many aliases they gave. -/
def withCompilerPaths (r : Resolver) (t : FileTree) : Except Failure (Nat × Resolver) := do
  let aliases ← r.aliases.addCompilerPaths t r.root
  return (aliases.length - r.aliases.length, { r with aliases })

/-- What the longest alias for a name says. -/
def alias? (r : Resolver) (t : FileTree) (spec : String) (language : Language) :
    Option Resolution :=
  (r.aliases.find? (·.covers spec)).map fun a =>
    .ofFile? (.aliasWithoutFile a.opening (a.apply spec))
      (candidate? t (.ofText (a.apply spec)) language)

/-! ## Scripts -/

/-- Whether a name starts with a step. -/
def isRelative (spec : String) : Bool :=
  (Text.stripOpening? "./" spec).isSome || (Text.stripOpening? "../" spec).isSome ||
    spec = "." || spec = ".."

/-- The part of a package that a name asks for. -/
def partOf? (name spec : String) : Option String :=
  if spec = name then some ""
  else (Text.stripOpening? name spec).bind (Text.stripOpening? "/")

/-- The file of a package in `directory` that a name stands for. -/
def packageFile? (t : FileTree) (spec : String) (directory : Path) : Option Path := do
  let manifest := directory.child "package.json"
  guard (t.isFile manifest)
  let package ← Package.read? t manifest
  let part ← partOf? (← package.name) spec
  if part = "" then
    (package.main.bind fun main => candidate? t (directory.child main) .typeScript).or <|
      (candidate? t (directory.child "src/index") .typeScript).or
        (candidate? t (directory.child "index") .typeScript)
  else
    (candidate? t (directory.child part) .typeScript).or
      (candidate? t ((directory.child "src").child part) .typeScript)

def script (r : Resolver) (t : FileTree) (importer : Path) (spec : String) : Resolution :=
  let spec := String.ofList (spec.toList.takeWhile fun c => c ≠ '?' && c ≠ '#')
  let directory := directoryOf importer
  if isRelative spec then
    .ofFile? (.noRelativeFile spec) (candidate? t (directory.child spec) .typeScript)
  else
    match Text.stripOpening? "/" spec with
    | some rest => .ofFile? (.noFileUnderRoot spec) (candidate? t (r.root.child rest) .typeScript)
    | none =>
      if (Text.stripOpening? "node:" spec).isSome then .unresolved (.builtin spec)
      else
        .ofFile? (.externalPackage spec)
          ((Path.upTo r.root directory).findSome? (packageFile? t spec))

/-! ## Python -/

/-- The file of a module, by its names from a directory on. -/
def pythonModule? (t : FileTree) (base : Path) (names : List String) : Option Path :=
  let place := names.foldl Path.child base
  let files := if names = [] then [] else pythonExtensions.map place.withExtension
  (files ++ [place.child "__init__.py"]).find? t.isFile

/-- Looks for a module in directories from the importing file upwards. The search ends after a
directory above the file that marks the root of a project. -/
def pythonSearch? (t : FileTree) (start : Path) (names : List String) : List Path → Option Path
  | [] => none
  | directory :: rest =>
    let source := directory.child "src"
    (pythonModule? t directory names).or <|
      (if t.isDirectory source then pythonModule? t source names else none).or <|
        if directory ≠ start && manifests.any (fun m => t.isFile (directory.child m)) then none
        else pythonSearch? t start names rest

def python (r : Resolver) (t : FileTree) (importer : Path) (spec : String) : Resolution :=
  let directory := directoryOf importer
  let dots := (spec.toList.takeWhile (· = '.')).length
  let names := (Text.pieces (· = '.') (Text.dropLeading (· = '.') spec)).filter (· ≠ "")
  if dots > 0 then
    let base := Nat.repeat Path.up (dots - 1) directory
    .ofFile? (.noRelativeModule spec) <|
      (pythonModule? t base names).or
        (if names = [] then none else pythonModule? t base names.dropLast)
  else if names = [] then .unresolved (.badModulePath spec)
  else
    .ofFile? (.externalModule spec)
      (pythonSearch? t directory names (Path.upTo r.root directory))

/-! ## Rust -/

/-- The directory of the modules below the one in a file. -/
def rustDirectory (file : Path) : Path :=
  let directory := directoryOf file
  match file.name? with
  | none => directory
  | some name =>
    if ["mod.rs", "lib.rs", "main.rs"].contains name then directory
    else directory.child (file.stem?.getD "")

/-- The directory of the crate that a file belongs to. -/
def crateDirectory (r : Resolver) (t : FileTree) (file : Path) : Path :=
  ((Path.upTo r.root (directoryOf file)).findSome? fun d =>
    if t.isFile (d.child "main.rs") || t.isFile (d.child "lib.rs") then some d
    else if t.isFile (d.child "Cargo.toml") then
      some (if t.isDirectory (d.child "src") then d.child "src" else d)
    else none).getD r.root

/-- The file of a module, by its names from a directory on. -/
def rustModule? (t : FileTree) (base : Path) (names : List String) : Option Path :=
  let place := names.foldl Path.child base
  ([place.withExtension "rs", place.child "mod.rs"].find? t.isFile).map t.settle

/-- The file of the module whose parts stand in a directory. -/
def rustDirectoryModule? (t : FileTree) (d : Path) : Option Path :=
  ((["lib.rs", "main.rs", "mod.rs"].map d.child ++ [d.withExtension "rs"]).find? t.isFile).map
    t.settle

/-- The beginnings of a path, the longest first. -/
def beginnings (names : List String) : List (List String) :=
  (List.range names.length).reverse.map fun n => names.take (n + 1)

def rust (r : Resolver) (t : FileTree) (importer : Path) (spec : String) : Resolution :=
  let names := ((Text.splitText "::" spec).map Text.trim).filter (· ≠ "")
  match names with
  | [] => .unresolved (.badModulePath spec)
  | first :: others =>
    let own := rustDirectory importer
    let top := r.crateDirectory t importer
    let ups := (names.takeWhile (· = "super")).length
    let above := Nat.repeat Path.up ups own
    let (bases, rest) :=
      if first = "crate" then ([top], others)
      else if first = "self" then ([own], others)
      else if first = "super" then ([above], names.drop ups)
      else ([own, top], names)
    let itself := t.settle importer
    let deep := bases.findSome? fun base =>
      (beginnings rest).findSome? fun part =>
        (rustModule? t base part).filter (· ≠ itself)
    let whole :=
      if first = "crate" then (rustDirectoryModule? t top).filter (· ≠ itself)
      else if first = "super" && rest.isEmpty then
        (rustDirectoryModule? t above).filter (· ≠ itself)
      else none
    .ofFile?
      (if ["crate", "self", "super"].contains first then .noModuleFile spec
        else .externalCrate first)
      (deep.or whole)

/-! ## All languages -/

/-- Which file a name stands for in an importing file, given by the text of its path. -/
def resolve (r : Resolver) (t : FileTree) (importer spec : String) :
    Except ResolveError Resolution :=
  if Text.isBlankText spec then .error ⟨"module specifier is empty"⟩
  else if spec.toList.contains '\x00' then .error ⟨"module specifier contains a NUL byte"⟩
  else if !Path.isRootedText importer then
    .error ⟨"importing file must be an absolute path: " ++ importer⟩
  else
    let spec := Text.trim spec
    let file := Path.ofText importer
    let language := (Language.ofPath? file).getD .typeScript
    let found := (r.alias? t spec language).getD <|
      match language with
      | .python => r.python t file spec
      | .rust => r.rust t file spec
      | .typeScript | .tsx | .javaScript => r.script t file spec
    .ok <|
      match found with
      | .resolved path =>
        if Path.isWithin r.root (t.settle path) then .resolved (t.settle path)
        else .unresolved (.outsideRoot spec)
      | .unresolved reason => .unresolved reason

/-- The file that a name stands for, if it stands for one. -/
def file? (r : Resolver) (t : FileTree) (importer spec : String) : Option Path :=
  match r.resolve t importer spec with
  | .ok (.resolved path) => some path
  | _ => none

end Resolver

end DepAtlas.Resolve
