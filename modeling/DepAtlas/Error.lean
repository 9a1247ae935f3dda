import DepAtlas.FileTree

/-! # Errors

Errors are causes. A request that fails is told to its client by a stable code and a message; what
fails further inside is a cause under the contexts it passed on its way out, and `Failure.toToolError`
says which code it gets.
-/

namespace DepAtlas

/-- The codes by which clients know what went wrong. -/
inductive ErrorCode where
  | notInitialized
  | validation
  | security
  | execution
  | fileNotFound
  | unsupportedFileType
  | parserTimeout
  | parserUnavailable
  | analysisFailed
  deriving DecidableEq, Repr

namespace ErrorCode

def name : ErrorCode → String
  | notInitialized => "NOT_INITIALIZED"
  | validation => "VALIDATION_ERROR"
  | security => "SECURITY_ERROR"
  | execution => "EXECUTION_ERROR"
  | fileNotFound => "FILE_NOT_FOUND"
  | unsupportedFileType => "UNSUPPORTED_FILE_TYPE"
  | parserTimeout => "LSP_TIMEOUT"
  | parserUnavailable => "LSP_UNAVAILABLE"
  | analysisFailed => "ANALYSIS_FAILED"

def all : List ErrorCode :=
  [notInitialized, validation, security, execution, fileNotFound, unsupportedFileType,
    parserTimeout, parserUnavailable, analysisFailed]

end ErrorCode

/-- Why a request failed. -/
structure ToolError where
  code : ErrorCode
  message : String
  deriving DecidableEq, Repr

namespace ToolError

def validation (message : String) : ToolError := ⟨.validation, message⟩

def security (message : String) : ToolError := ⟨.security, message⟩

def execution (message : String) : ToolError := ⟨.execution, message⟩

def fileNotFound (path : String) : ToolError := ⟨.fileNotFound, "file not found: " ++ path⟩

def notInitialized : ToolError :=
  ⟨.notInitialized, "worker has not been initialized; send init first"⟩

/-- The code and the message together. -/
def text (e : ToolError) : String := e.code.name ++ ": " ++ e.message

end ToolError

/-- Why a source was not read. -/
inductive ParseError where
  | unsupported (path : String)
  | timeout (path : String)
  | unavailable (what : String)
  | failed (path reason : String)
  deriving DecidableEq, Repr

namespace ParseError

def message : ParseError → String
  | unsupported path => "unsupported file type: " ++ path
  | timeout path => "parser timed out on " ++ path
  | unavailable what => "parser unavailable: " ++ what
  | failed path reason => "failed to parse " ++ path ++ ": " ++ reason

def code : ParseError → ErrorCode
  | unsupported _ => .unsupportedFileType
  | timeout _ => .parserTimeout
  | unavailable _ => .parserUnavailable
  | failed _ _ => .analysisFailed

def toToolError (e : ParseError) : ToolError := ⟨e.code, e.message⟩

end ParseError

/-- A question about a module that cannot be asked. That a module does not exist is no error. -/
structure ResolveError where
  detail : String
  deriving DecidableEq, Repr

namespace ResolveError

def message (e : ResolveError) : String := "malformed resolve request: " ++ e.detail

def toToolError (e : ResolveError) : ToolError := .validation e.message

end ResolveError

/-- What lies at the bottom of a failure. -/
inductive Cause where
  /-- The system refused; `missing` if it found nothing. -/
  | system (missing : Bool) (text : String)
  | parse (error : ParseError)
  | tool (error : ToolError)
  | plain (text : String)
  deriving DecidableEq, Repr

def Cause.message : Cause → String
  | system _ text => text
  | parse error => error.message
  | tool error => error.text
  | plain text => text

/-- A cause under the contexts it passed, the outermost first. -/
structure Failure where
  contexts : List String
  cause : Cause
  deriving DecidableEq, Repr

namespace Failure

def plain (text : String) : Failure := ⟨[], .plain text⟩

def ofFault (fault : FileFault) : Failure := ⟨[], .system (fault = .missing) fault.message⟩

/-- The failure as seen from further out. -/
def within (f : Failure) (context : String) : Failure := { f with contexts := context :: f.contexts }

/-- The outermost message alone. -/
def summary (f : Failure) : String := f.contexts.head?.getD f.cause.message

/-- All messages from the outermost to the cause. -/
def message (f : Failure) : String := ": ".intercalate (f.contexts ++ [f.cause.message])

/-- What a client is told of a failure: errors that have a code of their own keep it and lose their
contexts. -/
def toToolError (f : Failure) : ToolError :=
  match f.cause with
  | .parse error => error.toToolError
  | .tool error => error
  | .system true _ => ⟨.fileNotFound, f.message⟩
  | .system false _ | .plain _ => ⟨.analysisFailed, f.message⟩

end Failure

end DepAtlas
