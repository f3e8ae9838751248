import Enquanto.CommandLine.Files
import Enquanto.Interpret

/-!
# The command line

The tool `enquanto` runs a file, or shows how it reads it. Its arguments say what to do
(`Action.ofArgs`); what it prints, and with which exit code it ends, follows from them, from the
file that they name and from the standard input (`CommandLine.respond`).
-/

namespace Enquanto

/-- What the tool answers. -/
structure Response where
  exit : UInt32 := 0
  stdout : String := ""
  stderr : String := ""

/-- What the tool is asked to do. -/
inductive Action where
  | usage
  | version
  | run (path : String)
  | parse (path : String)
  | lex (path : String)
  /-- A command that needs a file and has none. -/
  | noFile (command : String)
  | unknown (command : String)
  deriving DecidableEq, Repr

namespace CommandLine

def usage : String := String.join <| List.map (· ++ "\n")
  ["Enquanto interpreter",
    "",
    "Usage: enquanto <command> [options]",
    "",
    "Commands:",
    "  run <file.enq>       Run a program (reads `leia` values from stdin)",
    "  parse <file.enq>     Parse and display a module summary",
    "  lex <file.enq>       Tokenize and display tokens",
    "  help                 Show this help message",
    "  version              Show version information",
    "",
    "Environment:",
    "  RUST_LOG             Enable tracing on stderr (e.g. enq_eval=trace)",
    "",
    "Examples:",
    "  enquanto run fatorial.enq",
    "  echo 5 | enquanto fatorial.enq",
    "  RUST_LOG=debug enquanto run laco.enq"]

def version : String := "Enquanto 0.1.0\n"

/-- Whether a path names a source, by its extension in upper or lower case. -/
def isSource (path : String) : Bool :=
  match Path.extension? path with
  | some ext => ext.toLower == "enq"
  | none => false

end CommandLine

namespace Action

/-- What the arguments ask for. A path of a source alone asks to run it; arguments that are not
needed are ignored. -/
def ofArgs : List String → Action
  | [] => .usage
  | command :: rest =>
    match command, rest with
    | "run", path :: _ => .run path
    | "parse", path :: _ => .parse path
    | "lex", path :: _ => .lex path
    | "run", [] | "parse", [] | "lex", [] => .noFile command
    | "help", _ | "--help", _ | "-h", _ => .usage
    | "version", _ | "--version", _ | "-V", _ => .version
    | _, _ => if CommandLine.isSource command then .run command else .unknown command

end Action

namespace CommandLine

/-- Ends with an error message. -/
def refuse (message : String) : Response := { exit := 1, stderr := message ++ "\n" }

/-- Continues with the text of a file, or says why there is none. -/
def withFile (read : String → Reading) (path : String) (use : String → Response) : Response :=
  match read path with
  | .missing => refuse ("error: cannot find file '" ++ path ++ "'")
  | .failed reason => refuse ("error: error reading '" ++ path ++ "': " ++ reason)
  | .contents bytes =>
    match String.fromUTF8? bytes with
    | some source => use source
    | none => refuse ("error: '" ++ path ++ "' contains invalid UTF-8 data")

def runSource (input : Input) (path source : String) : Response :=
  match interpret source input with
  | ⟨output, .ok _⟩ => { stdout := output }
  | ⟨output, .error failure⟩ => { refuse (failure.render path source) with stdout := output }

def parseSource (path source : String) : Response :=
  match Module.parse source .initial with
  | (.error e, _) => refuse ((Failure.parse e).render path source)
  | (.ok module, names) =>
    { stdout := "Parse result for '" ++ path ++ "':\n" ++ Report.summary names module }

def lexSource (path source : String) : Response :=
  let (tokens, names) := lex source .initial
  { stdout := "Tokens for '" ++ path ++ "' (" ++ toString tokens.length ++ " tokens):\n" ++
      Report.tokens names tokens }

/-- Does what is asked. -/
def perform (read : String → Reading) (input : Input) : Action → Response
  | .usage => { stdout := usage }
  | .version => { stdout := version }
  | .noFile command => refuse ("Usage: enquanto " ++ command ++ " <file.enq>")
  | .unknown command => { refuse ("Unknown command: " ++ command ++ "\n") with stdout := usage }
  | .run path => withFile read path (runSource input path)
  | .parse path => withFile read path (parseSource path)
  | .lex path => withFile read path (lexSource path)

/-- The path that an action reads. -/
def path? : Action → Option String
  | .run path | .parse path | .lex path => some path
  | _ => none

/-- Whether an action reads the standard input: it runs a program that reads somewhere. -/
def needsInput (read : String → Reading) : Action → Bool
  | .run path =>
    match read path with
    | .contents bytes =>
      match (String.fromUTF8? bytes).map (Module.parse · .initial) with
      | some (.ok module, _) => module.arena.exprs.any (·.shape == .read)
      | _ => false
    | _ => false
  | _ => false

/-- The tool as a function of its arguments, of the files that it can read and of its standard
input. -/
def respond (args : List String) (read : String → Reading) (input : Input) : Response :=
  perform read input (.ofArgs args)

end CommandLine

end Enquanto
