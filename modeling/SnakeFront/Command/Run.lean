import SnakeFront.Command.Directory
import SnakeFront.Source.Reading

/-! The command: it reads one file and shows its tokens, on request also its words. Debug mode adds
lines of its own and changes nothing else. -/
namespace SnakeFront.Command

structure Invocation where
  debug : Bool
  words : Bool
  path : Option String
deriving DecidableEq

def isPath (arg : String) : Bool :=
  match arg.toList with
  | [] => false
  | c :: _ => c ≠ '-'

/-- Flags count wherever they stand; of several paths the first counts, and the rest is ignored. -/
def Invocation.ofArgs (args : List String) : Invocation where
  debug := args.contains "--debug"
  words := args.contains "--words"
  path := args.find? isPath

structure Outcome where
  exit : Nat
  lines : List String
deriving DecidableEq

namespace Outcome

def stdout (outcome : Outcome) : String := String.join (outcome.lines.map (· ++ "\n"))

def after (lines : List String) (outcome : Outcome) : Outcome :=
  ⟨outcome.exit, lines ++ outcome.lines⟩

end Outcome

namespace Invocation

def debugLines (call : Invocation) (messages : List String) : List String :=
  if call.debug then messages.map ("[DEBUG] " ++ ·) else []

def traceLines (call : Invocation) (source : Source) : List String :=
  if call.debug then source.readingTrace.map Trace.mark else []

def wordLines (call : Invocation) (source : Source) : List String :=
  if call.words then "Words:" :: source.words.map (fun word => "  " ++ Text.quote word) else []

def present (call : Invocation) (source : Source) : Outcome :=
  match source.tokens with
  | .ok tokens =>
    ⟨0, "Tokens:" :: tokens.map (fun token => "  " ++ token.render) ++
      call.debugLines ["Front end finished successfully."]⟩
  | .error fault => ⟨1, ["Lexing errors:", "  " ++ Source.failure fault]⟩

def conclude (call : Invocation) : Entry → Outcome
  | .missing => ⟨1, ["Error: File does not exist."]⟩
  | .unreadable details =>
    ⟨1, ["Error: Could not read file.", "Error details: " ++ details]⟩
  | .readable source =>
    (call.present source).after (call.traceLines source ++ call.wordLines source)

end Invocation

def version : String := "0.1.0"

/-- Runs the command on its arguments; `find` says what each path leads to. -/
def run (find : String → Entry) (args : List String) : Outcome :=
  let call := Invocation.ofArgs args
  let banner := call.debugLines ["Snake front end V" ++ version, "Using debug mode."]
  match call.path with
  | none => ⟨1, banner ++ ["Usage: snake [--debug] [--words] <file>"]⟩
  | some path =>
    (call.conclude (find path)).after (banner ++ call.debugLines ["Reading: " ++ path])

end SnakeFront.Command
