import CliquePath.Text.Numeral

set_option autoImplicit false

/-!
# Arguments of the command line

This module reads the arguments of the command line. A command and its options may stand in any
order; of several commands, and of several values of one option, the last one counts. Arguments that
do not fit, and a request for help, are answered with the usage text.
-/

namespace CliquePath.CommandLine

/-- What the program is asked to do. -/
inductive Command where
  | recognize
  | convert
  | complete
deriving DecidableEq, Repr

/-- The arguments of one call. -/
structure Arguments where
  command : Command := .recognize
  input : Option String := none
  json : Bool := false
  pretty : Bool := false
  fast : Bool := false
  noPaths : Bool := false
  vertices : Option Nat := none
  out : Option String := none
deriving DecidableEq, Repr

/-- The usage text. -/
def usage : String :=
  "interval-graph\n" ++
  "\n" ++
  "USAGE:\n" ++
  "interval-graph [recognize] [--json] [--pretty] [--fast] [--no-paths] [--out <path>] [<path>|-]\n" ++
  "interval-graph convert [--out <path>] [<path>|-]\n" ++
  "interval-graph complete --vertices <n> [--out <path>]\n" ++
  "\n" ++
  "NOTES:\n" ++
  "- If <path> is omitted or '-', the graph file is read from stdin.\n" ++
  "- recognize prints a text report by default; --json prints the outcome as JSON.\n" ++
  "- --fast skips re-checking the interval representation against the graph.\n" ++
  "- convert rewrites a graph file with its edges in depth-first order.\n" ++
  "- complete writes the complete graph on <n> vertices.\n"

namespace Arguments

/-- Sets the input, of which there may be only one. -/
def setInput? (a : Arguments) (path : String) : Option Arguments :=
  if a.input.isSome then none else some { a with input := some path }

/-- The argument looks like an option: it begins with a hyphen and is more than that hyphen. -/
def looksLikeOption (arg : String) : Bool := arg.toList.head? == some '-' && arg != "-"

/-- The arguments after those read into `a`. There is no answer if one of them does not fit. -/
def parseFrom? (a : Arguments) : List String → Option Arguments
  | [] => some a
  | "--help" :: _ => none
  | "-h" :: _ => none
  | "recognize" :: rest => parseFrom? { a with command := .recognize } rest
  | "convert" :: rest => parseFrom? { a with command := .convert } rest
  | "complete" :: rest => parseFrom? { a with command := .complete } rest
  | "--json" :: rest => parseFrom? { a with json := true } rest
  | "--pretty" :: rest => parseFrom? { a with json := true, pretty := true } rest
  | "--fast" :: rest => parseFrom? { a with fast := true } rest
  | "--no-paths" :: rest => parseFrom? { a with noPaths := true } rest
  | ["--vertices"] => none
  | "--vertices" :: n :: rest =>
      match Text.readNumeral? n.toList with
      | none => none
      | some count => parseFrom? { a with vertices := some count } rest
  | ["--out"] => none
  | "--out" :: path :: rest => parseFrom? { a with out := some path } rest
  | ["--"] => some a
  | ["--", path] => a.setInput? path
  | "--" :: _ :: _ :: _ => none
  | arg :: rest =>
      if looksLikeOption arg then none
      else
        match a.setInput? arg with
        | none => none
        | some b => parseFrom? b rest

/-- The command has what it needs: a complete graph needs its number of vertices. -/
def isReady (a : Arguments) : Bool := a.command != .complete || a.vertices.isSome

/-- Reads the arguments. There is no answer if they do not fit or ask for help. -/
def parse? (args : List String) : Option Arguments :=
  (parseFrom? {} args).filter isReady

end Arguments

end CliquePath.CommandLine
