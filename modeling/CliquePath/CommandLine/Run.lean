import CliquePath.CommandLine.Arguments
import CliquePath.CommandLine.Directory
import CliquePath.GraphFile.Reader
import CliquePath.GraphFile.Writer
import CliquePath.Report

set_option autoImplicit false

/-!
# The command line

This module defines what a call of the command line does: the text that each command makes of its
input, where that text goes, and how a failure is reported. `run` is a function of the arguments,
the standard input and the files, so that what a call leaves behind can be reasoned about.
-/

namespace CliquePath.CommandLine

/-- The causes for which a call fails after its arguments have been read. -/
inductive CallFault where
  | io (fault : IoFault)
  /-- The encoder gives no JSON text, for the given reason. -/
  | json (reason : String)
  | file (fault : GraphFile.Fault)
  | engine (failure : Failure)
  /-- The program was ended. -/
  | panic (cause : Panic)
deriving DecidableEq, Repr

namespace CallFault

/-- The wording of a fault. -/
def message : CallFault → String
  | .io fault => "I/O error: " ++ fault.message
  | .json reason => "JSON error: " ++ reason
  | .file fault => "invalid graph file: " ++ fault.message
  | .engine failure => failure.message
  | .panic cause => cause.message

/-- The exit code of a call that fails. -/
def exitCode : CallFault → Nat
  | .panic _ => 101
  | _ => 1

end CallFault

/-- Where the input of a call comes from. -/
inductive Source where
  | standardInput
  | file (path : String)
deriving DecidableEq, Repr

/-- What a call writes its text to. -/
inductive Sink where
  | standardOutput
  | file (path : String)
deriving DecidableEq, Repr

namespace Arguments

/-- The source of the graph file; a missing path and a hyphen name standard input. -/
def source (a : Arguments) : Source :=
  match a.input with
  | none => .standardInput
  | some path => if path = "-" then .standardInput else .file path

/-- The sink of the text. -/
def sink (a : Arguments) : Sink :=
  match a.out with
  | none => .standardOutput
  | some path => .file path

/-- The options of a recognition. -/
def options (a : Arguments) : Options :=
  { (if a.fast then Options.unchecked else Options.full) with givePaths := !a.noPaths }

/-- The source that the command reads; a complete graph needs none. -/
def source? (a : Arguments) : Option Source :=
  match a.command with
  | .complete => none
  | _ => some a.source

end Arguments

/-- An encoder of JSON values. With the flag it gives the form with one entry to a line. It may refuse
a value, for a reason that it gives. -/
abbrev Encoder := Bool → Json → Except String String

/-- The encoder that refuses no value. -/
def plainEncoder : Encoder := fun pretty value =>
  .ok (if pretty then value.spread 0 else value.compact)

/-- The outcome of a recognition in the asked form. -/
def render (encode : Encoder) (a : Arguments) (g : Graph) (outcome : Verdict) :
    Except CallFault String :=
  if a.json then
    match encode a.pretty (Report.json outcome) with
    | .error reason => .error (.json reason)
    | .ok text => .ok (text ++ "\n")
  else .ok (Report.text g outcome)

/-- The complete graph on `n` vertices, for all of which room is reserved. -/
def completeGraph (n : Nat) : Except CallFault Graph :=
  match reserve n with
  | .error cause => .error (.panic cause)
  | .ok () => .ok (.complete n)

/-- The graph in a text. -/
def graphOf (input : String) : Except CallFault Graph :=
  match GraphFile.read input with
  | .error cause => .error (.panic cause)
  | .ok (.error fault) => .error (.file fault)
  | .ok (.ok g) => .ok g

/-- The text that the command makes of the text that it reads. -/
def produce (encode : Encoder) (a : Arguments) (input : String) : Except CallFault String :=
  match a.command with
  | .complete => do return GraphFile.write (← completeGraph (a.vertices.getD 0))
  | .convert => do return GraphFile.write (← graphOf input)
  | .recognize => do
      let g ← graphOf input
      match g.recognize a.options with
      | .error failure => .error (.engine failure)
      | .ok outcome => render encode a g outcome

/-- The text that the command makes of what was read, or the fault that stopped the reading. -/
def answer (encode : Encoder) (a : Arguments) (read : Except IoFault String) :
    Except CallFault String :=
  match read with
  | .error fault => .error (.io fault)
  | .ok input => produce encode a input

/-- What a call finds: standard input, the files and the parts of the system that it uses. -/
structure World where
  input : ByteArray
  directory : Directory
  /-- The name of the file that a path leads to, there or not. -/
  resolve : String → Except IoFault String := directory.nameOf
  /-- Why the system does not let a file be written, whatever the path that leads to it. -/
  refusal? : String → Option IoFault := fun _ => none
  encode : Encoder := plainEncoder

/-- What a call leaves behind. -/
structure Result where
  exitCode : Nat
  output : String
  errors : String
  directory : Directory

/-- The bytes of the file that a path leads to. -/
def World.readBytes (w : World) (path : String) : Except IoFault ByteArray := do
  w.directory.read (← w.resolve path)

/-- The text of a source. -/
def World.readText (w : World) : Source → Except IoFault String
  | .standardInput => decodeText w.input
  | .file path => (w.readBytes path).bind decodeText

/-- The files after a text was written to one of them. -/
def World.writeText (w : World) (path text : String) : Except IoFault Directory := do
  let name ← w.resolve path
  match w.refusal? name with
  | some fault => .error fault
  | none => return w.directory.write name text

/-- The text that a call reads; a command without a source reads nothing. -/
def World.inputOf (w : World) (a : Arguments) : Except IoFault String :=
  match a.source? with
  | none => .ok ""
  | some source => w.readText source

/-- A call that failed: its message goes to the error stream, and nothing else changes. -/
def Result.failed (w : World) (exitCode : Nat) (message : String) : Result :=
  { exitCode, output := "", errors := message ++ "\n", directory := w.directory }

/-- Puts the text of a call into its sink. -/
def World.deliver (w : World) (text : String) : Sink → Except IoFault Result
  | .standardOutput =>
      .ok { exitCode := 0, output := text, errors := "", directory := w.directory }
  | .file path => do
      let directory ← w.writeText path text
      return { exitCode := 0, output := "", errors := "", directory }

/-- A call whose arguments have been read. -/
def execute (a : Arguments) (w : World) : Except CallFault Result :=
  match answer w.encode a (w.inputOf a) with
  | .error fault => .error fault
  | .ok text =>
      match w.deliver text a.sink with
      | .error fault => .error (.io fault)
      | .ok result => .ok result

/-- A call of the command line. -/
def run (args : List String) (w : World) : Result :=
  match Arguments.parse? args with
  | none => .failed w 2 usage
  | some a =>
      match execute a w with
      | .error fault => .failed w fault.exitCode fault.message
      | .ok result => result

end CliquePath.CommandLine
