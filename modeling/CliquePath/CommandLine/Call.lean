import CliquePath.CommandLine.Run

set_option autoImplicit false

/-!
# A call on a host

This module defines a call of the command line step by step, on any host that can read, write
and print. `run` says what the call leaves behind on a host that is nothing but its files and
streams.
-/

namespace CliquePath.CommandLine

/-- The operations of a host that a call uses. -/
structure Host (m : Type → Type) where
  readInput : m (Except IoFault ByteArray)
  readFile : String → m (Except IoFault ByteArray)
  print : String → m (Except IoFault Unit)
  /-- Prints a line to the error stream. -/
  report : String → m Unit
  writeFile : String → String → m (Except IoFault Unit)
  encode : Encoder

namespace Host

variable {m : Type → Type} [Monad m] (host : Host m)

/-- Reads the text of a source; a command without a source reads nothing. -/
def readSource : Option Source → m (Except IoFault String)
  | none => return .ok ""
  | some .standardInput => return (← host.readInput).bind decodeText
  | some (.file path) => return (← host.readFile path).bind decodeText

/-- Writes a text to a sink. -/
def writeSink (text : String) : Sink → m (Except IoFault Unit)
  | .standardOutput => host.print text
  | .file path => host.writeFile path text

/-- Reports a failure and gives the exit code. -/
def fail (exitCode : Nat) (message : String) : m Nat := do
  host.report message
  return exitCode

/-- One call of the command line. Nothing is printed or written before the whole text is there. -/
def call (args : List String) : m Nat := do
  match Arguments.parse? args with
  | none => host.fail 2 usage
  | some a =>
      match answer host.encode a (← host.readSource a.source?) with
      | .error fault => host.fail fault.exitCode fault.message
      | .ok text =>
          match ← host.writeSink text a.sink with
          | .error fault => host.fail 1 (CallFault.io fault).message
          | .ok _ => return 0

end Host

end CliquePath.CommandLine
