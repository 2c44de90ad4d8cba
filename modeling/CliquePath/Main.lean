import CliquePath.CommandLine.Call

set_option autoImplicit false

/-!
# The program

This module connects the command line to the streams and files of the operating system. What is
read, what is made of it and where it goes is decided by `CommandLine.Host.call`.
-/

namespace CliquePath.Program

open CommandLine

/-- Reads a stream to its end. -/
partial def readAll (stream : IO.FS.Stream) (bytes : ByteArray) : IO ByteArray := do
  let chunk ← stream.read 65536
  if chunk.isEmpty then return bytes
  readAll stream (bytes ++ chunk)

/-- The cause of a failed call to the system. -/
def faultOf : IO.Error → IoFault
  | .noFileOrDirectory _ _ _ => .notFound
  | .inappropriateType _ 21 _ => .isDirectory
  | .inappropriateType _ _ _ => .notDirectory
  | e => .system (toString e)

/-- Runs an action on the system and catches its failure. -/
def attempt {α : Type} (action : IO α) : IO (Except IoFault α) := do
  try
    return .ok (← action)
  catch e =>
    return .error (faultOf e)

/-- The operating system as a host. -/
def host : Host IO where
  readInput := attempt (do readAll (← IO.getStdin) .empty)
  readFile path := attempt (IO.FS.readBinFile path)
  print text := attempt (IO.print text)
  report message := IO.eprintln message
  writeFile path text := attempt (IO.FS.writeFile path text)
  encode := plainEncoder

end CliquePath.Program

/-- The entry point. -/
def main (args : List String) : IO UInt32 := do
  return UInt32.ofNat (← CliquePath.Program.host.call args)
