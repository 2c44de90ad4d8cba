set_option autoImplicit false

/-!
# Files and streams around the command line

This module defines what the command line reads and writes: files by name, and standard input. A file
is written as a whole or not at all.

Which file a path leads to is a matter of the system. `Directory.nameOf` settles it for files that are
in one directory: a path leads to a file by its last component, and the components in front of it have
to stay in the directory, which holds no other one.
-/

namespace CliquePath.CommandLine

/-- The causes for which a file or stream cannot be used. -/
inductive IoFault where
  /-- No file, or no directory for it, has the path. -/
  | notFound
  /-- The path leads to a directory. -/
  | isDirectory
  /-- The path leads through a file. -/
  | notDirectory
  /-- The bytes are no text. -/
  | notText
  /-- Any other cause, in the words of the system. -/
  | system (message : String)
deriving DecidableEq, Repr

/-- The wording of a fault. -/
def IoFault.message : IoFault → String
  | .notFound => "No such file or directory (os error 2)"
  | .isDirectory => "Is a directory (os error 21)"
  | .notDirectory => "Not a directory (os error 20)"
  | .notText => "stream did not contain valid UTF-8"
  | .system message => message

/-- The text that bytes stand for. -/
def decodeText (bytes : ByteArray) : Except IoFault String :=
  match String.fromUTF8? bytes with
  | none => .error .notText
  | some text => .ok text

/-- The components of a path: what its slashes separate. -/
def components : List Char → List (List Char)
  | [] => [[]]
  | '/' :: rest => [] :: components rest
  | c :: rest =>
      match components rest with
      | [] => [[c]]
      | part :: more => (c :: part) :: more

/-- Some files by name, each name once. -/
structure Directory where
  files : List (String × ByteArray)

namespace Directory

/-- The content of the file with a name. -/
def content? (d : Directory) (name : String) : Option ByteArray := d.files.lookup name

/-- Follows components from the directory to the name of one of its files, there or not. An empty
component and a single dot stay where they are; a name leads no further, as no file is a directory,
and two dots lead away. -/
def follow (d : Directory) : List (List Char) → Except IoFault String
  | [] => .error .isDirectory
  | part :: rest =>
      if part = [] ∨ part = ['.'] then d.follow rest
      else if rest ≠ [] then
        .error (if (d.content? (.ofList part)).isSome then .notDirectory else .notFound)
      else if part = ['.', '.'] then .error .isDirectory
      else .ok (.ofList part)

/-- The name of the file that a path leads to. An empty path leads nowhere, and a path from the root
leads past the directory. -/
def nameOf (d : Directory) (path : String) : Except IoFault String :=
  match path.toList with
  | [] => .error .notFound
  | '/' :: _ => .error .notFound
  | chars => d.follow (components chars)

/-- The bytes of the file with a name. -/
def read (d : Directory) (name : String) : Except IoFault ByteArray :=
  match d.content? name with
  | none => .error .notFound
  | some bytes => .ok bytes

/-- Replaces the content of an entry, or adds an entry at the end. -/
def put (name : String) (bytes : ByteArray) : List (String × ByteArray) → List (String × ByteArray)
  | [] => [(name, bytes)]
  | (key, old) :: rest =>
      if key = name then (key, bytes) :: rest else (key, old) :: put name bytes rest

/-- The files after a text was written as the whole content of the file with a name. -/
def write (d : Directory) (name text : String) : Directory := ⟨put name text.toUTF8 d.files⟩

end Directory

end CliquePath.CommandLine
