import Monofloat.CommandLine.Session

/-!
# Files in a directory

The files of a directory as a value, with the reasons why a path cannot be read or written, so that a whole
command line can be carried out on it. A path is a list of names with `/` between them; empty names and `.`
stand for nothing. There are no directories but those that hold a file.
-/

namespace Monofloat.CommandLine

abbrev Path := List String

/-- The names of a path. -/
def Path.of (text : String) : Path :=
  (text.splitOn "/").filter fun name => name ≠ "" ∧ name ≠ "."

/-- Whether the text of a path says that it is a directory. -/
def namesDirectory (text : String) : Bool :=
  match (text.splitOn "/").getLast? with
  | some name => name = "" || name = "."
  | none => true

/-- The files that can be reached, each with its content. -/
structure Directory where
  files : List (Path × ByteArray) := []

/-- Why a path cannot be read or written. -/
inductive AccessError where
  | missing
  | notDirectory
  | isDirectory
  | notText
deriving DecidableEq, Repr

def AccessError.message : AccessError → String
  | missing => "No such file or directory (os error 2)"
  | notDirectory => "Not a directory (os error 20)"
  | isDirectory => "Is a directory (os error 21)"
  | notText => "stream did not contain valid UTF-8"

namespace Directory

def file? (d : Directory) (path : Path) : Option ByteArray := d.files.lookup path

def hasDirectory (d : Directory) (path : Path) : Bool :=
  path.isEmpty || d.files.any fun (p, _) => path.isPrefixOf p && path ≠ p

/-- Whether a path leads through a file. -/
def passesFile (d : Directory) (path : Path) : Bool :=
  d.files.any fun (p, _) => p.isPrefixOf path && path ≠ p

/-- The text of a file. -/
def read (d : Directory) (text : String) : Except AccessError String :=
  let path := Path.of text
  match d.file? path with
  | some bytes =>
    if namesDirectory text then .error .notDirectory
    else
      match String.fromUTF8? bytes with
      | some s => .ok s
      | none => .error .notText
  | none =>
    if d.passesFile path then .error .notDirectory
    else if d.hasDirectory path then .error .isDirectory
    else .error .missing

/-- The directory with a file written. -/
def write (d : Directory) (text contents : String) : Except AccessError Directory :=
  let path := Path.of text
  if d.passesFile path then .error .notDirectory
  else if !d.hasDirectory path.dropLast then .error .missing
  else if d.hasDirectory path then .error .isDirectory
  else if namesDirectory text then
    .error (if (d.file? path).isSome then .notDirectory else .isDirectory)
  else .ok ⟨(path, contents.toUTF8) :: d.files.filter fun (p, _) => p ≠ path⟩

/-- Carries out a command line in the directory. -/
def perform (d : Directory) (words : List String) : Transcript × Directory :=
  match readRequest words with
  | .error usage => (usage.transcript, d)
  | .ok request =>
    match request.perform ((d.read request.file).mapError AccessError.message) with
    | .done t => (t, d)
    | .write path text next =>
      match d.write path text with
      | .ok d' => (next none, d')
      | .error e => (next (some e.message), d)

end Directory

end Monofloat.CommandLine
