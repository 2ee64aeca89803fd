import EofStack.CommandLine.Input
import EofStack.Text.Split

/-!
# A directory of files

A `Directory` is a reader in which the working directory holds nothing but files, and in which
no other directory holds anything that can be named.

A path is followed step by step, from the working directory or, if it begins with a slash, from
the root.  An empty step, as between two slashes or behind the last one, stays where it is like a
single dot; but only a directory can be stayed in, so a slash behind the name of a file is
refused.  What a path leads to is read, and a directory cannot be.

The length of a path and of each name in it is bounded, in bytes.
-/

namespace EofStack.CommandLine

/-- Named files in the working directory, and what standard input holds. -/
structure Directory where
  standardInput : ByteArray
  files : List (String × ByteArray)

/-- Where a path leads to. -/
inductive Place
  | workingDirectory
  /-- Some other directory. -/
  | elsewhere
  | file (content : ByteArray)

/-- The greatest length of a path. -/
def maxPathBytes : Nat := 4095

/-- The greatest length of a name in a path. -/
def maxNameBytes : Nat := 255

/-- The steps of a path, which stand between its slashes. -/
def pathSteps (path : String) : List String :=
  (Text.fields (· = '/') path.toList).map String.ofList

namespace Directory

/-- What goes by a name in a directory. -/
def find (directory : Directory) (place : Place) (name : String) : Except ReadError Place :=
  if maxNameBytes < name.utf8ByteSize then .error .nameTooLong
  else
    match place with
    | .workingDirectory =>
      match directory.files.lookup name with
      | some content => .ok (.file content)
      | none => .error .notFound
    | _ => .error .notFound

/-- Takes one step of a path.  No step leads on from a file, not even one that stays or goes
back. -/
def step (directory : Directory) (place : Place) (name : String) : Except ReadError Place :=
  match place with
  | .file _ => .error .notDirectory
  | _ =>
    if name = "" ∨ name = "." then .ok place
    else if name = ".." then .ok .elsewhere
    else directory.find place name

/-- Follows a path to its end.  The empty path leads nowhere. -/
def resolve (directory : Directory) (path : String) : Except ReadError Place :=
  if path = "" then .error .notFound
  else if maxPathBytes < path.utf8ByteSize then .error .nameTooLong
  else
    let start := if path.toList.head? = some '/' then .elsewhere else .workingDirectory
    (pathSteps path).foldlM directory.step start

/-- Reads the file that a path leads to. -/
def read (directory : Directory) : Reader
  | .standardInput => .ok directory.standardInput
  | .file path =>
    match directory.resolve path with
    | .ok (.file content) => .ok content
    | .ok _ => .error .isDirectory
    | .error e => .error e

end Directory

end EofStack.CommandLine
