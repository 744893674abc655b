import XmlBinding.Tree.Error
/-!
# Files

A directory holds files and directories by name. Paths are followed step by step from a working
directory, and nothing outside of it is known.
-/
namespace XmlBinding
open XmlBinding.Tree

inductive File where
  | data (bytes : ByteArray)
  | directory (entries : List (String × File))

namespace File

def entry? (entries : List (String × File)) (name : String) : Option File :=
  (entries.find? (·.1 = name)).map (·.2)

/-- The file under a list of names. -/
def find (f : File) : List String → Except FileFault File
  | [] => .ok f
  | name :: names => match f with
    | .data _ => .error .noParentDirectory
    | .directory entries => match entry? entries name with
      | none => .error .missing
      | some g => g.find names

/-- Follows the steps of a path from the directory under `names`; the last step may be to a file
that does not exist. -/
def locate (root : File) : List String → List String → Except FileFault (List String)
  | names, [] => .ok names
  | names, step :: steps => do
    match ← root.find names with
    | .data _ => .error .noParentDirectory
    | .directory _ =>
      if step = "" || step = "." then root.locate names steps
      else if step = ".." then
        if names.isEmpty then .error .missing else root.locate names.dropLast steps
      else root.locate (names ++ [step]) steps

def steps (path : String) : List String :=
  path.splitToList (· == '/')

/-- The names a path leads to. -/
def resolve (root : File) (path : String) : Except FileFault (List String) :=
  if path = "" || path.startsWith "/" then .error .missing else root.locate [] (steps path)

def decode (bytes : ByteArray) : Except FileFault String :=
  match String.fromUTF8? bytes with
  | some s => .ok s
  | none => .error .notUtf8

/-- The text of the file at a path. -/
def readText (root : File) (path : String) : Except FileFault String := do
  match ← root.find (← root.resolve path) with
  | .data bytes => decode bytes
  | .directory _ => .error .directory

/-- Puts a file under a list of names; directories on the way must exist. -/
def put (g : File) : File → List String → File
  | _, [] => g
  | .data bytes, _ :: _ => .data bytes
  | .directory entries, name :: names =>
    let inner := match entry? entries name with
      | some f => put g f names
      | none => g
    if entries.any (·.1 = name) then
      .directory (entries.map fun e => if e.1 = name then (name, inner) else e)
    else .directory (entries ++ [(name, inner)])

/-- Writes a text to a file, which may be new. -/
def writeText (root : File) (path text : String) : Except FileFault File := do
  let names ← root.resolve path
  let written := put (.data text.toUTF8) root names
  if path.endsWith "/" then .error .directory
  else match root.find names with
    | .ok (.directory _) => .error .directory
    | .ok (.data _) => .ok written
    | .error .missing => match ← root.find names.dropLast with
      | .directory _ => .ok written
      | .data _ => .error .noParentDirectory
    | .error fault => .error fault

end File

end XmlBinding
