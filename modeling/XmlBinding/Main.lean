import XmlBinding.CommandLine
/-!
# The program

Reads and writes the files that a request names; everything else is decided elsewhere.
-/
namespace XmlBinding.Program
open XmlBinding.Tree CommandLine

/-- The fault behind a failed operation. -/
def faultOf : IO.Error → FileFault
  | .noFileOrDirectory .. => .missing
  | .permissionDenied .. => .denied
  | .inappropriateType _ code _ => if code == 21 then .directory else .noParentDirectory
  | e => .other (toString e)

/-- Generates source code from one file into another. -/
def generateFiles (schema output : String) (options : Options) : IO (Except FileError Unit) := do
  let bytes ← (IO.FS.readBinFile schema).toBaseIO
  match (bytes.mapError faultOf).bind File.decode with
  | .error fault => return .error (.read schema fault)
  | .ok text => match generate text options with
    | .error e => return .error (.generation e)
    | .ok code =>
      let done ← (IO.FS.writeFile output code).toBaseIO
      return done.mapError fun e => .write output (faultOf e)

end XmlBinding.Program

open XmlBinding CommandLine in
def main (args : List String) : IO UInt32 := do
  match request args with
  | .stop s =>
    let (status, text) := s.outcome
    IO.print text
    return status.toUInt32
  | .generate schema output options =>
    match ← Program.generateFiles schema output options with
    | .ok () => return 0
    | .error e =>
      IO.print e.report
      return 1
