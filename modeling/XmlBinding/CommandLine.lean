import XmlBinding.Files
import XmlBinding.Generation
/-!
# The command line

Up to four arguments name the schema, the output, the module path and the path of the support
library. Without the first three the help text is shown. Arguments are looked at in order, and the
first that asks for help or is in error decides.
-/
namespace XmlBinding
open XmlBinding.Tree

/-- Why a schema file leads to no source file. -/
inductive FileError where
  | read (path : String) (fault : FileFault)
  | write (path : String) (fault : FileFault)
  | generation (e : GenerationError)
deriving DecidableEq, Repr

namespace FileError

def message : FileError → String
  | .read path _ => "failed to read schema from " ++ path
  | .write path _ => "failed to write generated code to " ++ path
  | .generation e => e.message

/-- What lies behind an error. -/
def cause? : FileError → Option String
  | .read _ fault => some fault.message
  | .write _ fault => some fault.message
  | .generation _ => none

/-- The lines shown for an error. -/
def report (e : FileError) : String :=
  "error: " ++ e.message ++ "\n" ++ e.cause?.elim "" fun c => "  caused by: " ++ c ++ "\n"

end FileError

/-- Generates source code from one file into another, which is untouched if anything fails. -/
def generateFile (root : File) (schema output : String) (options : Options) :
    Except FileError File := do
  let text ← (root.readText schema).mapError (.read schema)
  let code ← (generate text options).mapError .generation
  (root.writeText output code).mapError (.write output)

namespace CommandLine

/-- What the arguments looked at so far amount to. -/
structure Arguments where
  values : List String := []
  allowDoctype : Bool := false
  onlyValues : Bool := false
deriving DecidableEq, Repr

/-- Why no more arguments are looked at. -/
inductive Stop where
  | help
  | version
  | refused
deriving DecidableEq, Repr

/-- At most four values are taken, and the two paths must not be empty. -/
def Arguments.addValue (a : Arguments) (s : String) : Except Stop Arguments :=
  if 4 ≤ a.values.length || (a.values.length < 2 && s = "") then .error .refused
  else .ok { a with values := a.values ++ [s] }

def Arguments.addLong (a : Arguments) : String → Except Stop Arguments
  | "allow-dtd" => if a.allowDoctype then .error .refused else .ok { a with allowDoctype := true }
  | "verbose" => .ok a
  | "help" => .error .help
  | "version" => .error .version
  | _ => .error .refused

def Arguments.addShort (a : Arguments) : List Char → Except Stop Arguments
  | [] => .ok a
  | 'v' :: r => a.addShort r
  | 'h' :: _ => .error .help
  | 'V' :: _ => .error .version
  | _ => .error .refused

/-- A lone dash is a value; two dashes make values of all that follows. -/
def Arguments.add (a : Arguments) (s : String) : Except Stop Arguments :=
  if a.onlyValues then a.addValue s
  else match s.toList with
    | ['-', '-'] => .ok { a with onlyValues := true }
    | '-' :: '-' :: name => a.addLong (String.ofList name)
    | '-' :: c :: r => a.addShort (c :: r)
    | _ => a.addValue s

/-- What a run is asked to do. -/
inductive Request where
  | stop (s : Stop)
  | generate (schema output : String) (options : Options)
deriving DecidableEq, Repr

def request (args : List String) : Request :=
  match args.foldlM Arguments.add {} with
  | .error s => .stop s
  | .ok a => match a.values with
    | schema :: output :: path :: rest =>
      .generate schema output ⟨some path, rest.head?, a.allowDoctype⟩
    | _ => .stop .help

def helpText : String :=
  "Generates Rust element types from XSD schema files\n\n" ++
  "Usage: xsdgen [OPTIONS] [SCHEMA] [OUTPUT] [NAMESPACE] [COMMON_NAMESPACE]\n\n" ++
  "Arguments:\n" ++
  "  [SCHEMA]            The schema file to generate code for\n" ++
  "  [OUTPUT]            The Rust source file to write\n" ++
  "  [NAMESPACE]         Dot-separated module path of the generated items\n" ++
  "  [COMMON_NAMESPACE]  Path of the runtime crate the generated code uses " ++
  "[default: ::xsdgen_runtime]\n\n" ++
  "Options:\n" ++
  "      --allow-dtd   Allow a XML Document Type Definition (DTD) to occur\n" ++
  "  -v, --verbose...  Log more, repeat for even more\n" ++
  "  -h, --help        Print help\n" ++
  "  -V, --version     Print version\n"

/-- The exit status of a run that stops and what it shows. -/
def Stop.outcome : Stop → Nat × String
  | .help => (0, helpText)
  | .version => (0, "xsdgen 0.1.0\n")
  | .refused => (2, "")

/-- The exit status of a run, what it shows, and the files afterwards. -/
def run (root : File) (args : List String) : (Nat × String) × File :=
  match request args with
  | .stop s => (s.outcome, root)
  | .generate schema output options => match generateFile root schema output options with
    | .ok files => ((0, ""), files)
    | .error e => ((1, e.report), root)

end CommandLine

end XmlBinding
