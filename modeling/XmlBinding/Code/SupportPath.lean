import XmlBinding.Binding.Naming
import XmlBinding.Text.Blank
import XmlBinding.Text.Property
/-!
# The path of the support library

Generated code refers to a library under a path of names, which may be written with dots. Blanks
and comments may stand around the names.
-/
namespace XmlBinding.Code
open Text

/-- The rest after the end of the innermost of `depth` nested comments and all around it. -/
def afterComment : Nat → List Char → Option (List Char)
  | depth, '/' :: '*' :: r => afterComment (depth + 1) r
  | 0, _ => none
  | 1, '*' :: '/' :: r => some r
  | depth + 1, '*' :: '/' :: r => afterComment depth r
  | depth, _ :: r => afterComment depth r
  | _, [] => none

/-- Marks of writing direction count as blanks too. -/
def isCodeBlank (c : Char) : Bool :=
  isBlank c || c.toNat == 0x200E || c.toNat == 0x200F

/-- Drops blanks and comments, at most `bound` of them. Documentation is no comment. -/
def skipBlanks : Nat → List Char → List Char
  | 0, s => s
  | bound + 1, s =>
    match s with
    | '/' :: '/' :: '!' :: _ => s
    | '/' :: '/' :: '/' :: '/' :: r => skipBlanks bound (r.dropWhile (· != '\n'))
    | '/' :: '/' :: '/' :: _ => s
    | '/' :: '/' :: r => skipBlanks bound (r.dropWhile (· != '\n'))
    | '/' :: '*' :: '*' :: '/' :: r => skipBlanks bound r
    | '/' :: '*' :: '!' :: _ => s
    | '/' :: '*' :: '*' :: '*' :: r =>
      ((afterComment 1 ('*' :: '*' :: r)).map (skipBlanks bound)).getD s
    | '/' :: '*' :: '*' :: _ => s
    | '/' :: '*' :: r => ((afterComment 1 r).map (skipBlanks bound)).getD s
    | c :: r => if isCodeBlank c then skipBlanks bound r else s
    | [] => []

def skipAll (s : List Char) : List Char := skipBlanks s.length s

def startsName (c : Char) : Bool := c == '_' || inTable identifierStart c
def continuesName (c : Char) : Bool := inTable identifierContinue c

/-- A word at the front, if there is one. -/
def wordAt : List Char → Option (List Char × List Char)
  | [] => none
  | c :: r =>
    if startsName c then some (c :: r.takeWhile continuesName, r.dropWhile continuesName) else none

/-- Keywords that a path may hold. -/
def isPathKeyword (name : String) : Bool :=
  ["super", "self", "Self", "crate", "try"].contains name

/-- One name of a path: a word that is no keyword, or one marked raw. -/
def segmentAt (s : List Char) : Option (String × List Char) :=
  match s with
  | 'r' :: '#' :: r => do
    let (w, rest) ← wordAt r
    let name := String.ofList w
    if name = "_" || Binding.pathKeywords.contains name then none
    else some ("r#" ++ name, rest)
  | _ => do
    let (w, rest) ← wordAt s
    let name := String.ofList w
    if isPathKeyword name || !(name == "_" || Binding.keywords.contains name) then some (name, rest)
    else none

/-- Names with double colons between them, at most `bound` of them, up to the end. -/
def segments : Nat → List Char → Option (List String)
  | 0, _ => none
  | bound + 1, s => do
    let (name, rest) ← segmentAt (skipAll s)
    match skipAll rest with
    | [] => some [name]
    | ':' :: ':' :: r => return name :: (← segments bound r)
    | _ => none

/-- Dots stand for double colons. -/
def undotted (s : List Char) : List Char :=
  s.flatMap fun c => if c == '.' then [':', ':'] else [c]

/-- The path in its plain form, if the text is one. -/
def supportPath? (text : String) : Option String :=
  let s := undotted text.toList
  let s := skipAll (if s.head? = some (Char.ofNat 0xFEFF) then s.tail else s)
  let (lead, s) := match s with
    | ':' :: ':' :: r => ("::", r)
    | _ => ("", s)
  (segments (s.length + 1) s).map fun names => lead ++ "::".intercalate names

/-- The path where none is given. -/
def defaultSupportPath : String := "::xsdgen_runtime"

end XmlBinding.Code
