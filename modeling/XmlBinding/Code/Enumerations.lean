import XmlBinding.Binding.Module
import XmlBinding.Code.Syntax
import XmlBinding.Text.Quoted
/-!
# Code of enumerations

The type of an enumeration, its operations, and the functions that read its values.
-/
namespace XmlBinding.Code
open Binding Text

/-- A documentation line stands off its marker. -/
def documentationNotes (documentation : Option String) : List Note :=
  match documentation with
  | none => []
  | some text => (lines text).map fun line => .documentation (if line = "" then "" else " " ++ line)

def noted (line : String) : List Note := [.documentation (" " ++ line)]

def stringLiteral (s : String) : Expr := .word (literal s)
def self : Expr := .word "self"
def callOf (name : String) (args : List Expr) : Expr := .call (.word name) args
def methodOf (e : Expr) (name : String) (args : List Expr) : Expr := .method e name [] args

def optionOf (t : Ty) : Ty := .apply "Option" [t]
def textRef : Ty := .reference false none (.path "str")
def optionalText : Ty := optionOf textRef

def derived : Note := .bracket "derive(Debug, Clone, Copy, PartialEq, Eq, Hash, Default)"

/-- The members that stand for literals, as their names and the literals. -/
def literalNames (e : Enumeration) : List (String × String) :=
  e.members.filterMap fun m => m.symbol.text?.map fun s => (written m.name, s)

def memberNumber (m : Member) : Expr :=
  match m.symbol with
  | .illegal => .word "i32::MAX"
  | _ =>
    if m.number < 0 then .unary "-" (.word (toString m.number.natAbs))
    else .word (toString m.number)

def variantOf (m : Member) : List Note × String × Expr :=
  (documentationNotes m.documentation ++ (if m.symbol = .notSet then [.bracket "default"] else []),
    written m.name, memberNumber m)

def plainItems (e : Enumeration) : List Item :=
  let name := written e.name
  let arms := (literalNames e).map fun (n, s) =>
    Arm.mk (.word ("Self::" ++ n)) (callOf "Some" [stringLiteral s])
  [.enumeration (documentationNotes e.documentation ++ [derived, .bracket "repr(i32)"]) name
     (e.members.map variantOf),
   .impl none name [.function {
     notes := noted "The XML literal of this value; `None` for `IllegalValue` and `NotSet`."
     head := "pub fn ", name := "xml_value", params := [.self "self"]
     output := some (optionOf (.reference false (some "'static") (.path "str")))
     body := [.result (.select self (arms ++ [⟨.word "_", .word "None"⟩]))] }]]

def flagConstant (m : Member) : Associated :=
  .constant (documentationNotes m.documentation) (written m.name) (.path "Self")
    (callOf "Self" [.word (toString m.number)])

/-- The set flags are listed by their literals. -/
def flagsToText (e : Enumeration) : Function :=
  let pairs := (literalNames e).map fun (n, s) =>
    Expr.tuple [.word ("Self::" ++ n), stringLiteral s]
  let filtered := methodOf (methodOf (.array pairs) "into_iter" []) "filter"
    [.closure [.tuple [.word "flag", .word "_"]]
      (methodOf self "contains" [.unary "*" (.word "flag")])]
  let mapped := methodOf filtered "map"
    [.closure [.tuple [.word "_", .word "literal"]] (.word "literal")]
  { notes := noted "The set flags as a space-separated list of literals; `None` if no flag is" ++
      noted "set."
    head := "pub fn ", name := "xml_value", params := [.self "self"]
    output := some (optionOf (.path "String"))
    body := [.declare (.word "literals")
        (.method mapped "collect" [.apply "Vec" [textRef]] []),
      .result (methodOf (.paren (.unary "!" (methodOf (.word "literals") "is_empty" []))) "then"
        [.closure [] (methodOf (.word "literals") "join" [stringLiteral " "])])] }

def flagsItems (e : Enumeration) : List Item :=
  let name := written e.name
  let bits (of : String) := Expr.field (.word of) "0"
  [.wrapper (documentationNotes e.documentation ++ [derived]) name (.path "u32"),
   .impl none name (e.members.map flagConstant ++ [
     .function {
       head := "pub const fn ", name := "bits", params := [.self "self"]
       output := some (.path "u32"), body := [.result (bits "self")] },
     .function {
       notes := noted "Whether every flag of `other` is set in `self`."
       head := "pub const fn ", name := "contains"
       params := [.self "self", .typed "other" (.path "Self")], output := some (.path "bool")
       body := [.result (.binary "==" (.paren (.binary "&" (bits "self") (bits "other")))
         (bits "other"))] },
     .function (flagsToText e)]),
   .impl (some "std::ops::BitOr") name [
     .type "Output" (.path "Self"),
     .function {
       name := "bitor", params := [.self "self", .typed "rhs" (.path "Self")]
       output := some (.path "Self")
       body := [.result (callOf "Self" [.binary "|" (bits "self") (bits "rhs")])] }],
   .impl (some "std::ops::BitOrAssign") name [
     .function {
       name := "bitor_assign", params := [.self "&mut self", .typed "rhs" (.path "Self")]
       body := [.run (.binary "|=" (bits "self") (bits "rhs"))] }]]

def enumerationItems (e : Enumeration) : List Item :=
  match e.form with
  | .plain => plainItems e
  | .flags => flagsItems e

/-- The pattern of a missing or empty value. -/
def noText : Pat := .either [.word "None", .apply "Some" [.word (literal "")]]

def resultOf (e : Enumeration) : Ty :=
  .apply "Result" [.path (written e.name), .path (written e.name)]

def valueParam : Param := .typed "value" optionalText

def plainReaders (e : Enumeration) : List Associated :=
  let member (name : String) := Expr.word (written e.name ++ "::" ++ name)
  let arms := (literalNames e).map fun (n, s) =>
    Arm.mk (.apply "Some" [.word (literal s)]) (callOf "Ok" [member n])
  [.function {
     notes := noted ("Parses a [`" ++ e.name ++ "`] literal. Fails with `NotSet` for a missing " ++
       "or empty value and with `IllegalValue` for an unknown literal.")
     head := "pub fn ", name := e.tryParseName, params := [valueParam], output := some (resultOf e)
     body := [.result (.select (.word "value")
       (⟨noText, callOf "Err" [member notSetMember.name]⟩ :: arms ++
         [⟨.apply "Some" [.word "_"], callOf "Err" [member illegalMember.name]⟩]))] },
   .function {
     notes := noted ("Parses a [`" ++ e.name ++ "`] literal, yielding a sentinel on failure.")
     head := "pub fn ", name := e.parseName, params := [valueParam]
     output := some (.path (written e.name))
     body := [.result (.select (callOf ("Self::" ++ e.tryParseName) [.word "value"])
       [⟨.either [.apply "Ok" [.word "value"], .apply "Err" [.word "value"]], .word "value"⟩])] }]

def flagsReaders (e : Enumeration) : List Associated :=
  let member (name : String) := Expr.word (written e.name ++ "::" ++ name)
  let refused := Expr.giveBack (callOf "Err" [member emptyMember.name])
  let arms := (literalNames e).map fun (n, s) =>
    Arm.mk (.word (literal s)) (.binary "|=" (.word "flags") (member n))
  [.function {
     notes := noted ("Parses a space-separated list of [`" ++ e.name ++ "`] literals. Fails " ++
       "with `NONE` for a missing or empty value and for any unknown literal.")
     head := "pub fn ", name := e.tryParseName, params := [valueParam], output := some (resultOf e)
     body := [
       .declare (.word "value") (.select (.word "value")
         [⟨noText, refused⟩, ⟨.apply "Some" [.word "value"], .word "value"⟩]),
       .declare (.word "mut flags") (member emptyMember.name),
       .result (.forIn (.word "token") (methodOf (.word "value") "split_whitespace" [])
         [.result (.select (.word "token") (arms ++ [⟨.word "_", refused⟩]))]),
       .result (callOf "Ok" [.word "flags"])] }]

/-- The functions that read an enumeration. -/
def enumerationReaders (e : Enumeration) : List Associated :=
  match e.form with
  | .plain => plainReaders e
  | .flags => flagsReaders e

end XmlBinding.Code
