import XmlBinding.Code.Layout
import XmlBinding.Code.Syntax
/-!
# Documents of the generated code

How each piece of syntax is boxed: arguments and fields stand on one line or one on each line, a
chain of calls goes on one line or breaks before every dot, and the body of an arm or a closure
gets braces when it moves to a line of its own.
-/
namespace XmlBinding.Code

/-- One step of indentation. -/
def step : Int := 4

def even (indent : Int) (ds : List Doc) : List Doc := [.box true indent ds]
def loose (indent : Int) (ds : List Doc) : List Doc := [.box false indent ds]
def word (s : String) : List Doc := [.text s]

/-- A line may end, with nothing or with a space otherwise. -/
def soft : List Doc := [.line {}]
def space : List Doc := [.line { blanks := 1 }]

/-- No line ends here, but widths are counted up to here. -/
def joint : List Doc := [.line { never := true }]

/-- A line ends here. -/
def newLine (offset : Int) : List Doc := [.line { blanks := unlimited, offset := offset }]

def separated (separator : List Doc) : List (List Doc) → List Doc
  | [] => []
  | [d] => d
  | d :: ds => d ++ separator ++ separated separator ds

/-- Items with commas in a box; on lines of their own the last one has a comma too. -/
def listed (indent : Int) (items : List (List Doc)) : List Doc :=
  if items.isEmpty then []
  else even indent (soft ++ separated (word "," ++ space) items ++
    [.line { before := ",", offset := -step }])

/-- Lines between braces, which stand in a box of one step. -/
def braced (lines : List (List Doc)) : List Doc :=
  if lines.isEmpty then joint
  else newLine 0 ++ separated (newLine 0) lines ++ newLine (-step)

def Ty.docs : Ty → List Doc
  | .path name => word name
  | .apply name args => word (name ++ "<") ++ listed step (tyDocs args) ++ word ">"
  | .reference isMutable lifetime t =>
    word ("&" ++ lifetime.elim "" (· ++ " ") ++ if isMutable then "mut " else "") ++ t.docs
  | .dynamic name => word ("dyn " ++ name)
  | .some bound => word "impl " ++ bound.docs
  | .unit => word "()"
where
  tyDocs : List Ty → List (List Doc)
  | [] => []
  | t :: ts => t.docs :: tyDocs ts

mutual

def Pat.docs : Pat → List Doc
  | .word s => word s
  | .apply name args => word (name ++ "(") ++ listed step (patDocs args) ++ word ")"
  | .tuple args => word "(" ++ listed step (patDocs args) ++ word ")"
  | .either cases => even 0 (separated (space ++ word "| ") (patDocs cases))
  | .typed p t => p.docs ++ word ": " ++ t.docs

def patDocs : List Pat → List (List Doc)
  | [] => []
  | p :: ps => p.docs :: patDocs ps

end

/-- Whether an expression sets its own braces or brackets. -/
def Expr.isBlockLike : Expr → Bool
  | .array _ | .block _ | .closure .. | .record .. | .tuple _ => true
  | _ => false

/-- Whether a closure with this body needs braces to put it on lines of its own. -/
def Expr.isWrapped : Expr → Bool
  | .select .. | .call .. => true
  | e => !e.isBlockLike

/-- Whether an expression ends in a semicolon where it is a statement by itself. -/
def Expr.isEffect : Expr → Bool
  | .assign .. | .giveBack _ => true
  | .binary op _ _ => op == "|="
  | _ => false

/-- Whether an expression ends with its block. -/
def Expr.endsInBlock : Expr → Bool
  | .ifLet .. | .forIn .. => true
  | _ => false

/-- A short name holds on to the first call of its chain. -/
def Expr.isShortName : Expr → Bool
  | .word s => s.utf8ByteSize ≤ step.toNat
  | _ => false

/-- Whether a brace after an expression goes to the next line when the expression is broken. -/
def Expr.pushesBrace : Expr → Bool
  | .assign .. | .binary .. | .field .. | .method .. => true
  | .call f _ => f.pushesBrace
  | .paren e | .question e | .unary _ e | .giveBack e => e.pushesBrace
  | _ => false

/-- The two ways an expression is set: by itself, and as the start of a chain. Both depend on
whether it begins a line. -/
structure Forms where
  whole : Bool → List Doc
  link : Bool → List Doc

def Forms.ofDocs (ds : List Doc) : Forms :=
  ⟨fun _ => ds, fun _ => even (-step) ds⟩

/-- What goes before the dot of a chain. -/
def beforeDot (e : Expr) (begins : Bool) : List Doc :=
  if begins && e.isShortName then [] else soft

/-- The widest record that stays on one line. -/
def recordLimit : Nat := 34

/-- A condition or a value to choose by, up to the brace. -/
def scrutinee (e : Expr) (ds : List Doc) : List Doc :=
  even 0 (ds ++ if e.pushesBrace then space else word " ")

/-- A body of one expression, in braces only if it breaks. -/
def wrapped (e : Expr) (ds : List Doc) (ended : String) : List Doc :=
  even step ([.line { before := "\x7b" }] ++ ds ++
    [.line { offset := -step, before := if e.isEffect then ";" else "", after := "\x7d",
             kept := ended }])

mutual

def Expr.forms : Expr → Forms
  | .word s => .ofDocs (word s)
  | .generic name args =>
    .ofDocs (word (name ++ "::<") ++ listed step (args.map Ty.docs) ++ word ">")
  | .field e name =>
    let link (begins : Bool) := e.forms.link begins ++ beforeDot e begins ++ word ("." ++ name)
    ⟨fun begins => even step (link begins), link⟩
  | .call f args =>
    let tail := word "(" ++ argDocs args ++ word ")"
    ⟨fun begins => f.forms.whole begins ++ tail, fun _ => f.forms.link false ++ tail⟩
  | .method e name types args =>
    let generic := if types.isEmpty then []
      else word "::<" ++ listed step (types.map Ty.docs) ++ word ">"
    let link (indent : Int) (begins : Bool) := e.forms.link begins ++ beforeDot e begins ++
      word ("." ++ name) ++ generic ++ even indent (word "(" ++ argDocs args ++ word ")")
    ⟨fun begins => even step (link (if begins && e.isShortName then -step else 0) begins), link 0⟩
  | .question e =>
    ⟨fun begins => e.forms.whole begins ++ word "?", fun begins => e.forms.link begins ++ word "?"⟩
  | .unary op e => .ofDocs (word op ++ e.forms.whole false)
  | .binary op left right =>
    .ofDocs (loose step (loose (-step) (left.forms.whole false) ++ space ++ word (op ++ " ") ++
      right.forms.whole false))
  | .assign left right =>
    .ofDocs (loose 0 (left.forms.whole false ++ word " = " ++ joint ++ right.forms.whole false))
  | .paren e => .ofDocs (word "(" ++ e.forms.whole false ++ word ")")
  | .tuple es => .ofDocs (word "(" ++ listed step (exprDocs es) ++ word ")")
  | .array es => .ofDocs (word "[" ++ listed step (exprDocs es) ++ word "]")
  | .closure inputs body =>
    let params := if inputs.isEmpty then []
      else soft ++ separated (word "," ++ space) (patDocs inputs)
    let ds := body.forms.whole false
    .ofDocs (loose 0 (word "|" ++ params ++ word "|" ++ [.line { blanks := 1, offset := step }]) ++
      joint ++ if body.isWrapped then wrapped body ds "" else ds)
  | .block [.result e] =>
    .ofDocs (even step (word "\x7b" ++ space ++ loose 0 (e.forms.whole true) ++
      [.line { blanks := 1, offset := -step }] ++ word "\x7d"))
  | .block body =>
    let lines := stmtDocs body
    .ofDocs (even step (word "\x7b" ++
      (if lines.isEmpty then []
        else space ++ separated (newLine 0) lines ++ newLine (-step)) ++ word "\x7d"))
  | .record name fields =>
    let ds := word (name ++ " \x7b") ++ space ++ separated (word "," ++ space) (fieldDocs fields) ++
      [.line { blanks := 1, before := ",", offset := -step }]
    .ofDocs (even step (ds ++ if recordLimit < widthOf ds then [.overfull] else []) ++ word "\x7d")
  | .select e arms =>
    .ofDocs (loose 0 (word "match " ++ scrutinee e (e.forms.whole false) ++ word "\x7b" ++ joint ++
      even step (braced (armDocs arms)) ++ word "\x7d"))
  | .ifLet p e body =>
    .ofDocs (even step (word "if " ++
      even (-step) (scrutinee e (loose 0 (word "let " ++ loose 0 p.docs ++ word " = " ++ joint ++
        loose 0 (e.forms.whole false)))) ++
      word "\x7b" ++ braced (stmtDocs body) ++ word "\x7d"))
  | .forIn p e body =>
    .ofDocs (loose 0 (word "for " ++ p.docs ++ word " in " ++ joint ++
      scrutinee e (e.forms.whole false) ++ word "\x7b" ++ joint ++
      even step (braced (stmtDocs body)) ++ word "\x7d"))
  | .giveBack e => .ofDocs (word "return " ++ e.forms.whole false)

/-- A single argument with braces or brackets of its own needs no box. -/
def argDocs : List Expr → List Doc
  | [] => []
  | [e] =>
    let ds := e.forms.whole false
    if e.isBlockLike then ds else listed step [ds]
  | e :: es => listed step (e.forms.whole false :: exprDocs es)

def exprDocs : List Expr → List (List Doc)
  | [] => []
  | e :: es => e.forms.whole false :: exprDocs es

def fieldDocs : List (String × Option Expr) → List (List Doc)
  | [] => []
  | (name, none) :: fs => word name :: fieldDocs fs
  | (name, some e) :: fs => (word (name ++ ": ") ++ loose 0 (e.forms.whole false)) :: fieldDocs fs

def armDocs : List Arm → List (List Doc)
  | [] => []
  | ⟨p, .block []⟩ :: arms =>
    loose 0 (p.docs ++ word " => \x7b" ++ joint ++ even step joint ++ word "\x7d") :: armDocs arms
  | ⟨p, e⟩ :: arms =>
    loose 0 (p.docs ++ word " => " ++ joint ++ wrapped e (e.forms.whole true) ",") :: armDocs arms

def stmtDocs : List Stmt → List (List Doc)
  | [] => []
  | .declare p e :: ss =>
    loose 0 (word "let " ++ p.docs ++ word " = " ++ joint ++ e.forms.whole false ++ word ";") ::
      stmtDocs ss
  | .run e :: ss =>
    loose 0 (e.forms.whole true ++ if e.endsInBlock then [] else word ";") :: stmtDocs ss
  | .result e :: ss =>
    loose 0 (e.forms.whole true ++ if e.isEffect then word ";" else []) :: stmtDocs ss

end

def Note.docs : Note → List Doc
  | .documentation line => word ("///" ++ line) ++ newLine 0
  | .bracket s => word ("#[" ++ s ++ "]") ++ space

def notesDocs (notes : List Note) : List Doc := notes.flatMap Note.docs

def Param.docs : Param → List Doc
  | .self how => word how
  | .typed name t => word (name ++ ": ") ++ t.docs

def typeParamDocs (p : String × String) : List Doc :=
  word "<" ++ even 0 (soft ++ word p.1 ++ loose step (word (": " ++ p.2)) ++
    [.line { before := ",", offset := -step }]) ++ word ">"

def Function.docs (f : Function) : List Doc :=
  notesDocs f.notes ++
    even step (word (f.head ++ f.name) ++ f.typeParam.elim [] typeParamDocs ++ word "(" ++ joint ++
      listed 0 (f.params.map Param.docs) ++ word ")" ++
      even (-step) (f.output.elim [] fun t => word " -> " ++ t.docs) ++ word " \x7b" ++
      braced (stmtDocs f.body)) ++
    word "\x7d"

def Associated.docs : Associated → List Doc
  | .constant notes name t e =>
    notesDocs notes ++ even 0 (word ("pub const " ++ name ++ ": ") ++ t.docs ++ word " = " ++
      joint ++ e.forms.whole false ++ word ";")
  | .type name t => word ("type " ++ name ++ " = ") ++ t.docs ++ word ";"
  | .function f => f.docs

def variantDocs (v : List Note × String × Expr) : List Doc :=
  notesDocs v.1 ++ word (v.2.1 ++ " = ") ++ v.2.2.forms.whole false ++ word ","

def Item.docs : Item → List Doc
  | .words s => word s
  | .enumeration notes name variants =>
    notesDocs notes ++
      even step (word ("pub enum " ++ name ++ " \x7b") ++ braced (variants.map variantDocs)) ++
        word "\x7d"
  | .record notes name fields =>
    notesDocs notes ++
      even step (word ("pub struct " ++ name ++ " \x7b") ++
        braced (fields.map fun f => word (f.1 ++ ": ") ++ f.2.docs ++ word ",")) ++ word "\x7d"
  | .wrapper notes name t =>
    notesDocs notes ++
      even step (word ("pub struct " ++ name ++ "(") ++ listed step [t.docs] ++ word ");")
  | .unit notes name => notesDocs notes ++ word ("pub struct " ++ name ++ ";")
  | .trait notes name super =>
    notesDocs notes ++
      even step (word ("pub trait " ++ name ++ ": " ++ super ++ " \x7b") ++ joint) ++ word "\x7d"
  | .impl implemented name members =>
    let head := match implemented with
      | none => word (" " ++ name)
      | some t => word (" " ++ t) ++ space ++ word ("for " ++ name)
    even step (word "impl" ++ even (-step) head ++ word " \x7b" ++
      braced (members.map Associated.docs)) ++ word "\x7d"
  | .function f => f.docs

/-- The lines at the top of a file or of its innermost module. -/
def headDocs (documentation : String) (allowed : List String) : List (List Doc) :=
  [word ("//!" ++ documentation),
   word "#![allow(" ++ even step (soft ++ separated (word "," ++ space) (allowed.map word) ++
     [.line { offset := -step }]) ++ word ")]"]

def moduleDocs (lines : List (List Doc)) : List String → List (List Doc)
  | [] => lines
  | name :: names =>
    [even step (word ("pub mod " ++ name ++ " \x7b") ++ braced (moduleDocs lines names)) ++
      word "\x7d"]

/-- The source text of a file, which ends in a line feed. -/
def File.text (f : File) : String :=
  let lines := headDocs f.documentation f.allowed ++ f.items.map Item.docs
  layout (even 0 (separated (newLine 0) (moduleDocs lines f.modules) ++ newLine 0))

end XmlBinding.Code
