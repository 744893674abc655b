import XmlBinding.Code.Enumerations
import XmlBinding.Value.Integer
import XmlBinding.Proofs.Text.Quoting

/-! # What the code of enumerations does

As much of the meaning of the generated code as the functions of enumerations need. Code is
evaluated within the scope of the type it belongs to, and ends with an object and what the
variables are then. Numbers have 32 bits and no sign.
-/
namespace XmlBinding.Code
open Binding Text

/-- What code computes with. `made` is a constructor with its arguments, and `many` are the objects
of a tuple, of an array, or that an iterator gives. -/
inductive Object where
  | text (s : String)
  | number (n : Nat)
  | truth (b : Bool)
  | made (maker : String) (parts : List Object)
  | many (objects : List Object)

namespace Object

def unit : Object := .many []
def absent : Object := .made "None" []
def present (x : Object) : Object := .made "Some" [x]
def ok (x : Object) : Object := .made "Ok" [x]
def err (x : Object) : Object := .made "Err" [x]

def ofText (s : Option String) : Object := s.elim absent fun s => present (.text s)

def text? : Object → Option String
  | .text s => some s
  | _ => none

def truth? : Object → Option Bool
  | .truth b => some b
  | _ => none

/-- Constructors without parts are told apart by their names. -/
def isSame : Object → Object → Bool
  | .made maker [], .made other [] => maker == other
  | _, _ => false

/-- The part of what has only one. -/
def part? : Object → Option Object
  | .made _ [x] => some x
  | _ => none

def changePart (f : Object → Option Object) : Object → Option Object
  | .made maker [x] => (f x).map fun y => .made maker [y]
  | _ => none

theorem ofText_injective : Function.Injective ofText := by
  intro s t h
  cases s <;> cases t <;> simp_all [ofText, absent, present]

@[simp] theorem ok_inj {x y : Object} : x.ok = y.ok ↔ x = y := by simp [ok]

@[simp] theorem err_inj {x y : Object} : x.err = y.err ↔ x = y := by simp [err]

@[simp] theorem ok_ne_err (x y : Object) : x.ok ≠ y.err := by simp [ok, err]

@[simp] theorem err_ne_ok (x y : Object) : x.err ≠ y.ok := by simp [ok, err]

end Object

/-- Variables, the innermost first. -/
abbrev Vars := List (String × Object)

/-- Gives a variable another object. -/
def Vars.set (name : String) (x : Object) : Vars → Vars
  | [] => []
  | (n, y) :: vars => if n = name then (n, x) :: vars else (n, y) :: Vars.set name x vars

/-- Code goes on, or has left its function with a result, or means nothing. -/
inductive Outcome (α : Type) where
  | next (a : α) (vars : Vars)
  | returned (x : Object)
  | stuck

namespace Outcome
variable {α β : Type}

def bind (o : Outcome α) (f : α → Vars → Outcome β) : Outcome β :=
  match o with
  | .next a vars => f a vars
  | .returned x => .returned x
  | .stuck => .stuck

def ofOption (a : Option α) (vars : Vars) : Outcome α := a.elim .stuck (.next · vars)

/-- Forgets the innermost `n` variables. -/
def leave (n : Nat) (o : Outcome α) : Outcome α := o.bind fun a vars => .next a (vars.drop n)

@[simp] theorem bind_next (a : α) (vars : Vars) (f : α → Vars → Outcome β) :
    (next a vars).bind f = f a vars := rfl

@[simp] theorem bind_returned (x : Object) (f : α → Vars → Outcome β) :
    (returned x).bind f = .returned x := rfl

@[simp] theorem ofOption_some (a : α) (vars : Vars) : ofOption (some a) vars = .next a vars := rfl

@[simp] theorem leave_next (n : Nat) (a : α) (vars : Vars) :
    (next a vars).leave n = .next a (vars.drop n) := rfl

@[simp] theorem leave_returned (n : Nat) (x : Object) :
    (returned x : Outcome α).leave n = .returned x := rfl

@[simp] theorem leave_zero (o : Outcome α) : o.leave 0 = o := by
  cases o <;> rfl

/-- The result of a function. -/
def result? : Outcome Object → Option Object
  | .next x _ => some x
  | .returned x => some x
  | .stuck => none

/-- What a variable is after a function has gone through. -/
def valueOf? (name : String) : Outcome Object → Option Object
  | .next _ vars => vars.lookup name
  | _ => none

@[simp] theorem result?_leave (n : Nat) (o : Outcome Object) : (o.leave n).result? = o.result? := by
  cases o <;> rfl

end Outcome

abbrev Meaning := List Object → Option Object

/-- Methods take objects, and functions that are written as closures. -/
inductive Argument where
  | object (x : Object)
  | closure (f : Meaning)

def Argument.object? : Argument → Option Object
  | .object x => some x
  | .closure _ => none

/-- What names mean within a type. Its constants are called by `path` and their own names. The
first argument of a method is what it is called on, and an update tells what becomes of that. -/
structure Naming where
  path : String
  constants : List (String × Object)
  functions : List (String × Meaning)
  methods : List (String × Meaning)
  updates : List (String × Meaning)

namespace Naming

def libraryFunctions : List (String × Meaning) :=
  ["Some", "Ok", "Err"].map fun name => (name, fun xs => some (.made name xs))

/-- Within a type that has nothing yet. -/
def initial : Naming := ⟨"Self", [], libraryFunctions, [], []⟩

/-- What names mean elsewhere, where the type is called by its name. -/
def outside (scope : Naming) (name : String) : Naming :=
  { scope with path := name, functions := libraryFunctions }

def constant? (scope : Naming) (word : String) : Option Object :=
  (("None", .absent) :: scope.constants.map fun c => (scope.path ++ "::" ++ c.1, c.2)).lookup word

end Naming

def readNumber (word : String) : Option Nat :=
  (Value.IntegerType.readNumeral ⟨false, 32⟩ word.toList).toOption.map Int.toNat

/-- A word is a constant, a text, a variable or a number. -/
def Naming.word (scope : Naming) (vars : Vars) (word : String) : Option Object :=
  scope.constant? word <|> (readLiteral word).map .text <|> vars.lookup word <|>
    (readNumber word).map .number

/-- The variable that a pattern binds, without the mark of those that change. -/
def variableName (word : String) : String :=
  match word.toList with
  | 'm' :: 'u' :: 't' :: ' ' :: name => String.ofList name
  | _ => word

/-- What a word binds as a pattern, if it matches. -/
def Naming.bindWord (scope : Naming) (word : String) (x : Object) : Option Vars :=
  match scope.constant? word, readLiteral word with
  | some c, _ => if c.isSame x then some [] else none
  | none, some s => if x.text? = some s then some [] else none
  | none, none => if word = "_" then some [] else some [(variableName word, x)]

mutual

/-- What a pattern binds, if it matches. -/
def Pat.bind (scope : Naming) : Pat → Object → Option Vars
  | .word s, x => scope.bindWord s x
  | .apply name ps, .made maker xs => if maker = name then bindAll scope ps xs else none
  | .tuple ps, .many xs => bindAll scope ps xs
  | .either ps, x => bindFirst scope ps x
  | .typed p _, x => p.bind scope x
  | _, _ => none

def bindAll (scope : Naming) : List Pat → List Object → Option Vars
  | [], [] => some []
  | p :: ps, x :: xs => do return (← p.bind scope x) ++ (← bindAll scope ps xs)
  | _, _ => none

def bindFirst (scope : Naming) : List Pat → Object → Option Vars
  | [], _ => none
  | p :: ps, x => p.bind scope x <|> bindFirst scope ps x

end

/-- The objects for which a closure is true, in order. -/
def keepBy (f : Meaning) : List Object → Option (List Object)
  | [] => some []
  | x :: xs => do
    let kept ← keepBy f xs
    return if ← (← f [x]).truth? then x :: kept else kept

/-- Methods of texts, truth values and iterators. -/
def libraryMethod (name : String) (x : Object) (args : List Argument) : Option Object :=
  match name, x, args with
  | "into_iter", .many xs, [] => some (.many xs)
  | "filter", .many xs, [.closure f] => (keepBy f xs).map .many
  | "map", .many xs, [.closure f] => (xs.mapM fun x => f [x]).map .many
  | "collect", .many xs, [] => some (.many xs)
  | "is_empty", .many xs, [] => some (.truth xs.isEmpty)
  | "join", .many xs, [.object (.text separator)] =>
    (xs.mapM Object.text?).map fun ws => .text (separator.intercalate ws)
  | "then", .truth true, [.closure f] => (f []).map .present
  | "then", .truth false, [.closure _] => some .absent
  | "split_whitespace", .text s, [] => some (.many ((words s).map .text))
  | _, _, _ => none

def Naming.method (scope : Naming) (name : String) (x : Object) (args : List Argument) :
    Option Object :=
  match scope.methods.lookup name with
  | some f => do f (x :: (← args.mapM Argument.object?))
  | none => libraryMethod name x args

def unary (op : String) (x : Object) : Option Object :=
  match op, x with
  | "*", x => some x
  | "!", .truth b => some (.truth !b)
  | _, _ => none

def binary (op : String) (x y : Object) : Option Object :=
  match op, x, y with
  | "&", .number m, .number n => some (.number (m &&& n))
  | "|", .number m, .number n => some (.number (m ||| n))
  | "==", .number m, .number n => some (.truth (m == n))
  | _, _, _ => none

/-- What becomes of `x` with `|= y`. -/
def Naming.orAssign (scope : Naming) (y x : Object) : Option Object :=
  match x, y with
  | .number m, .number n => some (.number (m ||| n))
  | x, y => do (← scope.updates.lookup "bitor_assign") [x, y]

/-- Changes what stands at a place, which is a variable or the only part of what is at one. -/
def Expr.change (f : Object → Option Object) (vars : Vars) : Expr → Option Vars
  | .word name => do return Vars.set name (← f (← vars.lookup name)) vars
  | .field e _ => e.change (Object.changePart f) vars
  | _ => none

/-- Goes through a loop. -/
def iterate (step : Object → Vars → Outcome Object) : List Object → Vars → Outcome Object
  | [], vars => .next .unit vars
  | x :: xs, vars => (step x vars).bind fun _ vars => iterate step xs vars

mutual

def Expr.eval (scope : Naming) : Expr → Vars → Outcome Object
  | .word s, vars => .ofOption (scope.word vars s) vars
  | .field e _, vars => (e.eval scope vars).bind fun x vars => .ofOption x.part? vars
  | .call (.word name) args, vars => (evalAll scope args vars).bind fun xs vars =>
    .ofOption ((scope.functions.lookup name).bind (· xs)) vars
  | .method e name _ args, vars => (e.eval scope vars).bind fun x vars =>
    (evalArguments scope args vars).bind fun as vars => .ofOption (scope.method name x as) vars
  | .unary op e, vars => (e.eval scope vars).bind fun x vars => .ofOption (unary op x) vars
  | .binary op left right, vars =>
    if op = "|=" then
      (right.eval scope vars).bind fun y vars =>
        (Outcome.ofOption (left.change (scope.orAssign y) vars) vars).bind fun vars _ =>
          .next .unit vars
    else
      (left.eval scope vars).bind fun x vars => (right.eval scope vars).bind fun y vars =>
        .ofOption (binary op x y) vars
  | .paren e, vars => e.eval scope vars
  | .tuple es, vars => (evalAll scope es vars).bind fun xs vars => .next (.many xs) vars
  | .array es, vars => (evalAll scope es vars).bind fun xs vars => .next (.many xs) vars
  | .select e arms, vars => (e.eval scope vars).bind fun x vars => evalArms scope arms x vars
  | .forIn p e body, vars => (e.eval scope vars).bind fun x vars =>
    match x with
    | .many xs => iterate (fun x vars =>
        (Outcome.ofOption (p.bind scope x) vars).bind fun bound vars =>
          (evalBody scope body (bound ++ vars)).leave bound.length) xs vars
    | _ => .stuck
  | .giveBack e, vars => (e.eval scope vars).bind fun x _ => .returned x
  | _, _ => .stuck

def evalAll (scope : Naming) : List Expr → Vars → Outcome (List Object)
  | [], vars => .next [] vars
  | e :: es, vars => (e.eval scope vars).bind fun x vars =>
    (evalAll scope es vars).bind fun xs vars => .next (x :: xs) vars

/-- Closures use variables as they are where they are written. -/
def evalArguments (scope : Naming) : List Expr → Vars → Outcome (List Argument)
  | [], vars => .next [] vars
  | .closure inputs body :: es, vars =>
    (evalArguments scope es vars).bind fun as vars' =>
      .next (.closure (fun xs => do
        (body.eval scope ((← bindAll scope inputs xs) ++ vars)).result?) :: as) vars'
  | e :: es, vars => (e.eval scope vars).bind fun x vars =>
    (evalArguments scope es vars).bind fun as vars => .next (.object x :: as) vars

/-- The first arm is taken whose pattern matches. -/
def evalArms (scope : Naming) : List Arm → Object → Vars → Outcome Object
  | [], _, _ => .stuck
  | ⟨p, body⟩ :: arms, x, vars =>
    match p.bind scope x with
    | some bound => (body.eval scope (bound ++ vars)).leave bound.length
    | none => evalArms scope arms x vars

def evalBody (scope : Naming) : List Stmt → Vars → Outcome Object
  | [], vars => .next .unit vars
  | [.result e], vars => e.eval scope vars
  | .result e :: body, vars => (e.eval scope vars).bind fun _ vars => evalBody scope body vars
  | .run e :: body, vars => (e.eval scope vars).bind fun _ vars => evalBody scope body vars
  | .declare p e :: body, vars => (e.eval scope vars).bind fun x vars =>
    (Outcome.ofOption (p.bind scope x) vars).bind fun bound vars =>
      (evalBody scope body (bound ++ vars)).leave bound.length

end

def Param.variable : Param → String
  | .self _ => "self"
  | .typed name _ => name

def Function.run (f : Function) (scope : Naming) (xs : List Object) : Outcome Object :=
  if f.params.length = xs.length then
    evalBody scope f.body ((f.params.map Param.variable).zip xs)
  else .stuck

/-- Adds what a type has to what names mean within it. -/
def Naming.add (scope : Naming) : Associated → Naming
  | .constant _ name _ e =>
    { scope with constants :=
        scope.constants ++ ((e.eval scope []).result?.map (name, ·)).toList }
  | .type .. => scope
  | .function f =>
    let result (xs : List Object) := (f.run scope xs).result?
    match f.params.head? with
    | some (.self "&mut self") => { scope with
        updates := (f.name, fun xs => (f.run scope xs).valueOf? "self") :: scope.updates }
    | some (.self _) => { scope with methods := (f.name, result) :: scope.methods }
    | _ => { scope with functions := ("Self::" ++ f.name, result) :: scope.functions }

theorem Naming.add_function {scope : Naming} {f : Function} {name : String} {t : Ty}
    (h : f.params = [.typed name t]) :
    scope.add (.function f) = { scope with functions :=
      ("Self::" ++ f.name, fun xs => (f.run scope xs).result?) :: scope.functions } := by
  rw [Naming.add, h]
  rfl

theorem Naming.add_method {scope : Naming} {f : Function} {ps : List Param}
    (h : f.params = .self "self" :: ps) :
    scope.add (.function f) = { scope with methods :=
      (f.name, fun xs => (f.run scope xs).result?) :: scope.methods } := by
  rw [Naming.add, h]
  rfl

theorem Naming.add_update {scope : Naming} {f : Function} {ps : List Param}
    (h : f.params = .self "&mut self" :: ps) :
    scope.add (.function f) = { scope with updates :=
      (f.name, fun xs => (f.run scope xs).valueOf? "self") :: scope.updates } := by
  rw [Naming.add, h]
  rfl

def Naming.addItem (scope : Naming) : Item → Naming
  | .enumeration _ _ variants => { scope with
      constants := scope.constants ++ variants.map fun v => (v.2.1, .made v.2.1 []) }
  | .wrapper _ _ _ => { scope with
      functions := ("Self", fun xs => some (.made "Self" xs)) :: scope.functions }
  | .impl _ _ members => members.foldl Naming.add scope
  | _ => scope

end XmlBinding.Code

namespace XmlBinding.Binding.Enumeration
open Code

/-- What names mean within the type of an enumeration. -/
def scope (e : Enumeration) : Naming := (enumerationItems e).foldl Naming.addItem .initial

/-- What names mean where an enumeration is read. -/
def readerScope (e : Enumeration) : Naming :=
  (enumerationReaders e).foldl Naming.add (e.scope.outside (written e.name))

/-- What the generated functions give, if they give anything. -/
def tryParse (e : Enumeration) (value : Option String) : Option Object :=
  (e.readerScope.functions.lookup ("Self::" ++ e.tryParseName)).bind (· [.ofText value])

@[inherit_doc tryParse]
def parsed (e : Enumeration) (value : Option String) : Option Object :=
  (e.readerScope.functions.lookup ("Self::" ++ e.parseName)).bind (· [.ofText value])

@[inherit_doc tryParse]
def xmlValue (e : Enumeration) (x : Object) : Option Object :=
  (e.scope.methods.lookup "xml_value").bind (· [x])

end XmlBinding.Binding.Enumeration

