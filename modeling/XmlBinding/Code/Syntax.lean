/-!
# Syntax of the generated code

As much of Rust as a binding is written in. Names stand in the tree as they are written.
-/
namespace XmlBinding.Code

inductive Ty where
  | path (name : String)
  | apply (name : String) (args : List Ty)
  | reference (isMutable : Bool) (lifetime : Option String) (t : Ty)
  | dynamic (name : String)
  | some (bound : Ty)
  | unit

/-- A word is an identifier, a literal or a wildcard. -/
inductive Pat where
  | word (s : String)
  | apply (name : String) (args : List Pat)
  | tuple (args : List Pat)
  | either (cases : List Pat)
  | typed (p : Pat) (t : Ty)

mutual

inductive Expr where
  | word (s : String)
  | generic (name : String) (args : List Ty)
  | field (e : Expr) (name : String)
  | call (f : Expr) (args : List Expr)
  | method (e : Expr) (name : String) (types : List Ty) (args : List Expr)
  | question (e : Expr)
  | unary (op : String) (e : Expr)
  | binary (op : String) (left right : Expr)
  | assign (left right : Expr)
  | paren (e : Expr)
  | tuple (es : List Expr)
  | array (es : List Expr)
  | closure (inputs : List Pat) (body : Expr)
  | block (body : List Stmt)
  | record (name : String) (fields : List (String × Option Expr))
  | select (e : Expr) (arms : List Arm)
  | ifLet (p : Pat) (e : Expr) (body : List Stmt)
  | forIn (p : Pat) (e : Expr) (body : List Stmt)
  | giveBack (e : Expr)

inductive Stmt where
  | declare (p : Pat) (e : Expr)
  | run (e : Expr)
  | result (e : Expr)

structure Arm where
  pat : Pat
  body : Expr

end

/-- Lines of documentation, and attributes in brackets. -/
inductive Note where
  | documentation (line : String)
  | bracket (s : String)
deriving DecidableEq, Repr

inductive Param where
  | self (how : String)
  | typed (name : String) (t : Ty)

/-- `head` are the words before the name; a type parameter has one bound. -/
structure Function where
  notes : List Note := []
  head : String := "fn "
  name : String
  typeParam : Option (String × String) := none
  params : List Param := []
  output : Option Ty := none
  body : List Stmt

inductive Associated where
  | constant (notes : List Note) (name : String) (t : Ty) (e : Expr)
  | type (name : String) (t : Ty)
  | function (f : Function)

inductive Item where
  | words (s : String)
  | enumeration (notes : List Note) (name : String) (variants : List (List Note × String × Expr))
  | record (notes : List Note) (name : String) (fields : List (String × Ty))
  | wrapper (notes : List Note) (name : String) (t : Ty)
  | unit (notes : List Note) (name : String)
  | trait (notes : List Note) (name super : String)
  | impl (trait : Option String) (name : String) (members : List Associated)
  | function (f : Function)

/-- Modules around the items, from the outside. -/
structure File where
  modules : List String
  documentation : String
  allowed : List String
  items : List Item

end XmlBinding.Code
