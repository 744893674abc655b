import XmlBinding.Code.Enumerations
/-!
# Code of classes

The record of a class, its construction, and what it does as an element: writing itself, holding
and creating children, setting values by name.
-/
namespace XmlBinding.Code
open Binding Schema Text Value

/-- What the code of a class depends on: the enumerations of the module, the type that holds the
functions reading each of them, and the namespace of all elements. -/
structure Surroundings where
  enumerations : List Enumeration
  home : Enumeration → String
  uri : Option String

def integerTypeName (t : IntegerType) : String :=
  (if t.signed then "i" else "u") ++ toString t.bits

def floatTypeName (f : FloatFormat) : String :=
  if f = .single then "f32" else "f64"

def primitiveType : Primitive → String
  | .string => "String"
  | .boolean => "bool"
  | .integer t => integerTypeName t
  | .float f => floatTypeName f
  | .dateTime => "meta::NaiveDateTime"
  | .date => "meta::NaiveDate"
  | .time => "meta::NaiveTime"

/-- The text of the value bound to `value`. -/
def formatted : Primitive → Expr
  | .string => .word "value"
  | .boolean => callOf "meta::format_bool" [.word "value"]
  | .integer _ => methodOf (.word "value") "to_string" []
  | .float _ => callOf "meta::format_float" [.word "value"]
  | .dateTime => callOf "meta::format_date_time" [.unary "&" (.word "value")]
  | .date => callOf "meta::format_date" [.unary "&" (.word "value")]
  | .time => callOf "meta::format_time" [.unary "&" (.word "value")]

/-- Reads the text bound to `value` for the attribute bound to `name`. -/
def parsed (p : Primitive) : Expr :=
  let reading (f : Expr) := Expr.question (.call f [.word "name", .word "value"])
  match p with
  | .string => methodOf (.word "value") "to_string" []
  | .boolean => reading (.word "meta::parse_bool")
  | .integer t => reading (.generic "meta::parse_number" [.path (integerTypeName t)])
  | .float f => reading (.generic "meta::parse_float" [.path (floatTypeName f)])
  | .dateTime => reading (.word "meta::parse_date_time")
  | .date => reading (.word "meta::parse_date")
  | .time => reading (.word "meta::parse_time")

def elementRef : Ty := .path "meta::ElementRef"
def weakRef : Ty := .path "meta::WeakElementRef"
def unitOrError : Ty := .apply "Result" [.unit, .path "meta::Error"]
def done : Stmt := .result (callOf "Ok" [.tuple []])
def ownName : Expr := .word "Self::ELEMENT_NAME"

def countExpr : Option Nat → Expr
  | none => .word "None"
  | some n => callOf "Some" [.word (toString n)]

mutual

/-- The collection a parent starts out with, built slot by slot. -/
def collectionExpr : Membership → Expr
  | ⟨compositor, minimum, maximum, slots⟩ =>
    let start := match compositor with
      | .sequence => "meta::ElementCollection::sequence"
      | .choice => "meta::ElementCollection::choice"
    withSlots (callOf start [.word (toString minimum), countExpr maximum.count?]) slots

def withSlots (e : Expr) : List MemberSlot → Expr
  | [] => e
  | s :: ss => withSlots (withSlot e s) ss

def withSlot (e : Expr) : MemberSlot → Expr
  | .element xmlName _ maximum =>
    methodOf e "with_element" [stringLiteral xmlName, countExpr maximum.count?]
  | .wildcard maximum => methodOf e "with_any" [countExpr maximum.count?]
  | .group m => methodOf e "with_collection" [collectionExpr m]

end

namespace Surroundings
variable (s : Surroundings)

def typeOf : FieldType → Ty
  | .primitive p => .path (primitiveType p)
  | .enumeration place => .path ((s.enumerations[place]?).elim "" fun e => written e.name)

def accessors (f : Field) : List Associated :=
  let own := Expr.field self (written f.member)
  let getter (output : Ty) (e : Expr) : Associated := .function {
    notes := documentationNotes f.documentation
    head := "pub fn ", name := written f.member, params := [.self "&self"]
    output := some (optionOf output), body := [.result e] }
  let setter (t : Ty) (e : Expr) : Associated := .function {
    head := "pub fn ", name := "set_" ++ f.member
    params := [.self "&mut self", .typed "value" t]
    body := [.run (.assign own (callOf "Some" [e]))] }
  if f.type = .primitive .string then
    [getter textRef (methodOf own "as_deref" []),
     setter (.some (.apply "Into" [.path "String"])) (methodOf (.word "value") "into" [])]
  else [getter (s.typeOf f.type) own, setter (s.typeOf f.type) (.word "value")]

/-- Writes a value that is set; `write` writes its text. -/
def output (write : Expr → Expr) (f : Field) : Stmt :=
  let own := Expr.field self (written f.member)
  let text (e source : Expr) : Stmt :=
    .result (.ifLet (.apply "Some" [.word "value"]) source [.run (.question (write e))])
  match f.type with
  | .primitive .string => text (.word "value") (.unary "&" own)
  | .primitive p => text (formatted p) own
  | .enumeration place =>
    let name := (s.enumerations[place]?).elim "" fun e => written e.name
    text (.word "value") (methodOf own "and_then" [.word (name ++ "::xml_value")])

def writeText (e : Expr) : Expr := methodOf (.word "writer") "text" [e]

def writeAttribute (xmlName : String) (e : Expr) : Expr :=
  methodOf (.word "writer") "attribute" [stringLiteral xmlName, e]

/-- Reads an enumeration; a set of flags has no sentinel for what is no literal. -/
def parsedEnumeration (e : Enumeration) : Expr :=
  let call (name : String) := callOf (s.home e ++ "::" ++ name) [callOf "Some" [.word "value"]]
  match e.form with
  | .plain => call e.parseName
  | .flags => .question (methodOf (call e.tryParseName) "map_err" [.closure [.word "_"] (.block
      [.result (callOf "meta::Error::invalid_value"
        [.word "name", .word "value", stringLiteral ValueFault.unknownLiteral.message])])])

def setArm (f : Field) : Arm :=
  let value := match f.type with
    | .primitive p => parsed p
    | .enumeration place => (s.enumerations[place]?).elim (.word "") s.parsedEnumeration
  ⟨.word (literal f.xmlName), .assign (.field self (written f.member)) (callOf "Some" [value])⟩

def elementImpl (c : ElementClass) : Item :=
  let optional (head : String) (name self result : String) : Associated := .function {
    head := head, name := name, params := [.self self]
    output := some (optionOf (.reference (self == "&mut self") none (.dynamic result)))
    body := [.result (callOf "Some" [.word "self"])] }
  let any (name self : String) : Associated := .function {
    name := name, params := [.self self]
    output := some (.reference (self == "&mut self") none (.dynamic "Any"))
    body := [.result (.word "self")] }
  let children : Stmt := .result (.forIn (.word "child")
    (methodOf (.field self "children") "iter" [])
    [.run (.question (methodOf (methodOf (.word "child") "borrow" []) "output_xml"
      [.word "writer"]))])
  let parentMembers : List Associated :=
    [optional "fn " "as_parent" "&self" "meta::Parent",
     optional "fn " "as_parent_mut" "&mut self" "meta::Parent",
     optional "fn " "as_child_factory" "&self" "meta::ChildFactory"]
  .impl (some "meta::Element") (written c.name) ([
    .function {
      name := "element_name", params := [.self "&self"], output := some textRef
      body := [.result ownName] },
    .function {
      name := "namespace", params := [.self "&self"], output := some optionalText
      body := [.result (s.uri.elim (.word "None") fun u => callOf "Some" [stringLiteral u])] },
    .function {
      name := "parent", params := [.self "&self"], output := some (optionOf elementRef)
      body := [.result (methodOf (methodOf (.field self "parent") "as_ref" []) "and_then"
        [.word "Weak::upgrade"])] },
    .function {
      name := "set_parent"
      params := [.self "&mut self", .typed "parent" (optionOf weakRef)]
      body := [.run (.assign (.field self "parent") (.word "parent"))] },
    .function {
      name := "output_xml"
      params := [.self "&self", .typed "writer" (.reference true none (.path "meta::XmlWriter"))]
      output := some unitOrError
      body := [.run (.question (methodOf (.word "writer") "start_element"
          [ownName, methodOf self "namespace" []]))] ++
        c.fields.map (fun f => s.output (writeAttribute f.xmlName) f) ++
        c.contentField?.toList.map (s.output writeText) ++
        (if c.membership.isSome then [children] else []) ++
        [.result (methodOf (.word "writer") "end_element" [])] },
    any "as_any" "&self", any "as_any_mut" "&mut self"] ++
    (if c.membership.isSome then parentMembers else []) ++
    [optional "fn " "as_set_attributes" "&mut self" "meta::SetAttributes"])

/-- Making a new element, alone or with a reference to itself for its children. -/
def construction (c : ElementClass) : Associated :=
  let unset := c.values.map fun f => (written f.member, some (Expr.word "None"))
  let body := match c.membership with
    | none => callOf "Rc::new" [callOf "RefCell::new"
        [.record "Self" (("parent", some (.word "None")) :: unset)]]
    | some m => callOf "Rc::new_cyclic"
        [.closure [.typed (.word "this")
            (.reference false none (.apply "Weak" [.apply "RefCell" [.path "Self"]]))]
          (.block [
            .declare (.typed (.word "this") weakRef) (methodOf (.word "this") "clone" []),
            .result (callOf "RefCell::new" [.record "Self"
              ([("this", none), ("parent", some (.word "None")),
                ("children", some (collectionExpr m))] ++ unset)])])]
  .function {
    head := "pub fn ", name := "new"
    output := some (.apply "Rc" [.apply "RefCell" [.path "Self"]]), body := [.result body] }

def childrenOf : Associated := .function {
  notes := noted "Children of concrete type `T`, in document order."
  head := "pub fn ", name := "children_of", typeParam := some ("T", "meta::Element")
  params := [.self "&self"], output := some (.apply "Vec" [elementRef])
  body := [.result (.method (.field self "children") "of_type" [.path "T"] [])] }

def newElement (className : String) : Expr :=
  callOf "meta::into_element_ref" [callOf (written className ++ "::new") []]

def parentItems (c : ElementClass) (m : Membership) : List Item :=
  let changeParent (e : Expr) : Stmt :=
    .run (methodOf (methodOf (.word "child") "borrow_mut" []) "set_parent" [e])
  let children := Expr.field self "children"
  let arms := m.creatable.map fun (xmlName, className) =>
    Arm.mk (.word (literal xmlName)) (callOf "Ok" [newElement className])
  [.impl (some "meta::Parent") (written c.name) [
     .function {
       name := "children", params := [.self "&self"]
       output := some (.reference false none (.path "meta::ElementCollection"))
       body := [.result (.unary "&" children)] },
     .function {
       name := "add_child", params := [.self "&mut self", .typed "child" elementRef]
       output := some unitOrError
       body := [
         .run (.question (methodOf (methodOf children "add_element"
             [methodOf (.word "child") "clone" []]) "map_err"
           [.closure [.word "error"] (methodOf (.word "error") "in_parent" [ownName])])),
         changeParent (callOf "Some" [methodOf (.field self "this") "clone" []]),
         done] },
     .function {
       name := "remove_child"
       params := [.self "&mut self", .typed "child" (.reference false none elementRef)]
       output := some unitOrError
       body := [
         .run (.question (methodOf children "remove_element" [.word "child"])),
         changeParent (.word "None"),
         done] }],
   .impl (some "meta::ChildFactory") (written c.name) [
     .function {
       name := "create_child", params := [.self "&self", .typed "name" textRef]
       output := some (.apply "Result" [elementRef, .path "meta::Error"])
       body := [.result (.select (.word "name") (arms ++
         [⟨.word "_", callOf "Err" [callOf "meta::Error::invalid_child_name"
           [ownName, .word "name"]]⟩]))] }]]

/-- All items of a class; `readers` are the functions it holds for enumerations. -/
def classItems (c : ElementClass) (readers : List Associated) : List Item :=
  let name := written c.name
  let valueFields := c.values.map fun f => (written f.member, optionOf (s.typeOf f.type))
  let links := if c.membership.isSome
    then [("this", weakRef), ("parent", optionOf weakRef),
      ("children", .path "meta::ElementCollection")]
    else [("parent", optionOf weakRef)]
  [.record (documentationNotes c.documentation ++ [.bracket "derive(Debug)"]) name
     (links ++ valueFields),
   .impl none name (
     [.constant [] "ELEMENT_NAME" (.reference false (some "'static") (.path "str"))
        (stringLiteral c.xmlName),
      construction c] ++
     (if c.membership.isSome then [childrenOf] else []) ++
     c.values.flatMap s.accessors ++ readers),
   s.elementImpl c] ++
  c.membership.elim [] (parentItems c) ++
  [.impl (some "meta::SetAttributes") name [
     .function {
       name := "set_attribute"
       params := [.self "&mut self", .typed "name" textRef, .typed "value" textRef]
       output := some unitOrError
       body := [
         .result (.select (.word "name")
           (c.values.map s.setArm ++ [⟨.word "_", .block []⟩])),
         done] }]] ++
  c.markers.map fun m => .impl (some (written m)) name []

end Surroundings

end XmlBinding.Code
