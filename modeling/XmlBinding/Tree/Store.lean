import XmlBinding.Tree.Registry
/-!
# A store of elements

Elements are numbered in the order they are made. A parent holds its children in a collection, and
each element refers back to the parent it was added to last.
-/
namespace XmlBinding.Tree

/-- `values` are those of the blueprint's rules, in their order. -/
structure Node where
  blueprint : Blueprint
  recorded : List (String × String) := []
  values : List (Option Held) := []
  collection : Option Collection := none
  parent : Option Nat := none

/-- A new element: no value is set, and nothing is held. -/
def Blueprint.node (b : Blueprint) : Node :=
  { blueprint := b
    values := match b.attributes with
      | .typed rules => rules.map fun _ => none
      | _ => []
    collection := b.collection }

def Node.name (n : Node) : String := n.blueprint.elementName

/-- Whether values can be set. -/
def Node.acceptsValues (n : Node) : Bool :=
  n.blueprint.attributes != .refused

/-- Sets a value by name. Names without a rule change nothing. -/
def Node.setValue (n : Node) (name value : String) : Except TreeError Node :=
  match n.blueprint.attributes with
  | .refused => .ok n
  | .recorded => .ok { n with recorded := n.recorded ++ [(name, value)] }
  | .typed rules => match rules.findIdx? (·.name = name) with
    | none => .ok n
    | some i => match rules[i]? with
      | none => .ok n
      | some rule => match rule.kind.read value with
        | .ok held => .ok { n with values := n.values.set i (some held) }
        | .error fault => .error (.invalidValue name value fault)

abbrev Store := List Node

namespace Store

/-- The number of the next element. -/
def next (s : Store) : Nat := s.length

def create (s : Store) (b : Blueprint) : Store × Nat :=
  (s ++ [b.node], s.next)

/-- Changes one element. -/
def update (s : Store) (id : Nat) (f : Node → Node) : Store :=
  s.modify id f

def childOf (s : Store) (id : Nat) : Child :=
  ⟨id, (s[id]?).elim "" Node.name⟩

/-- Puts an element into the collection of a parent, which it then refers to. -/
def addChild (s : Store) (parent child : Nat) : Except TreeError Store :=
  match s[parent]? with
  | none => .error (.notAParent "")
  | some p => match p.collection with
    | none => .error (.notAParent p.name)
    | some c => match c.add (s.childOf child) with
      | .error e => .error (e.inParent p.name)
      | .ok c =>
        .ok ((s.update parent fun n => { n with collection := some c }).update child
          fun n => { n with parent := some parent })

/-- Takes an element out of the collection of a parent; it then refers to none. -/
def removeChild (s : Store) (parent child : Nat) : Except TreeError Store :=
  match s[parent]? with
  | none => .error (.notAParent "")
  | some p => match p.collection with
    | none => .error (.notAParent p.name)
    | some c => match c.remove (s.childOf child) with
      | .error e => .error e
      | .ok c =>
        .ok ((s.update parent fun n => { n with collection := some c }).update child
          fun n => { n with parent := none })

def setValue (s : Store) (id : Nat) (name value : String) : Except TreeError Store :=
  match s[id]? with
  | none => .ok s
  | some n => (n.setValue name value).map fun n => s.update id fun _ => n

/-- The children of an element, if it can have any. -/
def children? (s : Store) (id : Nat) : Option (List Child) :=
  (s[id]?).bind fun n => n.collection.map Collection.children

def children (s : Store) (id : Nat) : List Child :=
  (s.children? id).getD []

def parentOf (s : Store) (id : Nat) : Option Nat :=
  (s[id]?).bind (·.parent)

end Store

end XmlBinding.Tree
