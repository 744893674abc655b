import XmlBinding.Tree.Error
/-!
# Collections of children

A collection holds the children of one element in slots shaped after its content model: a slot
takes elements of one name, or of any name, and collections nest. Children come out in slot order.
A choice that may occur once is exclusive: at most one of its entries is in use.
-/
namespace XmlBinding.Tree

/-- An element as its parent's collection knows it. -/
structure Child where
  id : Nat
  name : String
deriving DecidableEq, Repr

inductive Compositor where
  | sequence
  | choice
deriving DecidableEq, Repr

/-- Without a name the slot takes every element; without a maximum it never fills up. -/
structure Slot where
  name : Option String
  maximum : Option Nat
  held : List Child
deriving DecidableEq, Repr

mutual

structure Collection where
  compositor : Compositor
  minimum : Nat
  maximum : Option Nat
  entries : List Entry

inductive Entry where
  | slot (s : Slot)
  | nested (c : Collection)

end

/-- Why an entry refuses an element, weakest reason first. -/
inductive Refusal where
  | notAccepted
  | full
  | choiceOccupied
deriving DecidableEq, Repr

namespace Refusal

def strength : Refusal → Nat
  | .notAccepted => 0
  | .full => 1
  | .choiceOccupied => 2

/-- The stronger of two reasons. -/
def max (a b : Refusal) : Refusal :=
  if a.strength < b.strength then b else a

def error (child : String) : Refusal → TreeError
  | .notAccepted => .invalidChildName "" child
  | .full => .maxOccursExceeded child
  | .choiceOccupied => .choiceViolation child

end Refusal

namespace Slot

def accepts (s : Slot) (name : String) : Bool :=
  s.name.all (· == name)

def isFull (s : Slot) : Bool :=
  s.maximum.any (· ≤ s.held.length)

end Slot

namespace Collection

def isExclusive (c : Collection) : Bool :=
  c.compositor == .choice && c.maximum == some 1

end Collection

mutual

/-- Whether a slot at any depth takes elements of this name. -/
def Collection.accepts (name : String) : Collection → Bool
  | ⟨_, _, _, entries⟩ => acceptsAny name entries

def Entry.accepts (name : String) : Entry → Bool
  | .slot s => s.accepts name
  | .nested c => c.accepts name

def acceptsAny (name : String) : List Entry → Bool
  | [] => false
  | e :: es => e.accepts name || acceptsAny name es

end

mutual

/-- The elements held, in slot order. -/
def Collection.children : Collection → List Child
  | ⟨_, _, _, entries⟩ => childrenOfEntries entries

def Entry.children : Entry → List Child
  | .slot s => s.held
  | .nested c => c.children

def childrenOfEntries : List Entry → List Child
  | [] => []
  | e :: es => e.children ++ childrenOfEntries es

end

def Entry.isEmpty (e : Entry) : Bool := e.children.isEmpty
def Collection.isEmpty (c : Collection) : Bool := c.children.isEmpty
def Collection.size (c : Collection) : Nat := c.children.length

/-- The children of one name, in slot order. -/
def Collection.named (c : Collection) (name : String) : List Child :=
  c.children.filter (·.name == name)

mutual

/-- Puts `x` into the first slot that accepts its name and has room, passing over the entries of
an exclusive choice beside which another entry is in use. -/
def Collection.place (x : Child) : Collection → Except Refusal Collection
  | ⟨compositor, minimum, maximum, entries⟩ =>
    let exclusive := Collection.isExclusive ⟨compositor, minimum, maximum, entries⟩
    (placeFirst x exclusive false entries).map fun entries =>
      ⟨compositor, minimum, maximum, entries⟩

def Entry.place (x : Child) : Entry → Except Refusal Entry
  | .slot s => if s.isFull then .error .full else .ok (.slot { s with held := s.held ++ [x] })
  | .nested c => (c.place x).map .nested

/-- `occupied` tells whether an earlier entry of the same collection is in use. -/
def placeFirst (x : Child) (exclusive occupied : Bool) : List Entry → Except Refusal (List Entry)
  | [] => .error .notAccepted
  | e :: es =>
    let later (reason : Refusal) : Except Refusal (List Entry) :=
      match placeFirst x exclusive (occupied || !e.isEmpty) es with
      | .ok es => .ok (e :: es)
      | .error r => .error (reason.max r)
    if !e.accepts x.name then later .notAccepted
    else if exclusive && (occupied || es.any (!·.isEmpty)) then later .choiceOccupied
    else match e.place x with
      | .ok e => .ok (e :: es)
      | .error r => later r

end

/-- The parent's name is left for the caller, who knows it. -/
def Collection.add (c : Collection) (x : Child) : Except TreeError Collection :=
  (c.place x).mapError (·.error x.name)

mutual

/-- Takes out the first occurrence of the element, if it is held. -/
def Collection.take (id : Nat) : Collection → Option Collection
  | ⟨compositor, minimum, maximum, entries⟩ =>
    (takeFirst id entries).map fun entries => ⟨compositor, minimum, maximum, entries⟩

def Entry.take (id : Nat) : Entry → Option Entry
  | .slot s =>
    if s.held.any (·.id == id) then
      some (.slot { s with held := s.held.eraseP (·.id == id) })
    else none
  | .nested c => (c.take id).map .nested

def takeFirst (id : Nat) : List Entry → Option (List Entry)
  | [] => none
  | e :: es =>
    match e.take id with
    | some e => some (e :: es)
    | none => (takeFirst id es).map (e :: ·)

end

def Collection.remove (c : Collection) (x : Child) : Except TreeError Collection :=
  match c.take x.id with
  | some c => .ok c
  | none => .error (.notAChild x.name)

end XmlBinding.Tree
