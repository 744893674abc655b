import XmlBinding.Tree.Writing
import XmlBinding.Proofs.Collection.Slots
import XmlBinding.Proofs.Xml.Outline

/-! # Trees of elements

A tree is what the elements below one element look like, whatever their numbers in a store are. Two
stores hold the same tree if they agree on the classes and values of its elements and on how many
children are in which slot. What is written of an element depends on its tree only.
-/
namespace XmlBinding.Tree
open Binding Xml

/-- How many elements each slot holds. -/
def Collection.counts (c : Collection) : List Nat := c.slots.map (·.held.length)

/-- `counts` tells how the children are dealt out to the slots, if there can be any. -/
structure ElementTree where
  blueprint : Blueprint
  values : List (Option Held)
  counts : Option (List Nat)
  children : List ElementTree

def ElementTree.name (t : ElementTree) : String := t.blueprint.elementName

mutual

/-- The tree itself and all trees in it. -/
def ElementTree.subtrees : ElementTree → List ElementTree
  | ⟨blueprint, values, counts, children⟩ =>
    ⟨blueprint, values, counts, children⟩ :: subtreesIn children

def subtreesIn : List ElementTree → List ElementTree
  | [] => []
  | t :: ts => t.subtrees ++ subtreesIn ts

end

theorem ElementTree.subtrees_eq (t : ElementTree) : t.subtrees = t :: subtreesIn t.children := by
  cases t
  rfl

def Node.children (n : Node) : List Child := n.collection.elim [] Collection.children

/-- An element looks like the root of a tree, but for its children. -/
structure Node.Shows (n : Node) (t : ElementTree) : Prop where
  blueprint : n.blueprint = t.blueprint
  values : n.values = t.values
  emptied : n.collection.map Collection.emptied = t.blueprint.collection
  counts : n.collection.map Collection.counts = t.counts

mutual

/-- The element `id` is the root of a tree whose elements all have numbers of some kind. -/
inductive Store.Holds (s : Store) (among : Nat → Prop) : Nat → ElementTree → Prop
  | intro {id : Nat} {n : Node} {t : ElementTree} (hid : among id) (hn : s[id]? = some n)
      (ht : n.Shows t) (hc : Store.HoldsEach s among id n.children t.children) :
      Store.Holds s among id t

/-- Children in order are the roots of trees, and refer back to their parent. -/
inductive Store.HoldsEach (s : Store) (among : Nat → Prop) :
    Nat → List Child → List ElementTree → Prop
  | nil {parent : Nat} : Store.HoldsEach s among parent [] []
  | cons {parent : Nat} {x : Child} {xs : List Child} {t : ElementTree} {ts : List ElementTree}
      (hp : s.parentOf x.id = some parent) (hx : x.name = t.name)
      (ht : Store.Holds s among x.id t) (hts : Store.HoldsEach s among parent xs ts) :
      Store.HoldsEach s among parent (x :: xs) (t :: ts)

end

namespace Store

variable {s s' : Store} {among among' : Nat → Prop}

mutual

/-- A store that has all these elements as they are holds the same tree. -/
theorem Holds.frame (hm : ∀ j, among j → among' j)
    (hs : ∀ j n, among j → s[j]? = some n → s'[j]? = some n) :
    ∀ {id : Nat} {t : ElementTree}, s.Holds among id t → s'.Holds among' id t
  | _, _, .intro hid hn ht hc => .intro (hm _ hid) (hs _ _ hid hn) ht (hc.frame hm hs)

theorem HoldsEach.frame (hm : ∀ j, among j → among' j)
    (hs : ∀ j n, among j → s[j]? = some n → s'[j]? = some n) :
    ∀ {parent : Nat} {xs : List Child} {ts : List ElementTree},
      s.HoldsEach among parent xs ts → s'.HoldsEach among' parent xs ts
  | _, _, _, .nil => .nil
  | _, _, _, @HoldsEach.cons _ _ _ x xs _ _ hp hx ht hts => by
    have hp' : s'.parentOf x.id = s.parentOf x.id := by
      cases ht with
      | intro hid hn _ _ => rw [parentOf, parentOf, hs _ _ hid hn, hn]
    exact .cons (hp'.trans hp) hx (ht.frame hm hs) (hts.frame hm hs)

end

mutual

/-- An element is the root of one tree. -/
theorem Holds.unique : ∀ {id : Nat} {t u : ElementTree}, s.Holds among id t →
    s.Holds among' id u → t = u
  | _, t, u, .intro _ hn ht hc, .intro _ hn' hu hc' => by
    obtain rfl := Option.some.inj (hn.symm.trans hn')
    have hb : t.blueprint = u.blueprint := ht.blueprint.symm.trans hu.blueprint
    have hv : t.values = u.values := ht.values.symm.trans hu.values
    have hk : t.counts = u.counts := ht.counts.symm.trans hu.counts
    have hts : t.children = u.children := hc.unique hc'
    cases t
    cases u
    simp_all

theorem HoldsEach.unique : ∀ {parent parent' : Nat} {xs : List Child} {ts us : List ElementTree},
    s.HoldsEach among parent xs ts → s.HoldsEach among' parent' xs us → ts = us
  | _, _, _, _, _, .nil, .nil => rfl
  | _, _, _, _, _, .cons _ _ ht hts, .cons _ _ hu hus => by rw [ht.unique hu, hts.unique hus]

end

end Store

end XmlBinding.Tree
