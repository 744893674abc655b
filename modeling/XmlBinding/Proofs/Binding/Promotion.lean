import XmlBinding.Proofs.Binding.Members

/-! # Plain enumerations become flags

An enumeration keeps its literals, and its members follow from them and from its form. Here it is
the members that are kept: they are given to the literals once, and when a plain enumeration
becomes flags, its members are dropped and the literals they stood for are given new ones. Both
ways lead to the same members, and to those of an enumeration that was made of flags at once.
-/
namespace XmlBinding.Binding
open Schema Text

/-- The members that literals are given, of which only so many fit into a set of flags. -/
def assignMembers (name : String) (literals : List Facet) :
    Form → Except BindingError (List Member)
  | .plain => .ok (illegalMember :: notSetMember ::
      literalMembers variantName id [illegalMember.name, notSetMember.name] 0 literals)
  | .flags =>
    if flagLimit < literals.length then .error (.tooManyFlags name literals.length)
    else .ok (emptyMember :: literalMembers flagName (Nat.pow 2) [emptyMember.name] 0 literals)

/-- An enumeration with its members instead of its literals. -/
structure Descriptor where
  name : String
  documentation : Option String
  owner : Option String
  form : Form
  members : List Member
deriving DecidableEq, Repr

/-- The literal that a member stands for, as it was declared. -/
def Member.facet? (m : Member) : Option Facet :=
  m.symbol.text?.map fun value => ⟨value, m.documentation⟩

namespace Descriptor

def assemble (form : Form) (name : String) (documentation owner : Option String)
    (literals : List Facet) : Except BindingError Descriptor := do
  return ⟨name, documentation, owner, form, ← assignMembers name literals form⟩

def create (form : Form) (name : String) (documentation owner : Option String)
    (facets : List Facet) : Except BindingError Descriptor :=
  assemble form name documentation owner (distinctLiterals facets)

/-- Gives new members to the literals of the old ones. -/
def promote (d : Descriptor) : Except BindingError Descriptor :=
  if d.form = .flags then .ok d
  else assemble .flags d.name d.documentation d.owner (d.members.filterMap Member.facet?)

end Descriptor

/-- A step that is taken `n` times, unless it fails. -/
def repeated {α : Type} (step : α → Except BindingError α) : Nat → α → Except BindingError α
  | 0, a => .ok a
  | n + 1, a => step a >>= repeated step n

/-- A step that leaves its own results alone may as well be taken once. -/
theorem repeated_succ {α : Type} {step : α → Except BindingError α}
    (h : ∀ {a b}, step a = .ok b → step b = .ok b) (n : Nat) (a : α) :
    repeated step (n + 1) a = step a := by
  rw [repeated]
  cases ha : step a with
  | error error => rfl
  | ok b =>
    have hb : repeated step n b = .ok b := by
      induction n with
      | zero => rfl
      | succ n ih => rw [repeated, h ha]; exact ih
    exact hb

/-- Literals are not lost when they become members. -/
theorem filterMap_facet?_literalMembers (convert : String → String) (number : Nat → Nat)
    (taken : List String) (i : Nat) (fs : List Facet) :
    (literalMembers convert number taken i fs).filterMap Member.facet? = fs := by
  induction fs generalizing taken i with
  | nil => rfl
  | cons f fs ih => exact congrArg (f :: ·) (ih _ _)

namespace Enumeration

def descriptor (e : Enumeration) : Descriptor :=
  ⟨e.name, e.documentation, e.owner, e.form, e.members⟩

/-- Sentinels stand for no literal. -/
theorem filterMap_facet?_members (e : Enumeration) :
    e.members.filterMap Member.facet? = e.literals := by
  rw [members]
  split
  · exact filterMap_facet?_literalMembers _ _ _ _ _
  · exact filterMap_facet?_literalMembers _ _ _ _ _

theorem create_plain (name : String) (documentation owner : Option String)
    (facets : List Facet) : Descriptor.create .plain name documentation owner facets =
      .ok (ofFacets name documentation owner facets).descriptor := rfl

/-- The members that follow from the literals are those that are given to them. -/
theorem map_descriptor_toFlags {e : Enumeration} (h : e.form ≠ .flags) :
    e.toFlags.map descriptor =
      Descriptor.assemble .flags e.name e.documentation e.owner e.literals := by
  rw [toFlags, if_neg h, Descriptor.assemble, assignMembers]
  split
  · rfl
  · rfl

theorem create_flags (name : String) (documentation owner : Option String)
    (facets : List Facet) : Descriptor.create .flags name documentation owner facets =
      (ofFacets name documentation owner facets).toFlags.map descriptor := by
  have hplain : (ofFacets name documentation owner facets).form ≠ .flags := nofun
  exact (map_descriptor_toFlags hplain).symm

theorem promote_descriptor (e : Enumeration) : e.descriptor.promote = e.toFlags.map descriptor := by
  rw [Descriptor.promote]
  split
  · next h =>
    have hflags : e.form = .flags := h
    rw [toFlags, if_pos hflags]
    rfl
  · next h =>
    have hliterals : e.descriptor.members.filterMap Member.facet? = e.literals :=
      e.filterMap_facet?_members
    rw [hliterals, map_descriptor_toFlags h]
    rfl

theorem repeated_promote_descriptor (n : Nat) (e : Enumeration) :
    repeated Descriptor.promote n e.descriptor = (repeated toFlags n e).map descriptor := by
  induction n generalizing e with
  | zero => rfl
  | succ n ih =>
    rw [repeated, repeated, promote_descriptor]
    cases e.toFlags with
    | error error => rfl
    | ok f => exact ih f

/-- A plain enumeration that becomes flags, once or again and again, is what it would be if it had
been made of flags, and fails where that does. -/
theorem promotions_eq_create (name : String) (documentation owner : Option String)
    (facets : List Facet) (n : Nat) :
    Descriptor.create .plain name documentation owner facets =
        .ok (ofFacets name documentation owner facets).descriptor ∧
      repeated Descriptor.promote (n + 1) (ofFacets name documentation owner facets).descriptor =
        Descriptor.create .flags name documentation owner facets ∧
      (repeated toFlags (n + 1) (ofFacets name documentation owner facets)).map descriptor =
        Descriptor.create .flags name documentation owner facets ∧
      ∀ count, (ofFacets name documentation owner facets).descriptor.promote =
          .error (.tooManyFlags name count) ↔
        Descriptor.create .flags name documentation owner facets =
          .error (.tooManyFlags name count) := by
  have hrepeated : (repeated toFlags (n + 1) (ofFacets name documentation owner facets)).map
      descriptor = Descriptor.create .flags name documentation owner facets := by
    rw [repeated_succ toFlags_toFlags, create_flags]
  refine ⟨create_plain _ _ _ _, ?_, hrepeated, fun count => ?_⟩
  · rw [repeated_promote_descriptor, hrepeated]
  · rw [promote_descriptor, create_flags]

/-- A literal that is called like the empty set is named apart from it when it gets there. -/
example : (ofFacets "Access" none none [⟨"read", none⟩, ⟨"none", none⟩]).descriptor.promote =
    .ok ⟨"Access", none, none, .flags, [emptyMember, ⟨.literal "read", "READ", 1, none⟩,
      ⟨.literal "none", "NONE2", 2, none⟩]⟩ := by cbv

end Enumeration

end XmlBinding.Binding
