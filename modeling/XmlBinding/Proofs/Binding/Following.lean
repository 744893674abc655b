import XmlBinding.Proofs.Binding.Meanings

/-! # Following definitions

What a simple type comes down to is told by its definition and those that it leads to, one after the
other, until a built-in type or a restriction with literals is reached, or a definition that is no
good. Nothing is remembered on the way but the names that are being followed.
-/
namespace XmlBinding.Binding
open Schema Value

/-- Why definitions cannot be followed to an end. Literals are told by the top-level type they are
stated in. -/
inductive Failure where
  | unsupported (what : Unsupported)
  | unknown (name : String)
  | circular (name : String)
  | tooManyFlags (site : Option String) (count : Nat)
deriving DecidableEq

/-- The error that reports a failure, given what the enumerations of literals are called. -/
def Failure.toError (called : Option String → String) : Failure → BindingError
  | .unsupported what => .unsupported what
  | .unknown name => .unknown .simpleType name
  | .circular name => .circular .simpleType name
  | .tooManyFlags site count => .tooManyFlags (called site) count

/-- Where definitions end. Literals are those of the restriction in a top-level type, or in the type
at hand, and may be the items of a list. -/
inductive Ending where
  | primitive (p : Primitive)
  | literals (site : Option String) (documentation : Option String) (facets : List Facet)
      (isList : Bool)
deriving DecidableEq

namespace Ending

def meaning : Ending → Meaning
  | .primitive p => .primitive p
  | .literals _ documentation facets isList => .enumeration documentation facets isList

def site? : Ending → Option String
  | .primitive _ => none
  | .literals site _ _ _ => site

/-- Whether literals are the items of a list. -/
def isList : Ending → Bool
  | .primitive _ => false
  | .literals _ _ _ isList => isList

end Ending

/-- A definition ends, or leads to a failure. -/
abbrev Outcome := Except Failure Ending

/-- A list of what definitions come down to. Items must be literals, and no more than fit. -/
def Outcome.listed : Outcome → Outcome
  | .error f => .error f
  | .ok (.primitive _) => .error (.unsupported .listOfOther)
  | .ok (.literals site documentation facets _) =>
    if flagLimit < (distinctLiterals facets).length then
      .error (.tooManyFlags site (distinctLiterals facets).length)
    else .ok (.literals site documentation facets true)

/-- What is wrong with the facets of a restriction. -/
def facetFault? (r : Restriction) : Option Unsupported :=
  if !r.enumerations.isEmpty && !r.patterns.isEmpty then some .patternBesideEnumeration
  else if 1 < r.patterns.length then some .severalPatterns
  else none

theorem checkFacets_eq (r : Restriction) : checkFacets r.enumerations r.patterns =
    match facetFault? r with
    | some what => .error (.unsupported what)
    | none => .ok () := by
  unfold checkFacets facetFault?
  split
  · rfl
  · split <;> rfl

/-- Why a name is not that of a simple type. -/
def undefinedFailure (model : Model) (name : String) : Failure :=
  if (model.complexType name).isSome then .unsupported (.complexAsSimple name) else .unknown name

theorem definedSimpleType_eq (model : Model) (name : String) (called : Option String → String) :
    definedSimpleType model name = match model.simpleType name with
      | some t => .ok t
      | none => .error ((undefinedFailure model name).toError called) := by
  unfold definedSimpleType undefinedFailure
  cases model.simpleType name with
  | some t => rfl
  | none => cases h : (model.complexType name).isSome <;> simp [Failure.toError]

/-- Definitions are followed from a reference that stands in the definition of the top-level type
`here`, or in none, while the names `active` are being followed. -/
inductive LeadsTo (model : Model) :
    List String → Option String → SimpleTypeRef → Outcome → Prop
  | builtin {active : List String} {here : Option String} (name : String) :
      LeadsTo model active here (.named (.builtin name)) (.ok (.primitive (.ofBuiltin name)))
  | undefined {active : List String} {here : Option String} {name : String}
      (ht : model.simpleType name = none) :
      LeadsTo model active here (.named (.schema name)) (.error (undefinedFailure model name))
  | circular {active : List String} {here : Option String} {name : String} {t : SimpleType}
      (ht : model.simpleType name = some t) (hactive : name ∈ active) :
      LeadsTo model active here (.named (.schema name)) (.error (.circular name))
  | schema {active : List String} {here : Option String} {name : String} {t : SimpleType}
      {o : Outcome} (ht : model.simpleType name = some t) (hactive : name ∉ active)
      (h : LeadsTo model (name :: active) (some name) (.inline t) o) :
      LeadsTo model active here (.named (.schema name)) o
  | fault {active : List String} {here : Option String} {t : SimpleType} {r : Restriction}
      {what : Unsupported} (ht : t.variety = .restriction r) (hfault : facetFault? r = some what) :
      LeadsTo model active here (.inline t) (.error (.unsupported what))
  | literals {active : List String} {here : Option String} {t : SimpleType} {r : Restriction}
      (ht : t.variety = .restriction r) (hfault : facetFault? r = none)
      (hr : r.enumerations.isEmpty = false) :
      LeadsTo model active here (.inline t)
        (.ok (.literals here t.documentation r.enumerations false))
  | base {active : List String} {here : Option String} {t : SimpleType} {r : Restriction}
      {o : Outcome} (ht : t.variety = .restriction r) (hfault : facetFault? r = none)
      (hr : r.enumerations.isEmpty = true) (h : LeadsTo model active here r.base o) :
      LeadsTo model active here (.inline t) o
  | list {active : List String} {here : Option String} {t : SimpleType} {item : SimpleTypeRef}
      {o : Outcome} (ht : t.variety = .list item) (h : LeadsTo model active here item o) :
      LeadsTo model active here (.inline t) o.listed
  | emptyUnion {active : List String} {here : Option String} {t : SimpleType}
      (ht : t.variety = .union []) :
      LeadsTo model active here (.inline t) (.error (.unsupported .emptyUnion))
  | union {active : List String} {here : Option String} {t : SimpleType} {first : SimpleTypeRef}
      {others : List SimpleTypeRef} {o : Outcome} (ht : t.variety = .union (first :: others))
      (h : LeadsTo model active here first o) : LeadsTo model active here (.inline t) o

section
variable {model : Model} {active : List String} {here : Option String} {ref : SimpleTypeRef}

/-- Definitions are followed in one way. -/
theorem LeadsTo.unique {o o' : Outcome} (h : LeadsTo model active here ref o)
    (h' : LeadsTo model active here ref o') : o = o' := by
  induction h generalizing o' with
  | builtin name =>
    cases h'
    rfl
  | undefined ht =>
    cases h' with
    | undefined _ => rfl
    | circular ht' _ => simp [ht] at ht'
    | schema ht' _ _ => simp [ht] at ht'
  | circular ht hactive =>
    cases h' with
    | undefined ht' => simp [ht] at ht'
    | circular _ _ => rfl
    | schema _ hnew _ => exact absurd hactive hnew
  | schema ht hnew _ ih =>
    cases h' with
    | undefined ht' => simp [ht] at ht'
    | circular _ hactive => exact absurd hactive hnew
    | schema ht' _ h' =>
      obtain rfl := Option.some.inj (ht.symm.trans ht')
      exact ih h'
  | fault ht hfault => cases h' <;> simp_all
  | literals ht hfault hr => cases h' <;> simp_all
  | base ht hfault hr _ ih =>
    cases h' with
    | base ht' _ _ h' =>
      obtain rfl := Variety.restriction.inj (ht.symm.trans ht')
      exact ih h'
    | _ => simp_all
  | list ht _ ih =>
    cases h' with
    | list ht' h' =>
      obtain rfl := Variety.list.inj (ht.symm.trans ht')
      rw [ih h']
    | _ => simp_all
  | emptyUnion ht => cases h' <;> simp_all
  | union ht _ ih =>
    cases h' with
    | union ht' h' =>
      obtain ⟨rfl, -⟩ := List.cons.inj (Variety.union.inj (ht.symm.trans ht'))
      exact ih h'
    | _ => simp_all

/-- Literals are those of a top-level type. -/
def Outcome.Sited : Outcome → Prop
  | .error (.tooManyFlags site _) => site.isSome
  | .error _ => True
  | .ok (.primitive _) => True
  | .ok (.literals site _ _ _) => site.isSome

theorem Outcome.Sited.listed {o : Outcome} (h : o.Sited) : o.listed.Sited := by
  match o with
  | .error f => exact h
  | .ok (.primitive p) => trivial
  | .ok (.literals site documentation facets isList) =>
    rw [Outcome.listed]
    split <;> exact h

theorem sited_undefinedFailure (name : String) :
    Outcome.Sited (.error (undefinedFailure model name)) := by
  unfold undefinedFailure
  split <;> trivial

/-- Only a type at hand that has no name has literals of its own. -/
theorem LeadsTo.sited {o : Outcome} (h : LeadsTo model active here ref o)
    (hsite : here.isSome ∨ ∃ name, ref = .named name) : o.Sited := by
  induction h with
  | builtin name => trivial
  | undefined _ => exact sited_undefinedFailure _
  | circular _ _ => trivial
  | schema _ _ _ ih => exact ih (.inl rfl)
  | fault _ _ => trivial
  | literals _ _ _ => exact hsite.resolve_right (by simp)
  | base _ _ _ _ ih => exact ih (.inl (hsite.resolve_right (by simp)))
  | list _ _ ih => exact (ih (.inl (hsite.resolve_right (by simp)))).listed
  | emptyUnion _ => trivial
  | union _ _ ih => exact ih (.inl (hsite.resolve_right (by simp)))

/-- What else is called somehow is of no account then. -/
theorem toError_of_sited {f : Failure} (h : Outcome.Sited (.error f))
    {called called' : Option String → String}
    (hcalled : ∀ name, called (some name) = called' (some name)) :
    f.toError called = f.toError called' := by
  cases f with
  | tooManyFlags site count =>
    obtain ⟨name, rfl⟩ := Option.isSome_iff_exists.mp h
    exact congrArg (BindingError.tooManyFlags · count) (hcalled name)
  | unsupported what => rfl
  | unknown name => rfl
  | circular name => rfl

/-! ## Whose literals they are -/

/-- The literals that definitions state before they lead to another name. There is one way to them,
so a top-level type states the literals of one restriction at most. -/
inductive States : SimpleTypeRef → Option String → List Facet → Prop
  | literals {t : SimpleType} {r : Restriction} (ht : t.variety = .restriction r)
      (hr : r.enumerations.isEmpty = false) : States (.inline t) t.documentation r.enumerations
  | base {t : SimpleType} {r : Restriction} {documentation : Option String} {facets : List Facet}
      (ht : t.variety = .restriction r) (hr : r.enumerations.isEmpty = true)
      (h : States r.base documentation facets) : States (.inline t) documentation facets
  | list {t : SimpleType} {item : SimpleTypeRef} {documentation : Option String}
      {facets : List Facet} (ht : t.variety = .list item) (h : States item documentation facets) :
      States (.inline t) documentation facets
  | union {t : SimpleType} {first : SimpleTypeRef} {others : List SimpleTypeRef}
      {documentation : Option String} {facets : List Facet}
      (ht : t.variety = .union (first :: others)) (h : States first documentation facets) :
      States (.inline t) documentation facets

theorem States.unique {documentation documentation' : Option String} {facets facets' : List Facet}
    (h : States ref documentation facets) (h' : States ref documentation' facets') :
    documentation = documentation' ∧ facets = facets' := by
  induction h with
  | literals ht hr => cases h' <;> simp_all
  | base ht hr _ ih =>
    cases h' with
    | base ht' _ h' =>
      obtain rfl := Variety.restriction.inj (ht.symm.trans ht')
      exact ih h'
    | _ => simp_all
  | list ht _ ih =>
    cases h' with
    | list ht' h' =>
      obtain rfl := Variety.list.inj (ht.symm.trans ht')
      exact ih h'
    | _ => simp_all
  | union ht _ ih =>
    cases h' with
    | union ht' h' =>
      obtain ⟨rfl, -⟩ := List.cons.inj (Variety.union.inj (ht.symm.trans ht'))
      exact ih h'
    | _ => simp_all

/-- A site states these literals, as the type at hand or as a top-level type. -/
def StatedAt (model : Model) (here : Option String) (ref : SimpleTypeRef) (site : Option String)
    (documentation : Option String) (facets : List Facet) : Prop :=
  site = here ∧ States ref documentation facets ∨
    ∃ name t, site = some name ∧ model.simpleType name = some t ∧
      States (.inline t) documentation facets

theorem StatedAt.within {ref' : SimpleTypeRef} {site documentation : Option String}
    {facets : List Facet} (h : StatedAt model here ref site documentation facets)
    (hstates : States ref documentation facets → States ref' documentation facets) :
    StatedAt model here ref' site documentation facets :=
  h.imp_left fun ⟨hsite, h⟩ => ⟨hsite, hstates h⟩

theorem LeadsTo.statedAt {site documentation : Option String} {facets : List Facet} {isList : Bool}
    (h : LeadsTo model active here ref (.ok (.literals site documentation facets isList))) :
    StatedAt model here ref site documentation facets := by
  generalize ho : (Except.ok (.literals site documentation facets isList) : Outcome) = o at h
  induction h generalizing isList with
  | builtin _ => cases ho
  | undefined _ => cases ho
  | circular _ _ => cases ho
  | schema ht _ _ ih =>
    rcases ih ho with ⟨hsite, h⟩ | h
    · exact .inr ⟨_, _, hsite, ht, h⟩
    · exact .inr h
  | fault _ _ => cases ho
  | literals ht _ hr =>
    cases ho
    exact .inl ⟨rfl, .literals ht hr⟩
  | base ht _ hr _ ih => exact (ih ho).within (.base ht hr)
  | @list _ _ _ _ o ht _ ih =>
    match o with
    | .error f => cases ho
    | .ok (.primitive p) => cases ho
    | .ok (.literals site documentation facets isList) =>
      rw [Outcome.listed] at ho
      split at ho
      · cases ho
      · cases ho
        exact (ih rfl).within (.list ht)
  | emptyUnion _ => cases ho
  | union ht _ ih => exact (ih ho).within (.union ht)

/-- Literals that are told by one top-level type are those of one restriction. -/
theorem LeadsTo.literals_unique {name name' : TypeName} {site : Option String}
    {documentation documentation' : Option String} {facets facets' : List Facet}
    {isList isList' : Bool}
    (h : LeadsTo model active here (.named name)
      (.ok (.literals site documentation facets isList)))
    (h' : LeadsTo model active here (.named name')
      (.ok (.literals site documentation' facets' isList'))) :
    documentation = documentation' ∧ facets = facets' := by
  rcases h.statedAt with ⟨-, hstates⟩ | ⟨n, t, rfl, ht, hstates⟩
  · cases hstates
  · rcases h'.statedAt with ⟨-, hstates'⟩ | ⟨n', t', hn, ht', hstates'⟩
    · cases hstates'
    · obtain rfl := Option.some.inj hn
      obtain rfl := Option.some.inj (ht.symm.trans ht')
      exact hstates.unique hstates'

end

end XmlBinding.Binding
