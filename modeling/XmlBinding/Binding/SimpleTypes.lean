import XmlBinding.Binding.Catalog
/-!
# What simple types are kept as

An enumerating restriction becomes an enumeration, any other restriction takes after its base, a
union after its first member, and a list makes flags of the enumeration of its items. Definitions
are followed by name; one that is being followed already is circular.
-/
namespace XmlBinding.Binding
open Schema Value

/-- Where an enumeration made on the way gets its name from, and whose it is. -/
structure Target where
  preferred : String
  alternative : Option String
  owner : Option String
deriving DecidableEq, Repr

def Target.shared (name : String) : Target := ⟨name, none, none⟩

def checkFacets (enumerations : List Facet) (patterns : List String) :
    Except BindingError Unit :=
  if !enumerations.isEmpty && !patterns.isEmpty then
    .error (.unsupported .patternBesideEnumeration)
  else if 1 < patterns.length then .error (.unsupported .severalPatterns)
  else .ok ()

/-- Makes the enumeration of a restriction. -/
def enumerate (target : Target) (documentation : Option String) (facets : List Facet) :
    Build FieldType := do
  let name ← reserve target.preferred target.alternative
  addEnumeration (.ofFacets name documentation target.owner facets)

/-- A list is kept as the flags of its items. -/
def listOf : FieldType → Build FieldType
  | .primitive _ => fail (.unsupported .listOfOther)
  | .enumeration place => do
    promote place
    return .enumeration place

section
variable (named : String → Build FieldType) (target : Target)

def resolveTypeName : TypeName → Build FieldType
  | .builtin name => return .primitive (.ofBuiltin name)
  | .schema name => named name

mutual

/-- Follows a definition; `named` follows references to the schema's own types. -/
def resolveSimpleType : SimpleType → Build FieldType
  | ⟨_, documentation, variety⟩ => resolveVariety documentation variety

def resolveVariety (documentation : Option String) : Variety → Build FieldType
  | .restriction r => resolveRestriction documentation r
  | .list item => do listOf (← resolveRef item)
  | .union [] => fail (.unsupported .emptyUnion)
  | .union (first :: _) => resolveRef first

def resolveRef : SimpleTypeRef → Build FieldType
  | .named name => resolveTypeName named name
  | .inline t => resolveSimpleType t

def resolveRestriction (documentation : Option String) : Restriction → Build FieldType
  | ⟨base, enumerations, patterns, _⟩ => do
    checkFacets enumerations patterns
    if enumerations.isEmpty then resolveRef base
    else enumerate target documentation enumerations

end

end

/-- The definition of a simple type. -/
def definedSimpleType (model : Model) (name : String) : Except BindingError SimpleType :=
  match model.simpleType name with
  | some t => .ok t
  | none =>
    if (model.complexType name).isSome then .error (.unsupported (.complexAsSimple name))
    else .error (.unknown .simpleType name)

/-- What a top-level simple type is kept as; `active` are the definitions being followed. No more
definitions can be followed at once than there are, so the bound is never reached. -/
def resolveNamedWithin (model : Model) : Nat → List String → String → Build FieldType
  | 0, _, name => fail (.unsupported (.nesting .simpleType name))
  | bound + 1, active, name => do
    match remembered (← get).simpleTypes name with
    | some t => return t
    | none =>
      let definition ← definedSimpleType model name
      if active.contains name then fail (.circular .simpleType name)
      else
        let t ← resolveSimpleType (resolveNamedWithin model bound (name :: active))
          (.shared name) definition
        modify fun c => { c with simpleTypes := (name, t) :: c.simpleTypes }
        return t

def resolveNamed (model : Model) (name : String) : Build FieldType :=
  resolveNamedWithin model (model.simpleTypes.length + 1) [] name

end XmlBinding.Binding
