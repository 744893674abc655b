import XmlBinding.Binding.Derivation
import XmlBinding.Schema.Declarations
/-!
# Content models and the classes of their elements

The particles of a content model become the slots of a membership, in order and with effective
bounds. An element declared inside gets a class of its own, which is made when the element is met
for the first time and shared by every later use.
-/
namespace XmlBinding.Binding
open Schema Value

def compositorOf : Compositor → Tree.Compositor
  | .choice => .choice
  | .sequence | .all => .sequence

/-- The class of a top-level element. -/
def referredElement (name : String) : Build String := do
  match remembered (← get).elements name with
  | some className => return className
  | none => fail (.unknown .element name)

section
variable (element : ElementDeclaration → Build String)
  (group : String → Nat → MaxOccurs → Build Membership)

mutual

/-- Builds the membership of a group; `element` gives the class of an element declared inside and
`group` builds the membership of a group that is referred to. -/
def buildGroup (minimum : Nat) (maximum : MaxOccurs) : ModelGroup → Build Membership
  | ⟨compositor, particles⟩ => do
    return ⟨compositorOf compositor, minimum, maximum, ← buildSlots maximum particles⟩

/-- The slots of the particles that may occur at all. -/
def buildSlots (outer : MaxOccurs) : List Particle → Build (List MemberSlot)
  | [] => return []
  | ⟨minimum, maximum, term⟩ :: ps => do
    if maximum = .count 0 then buildSlots outer ps
    else
      let slot ← buildSlot minimum (maximum.mul outer) term
      return slot :: (← buildSlots outer ps)

def buildSlot (minimum : Nat) (maximum : MaxOccurs) : Term → Build MemberSlot
  | .element d => return .element d.name (← element d) maximum
  | .elementRef name => return .element name (← referredElement name) maximum
  | .group g => return .group (← buildGroup minimum maximum g)
  | .groupRef name => return .group (← group name minimum maximum)
  | .wildcard => return .wildcard maximum

end

end

section
variable (element : Option String → String → ElementDeclaration → Build String)
  (group : Option String → String → String → Nat → MaxOccurs → Build Membership)

/-- Slots of particles that come from several types. -/
def declaredSlots (owner : String) : List DeclaredParticle → Build (List MemberSlot)
  | [] => return []
  | p :: ps => do
    let slots ← buildSlots (element p.declaredIn owner) (group p.declaredIn owner) .one [p.particle]
    return slots ++ (← declaredSlots owner ps)

/-- The membership for what a chain of derivations contributed. A group that is all there is stands
for itself; otherwise a sequence goes around. -/
def buildMembership (owner : String) (particles : List DeclaredParticle) :
    Build (Option Membership) := do
  match particles.filter fun p => !p.particle.isProhibited with
  | [] => return none
  | [⟨⟨minimum, maximum, .group g⟩, declaredIn⟩] =>
    return some (← buildGroup (element declaredIn owner) (group declaredIn owner) minimum maximum g)
  | ps => return some ⟨.sequence, 1, .one, ← declaredSlots element group owner ps⟩

end

/-- Elements of any name, for content of any type. -/
def anyMembership : Membership := ⟨.sequence, 1, .one, [.wildcard .unbounded]⟩

def addClass (c : ElementClass) : Build Unit :=
  modify fun catalog => { catalog with classes := catalog.classes ++ [c] }

/-- The type an element is declared with, as far as it is a complex one. -/
def complexTypeOf? (model : Model) (className : String) :
    ElementType → Build (Option (Scope × ComplexType))
  | .named (.schema name) => do
    match model.complexType name with
    | some t => return some (← typeScope name, t)
    | none => return none
  | .complex t => return some (.ofClass className, t)
  | _ => return none

/-- What the text of an element is kept as whose type is not complex. -/
def simpleContent (model : Model) (className : String) : ElementType → Build FieldType
  | .named name => resolveTypeName (resolveNamed model) name
  | .simple t =>
    resolveSimpleType (resolveNamed model) ⟨className ++ "Type", none, some className⟩ t
  | _ => return .primitive .string

/-- A class takes the documentation of its named type if the element has none. -/
def documentationOf (model : Model) (d : ElementDeclaration) : Option String :=
  match d.documentation, d.type with
  | some text, _ => some text
  | none, .named (.schema name) => (model.complexType name).bind (·.documentation)
  | none, _ => none

/-- Builds the class of an element; `members` builds the membership of a class. -/
def buildClass (model : Model)
    (members : String → List DeclaredParticle → Build (Option Membership))
    (origin : Origin) (name : String) (d : ElementDeclaration) : Build Unit := do
  let make (draft : Draft) (membership : Option Membership) : ElementClass :=
    ⟨name, origin, d.name, documentationOf model d, draft.content, draft.fields, membership,
      draft.markers, !d.isAbstract⟩
  match d.type with
  | .any => addClass (make { content := some (.primitive .string) } (some anyMembership))
  | _ =>
    match ← complexTypeOf? model name d.type with
    | some (scope, t) =>
      let draft ← derive model scope t
      addClass (make draft (← members name draft.particles))
    | none =>
      addClass (make { content := some (← simpleContent model name d.type) } none)

/-- The class remembered for a local element. -/
def rememberedElement (c : Catalog) (declaredIn : Option String) (d : ElementDeclaration) :
    Option String :=
  match d.type, declaredIn with
  | .named t, _ => remembered c.typedElements (d.name, t.text)
  | _, some owner => remembered c.inlineElements (owner, d.name)
  | _, none => none

def rememberElement (declaredIn : Option String) (d : ElementDeclaration) (className : String) :
    Build Unit :=
  match d.type, declaredIn with
  | .named t, _ =>
    modify fun c => { c with typedElements := ((d.name, t.text), className) :: c.typedElements }
  | _, some owner =>
    modify fun c => { c with inlineElements := ((owner, d.name), className) :: c.inlineElements }
  | _, none => return ()

/-- Names the class of a local element, after the class of the declaring type if need be. -/
def reserveElement (declaredIn : Option String) (owner : String) (d : ElementDeclaration) :
    Build String := do
  let catalog ← get
  let declaring := declaredIn.bind (remembered catalog.complexTypes)
  let outer := declaring.elim owner (·.name)
  reserve d.name (some (outer ++ d.name))

section
variable (model : Model)

mutual

/-- The class of a local element. The groups being expanded stay so while the class is built. -/
def localElementWithin : Nat → List String → Option String → String → ElementDeclaration →
    Build String
  | 0, _, _, _, d => fail (.unsupported (.nesting .element d.name))
  | bound + 1, groups, declaredIn, owner, d => do
    match rememberedElement (← get) declaredIn d with
    | some className => return className
    | none =>
      let className ← reserveElement declaredIn owner d
      rememberElement declaredIn d className
      buildClass model
        (buildMembership (localElementWithin bound groups) (referredGroupWithin bound groups))
        .localElement className d
      return className

/-- The membership of a group that is referred to. -/
def referredGroupWithin : Nat → List String → Option String → String → String → Nat → MaxOccurs →
    Build Membership
  | 0, _, _, _, name, _, _ => fail (.unsupported (.nesting .group name))
  | bound + 1, groups, declaredIn, owner, name, minimum, maximum => do
    match model.group name with
    | none => fail (.unknown .group name)
    | some g =>
      if groups.contains name then fail (.circular .group name)
      else
        buildGroup (localElementWithin bound (name :: groups) declaredIn owner)
          (referredGroupWithin bound (name :: groups) declaredIn owner) minimum maximum g.group

end

end

/-- How deep references and local elements can be nested. On the way down no group is entered
twice, no remembered element is, and an element that is not remembered lies inside the last one. -/
def nestingBound (model : Model) : Nat :=
  let n := model.declarations
  (model.groups.length + n * (n + 1) + 1) * (n + 1)

/-- The membership of a class in which no group is being expanded yet. -/
def membershipOf (model : Model) (owner : String) (particles : List DeclaredParticle) :
    Build (Option Membership) :=
  buildMembership (localElementWithin model (nestingBound model) [])
    (referredGroupWithin model (nestingBound model) []) owner particles

end XmlBinding.Binding
