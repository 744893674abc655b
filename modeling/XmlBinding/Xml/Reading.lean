import XmlBinding.Xml.Document
import XmlBinding.Xml.Reference
/-!
# From tokens to a document

Tokens are consumed with a stack of the elements still open. Prefixes are resolved when a start tag
has been read, entities where they are referred to: their text is read as content of its own, in
which at most ten entities may lie inside each other.
-/
namespace XmlBinding.Xml

/-- The namespace of namespace declarations. -/
def xmlnsUri : String := "http://www.w3.org/2000/xmlns/"

/-- How deep entities may nest. -/
def entityLevels : Nat := 10

/-- How many references may be made in all inside one outermost entity. -/
def nestedReferences : Nat := 255

/-- Counts a reference made when `levels` more levels are allowed. -/
def countReference (levels count : Nat) : Option Nat :=
  if levels = entityLevels then some count
  else if count = nestedReferences then none
  else some (count + 1)

/-- Leaving the outermost entity starts the count afresh. -/
def countAfter (levels count : Nat) : Nat :=
  if levels = entityLevels then 0 else count

def findEntity (entities : List Entity) (name : String) : Option (List Char) :=
  (entities.find? (·.name == name)).map (·.value)

/-- The value of an attribute, given what entities stand for. Inside an entity a character by
reference counts as if it were written, and no `<` may stand. -/
def attributeOfItems (inside : Bool) (entity : String → Nat → Option (List Char × Nat)) :
    List TextItem → Nat → Option (List Char × Nat)
  | [], count => some ([], count)
  | item :: items, count => do
    let (chars, count) ← match item with
      | .char c =>
        let next := match items with
          | .char d :: _ => some d
          | _ => none
        if inside && c == '<' then none else some ((attributeChar c next).toList, count)
      | .reference c =>
        if !inside then some ([c], count)
        else if c == '<' then none
        else some ((attributeChar c none).toList, count)
      | .entity name => entity name count
    let (rest, count) ← attributeOfItems inside entity items count
    some (chars ++ rest, count)

/-- The normalized value of an attribute and the number of references made. -/
def attributeValue (entities : List Entity) : Nat → List Char → Nat → Option (List Char × Nat)
  | 0, raw, count => do attributeOfItems true (fun _ _ => none) (← textItems raw) count
  | levels + 1, raw, count => do
    let entity (name : String) (count : Nat) : Option (List Char × Nat) := do
      let value ← findEntity entities name
      let count ← countReference (levels + 1) count
      let (chars, count) ← attributeValue entities levels value count
      some (chars, countAfter (levels + 1) count)
    attributeOfItems (levels + 1 != entityLevels) entity (← textItems raw) count

/-- What a start tag declares: prefixes, and attributes in order. -/
structure Declared where
  bindings : Scope
  attributes : List (String × String × String)

/-- Adds an attribute, which may be a declaration of a prefix. The reserved prefixes and namespaces
keep to each other, and no prefix is declared twice. -/
def Declared.add (d : Declared) (pfx localName value : String) : Option Declared :=
  if pfx == "xmlns" then
    if value == xmlnsUri || (localName == "xml") != (value == xmlUri)
      || d.bindings.any (·.1 == some localName) then none
    else if value == xmlUri then some d
    else some { d with bindings := d.bindings ++ [(some localName, value)] }
  else if localName == "xmlns" then
    if value == xmlUri || value == xmlnsUri || d.bindings.any (·.1 == none) then none
    else some { d with bindings := d.bindings ++ [(none, value)] }
  else some { d with attributes := d.attributes ++ [(pfx, localName, value)] }

/-- Bindings of an element: its own, then those around it that it does not hide. -/
def Scope.inner (own outer : Scope) : Scope :=
  own ++ outer.filter fun b => !own.any (·.1 == b.1)

/-- An unprefixed attribute is in no namespace, whatever the default one is. -/
def attributeName (scope : Scope) (pfx localName : String) : Option ExpandedName :=
  if pfx == "xml" then some ⟨some xmlUri, localName⟩
  else if pfx == "" then some ⟨none, localName⟩
  else (scope.lookup (some pfx)).map fun uri => ⟨some uri, localName⟩

def elementName (scope : Scope) (pfx localName : String) : Option ExpandedName :=
  if pfx == "" then some ⟨scope.lookup none, localName⟩
  else (scope.lookup (some pfx)).map fun uri => ⟨some uri, localName⟩

/-- Attributes under their expanded names, which must differ. -/
def resolveAttributes (scope : Scope) :
    List (String × String × String) → List Attribute → Option (List Attribute)
  | [], done => some done.reverse
  | (pfx, localName, value) :: rest, done => do
    let name ← attributeName scope pfx localName
    if done.any (·.name == name) then none
    resolveAttributes scope rest (⟨name, value⟩ :: done)

/-- An element still open, its content last piece first. -/
structure Frame where
  pfx : String
  name : ExpandedName
  attributes : List Attribute
  scope : Scope
  content : List Content

def Frame.element (f : Frame) : Element :=
  ⟨f.name, f.attributes, f.scope, f.content.reverse⟩

/-- The elements still open, innermost first, and what stands outside of them. -/
structure Builder where
  opened : List Frame := []
  outside : List Content := []
  count : Nat := 0

/-- Adjacent texts are one text. -/
def addContent : List Content → Content → List Content
  | .text s :: before, .text t => .text (s ++ t) :: before
  | content, c => c :: content

def Builder.add (b : Builder) (c : Content) : Builder :=
  match b.opened with
  | [] => { b with outside := addContent b.outside c }
  | f :: fs => { b with opened := { f with content := addContent f.content c } :: fs }

def Builder.addRun (b : Builder) (run : List Char) : Builder :=
  if run.isEmpty then b else b.add (.text (String.ofList run.reverse))

def Builder.scope (b : Builder) : Scope :=
  (b.opened.head?.map (·.scope)).getD []

/-- Opens the element of a start tag; `levels` as in `attributeValue`. -/
def Builder.openTag (b : Builder) (entities : List Entity) (levels : Nat) (pfx localName : String)
    (attributes : List RawAttribute) : Option Builder := do
  if pfx == "xmlns" then none
  let step (s : Declared × Nat) (a : RawAttribute) : Option (Declared × Nat) := do
    let (value, count) ← attributeValue entities levels a.value s.2
    let d ← s.1.add a.pfx a.localName (String.ofList value)
    some (d, count)
  let (declared, count) ← attributes.foldlM step (⟨[], []⟩, b.count)
  let scope := declared.bindings.inner b.scope
  let name ← elementName scope pfx localName
  let attributes ← resolveAttributes scope declared.attributes []
  some { b with opened := ⟨pfx, name, attributes, scope, []⟩ :: b.opened, count }

/-- Closes the innermost element. -/
def Builder.closeTag (b : Builder) : Option Builder :=
  match b.opened with
  | [] => none
  | f :: fs => some (Builder.add { b with opened := fs } (.element f.element))

/-- An end tag repeats the name of the innermost element as it was written. -/
def Builder.closeNamed (b : Builder) (pfx localName : String) : Option Builder :=
  if b.opened.head?.any fun f => f.pfx == pfx && f.name.localName == localName then b.closeTag
  else none

/-- Adds character data, given how entities add their content. `run` is the text so far, last
character first; the character after a character by reference is taken as it is (`asIs`). -/
def Builder.addItems (inside : Bool) (entity : String → Builder → Option Builder) :
    List TextItem → List Char → Bool → Builder → Option Builder
  | [], run, _, b => some (b.addRun run)
  | item :: items, run, asIs, b =>
    match item with
    | .char c =>
      let run := if asIs then c :: run else pushText run c items.isEmpty
      addItems inside entity items run false b
    | .reference c =>
      if inside then addItems inside entity items (pushText run c items.isEmpty) asIs b
      else addItems inside entity items (c :: run) true b
    | .entity name => do
      let b ← entity name (b.addRun run)
      addItems inside entity items [] false b

/-- Adds tokens, given how entities add their content. In the text of an entity nothing may be
closed before something was opened (`started`). -/
def Builder.addTokens (entities : List Entity) (levels : Nat)
    (entity : String → Builder → Option Builder) :
    List Token → Bool → Builder → Option Builder
  | [], _, b => some b
  | t :: ts, started, b => do
    let b ← match t with
      | .start pfx localName attributes empty => do
        let b ← b.openTag entities levels pfx localName attributes
        if empty then b.closeTag else some b
      | .close pfx localName => if started then b.closeNamed pfx localName else none
      | .text raw => do
        b.addItems (levels != entityLevels) entity (← textItems raw) [] false
      | .literal raw => some (b.add (.text (String.ofList (literalRun [] raw))))
      | .comment value => some (b.add (.comment value))
      | .instruction target value => some (b.add (.instruction target value))
    let opens := match t with
      | .start .. => true
      | _ => false
    addTokens entities levels entity ts (started || opens) b

/-- Adds the content of an entity of which `levels` more may lie inside each other. -/
def Builder.addEntity (entities : List Entity) : Nat → String → Builder → Option Builder
  | 0, _, _ => none
  | levels + 1, name, b => do
    let value ← findEntity entities name
    let count ← countReference (levels + 1) b.count
    let (tokens, _) ← takeTokens 1 value
    let b ← Builder.addTokens entities levels (Builder.addEntity entities levels) tokens false
      { b with count }
    some { b with count := countAfter (levels + 1) b.count }

/-- The first element, and what follows it up to its end tag. -/
def takeRoot (s : List Char) : Option (List Token × List Char) := do
  let (root, rest) ← takeStart (← expect ['<'] s)
  let (tokens, rest) ← takeTokens (root.depthAfter 0) rest
  some (root :: tokens, rest)

/-- The document element of a text without its prolog. -/
def readRoot (entities : List Entity) (s : List Char) : Option Element := do
  let (tokens, rest) ← takeRoot s
  if !(← skipMisc rest).isEmpty then none
  let b ← Builder.addTokens entities entityLevels (Builder.addEntity entities entityLevels) tokens
    false {}
  if !b.opened.isEmpty then none
  (b.outside.reverse.filterMap Content.element?).head?

/-- The document element of a document. -/
def readDocument (allowDoctype : Bool) (text : String) : Except ReadError Element := do
  let (entities, rest) ← takeProlog allowDoctype text.toList
  match readRoot entities rest with
  | some e => .ok e
  | none => .error .malformed

end XmlBinding.Xml
