import XmlBinding.Xml.Token
/-!
# What stands before the first element

A byte order mark, a declaration, comments and instructions, and a document type definition. Of the
definition only the entities with a value of their own are kept; it may be forbidden altogether.
-/
namespace XmlBinding.Xml

inductive ReadError where
  | malformed
  | documentType
deriving DecidableEq, Repr

def ReadError.message : ReadError → String
  | .malformed => "the document is not well-formed"
  | .documentType => "XML with DTD detected"

/-- A named replacement text as it was written. -/
structure Entity where
  name : String
  value : List Char
deriving DecidableEq, Repr

/-- Blanks between the parts of a declaration, which only its end may follow directly. -/
def declarationSpaces (s : List Char) : Option (List Char) :=
  match s with
  | [] => some []
  | c :: r =>
    if isSpace c then some (skipSpaces r)
    else if "?>".toList.isPrefixOf s then some s
    else none

/-- A part of the declaration, if it is there. -/
def declarationPart (name : String) (s : List Char) : Option (List Char) :=
  if name.toList.isPrefixOf s then (takeAttribute s).map (·.2) else some s

/-- What follows `<?xml` in a declaration. -/
def skipDeclaration (s : List Char) : Option (List Char) := do
  let s ← declarationSpaces s
  if !"version".toList.isPrefixOf s then none
  let s ← declarationSpaces (← declarationPart "version" s)
  let s ← if "encoding".toList.isPrefixOf s then
      declarationSpaces (← declarationPart "encoding" s)
    else some s
  let s ← declarationPart "standalone" s
  expect "?>".toList (skipSpaces s)

/-- A comment or an instruction, if one stands here. -/
def takeMisc? (s : List Char) : Option (Option (List Char)) :=
  if let some r := expect "<!--".toList s then (takeComment r).map (some ·.2)
  else if let some r := expect "<?".toList s then (takeInstruction r).map (some ·.2)
  else some none

theorem length_of_takeMisc {s r : List Char} (h : takeMisc? s = some (some r)) :
    r.length < s.length := by
  unfold takeMisc? at h
  split at h
  · simp only [Option.map_eq_some_iff, Option.some.injEq, Prod.exists] at h
    obtain ⟨_, _, hr, rfl⟩ := h
    have := length_takeComment_le hr
    have := length_of_expect ‹_›
    simp at this
    omega
  · split at h
    · simp only [Option.map_eq_some_iff, Option.some.injEq, Prod.exists] at h
      obtain ⟨_, _, hr, rfl⟩ := h
      have := length_takeInstruction_le hr
      have := length_of_expect ‹_›
      simp at this
      omega
    · cases h

/-- Comments and instructions with the blanks around them. -/
def skipMisc (s : List Char) : Option (List Char) :=
  match h : takeMisc? (skipSpaces s) with
  | none => none
  | some none => some (skipSpaces s)
  | some (some r) =>
    have := Nat.lt_of_lt_of_le (length_of_takeMisc h) (length_skipSpaces_le s)
    skipMisc r
termination_by s.length

/-- At least one blank. -/
def takeSpaces : List Char → Option (List Char)
  | [] => none
  | c :: r => if isSpace c then some (skipSpaces r) else none

/-- A quoted text without a look at its characters. -/
def takeQuoted (s : List Char) : Option (List Char × List Char) := do
  let (quote, rest) ← takeQuote s
  let value := rest.takeWhile (· != quote)
  let rest ← expect [quote] (rest.drop value.length)
  some (value, rest)

/-- A reference to another file, which is not followed. -/
def skipExternal (s : List Char) : Option (Option (List Char)) :=
  if let some r := expect "SYSTEM".toList s then do
    let (_, r) ← takeQuoted (← takeSpaces r)
    some (some r)
  else if let some r := expect "PUBLIC".toList s then do
    let (_, r) ← takeQuoted (← takeSpaces r)
    let (_, r) ← takeQuoted (← takeSpaces r)
    some (some r)
  else some none

/-- The value of an entity, absent if it lies in another file. -/
def takeEntityValue (general : Bool) (s : List Char) : Option (Option (List Char) × List Char) := do
  if s.head? == some '"' || s.head? == some '\'' then
    let (value, r) ← takeQuoted s
    some (some value, r)
  else
    let r ← (← skipExternal s)
    match general, expect "NDATA".toList (skipSpaces r) with
    | true, some r => do
      let (_, r) ← takeName (← takeSpaces r)
      some (none, r)
    | true, none => some (none, skipSpaces r)
    | false, _ => some (none, r)

/-- What follows `<!ENTITY`. -/
def takeEntity (s : List Char) : Option (List Entity × List Char) := do
  let r ← takeSpaces s
  let (general, r) ← match r with
    | '%' :: r => (takeSpaces r).map (false, ·)
    | r => some (true, r)
  let (name, r) ← takeName r
  let (value, r) ← takeEntityValue general (← takeSpaces r)
  let r ← expect ['>'] (skipSpaces r)
  some ((value.map (Entity.mk name)).toList, r)

/-- One declaration between the brackets of a document type definition. -/
def takeDefinition (s : List Char) : Option (List Entity × List Char) :=
  if let some r := expect "<!ENTITY".toList s then takeEntity r
  else if let some r := expect "<!--".toList s then (takeComment r).map fun (_, r) => ([], r)
  else if let some r := expect "<?".toList s then (takeInstruction r).map fun (_, r) => ([], r)
  else if ["<!ELEMENT", "<!ATTLIST", "<!NOTATION"].any (·.toList.isPrefixOf s) then
    (expect ['>'] (s.dropWhile (· != '>'))).map ([], ·)
  else none

/-- The declarations up to the closing bracket and the end of the definition. Each declaration takes
at least one character, so `fuel` is never used up when it starts as the length of the text. -/
def takeDefinitions : Nat → List Char → Option (List Entity × List Char)
  | 0, _ => none
  | fuel + 1, s =>
    match skipSpaces s with
    | ']' :: r => (expect ['>'] (skipSpaces r)).map ([], ·)
    | s => do
      let (es, r) ← takeDefinition s
      let (es', r) ← takeDefinitions fuel r
      some (es ++ es', r)

/-- What follows `<!DOCTYPE`. -/
def takeDoctype (s : List Char) : Option (List Entity × List Char) := do
  let (_, r) ← takeName (← takeSpaces s)
  let r := skipSpaces r
  let r := skipSpaces ((← skipExternal r).getD r)
  match r with
  | '>' :: r => some ([], r)
  | '[' :: r => takeDefinitions (r.length + 1) r
  | _ => none

/-- The entities declared before the first element, and the text from there on. -/
def takeProlog (allowDoctype : Bool) (s : List Char) : Except ReadError (List Entity × List Char) :=
  let s := (expect ['\ufeff'] s).getD s
  let declared := match expect "<?xml".toList s with
    | some r => if r.head? == some ' ' then skipDeclaration r else some s
    | none => some s
  match declared.bind skipMisc with
  | none => .error .malformed
  | some s =>
    match expect "<!DOCTYPE".toList s with
    | none => .ok ([], s)
    | some r =>
      if !allowDoctype then .error .documentType
      else match takeDoctype r with
        | none => .error .malformed
        | some (es, r) =>
          match skipMisc r with
          | none => .error .malformed
          | some r => .ok (es, r)

end XmlBinding.Xml
