import XmlBinding.Xml.Prolog
/-!
# References in character data and attribute values

A reference stands for a character, by number or by one of five names, or for an entity's text.
-/
namespace XmlBinding.Xml

/-- A character as written, a character by reference, or an entity by name. -/
inductive TextItem where
  | char (c : Char)
  | reference (c : Char)
  | entity (name : String)
deriving DecidableEq, Repr

def hexValue (c : Char) : Nat :=
  if c.isDigit then c.toNat - '0'.toNat else c.toLower.toNat - 'a'.toNat + 10

def isHexDigit (c : Char) : Bool :=
  c.isDigit || ('a' ≤ c && c ≤ 'f') || ('A' ≤ c && c ≤ 'F')

/-- The character of a number below 2 ^ 32; surrogates and numbers beyond Unicode are replaced. -/
def charOfNumber (n : Nat) : Option Char :=
  if 0x100000000 ≤ n then none
  else
    let c := if n.isValidChar then Char.ofNat n else '\ufffd'
    if isXmlChar c then some c else none

/-- The number and what follows it; `isDigit` and `value` belong to its base. -/
def takeNumber (base : Nat) (isDigit : Char → Bool) (s : List Char) : Option (Char × List Char) :=
  let digits := s.takeWhile isDigit
  if digits.isEmpty then none
  else (charOfNumber (digits.foldl (fun n c => n * base + hexValue c) 0)).map
    (·, s.drop digits.length)

def predefined : String → Option Char
  | "quot" => some '"'
  | "amp" => some '&'
  | "apos" => some '\''
  | "lt" => some '<'
  | "gt" => some '>'
  | _ => none

/-- A reference between the ampersand and the semicolon. -/
def takeReferenceItem (s : List Char) : Option (TextItem × List Char) :=
  match s with
  | '#' :: 'x' :: r => (takeNumber 16 isHexDigit r).map fun (c, r) => (.reference c, r)
  | '#' :: r => (takeNumber 10 Char.isDigit r).map fun (c, r) => (.reference c, r)
  | s => (takeName s).map fun (name, r) =>
      ((predefined name).elim (.entity name) .reference, r)

/-- What follows the ampersand of a reference. -/
def takeReference (s : List Char) : Option (TextItem × List Char) := do
  let (item, rest) ← takeReferenceItem s
  let rest ← expect [';'] rest
  some (item, rest)

theorem length_takeNumber_le {base : Nat} {p : Char → Bool} {s r : List Char} {c : Char}
    (h : takeNumber base p s = some (c, r)) : r.length ≤ s.length := by
  simp only [takeNumber, Option.ite_none_left_eq_some, Option.map_eq_some_iff,
    Prod.mk.injEq] at h
  obtain ⟨-, _, -, -, rfl⟩ := h
  simp

theorem length_takeReferenceItem_le {s r : List Char} {item : TextItem}
    (h : takeReferenceItem s = some (item, r)) : r.length ≤ s.length := by
  unfold takeReferenceItem at h
  split at h <;> simp only [Option.map_eq_some_iff, Prod.exists, Prod.mk.injEq] at h <;>
    obtain ⟨_, _, hn, -, rfl⟩ := h
  · have := length_takeNumber_le hn
    simp only [List.length_cons]
    omega
  · have := length_takeNumber_le hn
    simp only [List.length_cons]
    omega
  · exact Nat.le_of_lt (length_of_takeName hn)

theorem length_of_takeReference {s r : List Char} {item : TextItem}
    (h : takeReference s = some (item, r)) : r.length < s.length := by
  simp only [takeReference, bind, Option.bind_eq_some_iff, Prod.exists, Option.some.injEq,
    Prod.mk.injEq] at h
  obtain ⟨_, _, h1, r2, h2, -, rfl⟩ := h
  have := length_takeReferenceItem_le h1
  have := length_of_expect h2
  simp at this
  omega

/-- Cuts character data at its references. -/
def textItems (s : List Char) : Option (List TextItem) :=
  match s with
  | [] => some []
  | '&' :: r =>
    match h : takeReference r with
    | none => none
    | some (item, rest) =>
      have := length_of_takeReference h
      (textItems rest).map (item :: ·)
  | c :: r => (textItems r).map (.char c :: ·)
termination_by s.length

/-- Adds a character of the text to a run kept last character first. A carriage return becomes a
line feed, together with a line feed that follows it. -/
def pushText (run : List Char) (c : Char) (atEnd : Bool) : List Char :=
  match run with
  | '\r' :: before =>
    let run := '\n' :: before
    if atEnd && c == '\r' then '\n' :: run else if c == '\n' then run else c :: run
  | run => (if atEnd && c == '\r' then '\n' else c) :: run

/-- A literal section: only line ends change. -/
def literalRun : List Char → List Char → List Char
  | run, [] => run.reverse
  | run, c :: r => literalRun (pushText run c r.isEmpty) r

/-- The character an attribute value gets for a written one, if any: blanks become spaces, and of
a line end of two characters the second one counts. -/
def attributeChar (c : Char) (next : Option Char) : Option Char :=
  if c == '\r' && next == some '\n' then none
  else if c == '\n' || c == '\r' || c == '\t' then some ' '
  else some c

end XmlBinding.Xml
