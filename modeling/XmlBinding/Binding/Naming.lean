import XmlBinding.Text.Casing
/-!
# Identifiers of a binding

XML names and literals become identifiers of the generated module. Conversion forgets characters,
so within a scope a taken name is followed by the first free number.
-/
namespace XmlBinding.Binding
open Text

/-- Characters that no identifier holds become underscores. -/
def sanitize (s : String) : String :=
  s.map fun c => if c.isAlphanum then c else '_'

/-- An identifier starts with a letter or an underscore. -/
def leadingLetter (fallback name : String) : String :=
  match name.toList with
  | [] => fallback
  | c :: _ => if c.isAlpha then name else "_" ++ name

/-- The type made for an XML type or element. -/
def typeName (xmlName : String) : String :=
  leadingLetter "Unnamed" (pascalCase (sanitize xmlName))

/-- The field made for an attribute. -/
def memberName (xmlName : String) : String :=
  leadingLetter "value" (snakeCase (sanitize xmlName))

/-- The variant made for a literal. -/
def variantName (literal : String) : String :=
  if literal = "" then "Empty" else leadingLetter "Value" (pascalCase (sanitize literal))

/-- The constant made for a literal of a set of flags. -/
def flagName (literal : String) : String :=
  if literal = "" then "EMPTY" else leadingLetter "VALUE" (shoutyCase (sanitize literal))

/-- Words of the generated language that name nothing as they stand. -/
def keywords : List String :=
  ["as", "break", "const", "continue", "crate", "else", "enum", "extern", "false", "fn", "for",
   "if", "impl", "in", "let", "loop", "match", "mod", "move", "mut", "pub", "ref", "return",
   "self", "Self", "static", "struct", "super", "trait", "true", "type", "unsafe", "use", "where",
   "while", "async", "await", "dyn", "abstract", "become", "box", "do", "final", "macro",
   "override", "priv", "typeof", "unsized", "virtual", "yield", "try"]

/-- Words that are keywords in some places only. -/
def contextualKeywords : List String :=
  ["union", "macro_rules"]

/-- Keywords that cannot be written raw either. -/
def pathKeywords : List String :=
  ["crate", "self", "super", "Self"]

/-- A name as it is written: a keyword is marked raw where it can be. -/
def written (name : String) : String :=
  if pathKeywords.contains name then name ++ "_"
  else if keywords.contains name || contextualKeywords.contains name then "r#" ++ name
  else name

/-- The nested modules a dotted path stands for. -/
def modulePath (path : String) : List String :=
  let segments := (path.splitToList fun c => c == '.' || c == ':').filter (· ≠ "")
  segments.map fun s => written (memberName s)

/-- The first of `n` counted names from `k` on that is free. -/
def firstFree (free : Nat → Bool) : Nat → Nat → Nat
  | 0, k => k
  | n + 1, k => if free k then k else firstFree free n (k + 1)

/-- If a candidate in range is free, the result is. -/
theorem firstFree_free {free : Nat → Bool} {n k : Nat} (h : ∃ i, i < n ∧ free (k + i)) :
    free (firstFree free n k) := by
  induction n generalizing k with
  | zero => obtain ⟨i, hi, _⟩ := h; omega
  | succ n ih =>
    unfold firstFree
    split
    · assumption
    · rename_i hk
      obtain ⟨i, hi, hf⟩ := h
      cases i with
      | zero => exact absurd hf hk
      | succ i => exact ih ⟨i, by omega, by rwa [Nat.add_assoc, Nat.add_comm 1]⟩

/-- A decimal numeral behind a name. -/
def numbered (name : String) (k : Nat) : String :=
  name ++ String.ofList (Nat.toDigits 10 k)

/-- The name itself if it is free, or else with the least number from two on. -/
def freeName (taken : List String) (name : String) : String :=
  if taken.contains name then
    numbered name (firstFree (fun k => !taken.contains (numbered name k)) (taken.length + 1) 2)
  else name

end XmlBinding.Binding
