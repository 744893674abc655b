import XmlBinding.Binding.Error
import XmlBinding.Binding.Naming
import XmlBinding.Schema.Component
import XmlBinding.Text.Blank
/-!
# Enumerations

An enumeration has the distinct literals of a type, in order. In the plain form a value is one of
them, or one of two sentinels; in the form of flags it is a set of them, and the literal at place
`i` stands for the bit `2 ^ i`.
-/
namespace XmlBinding.Binding
open Schema Text

inductive Form where
  | plain
  | flags
deriving DecidableEq, Repr

/-- `owner` names the class the enumeration was declared for, if there is one. -/
structure Enumeration where
  name : String
  documentation : Option String
  owner : Option String
  form : Form
  literals : List Facet
deriving DecidableEq, Repr

/-- What a member stands for; `empty` is the set without flags. -/
inductive Symbol where
  | illegal
  | notSet
  | empty
  | literal (value : String)
deriving DecidableEq, Repr

structure Member where
  symbol : Symbol
  name : String
  number : Int
  documentation : Option String
deriving DecidableEq, Repr

/-- Keeps the first facet of every value. -/
def distinctLiterals : List Facet → List Facet
  | [] => []
  | f :: r => f :: (distinctLiterals r).filter fun g => g.value ≠ f.value

theorem nodup_distinctLiterals (fs : List Facet) :
    ((distinctLiterals fs).map (·.value)).Nodup := by
  induction fs with
  | nil => exact List.nodup_nil
  | cons f r ih =>
    rw [distinctLiterals, List.map_cons, List.nodup_cons]
    constructor
    · simp
    · exact ih.sublist (List.filter_sublist.map _)

theorem mem_values_distinctLiterals {v : String} {fs : List Facet} :
    v ∈ (distinctLiterals fs).map (·.value) ↔ v ∈ fs.map (·.value) := by
  induction fs with
  | nil => rfl
  | cons f r ih =>
    simp only [distinctLiterals, List.map_cons, List.mem_cons, List.mem_map, List.mem_filter,
      decide_eq_true_eq] at ih ⊢
    rw [← ih]
    by_cases hv : v = f.value
    · simp [hv]
    · constructor
      · rintro (h | ⟨g, ⟨hg, _⟩, rfl⟩)
        · exact .inl h
        · exact .inr ⟨g, hg, rfl⟩
      · rintro (h | ⟨g, hg, rfl⟩)
        · exact .inl h
        · exact .inr ⟨g, ⟨hg, hv⟩, rfl⟩

/-- Members for literals from place `i` on, each named by the first free name. -/
def literalMembers (convert : String → String) (number : Nat → Nat) :
    List String → Nat → List Facet → List Member
  | _, _, [] => []
  | taken, i, f :: r =>
    let name := freeName taken (convert f.value)
    ⟨.literal f.value, name, number i, f.documentation⟩ ::
      literalMembers convert number (name :: taken) (i + 1) r

def illegalMember : Member :=
  ⟨.illegal, "IllegalValue", 0x7FFFFFFF, some "A value that matches none of the literals."⟩

def notSetMember : Member :=
  ⟨.notSet, "NotSet", -1, some "No value, or an empty one."⟩

def emptyMember : Member :=
  ⟨.empty, "NONE", 0, some "No flag is set."⟩

/-- The most flags that fit into a set. -/
def flagLimit : Nat := 32

namespace Enumeration

/-- A plain enumeration of the distinct values among `facets`. -/
def ofFacets (name : String) (documentation owner : Option String) (facets : List Facet) :
    Enumeration :=
  ⟨name, documentation, owner, .plain, distinctLiterals facets⟩

def toFlags (e : Enumeration) : Except BindingError Enumeration :=
  if e.form = .flags then .ok e
  else if flagLimit < e.literals.length then .error (.tooManyFlags e.name e.literals.length)
  else .ok { e with form := .flags }

/-- Becoming flags twice is becoming flags once. -/
theorem toFlags_toFlags {e f : Enumeration} (h : e.toFlags = .ok f) : f.toFlags = .ok f := by
  unfold toFlags at h ⊢
  split at h
  · cases h; simp_all
  · split at h
    · cases h
    · cases h; simp

/-- Sentinels come first. -/
def members (e : Enumeration) : List Member :=
  match e.form with
  | .plain => illegalMember :: notSetMember ::
      literalMembers variantName id [illegalMember.name, notSetMember.name] 0 e.literals
  | .flags => emptyMember :: literalMembers flagName (Nat.pow 2) [emptyMember.name] 0 e.literals

def member? (e : Enumeration) (s : Symbol) : Option Member :=
  e.members.find? (·.symbol = s)

def hasLiteral (e : Enumeration) (s : String) : Bool :=
  e.literals.any (·.value == s)

/-- Reads a value of the plain form. A failure still tells which sentinel stands for it. -/
def readSymbol (e : Enumeration) : Option String → Except Symbol Symbol
  | none => .error .notSet
  | some s =>
    if s = "" then .error .notSet
    else if e.hasLiteral s then .ok (.literal s)
    else .error .illegal

/-- Reads a value of the plain form, or the sentinel that stands for the text. -/
def parse (e : Enumeration) (s : Option String) : Symbol :=
  match e.readSymbol s with
  | .ok symbol => symbol
  | .error sentinel => sentinel

/-- The bit of a literal. -/
def bit? (e : Enumeration) (s : String) : Option Nat :=
  (e.literals.findIdx? (·.value == s)).map (Nat.pow 2)

/-- The bits of all words; nothing if one of them is no literal. -/
def readBits (e : Enumeration) : List String → Option Nat
  | [] => some 0
  | w :: ws => do return (← e.bit? w) ||| (← e.readBits ws)

/-- Reads a set of flags; nothing for a text that is missing, empty or holds an unknown word. -/
def readFlags (e : Enumeration) : Option String → Option Nat
  | none => none
  | some s => if s = "" then none else e.readBits (words s)

/-- The literals whose bits are set, from place `i` on. -/
def literalsIn (bits : Nat) : Nat → List Facet → List String
  | _, [] => []
  | i, f :: r => if bits.testBit i then f.value :: literalsIn bits (i + 1) r
      else literalsIn bits (i + 1) r

/-- The text of a set of flags; the empty set has none. -/
def flagsText (e : Enumeration) (bits : Nat) : Option String :=
  match literalsIn bits 0 e.literals with
  | [] => none
  | ws => some (" ".intercalate ws)

end Enumeration

/-- Sentinels have no text. -/
def Symbol.text? : Symbol → Option String
  | .literal s => some s
  | _ => none

/-- The names of the reading functions of an enumeration. -/
def Enumeration.tryParseName (e : Enumeration) : String := "try_parse_" ++ memberName e.name

def Enumeration.parseName (e : Enumeration) : String := "parse_" ++ memberName e.name

end XmlBinding.Binding
