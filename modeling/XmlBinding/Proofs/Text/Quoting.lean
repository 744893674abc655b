import XmlBinding.Text.Quoted
import XmlBinding.Xml.Reference

/-! # Quoted text is read back

A reader of the generated language undoes the escapes of a quoted text. So different texts are
quoted differently.
-/
namespace XmlBinding.Text
open Xml

/-- The characters that an escape of one letter stands for. -/
def letterEscape : Char → Option Char
  | '0' => some '\x00'
  | 't' => some '\t'
  | 'r' => some '\r'
  | 'n' => some '\n'
  | '\\' => some '\\'
  | '"' => some '"'
  | _ => none

/-- Reads what is quoted up to the quotation mark, which has to be the last character. Within an
escape by number the number so far is given. -/
def readQuoted : Option Nat → List Char → Option (List Char)
  | _, [] => none
  | some n, c :: r =>
    if c = '\x7d' then (readQuoted none r).map (Char.ofNat n :: ·)
    else if isHexDigit c then readQuoted (some (n * 16 + hexValue c)) r
    else none
  | none, '\\' :: 'u' :: '\x7b' :: r => readQuoted (some 0) r
  | none, '\\' :: 'x' :: c :: d :: r =>
    (readQuoted none r).map (Char.ofNat (hexValue c * 16 + hexValue d) :: ·)
  | none, '\\' :: c :: r => (letterEscape c).bind fun d => (readQuoted none r).map (d :: ·)
  | none, ['"'] => some []
  | none, c :: r =>
    if c = '"' ∨ c = '\\' then none else (readQuoted none r).map (c :: ·)

/-- The text of a string literal. -/
def readLiteral (word : String) : Option String :=
  match word.toList with
  | '"' :: r => (readQuoted none r).map String.ofList
  | _ => none

theorem readQuoted_plain {c : Char} (hmark : c ≠ '"') (hslash : c ≠ '\\') (r : List Char) :
    readQuoted none (c :: r) = (readQuoted none r).map (c :: ·) := by
  simp [readQuoted, hmark, hslash]

theorem readQuoted_digitChar {d : Nat} (hd : d < 16) (n : Nat) (r : List Char) :
    readQuoted (some n) (d.digitChar :: r) = readQuoted (some (n * 16 + d)) r := by
  have hdigit : ∀ d < 16, d.digitChar ≠ '\x7d' ∧ isHexDigit d.digitChar = true ∧
      hexValue d.digitChar = d := by decide
  obtain ⟨hend, hhex, hvalue⟩ := hdigit d hd
  rw [readQuoted, if_neg hend, if_pos hhex, hvalue]

/-- The digits of a number are read for the number. -/
theorem readQuoted_hexDigits (n : Nat) (r : List Char) :
    readQuoted (some 0) (hexDigits n ++ r) = readQuoted (some n) r := by
  induction n using Nat.strongRecOn generalizing r with
  | ind n ih =>
    rw [hexDigits]
    by_cases hn : n < 16
    · rw [Nat.toDigits_of_lt_base hn, List.singleton_append, readQuoted_digitChar hn,
        Nat.zero_mul, Nat.zero_add]
    · have hdigit : n % 16 < 16 := Nat.mod_lt n (by decide)
      rw [Nat.toDigits_of_base_le (by decide) (Nat.not_lt.mp hn), List.append_assoc, ← hexDigits,
        ih (n / 16) (by omega), List.singleton_append, readQuoted_digitChar hdigit,
        Nat.div_add_mod']

/-- An escape is read for its character. -/
theorem readQuoted_escaped (c : Char) (r : List Char) :
    readQuoted none (escaped c ++ r) = (readQuoted none r).map (c :: ·) := by
  have hnumber : readQuoted none (byNumber c ++ r) = (readQuoted none r).map (c :: ·) := by
    have hread := readQuoted_hexDigits c.toNat ('\x7d' :: r)
    rw [byNumber, List.append_assoc, List.append_assoc]
    simp only [List.cons_append, List.nil_append, readQuoted, hread, if_true, Char.ofNat_toNat]
  unfold escaped
  split
  all_goals try rfl
  next hslash hmark =>
    have hplain := readQuoted_plain hmark hslash r
    split
    · exact hplain
    · split
      · exact hnumber
      · exact hplain

theorem readQuoted_literalBody (s r : List Char) :
    readQuoted none (literalBody s ++ r) = (readQuoted none r).map (s ++ ·) := by
  fun_induction literalBody s with
  | case1 d s ih =>
    -- both ways to write the character number zero are read for it
    have hzero : readQuoted none ((if '0' ≤ d ∧ d ≤ '7' then ['\\', 'x', '0', '0'] else
        escaped '\x00') ++ (literalBody (d :: s) ++ r)) =
        (readQuoted none (literalBody (d :: s) ++ r)).map ('\x00' :: ·) := by
      split
      · rfl
      · exact readQuoted_escaped _ _
    rw [List.append_assoc, hzero, ih, Option.map_map]
    rfl
  | case2 c s hc ih =>
    rw [List.append_assoc, readQuoted_escaped, ih, Option.map_map]
    rfl
  | case3 => simp

/-- A string literal stands for its text. -/
theorem readLiteral_literal (s : String) : readLiteral (literal s) = some s := by
  have hread := readQuoted_literalBody s.toList ['"']
  rw [readLiteral, literal, String.toList_ofList]
  simp [hread, readQuoted]

end XmlBinding.Text
