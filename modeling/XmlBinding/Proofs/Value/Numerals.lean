import XmlBinding.Value.Boolean
import XmlBinding.Value.Integer
import XmlBinding.Proofs.Text.Blanks

/-! # Truth values and integers are read as they are written

A text is read for what is left of it after trimming, so that all that is said here of a text holds
with blanks around it as well.
-/
namespace XmlBinding.Value
open Text

/-- A truth value is read from its text. -/
theorem readBool_of_trim {s : String} {b : Bool} (h : trim s = boolText b) :
    readBool s = .ok b := by
  rw [readBool, h]
  cases b <;> rfl

theorem not_isBlank_of_isDigit {c : Char} (h : c.isDigit = true) : isBlank c = false := by
  have hc : 48 ≤ c.toNat ∧ c.toNat ≤ 57 := by
    simpa [Char.isDigit, UInt32.le_iff_toNat_le] using h
  simp only [isBlank]
  simp
  omega

section
variable {limit : Nat} {fault : ValueFault} {digits : List Char}

theorem le_ofDigitChars (acc : Nat) (digits : List Char) :
    acc ≤ Nat.ofDigitChars 10 digits acc := by
  induction digits generalizing acc with
  | nil => exact Nat.le_of_eq Nat.ofDigitChars_nil.symm
  | cons c digits ih =>
    rw [Nat.ofDigitChars_cons]
    exact Nat.le_trans (by omega) (ih _)

/-- Digits are read for their value as far as that is within the limit. -/
theorem readDigits_eq (hd : ∀ c ∈ digits, c.isDigit = true) {acc : Nat}
    (h : Nat.ofDigitChars 10 digits acc ≤ limit) :
    readDigits limit fault acc digits = .ok (Nat.ofDigitChars 10 digits acc) := by
  induction digits generalizing acc with
  | nil => rw [readDigits, Nat.ofDigitChars_nil]
  | cons c digits ih =>
    obtain ⟨hc, hd⟩ := List.forall_mem_cons.mp hd
    rw [Nat.ofDigitChars_cons, Nat.mul_comm] at h ⊢
    have hle : acc * 10 + digitValue c ≤ limit := Nat.le_trans (le_ofDigitChars _ _) h
    rw [readDigits, hc]
    simp only [Bool.not_true, Bool.false_eq_true, if_false, if_neg (Nat.not_lt.mpr hle)]
    exact ih hd h

theorem readDigits_toDigits {n : Nat} (h : n ≤ limit) :
    readDigits limit fault 0 (Nat.toDigits 10 n) = .ok n := by
  have hvalue := @Nat.ofDigitChars_toDigits 10 n (by decide) (by decide)
  rw [readDigits_eq (fun c hc => Nat.isDigit_of_mem_toDigits (by decide) (by decide) hc)
    (hvalue.symm ▸ h), hvalue]

end

namespace IntegerType

variable {t : IntegerType}

theorem readNumeral_of_isDigit {c : Char} (hc : c.isDigit = true) (cs : List Char) :
    t.readNumeral (c :: cs) = (readDigits t.max .tooLarge 0 (c :: cs)).map Int.ofNat := by
  unfold readNumeral
  split
  · next heq => cases heq
  · next heq => cases heq; exact absurd hc (by decide)
  · next heq => cases heq; exact absurd hc (by decide)
  · next heq => cases heq; exact absurd hc (by decide)
  · next heq => cases heq; exact absurd hc (by decide)
  · cases readDigits t.max .tooLarge 0 (c :: cs) <;> rfl

theorem readNumeral_negative (hs : t.signed = true) {digits : List Char} (hne : digits ≠ []) :
    t.readNumeral ('-' :: digits) =
      (readDigits t.negativeMax .tooSmall 0 digits).map fun n => -(n : Int) := by
  obtain ⟨c, cs, rfl⟩ := List.exists_cons_of_ne_nil hne
  rw [readNumeral, if_pos hs]
  · cases readDigits t.negativeMax .tooSmall 0 (c :: cs) <;> rfl
  · simp

/-- A number within the range of a type is read from its text. -/
theorem readNumeral_integerText {n : Int} (h : t.holds n) :
    t.readNumeral (integerText n).toList = .ok n := by
  obtain ⟨hmin, hmax⟩ := h
  cases n with
  | ofNat n =>
    have hread := @readDigits_toDigits t.max .tooLarge n (by simpa using hmax)
    obtain ⟨c, cs, hc⟩ := List.exists_cons_of_ne_nil (@Nat.toDigits_ne_nil n 10)
    have hdigit : c.isDigit = true :=
      Nat.isDigit_of_mem_toDigits (by decide) (by decide) (hc ▸ List.mem_cons_self)
    rw [integerText, String.toList_ofList, hc, readNumeral_of_isDigit hdigit, ← hc, hread]
    rfl
  | negSucc n =>
    have hle : n + 1 ≤ t.negativeMax := by omega
    have hsigned : t.signed = true := by
      cases hs : t.signed with
      | true => rfl
      | false => simp [negativeMax, hs] at hle
    rw [integerText, String.toList_ofList, readNumeral_negative hsigned Nat.toDigits_ne_nil,
      readDigits_toDigits hle]
    rfl

theorem read_of_trimList {s : String} {n : Int} (h : t.holds n)
    (hs : trimList s.toList = (integerText n).toList) : t.read s = .ok n := by
  rw [read, hs, readNumeral_integerText h]

end IntegerType

/-- Numerals are made of digits and a sign. -/
theorem mem_integerText {n : Int} {c : Char} (hc : c ∈ (integerText n).toList) :
    c.isDigit = true ∨ c = '-' := by
  cases n with
  | ofNat n =>
    rw [integerText, String.toList_ofList] at hc
    exact .inl (Nat.isDigit_of_mem_toDigits (by decide) (by decide) hc)
  | negSucc n =>
    rw [integerText, String.toList_ofList] at hc
    rcases List.mem_cons.mp hc with rfl | hc
    · exact .inr rfl
    · exact .inl (Nat.isDigit_of_mem_toDigits (by decide) (by decide) hc)

theorem not_isBlank_of_mem_integerText {n : Int} {c : Char} (hc : c ∈ (integerText n).toList) :
    isBlank c = false := by
  rcases mem_integerText hc with hc | rfl
  · exact not_isBlank_of_isDigit hc
  · decide

end XmlBinding.Value
