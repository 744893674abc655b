import XmlBinding.Binding.Enumeration
import XmlBinding.Proofs.Text.Blanks
import Mathlib.Algebra.Ring.Nat

/-! # Literals are read as they are written

A literal of the plain form stands for itself. Of flags the words are looked up one by one, each
for the bit of its place, so that the set comes back whose literals were written.
-/
namespace XmlBinding.Binding
open Schema Text

namespace Enumeration

variable {e : Enumeration} {bits : Nat}

/-- Literals are told apart by their values. -/
def Distinct (e : Enumeration) : Prop := (e.literals.map (·.value)).Nodup

/-- The literals whose bits a set of flags has. -/
def flagLiterals (e : Enumeration) (bits : Nat) : List String := literalsIn bits 0 e.literals

theorem parse_literal {v : String} (hv : v ∈ e.literals.map (·.value)) (hne : v ≠ "") :
    e.parse (some v) = .literal v := by
  obtain ⟨f, hf, rfl⟩ := List.mem_map.mp hv
  have hlit : e.hasLiteral f.value = true := List.any_eq_true.mpr ⟨f, hf, by simp⟩
  simp [parse, readSymbol, hne, hlit]

theorem bit?_eq (h : e.Distinct) {done fs : List Facet} {f : Facet}
    (he : e.literals = done ++ f :: fs) : e.bit? f.value = some (2 ^ done.length) := by
  have hbefore : ∀ g ∈ done, g.value ≠ f.value := by
    rw [Distinct, he, List.map_append, List.map_cons, List.nodup_append] at h
    exact fun g hg => h.2.2 _ (List.mem_map_of_mem hg) _ List.mem_cons_self
  have hnone : done.findIdx? (·.value == f.value) = none :=
    List.findIdx?_eq_none_iff.mpr fun g hg => by simpa using hbefore g hg
  rw [bit?, he, List.findIdx?_append, hnone, List.findIdx?_cons]
  simp

/-- The words of a part of the literals have the bits of that part. -/
theorem readBits_literalsIn (h : e.Distinct) (bits : Nat) {fs done : List Facet}
    (he : e.literals = done ++ fs) :
    ∃ r, e.readBits (literalsIn bits done.length fs) = some r ∧ ∀ k, r.testBit k = true ↔
      bits.testBit k = true ∧ done.length ≤ k ∧ k < done.length + fs.length := by
  induction fs generalizing done with
  | nil =>
    refine ⟨0, rfl, fun k => ?_⟩
    simp only [Nat.zero_testBit, List.length_nil, Bool.false_eq_true, false_iff]
    omega
  | cons f fs ih =>
    obtain ⟨r, hr, hbits⟩ := @ih (done ++ [f]) (by rw [he, List.append_cons])
    rw [List.length_append, List.length_singleton] at hr hbits
    rw [literalsIn, List.length_cons]
    split
    · next hset =>
      refine ⟨2 ^ done.length ||| r, by simp [readBits, bit?_eq h he, hr], fun k => ?_⟩
      rw [Nat.testBit_or, Bool.or_eq_true, Nat.testBit_two_pow, decide_eq_true_eq, hbits]
      constructor
      · rintro (rfl | ⟨hk, hle, hlt⟩)
        · exact ⟨hset, by omega, by omega⟩
        · exact ⟨hk, by omega, by omega⟩
      · rintro ⟨hk, hle, hlt⟩
        rcases Nat.eq_or_lt_of_le hle with rfl | hle
        · exact .inl rfl
        · exact .inr ⟨hk, by omega, by omega⟩
    · next hset =>
      refine ⟨r, hr, fun k => ?_⟩
      rw [hbits]
      constructor
      · rintro ⟨hk, hle, hlt⟩
        exact ⟨hk, by omega, by omega⟩
      · rintro ⟨hk, hle, hlt⟩
        have hne : k ≠ done.length := by
          rintro rfl
          exact hset hk
        exact ⟨hk, by omega, by omega⟩

theorem readBits_flagLiterals (h : e.Distinct) (hbits : bits < 2 ^ e.literals.length) :
    e.readBits (e.flagLiterals bits) = some bits := by
  obtain ⟨r, hr, hk⟩ := @readBits_literalsIn e h bits e.literals [] (List.nil_append _).symm
  have hrb : r = bits := by
    refine Nat.eq_of_testBit_eq fun k => Bool.eq_iff_iff.mpr ?_
    rw [hk, List.length_nil, Nat.zero_add]
    refine ⟨And.left, fun hset => ⟨hset, Nat.zero_le k, Nat.lt_of_not_le fun hle => ?_⟩⟩
    -- beyond the literals no bit is set
    have hlt := Nat.lt_of_lt_of_le hbits (Nat.pow_le_pow_right (by decide) hle)
    rw [Nat.testBit_lt_two_pow hlt] at hset
    cases hset
  exact hrb ▸ hr

theorem flagLiterals_ne_nil (h : e.Distinct) (hbits : bits < 2 ^ e.literals.length)
    (hne : bits ≠ 0) : e.flagLiterals bits ≠ [] := by
  intro hnil
  have hread := readBits_flagLiterals h hbits
  rw [hnil] at hread
  exact hne (Option.some.inj hread).symm

theorem flagsText_eq (h : e.flagLiterals bits ≠ []) :
    e.flagsText bits = some (" ".intercalate (e.flagLiterals bits)) := by
  rw [flagLiterals] at h
  rw [flagsText]
  split
  · next heq => exact absurd heq h
  · rfl

/-- A set of flags is read from its text if every literal in it is one word. -/
theorem readFlags_intercalate (h : e.Distinct) (hbits : bits < 2 ^ e.literals.length)
    (hne : bits ≠ 0)
    (hwords : ∀ w ∈ e.flagLiterals bits, w ≠ "" ∧ ∀ c ∈ w.toList, isBlank c = false) :
    e.readFlags (some (" ".intercalate (e.flagLiterals bits))) = some bits := by
  have htext : " ".intercalate (e.flagLiterals bits) ≠ "" := by
    intro hempty
    have hw := words_intercalate hwords
    rw [hempty] at hw
    exact flagLiterals_ne_nil h hbits hne hw.symm
  rw [readFlags, if_neg htext, words_intercalate hwords, readBits_flagLiterals h hbits]

end Enumeration

end XmlBinding.Binding
