import Mathlib.Data.List.Perm.Subperm
import Mathlib.Data.List.Nodup
import XmlBinding.Binding.Catalog

/-! # Names that are given out are new

There are more numbered names than names that are taken, so that one of the candidates is free.
Different names remain different when the keywords among them are marked.
-/
namespace XmlBinding.Text

theorem isAlphanum_toUpper {c : Char} (h : c.isAlphanum = true) : c.toUpper.isAlphanum = true := by
  unfold Char.toUpper
  split
  · next hc =>
    simp only [UInt32.le_iff_toNat_le, Char.toNat_val] at hc
    have ha : 'a'.toNat = 97 := rfl
    have hz : 'z'.toNat = 122 := rfl
    refine Bool.or_eq_true_iff.mpr (.inl (Bool.or_eq_true_iff.mpr (.inl (decide_eq_true ?_))))
    simp [UInt32.le_iff_toNat_le]
    omega
  · exact h

theorem isAlphanum_toLower {c : Char} (h : c.isAlphanum = true) : c.toLower.isAlphanum = true := by
  unfold Char.toLower
  split
  · next hc =>
    simp only [ge_iff_le, UInt32.le_iff_toNat_le, Char.toNat_val] at hc
    have ha : 'A'.toNat = 65 := rfl
    have hz : 'Z'.toNat = 90 := rfl
    refine Bool.or_eq_true_iff.mpr (.inl (Bool.or_eq_true_iff.mpr (.inr
      (Bool.and_eq_true_iff.mpr ⟨decide_eq_true ?_, decide_eq_true ?_⟩)))) <;>
    · simp [UInt32.le_iff_toNat_le]
      omega
  · exact h

theorem isAlphanum_of_mem_alphanumericRuns (s : List Char) :
    ∀ run ∈ alphanumericRuns s, ∀ c ∈ run, c.isAlphanum = true := by
  fun_induction alphanumericRuns s with
  | case1 => nofun
  | case2 c r hc ih => exact ih
  | case3 c hc => simpa using hc
  | case4 c hc d r hd ih =>
    exact List.forall_mem_cons.mpr ⟨by simpa using hc, ih⟩
  | case5 c hc d r hd hruns ih =>
    rw [hruns]
    simpa using hc
  | case6 c hc d r hd run runs hruns ih =>
    rw [hruns] at ih ⊢
    obtain ⟨hrun, hruns⟩ := List.forall_mem_cons.mp ih
    exact List.forall_mem_cons.mpr
      ⟨List.forall_mem_cons.mpr ⟨by simpa using hc, hrun⟩, hruns⟩

theorem isAlphanum_pascalCase (s : String) : ∀ c ∈ (pascalCase s).toList, c.isAlphanum = true := by
  intro c hc
  rw [pascalCase, String.toList_ofList] at hc
  obtain ⟨word, hword, hc⟩ := List.mem_flatMap.mp hc
  obtain ⟨run, hrun, hword⟩ := List.mem_flatMap.mp hword
  have hword : ∀ d ∈ word, d.isAlphanum = true := by
    intro d hd
    have hflatten : (cutRun .neither [] run).flatten = run := cutRun_flatten _ _ _
    exact isAlphanum_of_mem_alphanumericRuns _ run hrun d
      (hflatten ▸ List.mem_flatten_of_mem hword hd)
  cases word with
  | nil => cases hc
  | cons d word =>
    obtain ⟨hd, hword⟩ := List.forall_mem_cons.mp hword
    rcases List.mem_cons.mp hc with rfl | hc
    · exact isAlphanum_toUpper hd
    · obtain ⟨e, he, rfl⟩ := List.mem_map.mp hc
      exact isAlphanum_toLower (hword e he)

end XmlBinding.Text

namespace XmlBinding.Binding
open Text

/-- A name that no marked keyword looks like. -/
structure Plain (name : String) : Prop where
  unmarked : '#' ∉ name.toList
  unended : name.toList.getLast? ≠ some '_'

instance (name : String) : Decidable (Plain name) :=
  decidable_of_iff ('#' ∉ name.toList ∧ name.toList.getLast? ≠ some '_')
    ⟨fun h => ⟨h.1, h.2⟩, fun h => ⟨h.1, h.2⟩⟩

theorem written_cases (name : String) :
    written name = name ∨ written name = name ++ "_" ∨ written name = "r#" ++ name := by
  unfold written
  split
  · exact .inr (.inl rfl)
  · split
    · exact .inr (.inr rfl)
    · exact .inl rfl

/-- Marks of keywords keep plain names apart. -/
theorem Plain.written_inj {a b : String} (ha : Plain a) (hb : Plain b)
    (h : written a = written b) : a = b := by
  have hended {a b : String} (hb : Plain b) : b ≠ a ++ "_" := by
    rintro rfl
    exact hb.unended (by simp)
  have hmarked {a b : String} (hb : Plain b) : b ≠ "r#" ++ a := by
    rintro rfl
    exact hb.unmarked (by simp)
  have hboth {a b : String} (hb : Plain b) : b ++ "_" ≠ "r#" ++ a := by
    intro heq
    have hmem : '#' ∈ (b ++ "_").toList := heq ▸ by simp
    exact hb.unmarked (by simpa using hmem)
  rcases written_cases a with hwa | hwa | hwa <;> rcases written_cases b with hwb | hwb | hwb <;>
    rw [hwa, hwb] at h
  · exact h
  · exact absurd h (hended ha)
  · exact absurd h (hmarked ha)
  · exact absurd h.symm (hended hb)
  · exact (String.append_left_inj "_").mp h
  · exact absurd h (hboth ha)
  · exact absurd h.symm (hmarked hb)
  · exact absurd h.symm (hboth hb)
  · exact (String.append_right_inj "r#").mp h

theorem plain_of_append {name : String} {p s : List Char} (h : name.toList = p ++ s)
    (hp : '#' ∉ p) (hne : s ≠ []) (hs : ∀ c ∈ s, c.isAlphanum = true) : Plain name := by
  constructor
  · rw [h, List.mem_append, not_or]
    exact ⟨hp, fun hmem => absurd (hs _ hmem) (by decide)⟩
  · rw [h, List.getLast?_append_of_ne_nil _ hne]
    exact fun hlast => absurd (hs _ (List.mem_of_getLast? hlast)) (by decide)

theorem plain_typeName (xmlName : String) : Plain (typeName xmlName) := by
  have halphanum := isAlphanum_pascalCase (sanitize xmlName)
  rw [typeName, leadingLetter]
  split
  · exact ⟨by decide, by decide⟩
  · next c cs hname =>
    rw [hname] at halphanum
    split
    · exact plain_of_append (p := []) hname (by decide) (by simp) halphanum
    · refine plain_of_append (p := ['_']) ?_ (by decide) (List.cons_ne_nil c cs) halphanum
      rw [String.toList_append, hname]
      rfl

theorem Plain.numbered {name : String} (h : Plain name) (k : Nat) : Plain (numbered name k) := by
  refine plain_of_append (s := Nat.toDigits 10 k) ?_ h.unmarked Nat.toDigits_ne_nil ?_
  · rw [Binding.numbered, String.toList_append, String.toList_ofList]
  · intro c hc
    have hdigit := Nat.isDigit_of_mem_toDigits (by decide) (by decide) hc
    rw [Char.isAlphanum, hdigit, Bool.or_true]

theorem numbered_injective (name : String) : Function.Injective (numbered name) := by
  intro i j h
  have hdigits : Nat.toDigits 10 i = Nat.toDigits 10 j :=
    String.ofList_injective ((String.append_right_inj name).mp h)
  have hnumeral := congrArg (Nat.ofDigitChars 10 · 0) hdigits
  simpa only [Nat.ofDigitChars_toDigits (by decide : 1 < 10) (by decide : 10 ≤ 10)] using hnumeral

/-- Among more different candidates than there are names, one is not in the list. -/
theorem exists_not_mem {candidate : Nat → String} (h : Function.Injective candidate)
    (taken : List String) : ∃ i, i < taken.length + 1 ∧ candidate i ∉ taken := by
  by_contra hall
  push Not at hall
  have hnodup : ((List.range (taken.length + 1)).map candidate).Nodup :=
    List.nodup_range.map h
  have hsub : (List.range (taken.length + 1)).map candidate ⊆ taken := by
    intro name hname
    obtain ⟨i, hi, rfl⟩ := List.mem_map.mp hname
    exact hall i (List.mem_range.mp hi)
  have hlength := (hnodup.subperm hsub).length_le
  rw [List.length_map, List.length_range] at hlength
  omega

/-- What a name has to be to be given out. -/
structure Available (taken : List String) (name : String) : Prop where
  new : name ∉ taken
  plain : Plain name

theorem available_freeName (taken : List String) {name : String} (hname : Plain name) :
    Available taken (freeName taken name) := by
  rw [freeName]
  split
  · have hinjective : Function.Injective fun i => numbered name (2 + i) :=
      fun i j h => Nat.add_left_cancel (numbered_injective name h)
    obtain ⟨i, hi, hfree⟩ := exists_not_mem hinjective taken
    have hunused := @firstFree_free (fun k => !taken.contains (numbered name k)) _ 2
      ⟨i, hi, by simpa using hfree⟩
    exact ⟨by simpa using hunused, hname.numbered _⟩
  · next h => exact ⟨by simpa using h, hname⟩

theorem available_chooseName (taken : List String) (preferred : String)
    (alternative : Option String) :
    Available taken (chooseName taken preferred alternative) := by
  rw [chooseName]
  split
  · next h => exact ⟨by simpa using h, plain_typeName preferred⟩
  · split
    · exact available_freeName _ (plain_typeName preferred)
    · next other hother =>
      obtain ⟨name, -, rfl⟩ := Option.map_eq_some_iff.mp hother
      split
      · exact available_freeName _ (plain_typeName preferred)
      · next h => exact ⟨by simpa using h, plain_typeName name⟩

end XmlBinding.Binding
