import Mathlib.Data.List.TakeWhile
import XmlBinding.Text.Blank

/-! # Words and ends of texts

Trimming leaves a text alone whose ends are no blanks, and the words of a text are what was joined
by blanks to make it.
-/
namespace XmlBinding.Text

theorem dropWhile_eq_self {α : Type} {p : α → Bool} {s : List α} (h : ∀ c ∈ s, p c = false) :
    s.dropWhile p = s := by
  cases s with
  | nil => rfl
  | cons c s => simp [h c List.mem_cons_self]

/-- Without blanks there is nothing to trim. -/
theorem trimList_eq_self {s : List Char} (h : ∀ c ∈ s, isBlank c = false) : trimList s = s := by
  have hrev : ∀ c ∈ s.reverse, isBlank c = false := fun c hc => h c (List.mem_reverse.mp hc)
  rw [trimList, dropWhile_eq_self h, dropWhile_eq_self hrev, List.reverse_reverse]

/-- Blanks around a text are trimmed like its own. -/
theorem trimList_around {left right : List Char} (s : List Char)
    (hl : ∀ c ∈ left, isBlank c = true) (hr : ∀ c ∈ right, isBlank c = true) :
    trimList (left ++ (s ++ right)) = trimList s := by
  have hrev : ∀ c ∈ right.reverse, isBlank c = true := fun c hc => hr c (List.mem_reverse.mp hc)
  have hright : right.dropWhile isBlank = [] := List.dropWhile_eq_nil_iff.mpr hr
  rw [trimList, trimList, List.dropWhile_append_of_pos hl, List.dropWhile_append]
  cases s.dropWhile isBlank with
  | nil => simp [hright]
  | cons c s => simp [List.dropWhile_append_of_pos hrev]

/-- What blanks surround is left. -/
theorem trimList_append {left right s : List Char} (hl : ∀ c ∈ left, isBlank c = true)
    (hr : ∀ c ∈ right, isBlank c = true) (h : ∀ c ∈ s, isBlank c = false) :
    trimList (left ++ (s ++ right)) = s :=
  (trimList_around s hl hr).trans (trimList_eq_self h)

section
variable {blank : Char → Bool} {w : List Char}

/-- A text without blanks is one word. -/
theorem wordsBy_eq_singleton (hne : w ≠ []) (h : ∀ c ∈ w, blank c = false) :
    wordsBy blank w = [w] := by
  induction w with
  | nil => exact absurd rfl hne
  | cons c w ih =>
    obtain ⟨hc, hw⟩ := List.forall_mem_cons.mp h
    cases w with
    | nil => simp [wordsBy, hc]
    | cons d w =>
      obtain ⟨hd, -⟩ := List.forall_mem_cons.mp hw
      rw [wordsBy, ih (List.cons_ne_nil _ _) hw]
      simp [hc, hd]

/-- Words end at a blank. -/
theorem wordsBy_append_cons {b : Char} (hb : blank b = true) (s rest : List Char) :
    wordsBy blank (s ++ b :: rest) = wordsBy blank s ++ wordsBy blank rest := by
  induction s with
  | nil => simp [wordsBy, hb]
  | cons c s ih =>
    cases hc : blank c with
    | true => simpa [wordsBy, hc] using ih
    | false =>
      cases s with
      | nil => simp [wordsBy, hc, hb]
      | cons d s =>
        cases hd : blank d with
        | true => simpa [wordsBy, hc, hd] using ih
        | false =>
          have hne : wordsBy blank (d :: s) ≠ [] := fun hnil => by
            have hflatten := wordsBy_flatten blank (d :: s)
            simp [hnil, hd] at hflatten
          obtain ⟨w, ws, hws⟩ := List.exists_cons_of_ne_nil hne
          rw [List.cons_append, List.cons_append, wordsBy, ← List.cons_append, ih, wordsBy, hws]
          simp [hc, hd]

/-- A word ends at the first blank. -/
theorem wordsBy_append (hne : w ≠ []) (h : ∀ c ∈ w, blank c = false) {b : Char}
    (hb : blank b = true) (rest : List Char) :
    wordsBy blank (w ++ b :: rest) = w :: wordsBy blank rest := by
  rw [wordsBy_append_cons hb, wordsBy_eq_singleton hne h, List.singleton_append]

/-- Blanks around a text are in no word. -/
theorem wordsBy_around {left right : List Char} (s : List Char)
    (hl : ∀ c ∈ left, blank c = true) (hr : ∀ c ∈ right, blank c = true) :
    wordsBy blank (left ++ (s ++ right)) = wordsBy blank s := by
  have hright : wordsBy blank (s ++ right) = wordsBy blank s := by
    induction right generalizing s with
    | nil => rw [List.append_nil]
    | cons c right ih =>
      obtain ⟨hc, hr⟩ := List.forall_mem_cons.mp hr
      have hnil : wordsBy blank right = [] := ih [] hr
      rw [wordsBy_append_cons hc, hnil, List.append_nil]
  induction left with
  | nil => exact hright
  | cons c left ih =>
    obtain ⟨hc, hl⟩ := List.forall_mem_cons.mp hl
    rw [← ih hl]
    exact wordsBy_append_cons hc [] _

end

/-- Words that are joined by spaces are found again. -/
theorem words_intercalate {ws : List String}
    (h : ∀ w ∈ ws, w ≠ "" ∧ ∀ c ∈ w.toList, isBlank c = false) :
    words (" ".intercalate ws) = ws := by
  have hlist : wordsBy isBlank (" ".intercalate ws).toList = ws.map String.toList := by
    induction ws with
    | nil => rfl
    | cons w ws ih =>
      obtain ⟨⟨hne, hw⟩, hws⟩ := List.forall_mem_cons.mp h
      have hnil : w.toList ≠ [] := fun hnil => hne (String.toList_eq_nil_iff.mp hnil)
      cases ws with
      | nil => rw [String.intercalate_singleton, wordsBy_eq_singleton hnil hw]; rfl
      | cons v ws =>
        rw [String.intercalate_cons_cons, String.toList_append, String.toList_append,
          List.append_assoc]
        exact (wordsBy_append hnil hw (by decide) _).trans (congrArg (w.toList :: ·) (ih hws))
  rw [words, hlist, List.map_map]
  simp

end XmlBinding.Text
