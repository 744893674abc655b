import XmlBinding.Schema.Documentation
import XmlBinding.Proofs.Text.Lines

/-! # Normalized documentation

Normalizing keeps the words of every line and the blank lines between, and nothing else. What comes
out is normal, and a normal text stays as it is.
-/
namespace XmlBinding.Schema
open Text Xml

/-! ## Lines between the blank ones -/

section
variable {α : Type} (p : α → Bool) (xs : List α)

/-- Without what satisfies `p` at either end. -/
def trimmed : List α := (xs.dropWhile p).rdropWhile p

theorem trimmed_between : xs = xs.takeWhile p ++
    (trimmed p xs ++ (xs.dropWhile p).rtakeWhile p) := by
  rw [trimmed, List.rdropWhile_append_rtakeWhile, List.takeWhile_append_dropWhile]

theorem getLast?_trimmed : ∀ x ∈ (trimmed p xs).getLast?, p x = false := by
  intro x hx
  obtain ⟨hne, rfl⟩ := List.mem_getLast?_eq_getLast hx
  exact Bool.eq_false_iff.mpr (List.rdropWhile_last_not p _ hne)

theorem head?_trimmed : ∀ x ∈ (trimmed p xs).head?, p x = false := by
  intro x hx
  obtain ⟨rest, hrest⟩ := List.rdropWhile_prefix p (l := xs.dropWhile p)
  have hhead := List.head?_dropWhile_not p xs
  rw [← hrest, List.head?_append, ← trimmed, Option.mem_def.mp hx] at hhead
  exact hhead

variable {p xs}

theorem trimmed_eq_self (hfirst : ∀ x ∈ xs.head?, p x = false)
    (hlast : ∀ x ∈ xs.getLast?, p x = false) : trimmed p xs = xs := by
  have hdrop : xs.dropWhile p = xs := by
    cases xs with
    | nil => rfl
    | cons x xs => exact List.dropWhile_cons_of_neg (by simp [hfirst x rfl])
  rw [trimmed, hdrop, List.rdropWhile_eq_self_iff]
  intro hne
  simp [hlast _ (List.getLast?_eq_some_getLast hne)]

end

/-- A line with nothing left but its words. -/
def collapse (line : String) : String := String.intercalate " " (words line)

theorem toList_collapse (line : String) : (collapse line).toList = collapsed line.toList := by
  simp [collapse, collapsed, words, String.toList_intercalate, Function.comp_def]

theorem words_collapse (line : String) : words (collapse line) = words line := by
  apply words_intercalate
  intro w hw
  obtain ⟨word, hword, rfl⟩ := List.mem_map.mp hw
  simpa using ne_nil_of_mem_wordsBy hword

theorem collapse_eq_self {line : String} (h : Spaced line.toList) : collapse line = line :=
  String.toList_injective ((toList_collapse line).trans h.collapsed_eq_self)

theorem spaced_collapse (line : String) : Spaced (collapse line).toList :=
  toList_collapse line ▸ spaced_collapsed line.toList

/-- A line without words is empty once it is collapsed. -/
theorem words_eq_nil_iff {line : String} (h : Spaced line.toList) :
    words line = [] ↔ line = "" := by
  constructor
  · intro hwords
    rw [← collapse_eq_self h, collapse, hwords]
    rfl
  · rintro rfl
    rfl

theorem normalizedLines_eq (s : String) :
    normalizedLines s = trimmed (· == "") ((lines s).map collapse) := rfl

/-! ## Normal texts -/

/-- Lines of words one space apart, of which the first and the last have words. -/
structure Normal (s : String) : Prop where
  joined : s = String.intercalate "\n" (lines s)
  spaced : ∀ l ∈ lines s, Spaced l.toList
  first : ∀ l ∈ (lines s).head?, words l ≠ []
  last : ∀ l ∈ (lines s).getLast?, words l ≠ []

theorem lines_intercalate {ls : List String} (h : ∀ l ∈ ls, Unbroken l.toList)
    (hlast : ∀ l ∈ ls.getLast?, l ≠ "") : lines (String.intercalate "\n" ls) = ls := by
  rw [lines, String.toList_intercalate]
  have hlines : linesList (List.intercalate "\n".toList (ls.map String.toList)) =
      ls.map String.toList := by
    apply linesList_intercalate
    · simpa using h
    · simpa [List.getLast?_map] using hlast
  rw [hlines, List.map_map]
  simp

/-- Spaced lines make a normal text if those at the ends have words. -/
theorem normal_intercalate {ls : List String} (h : ∀ l ∈ ls, Spaced l.toList)
    (hfirst : ∀ l ∈ ls.head?, l ≠ "") (hlast : ∀ l ∈ ls.getLast?, l ≠ "") :
    Normal (String.intercalate "\n" ls) := by
  have hlines := lines_intercalate (fun l hl => (h l hl).unbroken) hlast
  constructor <;> rw [hlines]
  · exact h
  · exact fun l hl hwords => hfirst l hl
      ((words_eq_nil_iff (h l (List.mem_of_mem_head? hl))).mp hwords)
  · exact fun l hl hwords => hlast l hl
      ((words_eq_nil_iff (h l (List.mem_of_getLast? hl))).mp hwords)

section
variable (s : String)

theorem spaced_normalizedLines : ∀ l ∈ normalizedLines s, Spaced l.toList := by
  intro l hl
  have hmem : l ∈ (lines s).map collapse := by
    rw [normalizedLines_eq] at hl
    rw [trimmed_between (· == "") ((lines s).map collapse)]
    exact List.mem_append_right _ (List.mem_append_left _ hl)
  obtain ⟨line, -, rfl⟩ := List.mem_map.mp hmem
  exact spaced_collapse line

theorem head?_normalizedLines : ∀ l ∈ (normalizedLines s).head?, l ≠ "" := fun l hl => by
  simpa using head?_trimmed (· == "") _ l hl

theorem getLast?_normalizedLines : ∀ l ∈ (normalizedLines s).getLast?, l ≠ "" := fun l hl => by
  simpa using getLast?_trimmed (· == "") _ l hl

theorem lines_normalize : lines (normalize s) = normalizedLines s :=
  lines_intercalate (fun l hl => (spaced_normalizedLines s l hl).unbroken)
    (getLast?_normalizedLines s)

theorem normal_normalize : Normal (normalize s) :=
  normal_intercalate (spaced_normalizedLines s) (head?_normalizedLines s)
    (getLast?_normalizedLines s)

/-- Around the lines that are kept there have been none but blank ones. -/
theorem map_words_lines : ∃ before after, (lines s).map words =
    List.replicate before [] ++ ((lines (normalize s)).map words ++ List.replicate after []) := by
  let empty (l : String) : Bool := l == ""
  have hblank {ls : List String} (h : ∀ l ∈ ls, empty l = true) :
      ls.map words = List.replicate ls.length [] := by
    refine List.eq_replicate_iff.mpr ⟨List.length_map _, fun ws hws => ?_⟩
    obtain ⟨l, hl, rfl⟩ := List.mem_map.mp hws
    rw [beq_iff_eq.mp (h l hl)]
    rfl
  let ls := (lines s).map collapse
  refine ⟨(ls.takeWhile empty).length, ((ls.dropWhile empty).rtakeWhile empty).length, ?_⟩
  calc (lines s).map words = ls.map words := by
        rw [List.map_map]
        exact List.map_congr_left fun l _ => (words_collapse l).symm
    _ = (ls.takeWhile empty).map words ++
        ((trimmed empty ls).map words ++ ((ls.dropWhile empty).rtakeWhile empty).map words) := by
      rw [← List.map_append, ← List.map_append, ← trimmed_between]
    _ = _ := by
      rw [hblank fun l => List.mem_takeWhile_imp, hblank fun l => List.mem_rtakeWhile_imp,
        lines_normalize]
      rfl

end

section
variable {s : String} (h : Normal s)
include h

/-- There is nothing to normalize in a normal text. -/
theorem Normal.normalize_eq_self : normalize s = s := by
  have hcollapsed : (lines s).map collapse = lines s :=
    (List.map_congr_left fun l hl => collapse_eq_self (h.spaced l hl)).trans (List.map_id _)
  have hends {l : String} (hl : l ∈ lines s) (hwords : words l ≠ []) : (l == "") = false := by
    rw [beq_eq_false_iff_ne]
    exact fun heq => hwords ((words_eq_nil_iff (h.spaced l hl)).mpr heq)
  have hlines : normalizedLines s = lines s := by
    rw [normalizedLines_eq, hcollapsed]
    exact trimmed_eq_self (fun l hl => hends (List.mem_of_mem_head? hl) (h.first l hl))
      fun l hl => hends (List.mem_of_getLast? hl) (h.last l hl)
  rw [normalize, hlines]
  exact h.joined.symm

theorem Normal.unbroken : ∀ l ∈ lines s, Unbroken l.toList :=
  fun l hl => (h.spaced l hl).unbroken

/-- All blanks are spaces and line feeds. -/
theorem Normal.eq_of_isBlank {c : Char} (hc : c ∈ s.toList) (hblank : isBlank c = true) :
    c = ' ' ∨ c = '\n' := by
  rw [h.joined, String.toList_intercalate] at hc
  have hlines : ∀ l ∈ (lines s).map String.toList, Spaced l := by simpa using h.spaced
  generalize (lines s).map String.toList = ls at hc hlines
  induction ls with
  | nil => cases hc
  | cons l ls ih =>
    obtain ⟨hl, hls⟩ := List.forall_mem_cons.mp hlines
    cases ls with
    | nil =>
      rw [List.intercalate_singleton] at hc
      exact .inl (hl.spaces c hc hblank)
    | cons l' ls =>
      rw [List.intercalate_cons_cons, List.append_assoc, List.mem_append, List.mem_append] at hc
      rcases hc with hc | hc | hc
      · exact .inl (hl.spaces c hc hblank)
      · exact .inr (by simpa using hc)
      · exact ih hc hls

theorem Normal.lines_ne_nil (hne : s ≠ "") : lines s ≠ [] := by
  intro hnil
  have hjoined := h.joined
  rw [hnil] at hjoined
  exact hne hjoined

theorem Normal.ne_of_mem_head? : ∀ l ∈ (lines s).head?, l ≠ "" := by
  rintro l hl rfl
  exact h.first "" hl rfl

theorem Normal.ne_of_mem_getLast? : ∀ l ∈ (lines s).getLast?, l ≠ "" := by
  rintro l hl rfl
  exact h.last "" hl rfl

/-- A blank line between two normal texts makes one of them. -/
theorem Normal.paragraphs {t : String} (ht : Normal t) (hs : s ≠ "") (hne : t ≠ "") :
    Normal (s ++ "\n\n" ++ t) ∧ s ++ "\n\n" ++ t ≠ "" := by
  have hlines : s ++ "\n\n" ++ t = String.intercalate "\n" (lines s ++ "" :: lines t) := by
    rw [String.intercalate_append_of_ne_nil (h.lines_ne_nil hs) (List.cons_ne_nil _ _),
      String.intercalate_cons_of_ne_nil (ht.lines_ne_nil hne), ← h.joined, ← ht.joined]
    have hblank : "\n\n" = "\n" ++ "\n" := rfl
    simp only [hblank, String.empty_append, String.append_assoc]
  constructor
  · rw [hlines]
    apply normal_intercalate
    · intro l hl
      rcases List.mem_append.mp hl with hl | hl
      · exact h.spaced l hl
      rcases List.mem_cons.mp hl with rfl | hl
      · exact ⟨tight_of_plain (by simp), by simp⟩
      · exact ht.spaced l hl
    · rw [List.head?_append_of_ne_nil _ (h.lines_ne_nil hs)]
      exact h.ne_of_mem_head?
    · rw [List.getLast?_append_of_ne_nil _ (List.cons_ne_nil _ _),
        List.getLast?_cons_of_ne_nil (ht.lines_ne_nil hne)]
      exact ht.ne_of_mem_getLast?
  · simp [hs]

end

/-! ## Documentation -/

/-- Documentation, if there is any, is normal. -/
def Documented (documentation : Option String) : Prop := ∀ s ∈ documentation, Normal s

theorem normal_intercalate_paragraphs {texts : List String} (hne : texts ≠ [])
    (h : ∀ t ∈ texts, Normal t ∧ t ≠ "") : Normal (String.intercalate "\n\n" texts) ∧
      String.intercalate "\n\n" texts ≠ "" := by
  induction texts with
  | nil => exact absurd rfl hne
  | cons t texts ih =>
    obtain ⟨ht, hts⟩ := List.forall_mem_cons.mp h
    cases texts with
    | nil => exact ht
    | cons t' texts =>
      obtain ⟨hrest, hrestne⟩ := ih (List.cons_ne_nil _ _) hts
      rw [String.intercalate_cons_of_ne_nil (List.cons_ne_nil _ _)]
      exact ht.1.paragraphs hrest ht.2 hrestne

/-- What an element is documented with is normal. -/
theorem documented_documentation (e : Element) : Documented (documentation e) := by
  intro s hs
  simp only [documentation, Option.mem_def] at hs
  split at hs
  · cases hs
  · next hne =>
    cases hs
    refine (normal_intercalate_paragraphs (by simpa using hne) fun t ht => ?_).1
    obtain ⟨a, -, ht⟩ := List.mem_flatMap.mp ht
    obtain ⟨ht, hempty⟩ := List.mem_filter.mp ht
    obtain ⟨c, -, rfl⟩ := List.mem_map.mp ht
    exact ⟨normal_normalize _, by simpa using hempty⟩

end XmlBinding.Schema
