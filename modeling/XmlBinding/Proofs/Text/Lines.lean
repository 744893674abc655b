import Mathlib.Data.List.Chain
import Mathlib.Data.List.DropRight
import XmlBinding.Proofs.Text.Blanks

/-! # Lines

Lines without line feeds and carriage returns are found again where they are joined, unless the last
one is empty. Words one space apart make a line of which they are the words, and every line without
other blanks is made like that.
-/
namespace XmlBinding.Text

/-! ## Words one space apart -/

/-- No blanks at either end, and no two of them side by side. -/
structure Tight (line : List Char) : Prop where
  start : ∀ c ∈ line.head?, isBlank c = false
  ending : ∀ c ∈ line.getLast?, isBlank c = false
  single : line.IsChain fun c d => isBlank c = false ∨ isBlank d = false

/-- A tight line in which all blanks are spaces. -/
structure Spaced (line : List Char) : Prop extends Tight line where
  spaces : ∀ c ∈ line, isBlank c = true → c = ' '

/-- The words of a line, one space apart. -/
def collapsed (line : List Char) : List Char :=
  List.intercalate [' '] (wordsBy isBlank line)

/-- Words are what blanks surround. -/
theorem ne_nil_of_mem_wordsBy {blank : Char → Bool} {s w : List Char} (h : w ∈ wordsBy blank s) :
    w ≠ [] ∧ ∀ c ∈ w, blank c = false := by
  constructor
  · rintro rfl
    fun_induction wordsBy blank s <;> simp_all
  · intro c hc
    have hmem : c ∈ (wordsBy blank s).flatten := List.mem_flatten_of_mem h hc
    rw [wordsBy_flatten, List.mem_filter] at hmem
    simpa using hmem.2

theorem tight_of_plain {w : List Char} (h : ∀ c ∈ w, isBlank c = false) : Tight w where
  start c hc := h c (List.mem_of_mem_head? hc)
  ending c hc := h c (List.mem_of_getLast? hc)
  single := (List.pairwise_of_forall_mem_list fun c hc _ _ => .inl (h c hc)).isChain

section
variable {ws : List (List Char)} (h : ∀ w ∈ ws, w ≠ [] ∧ ∀ c ∈ w, isBlank c = false)
include h

theorem tight_intercalate : Tight (List.intercalate [' '] ws) := by
  induction ws with
  | nil => exact tight_of_plain (by simp)
  | cons w ws ih =>
    obtain ⟨⟨hne, hw⟩, hws⟩ := List.forall_mem_cons.mp h
    have hfirst := tight_of_plain hw
    cases ws with
    | nil => simpa using hfirst
    | cons v ws =>
      have hrest := ih hws
      have hv : v ≠ [] := (hws v List.mem_cons_self).1
      have hne' : List.intercalate [' '] (v :: ws) ≠ [] := by cases ws <;> simp [hv]
      rw [List.intercalate_cons_cons]
      constructor
      · rw [List.append_assoc, List.head?_append_of_ne_nil _ hne]
        exact hfirst.start
      · rw [List.getLast?_append_of_ne_nil _ hne']
        exact hrest.ending
      · rw [List.append_assoc, List.isChain_append]
        refine ⟨hfirst.single, ?_, fun c hc _ _ => .inl (hfirst.ending c hc)⟩
        rw [List.isChain_append]
        exact ⟨.singleton _, hrest.single, fun _ _ c hc => .inr (hrest.start c hc)⟩

/-- Spaces are the only blanks between words. -/
theorem eq_space_of_mem_intercalate {c : Char} (hc : c ∈ List.intercalate [' '] ws)
    (hblank : isBlank c = true) : c = ' ' := by
  induction ws with
  | nil => cases hc
  | cons w ws ih =>
    obtain ⟨⟨-, hw⟩, hws⟩ := List.forall_mem_cons.mp h
    have hplain : c ∉ w := fun hmem => by simp [hw c hmem] at hblank
    cases ws with
    | nil => simp [hplain] at hc
    | cons v ws =>
      rw [List.intercalate_cons_cons, List.append_assoc, List.mem_append,
        or_iff_right hplain, List.singleton_append] at hc
      exact (List.mem_cons.mp hc).elim id (ih hws)

end

theorem spaced_collapsed (line : List Char) : Spaced (collapsed line) where
  toTight := tight_intercalate fun _ => ne_nil_of_mem_wordsBy
  spaces _ := eq_space_of_mem_intercalate fun _ => ne_nil_of_mem_wordsBy

/-- What is left of a tight line from a character on that is no blank. -/
theorem Spaced.suffix {s line : List Char} (h : Spaced (s ++ line)) (hne : line ≠ [])
    (hstart : ∀ c ∈ line.head?, isBlank c = false) : Spaced line where
  start := hstart
  ending := by
    have hending := h.ending
    rwa [List.getLast?_append_of_ne_nil _ hne] at hending
  single := (List.isChain_append.mp h.single).2.1
  spaces c hc := h.spaces c (List.mem_append_right s hc)

theorem wordsBy_ne_nil {blank : Char → Bool} {c : Char} (hc : blank c = false) (r : List Char) :
    wordsBy blank (c :: r) ≠ [] := by
  intro hnil
  have hflatten := wordsBy_flatten blank (c :: r)
  simp [hnil, hc] at hflatten

/-- A line with nothing but single spaces between words is what its words make. -/
theorem Spaced.collapsed_eq_self {line : List Char} (h : Spaced line) : collapsed line = line := by
  -- the recursion is that of `wordsBy`, which goes on behind a blank
  match line with
  | [] => rfl
  | [c] => rw [collapsed, wordsBy_eq_singleton (by simp) (by simpa using h.start c rfl)]; rfl
  | c :: d :: r =>
    have hc := h.start c rfl
    cases hd : isBlank d with
    | false =>
      have hrest : Spaced (d :: r) := h.suffix (s := [c]) (by simp) (by simpa using hd)
      have ih := hrest.collapsed_eq_self
      obtain ⟨w, ws, hws⟩ := List.exists_cons_of_ne_nil (wordsBy_ne_nil hd r)
      rw [collapsed, hws] at ih
      rw [collapsed, wordsBy, hws]
      cases ws <;> simp_all
    | true =>
      obtain rfl : d = ' ' := h.spaces d (by simp) hd
      cases r with
      | nil => exact absurd (h.ending ' ' rfl) (by decide)
      | cons e r =>
        have he : isBlank e = false := by
          have hpair := (List.isChain_cons_cons.mp h.single.tail).1
          exact hpair.resolve_left (by simp [hd])
        have hrest : Spaced (e :: r) := h.suffix (s := [c, ' ']) (by simp) (by simpa using he)
        have ih := hrest.collapsed_eq_self
        obtain ⟨w, ws, hws⟩ := List.exists_cons_of_ne_nil (wordsBy_ne_nil he r)
        rw [collapsed, hws] at ih
        have hwords : wordsBy isBlank (c :: ' ' :: e :: r) = [c] :: w :: ws := by
          rw [← hws]
          exact wordsBy_append (w := [c]) (by simp) (by simpa using hc) hd (e :: r)
        rw [collapsed, hwords, List.intercalate_cons_cons, ih]
        rfl
termination_by line.length

/-! ## Lines that are joined -/

/-- Nothing at which a line could end. -/
def Unbroken (line : List Char) : Prop := '\n' ∉ line ∧ '\r' ∉ line

theorem Spaced.unbroken {line : List Char} (h : Spaced line) : Unbroken line :=
  ⟨fun hmem => absurd (h.spaces _ hmem) (by decide),
    fun hmem => absurd (h.spaces _ hmem) (by decide)⟩

theorem Unbroken.append {s t : List Char} (hs : Unbroken s) (ht : Unbroken t) : Unbroken (s ++ t) :=
  ⟨fun hmem => (List.mem_append.mp hmem).elim hs.1 ht.1,
    fun hmem => (List.mem_append.mp hmem).elim hs.2 ht.2⟩

theorem Unbroken.tail {c : Char} {line : List Char} (h : Unbroken (c :: line)) : Unbroken line :=
  ⟨fun hmem => h.1 (List.mem_cons_of_mem c hmem), fun hmem => h.2 (List.mem_cons_of_mem c hmem)⟩

theorem linesList_cons {c : Char} {r : List Char} (hfeed : c ≠ '\n')
    (hreturn : ∀ r', c = '\r' → r ≠ '\n' :: r') :
    linesList (c :: r) = (c :: (linesList r).headD []) :: (linesList r).tail := by
  rw [linesList]
  · cases linesList r <;> rfl
  · exact hfeed
  · exact hreturn

theorem Unbroken.linesList_cons {c : Char} {line : List Char} (h : Unbroken (c :: line))
    (r : List Char) : linesList (c :: (line ++ r)) =
      (c :: (linesList (line ++ r)).headD []) :: (linesList (line ++ r)).tail := by
  simp only [Unbroken, List.mem_cons, not_or] at h
  exact Text.linesList_cons (Ne.symm h.1.1) fun _ hreturn => absurd hreturn (Ne.symm h.2.1)

theorem Unbroken.linesList_append {line : List Char} (h : Unbroken line) (r : List Char) :
    linesList (line ++ '\n' :: r) = line :: linesList r := by
  induction line with
  | nil => rfl
  | cons c line ih =>
    rw [List.cons_append, h.linesList_cons, ih h.tail]
    rfl

theorem Unbroken.linesList_eq_singleton {line : List Char} (h : Unbroken line)
    (hne : line ≠ []) : linesList line = [line] := by
  induction line with
  | nil => exact absurd rfl hne
  | cons c line ih =>
    have hcons := h.linesList_cons []
    rw [List.append_nil] at hcons
    rw [hcons]
    cases line with
    | nil => rfl
    | cons d line =>
      rw [ih h.tail (List.cons_ne_nil d line)]
      rfl

/-- Joined lines are found again, unless the last one is empty. -/
theorem linesList_intercalate {ls : List (List Char)} (h : ∀ l ∈ ls, Unbroken l)
    (hlast : ∀ l ∈ ls.getLast?, l ≠ []) : linesList (List.intercalate ['\n'] ls) = ls := by
  induction ls with
  | nil => rfl
  | cons l ls ih =>
    obtain ⟨hl, hls⟩ := List.forall_mem_cons.mp h
    cases ls with
    | nil =>
      rw [List.intercalate_singleton]
      exact hl.linesList_eq_singleton (hlast l rfl)
    | cons l' ls =>
      rw [List.intercalate_cons_cons, List.append_assoc, List.singleton_append,
        hl.linesList_append, ih hls (by simpa using hlast)]

theorem linesList_ne_nil (c : Char) (r : List Char) : linesList (c :: r) ≠ [] := by
  rw [linesList.eq_def]
  split <;> simp_all
  split <;> simp

/-- What follows a line feed makes lines of its own. -/
theorem linesList_append_feed (s r : List Char) :
    linesList (s ++ '\n' :: r) = linesList (s ++ ['\n']) ++ linesList r := by
  have hcons (c : Char) (s : List Char) (hfeed : c ≠ '\n')
      (hreturn : ∀ r', c = '\r' → s ≠ '\n' :: r')
      (ih : linesList (s ++ '\n' :: r) = linesList (s ++ ['\n']) ++ linesList r) :
      linesList (c :: s ++ '\n' :: r) = linesList (c :: s ++ ['\n']) ++ linesList r := by
    cases s with
    | nil =>
      by_cases hc : c = '\r'
      · rw [hc]
        rfl
      · have hreturn (t : List Char) : ∀ r', c = '\r' → t ≠ '\n' :: r' :=
          fun _ h => absurd h hc
        simp [linesList_cons hfeed (hreturn _), linesList]
    | cons d s =>
      have hreturn (t : List Char) : ∀ r', c = '\r' → d :: (s ++ t) ≠ '\n' :: r' :=
        fun r' h heq => hreturn s h (by rw [(List.cons.inj heq).1])
      rw [List.cons_append] at ih
      obtain ⟨l, ls, hls⟩ := List.exists_cons_of_ne_nil (linesList_ne_nil d (s ++ ['\n']))
      simp only [List.cons_append, linesList_cons hfeed (hreturn _), ih, hls, List.headD_cons,
        List.tail_cons]
  induction s using linesList.induct with
  | case1 => rfl
  | case2 s ih => simp [linesList, ih]
  | case3 s ih => simp [linesList, ih]
  | case4 c s hfeed hreturn _ ih => exact hcons c s hfeed hreturn ih
  | case5 c s hfeed hreturn _ _ _ ih => exact hcons c s hfeed hreturn ih

/-- Lines that all have their ends are found again. -/
theorem linesList_ended {ls : List (List Char)} (h : ∀ l ∈ ls, Unbroken l) (r : List Char) :
    linesList (ls.flatMap (· ++ ['\n']) ++ r) = ls ++ linesList r := by
  induction ls with
  | nil => rfl
  | cons l ls ih =>
    obtain ⟨hl, hls⟩ := List.forall_mem_cons.mp h
    rw [List.flatMap_cons, List.append_assoc, List.append_assoc, List.singleton_append,
      hl.linesList_append, ih hls]
    rfl

/-- Whole lines are found where they have been written. -/
theorem infix_lines {before : String} (hbefore : before = "" ∨ ∃ s, before = s ++ "\n")
    {ls : List String} (h : ∀ l ∈ ls, Unbroken l.toList) (rest : String) :
    ls <:+: lines (before ++ (String.join (ls.map (· ++ "\n")) ++ rest)) := by
  have hjoin : (String.join (ls.map (· ++ "\n"))).toList =
      (ls.map String.toList).flatMap (· ++ ['\n']) := by
    simp [String.toList_join, List.flatMap_map]
  have hended : linesList ((String.join (ls.map (· ++ "\n"))).toList ++ rest.toList) =
      ls.map String.toList ++ linesList rest.toList := by
    rw [hjoin]
    exact linesList_ended (by simpa using h) _
  have hsplit : ∃ above, linesList
      (before ++ (String.join (ls.map (· ++ "\n")) ++ rest)).toList =
        above ++ (ls.map String.toList ++ linesList rest.toList) := by
    rw [String.toList_append, String.toList_append]
    rcases hbefore with rfl | ⟨s, rfl⟩
    · exact ⟨[], hended⟩
    · refine ⟨linesList (s.toList ++ ['\n']), ?_⟩
      rw [String.toList_append, List.append_assoc, ← hended]
      exact linesList_append_feed s.toList _
  obtain ⟨above, hlines⟩ := hsplit
  refine ⟨above.map String.ofList, (linesList rest.toList).map String.ofList, ?_⟩
  rw [lines, hlines]
  simp

end XmlBinding.Text
