import XmlBinding.Code.Enumerations
import XmlBinding.Code.Printing
import XmlBinding.Proofs.Text.Lines

/-! # What is set on a page

What is written stays, and the indentation after a box is that before it. A box with a place where
the line has to end does not fit on any line, so it is broken, and what comes next in it begins a
line of its own.
-/
namespace XmlBinding.Code
open Text

/-! ## What is written stays -/

/-- A page that has been written on, with the box around it as it was. -/
structure Page.Precedes (p q : Page) : Prop where
  written : ∃ s, q.written = p.written ++ s
  indent : q.indent = p.indent

namespace Page
variable (p : Page)

theorem precedes_self : p.Precedes p := ⟨⟨"", by simp⟩, rfl⟩

variable {p}

theorem Precedes.trans {q r : Page} (hq : p.Precedes q) (hr : q.Precedes r) : p.Precedes r := by
  obtain ⟨⟨s, hs⟩, hindent⟩ := hq
  obtain ⟨⟨t, ht⟩, hindent'⟩ := hr
  exact ⟨⟨s ++ t, by rw [ht, hs, String.append_assoc]⟩, hindent'.trans hindent⟩

variable (p)

theorem precedes_put (s : String) : p.Precedes (p.put s) where
  written := ⟨"".pushn ' ' p.pending ++ s, String.append_assoc⟩
  indent := rfl

theorem precedes_keep (b : Break) : p.Precedes (p.keep b) where
  written := ⟨b.kept, rfl⟩
  indent := rfl

theorem precedes_unless (s : String) : p.Precedes (if s = "" then p else p.put s) := by
  split
  · exact p.precedes_self
  · exact p.precedes_put s

theorem precedes_newLine (b : Break) : p.Precedes (p.newLine b) := by
  -- the line ends between what is written on it and what begins the next one
  have hend (q : Page) (room : Int) (pending : Nat) :
      q.Precedes ⟨q.written ++ "\n", room, q.indent, pending⟩ := ⟨⟨"\n", rfl⟩, rfl⟩
  exact (p.precedes_unless b.before).trans ((hend _ _ _).trans (precedes_unless _ b.after))

end Page

mutual

theorem Doc.precedes_set (setting : Setting) (tail : Nat) :
    ∀ (d : Doc) (p : Page), p.Precedes (d.set setting tail p)
  | .text s, p => p.precedes_put s
  | .overfull, p => p.precedes_self
  | .line b, p => by
    rw [Doc.set]
    split
    · exact p.precedes_keep b
    · exact p.precedes_newLine b
  | .box consistent indent body, p => by
    rw [Doc.set]
    split
    · exact precedes_setAll .fits tail body p
    · exact ⟨(precedes_setAll _ tail body { p with indent := p.indent + indent }).written, rfl⟩

theorem precedes_setAll (setting : Setting) (after : Nat) :
    ∀ (ds : List Doc) (p : Page), p.Precedes (setAll setting after ds p)
  | [], p => p.precedes_self
  | d :: ds, p => (d.precedes_set setting _ p).trans (precedes_setAll setting after ds _)

end

theorem reach_append (after : Nat) (ds es : List Doc) :
    reach after (ds ++ es) = reach (reach after es) ds := by
  induction ds with
  | nil => rfl
  | cons d ds ih => cases d <;> simp [reach, ih]

theorem setAll_append (setting : Setting) (after : Nat) (ds es : List Doc) (p : Page) :
    setAll setting after (ds ++ es) p =
      setAll setting after es (setAll setting (reach after es) ds p) := by
  induction ds generalizing p with
  | nil => rfl
  | cons d ds ih => rw [List.cons_append, setAll, setAll, reach_append, ih]

theorem widthOf_append (ds es : List Doc) : widthOf (ds ++ es) = widthOf ds + widthOf es := by
  induction ds with
  | nil => simp [widthOf]
  | cons d ds ih => rw [List.cons_append, widthOf, widthOf, ih, Nat.add_assoc]

/-! ## Lines that begin -/

/-- A page where a line begins that is not indented into the void. -/
structure Page.Fresh (p : Page) : Prop where
  indent : 0 ≤ p.indent
  room : p.room < unlimited
  pending : p.pending = p.indent.toNat
  written : p.written = "" ∨ ∃ s, p.written = s ++ "\n"

/-- Inside of boxes that are not indented less than none at all. -/
def Page.Deep (p : Page) : Prop := 0 ≤ p.indent

theorem Page.Fresh.deep {p : Page} (h : p.Fresh) : p.Deep := h.indent

theorem fresh_newLine {p : Page} (h : p.Deep) (n : Nat) :
    (p.newLine { blanks := n }).Fresh where
  indent := h
  room := by
    have : 0 ≤ p.indent := h
    simp only [Page.newLine, margin, leastRoom, unlimited, if_true]
    omega
  pending := by simp [Page.newLine]
  written := .inr ⟨p.written, rfl⟩

/-- A text that starts with what a broken box writes on a page with `P`. -/
def Sets (P : Page → Prop) (ds : List Doc) (text : String) : Prop :=
  ∃ (p : Page) (after : Nat) (rest : String),
    P p ∧ text = (setAll (.broken true) after ds p).written ++ rest

section
variable {P : Page → Prop} {ds es : List Doc} {text : String}

theorem Sets.left (h : Sets P (ds ++ es) text) : Sets P ds text := by
  obtain ⟨p, after, rest, hp, rfl⟩ := h
  obtain ⟨s, hs⟩ := (precedes_setAll (.broken true) after es
    (setAll (.broken true) (reach after es) ds p)).written
  exact ⟨p, reach after es, s ++ rest, hp, by rw [setAll_append, hs, String.append_assoc]⟩

/-- The line ends at every place of a broken box. -/
theorem Sets.next {n : Nat} (h : Sets P (ds ++ .line { blanks := n } :: es) text)
    (hP : ∀ p, P p → p.Deep) : Sets Page.Fresh es text := by
  obtain ⟨p, after, rest, hp, rfl⟩ := h
  rw [setAll_append]
  have hindent := (precedes_setAll (.broken true)
    (reach after (.line { blanks := n } :: es)) ds p).indent
  generalize setAll (.broken true) _ ds p = q at hindent
  have hdeep : q.Deep := by
    rw [Page.Deep, hindent]
    exact hP p hp
  exact ⟨q.newLine { blanks := n }, after, rest, fresh_newLine hdeep n, rfl⟩

theorem Sets.box {indent : Int} (h : Sets Page.Fresh (.box true indent ds :: es) text)
    (hwidth : unlimited ≤ widthOf ds) (hindent : 0 ≤ indent) : Sets Page.Deep ds text := by
  have hbox : Sets Page.Fresh ([.box true indent ds] ++ es) text := h
  obtain ⟨p, after, rest, hp, rfl⟩ := hbox.left
  have hbroken : ¬ ((widthOf ds + reach after [] : Nat) : Int) ≤ p.room := by
    have := hp.room
    omega
  refine ⟨{ p with indent := p.indent + indent }, reach after [], rest,
    Int.add_nonneg hp.indent hindent, ?_⟩
  rw [setAll, setAll, Doc.set, if_neg (by exact_mod_cast hbroken)]

end

/-- What begins a line somewhere in a text. -/
def Begins (text : String) (ds : List Doc) : Prop := ∃ es, Sets Page.Fresh (ds ++ es) text

section
variable {text : String} {ds es : List Doc} {lines : List (List Doc)} {line : List Doc}

theorem Begins.left (h : Begins text (ds ++ es)) : Begins text ds := by
  obtain ⟨es', h⟩ := h
  exact ⟨es ++ es', by rwa [← List.append_assoc]⟩

/-- Each line of its own is set where a line begins. -/
theorem begins_of_mem_separated (h : Begins text (separated (newLine 0) lines))
    (hmem : line ∈ lines) : Begins text line := by
  induction lines with
  | nil => cases hmem
  | cons first lines ih =>
    cases lines with
    | nil =>
      obtain rfl := List.mem_singleton.mp hmem
      exact h
    | cons second lines =>
      rw [separated, List.append_assoc] at h
      · rcases List.mem_cons.mp hmem with rfl | hmem
        · exact h.left
        · obtain ⟨es, h⟩ := h
          rw [List.append_assoc] at h
          exact ih ⟨es, h.next fun _ => Page.Fresh.deep⟩ hmem
      · exact List.cons_ne_nil _ _

theorem unlimited_le_widthOf_braced (h : lines ≠ []) (ds : List Doc) :
    unlimited ≤ widthOf (ds ++ braced lines) := by
  have hlines : lines.isEmpty = false := by simpa using h
  rw [braced, hlines, widthOf_append]
  simp only [Bool.false_eq_true, if_false, widthOf_append, newLine, widthOf, Doc.width]
  omega

/-- What stands between braces begins lines. -/
theorem begins_of_mem_braced (h : Begins text (even step (ds ++ braced lines) ++ es))
    (hmem : line ∈ lines) : Begins text line := by
  obtain ⟨es', h⟩ := h
  have hne : lines ≠ [] := List.ne_nil_of_mem hmem
  have hdeep : Sets Page.Deep (ds ++ braced lines) text :=
    Sets.box h (unlimited_le_widthOf_braced hne ds) (by decide)
  rw [braced, if_neg (by simpa using hne), List.append_assoc] at hdeep
  exact begins_of_mem_separated ⟨_, hdeep.next fun _ => id⟩ hmem

end

/-! ## Lines of documentation -/

/-- A line of documentation as a doc comment. -/
def commentLine (line : String) : String := "///" ++ if line = "" then "" else " " ++ line

/-- Lines of documentation as they stand `indent` blanks deep in the code. -/
def commentLines (indent : Nat) (lines : List String) : List String :=
  lines.map fun line => "".pushn ' ' indent ++ commentLine line

theorem toList_indent (n : Nat) : ("".pushn ' ' n).toList = List.replicate n ' ' := by
  rw [String.pushn_eq_repeat_push]
  induction n with
  | zero => rfl
  | succ n ih => rw [Nat.repeat, String.toList_push, ih, List.replicate_succ']

theorem Page.Fresh.note {p : Page} (h : p.Fresh) (line : String) (n : Nat) :
    ((p.put line).newLine { blanks := n }).Fresh ∧
      ((p.put line).newLine { blanks := n }).indent = p.indent ∧
      ((p.put line).newLine { blanks := n }).written =
        p.written ++ ("".pushn ' ' p.indent.toNat ++ line ++ "\n") := by
  refine ⟨fresh_newLine (p := p.put line) h.deep n, rfl, ?_⟩
  simp [Page.newLine, Page.put, Page.flush, h.pending, String.append_assoc]

/-- Each line of documentation is written on a line of its own. -/
theorem setAll_documentation (ls : List String) (after : Nat) (es : List Doc) {p : Page}
    (hp : p.Fresh) : ∃ q : Page,
      setAll (.broken true) after ((ls.map fun line => Note.documentation
        (if line = "" then "" else " " ++ line)).flatMap Note.docs ++ es) p =
          setAll (.broken true) after es q ∧
      q.Fresh ∧ q.indent = p.indent ∧
      q.written = p.written ++ String.join ((commentLines p.indent.toNat ls).map (· ++ "\n")) := by
  induction ls generalizing p with
  | nil => exact ⟨p, rfl, hp, rfl, by simp [commentLines]⟩
  | cons l ls ih =>
    obtain ⟨hfresh, hindent, hwritten⟩ := hp.note (commentLine l) unlimited
    obtain ⟨q, hset, hq, hqindent, hqwritten⟩ := ih hfresh
    refine ⟨q, hset, hq, hqindent.trans hindent, ?_⟩
    rw [hqwritten, hwritten, hindent, String.append_assoc]
    simp [commentLines, String.join_cons]

/-- A documentation text is shown in a text: its lines are consecutive lines of it, as doc comments
that are equally deep in the code. -/
def Shows (text documentation : String) : Prop :=
  ∃ indent, commentLines indent (lines documentation) <:+: lines text

theorem unbroken_commentLines (indent : Nat) {ls : List String}
    (h : ∀ l ∈ ls, Unbroken l.toList) : ∀ l ∈ commentLines indent ls, Unbroken l.toList := by
  intro l hl
  obtain ⟨line, hline, rfl⟩ := List.mem_map.mp hl
  have hindent : Unbroken ("".pushn ' ' indent).toList := by simp [toList_indent, Unbroken]
  have hcomment : Unbroken (commentLine line).toList := by
    have hline := h line hline
    simp only [Unbroken, commentLine] at hline ⊢
    split <;> simp [hline]
  rw [String.toList_append]
  exact hindent.append hcomment

section
variable {text : String} {notes : List Note} {ds : List Doc}

/-- Behind notes the next line begins. -/
theorem Begins.behind_notes (h : Begins text (notesDocs notes ++ ds)) : Begins text ds := by
  induction notes with
  | nil => exact h
  | cons note notes ih =>
    obtain ⟨es, h⟩ := h
    have hline (s : String) (n : Nat)
        (h : Sets Page.Fresh
          (word s ++ .line { blanks := n } :: (notesDocs notes ++ ds ++ es)) text) :
        Begins text ds := ih ⟨es, h.next fun _ => Page.Fresh.deep⟩
    cases note with
    | documentation line => exact hline ("///" ++ line) unlimited h
    | bracket s => exact hline ("#[" ++ s ++ "]") 1 h

theorem Begins.shows {documentation : String} (h : Begins text
      (notesDocs (documentationNotes (some documentation) ++ notes) ++ ds))
    (hunbroken : ∀ l ∈ Text.lines documentation, Unbroken l.toList) : Shows text documentation := by
  obtain ⟨es, p, after, rest, hp, rfl⟩ := h
  rw [notesDocs, List.flatMap_append, List.append_assoc, List.append_assoc, documentationNotes]
  obtain ⟨q, hset, -, -, hq⟩ := setAll_documentation (Text.lines documentation) after
    (notes.flatMap Note.docs ++ (ds ++ es)) hp
  obtain ⟨s, hs⟩ :=
    (precedes_setAll (.broken true) after (notes.flatMap Note.docs ++ (ds ++ es)) q).written
  refine ⟨p.indent.toNat, ?_⟩
  rw [hset, hs, hq, String.append_assoc, String.append_assoc]
  exact infix_lines hp.written (unbroken_commentLines _ hunbroken) _

end

/-! ## Files -/

/-- The lines of a file begin lines, in however many modules they are. -/
theorem begins_of_mem_moduleDocs {text : String} {lines : List (List Doc)} {line : List Doc}
    {names : List String} (h : ∀ ds ∈ moduleDocs lines names, Begins text ds)
    (hmem : line ∈ lines) : Begins text line := by
  induction names with
  | nil => exact h line hmem
  | cons name names ih =>
    exact ih fun ds hds => begins_of_mem_braced (h _ (List.mem_singleton_self _)) hds

theorem fresh_blank : ({} : Page).Fresh := ⟨by decide, by decide, rfl, .inl rfl⟩

theorem begins_of_mem_items {f : File} {item : Item} (h : item ∈ f.items) :
    Begins f.text item.docs := by
  let lines := headDocs f.documentation f.allowed ++ f.items.map Item.docs
  let body := separated (newLine 0) (moduleDocs lines f.modules) ++ newLine 0
  have hbroken : ¬ ((widthOf body + 0 : Nat) : Int) ≤ ({} : Page).room := by
    simp only [body, newLine, widthOf_append, widthOf, Doc.width, unlimited, margin]
    omega
  have hsets : Sets Page.Fresh body f.text := by
    refine ⟨{}, 0, "", fresh_blank, ?_⟩
    rw [String.append_empty, File.text, layout, even, setAll, setAll, Doc.set,
      if_neg (by exact_mod_cast hbroken)]
    rfl
  have hlines : ∀ ds ∈ moduleDocs lines f.modules, Begins f.text ds :=
    fun ds hds => begins_of_mem_separated ⟨newLine 0, hsets⟩ hds
  exact begins_of_mem_moduleDocs hlines (List.mem_append_right _ (List.mem_map_of_mem h))

end XmlBinding.Code
