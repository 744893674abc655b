import XmlBinding.Proofs.Xml.Outline

/-! # Calls to a writer

A writer takes calls in any order, and a call that fails leaves it as it was. Whatever the calls
have been, the tags that are written match by name: read in order with a stack they leave what has
been entered and not left, apart from an element whose start tag is still pending, which is always
the innermost one.
-/
namespace XmlBinding.Xml
open XmlBinding.Tree

inductive Call where
  | declare
  | enter (name : String) (uri : Option String)
  | attach (name value : String)
  | text (value : String)
  | leave
deriving DecidableEq, Repr

/-! ## Tags and a stack -/

/-- Reads a tag with the names of the elements around it, innermost first. An end tag that does not
match the innermost one cannot be read. -/
def readTag (names : List String) : Piece → Option (List String)
  | .startTag name _ => some (name :: names)
  | .endTag name => if names.head? = some name then some names.tail else none
  | .emptyTag .. | .text _ | .declaration => some names

def readTags (names : List String) (pieces : List Piece) : Option (List String) :=
  pieces.foldlM readTag names

theorem readTags_concat (names : List String) (ps : List Piece) (p : Piece) :
    readTags names (ps ++ [p]) = (readTags names ps).bind (readTag · p) := by
  simp [readTags]

/-! ## What calls amount to -/

/-- The elements that have been entered and not left, innermost first, and whether the last of the
calls that could finish a start tag was one that began it. -/
structure Progress where
  opened : List String := []
  pending : Bool := false
deriving DecidableEq, Repr

namespace Progress

def next (p : Progress) : Call → Progress
  | .enter name _ => ⟨name :: p.opened, true⟩
  | .text _ => ⟨p.opened, false⟩
  | .leave => ⟨p.opened.tail, false⟩
  | .attach .. | .declare => p

def after (calls : List Call) : Progress := calls.foldl next {}

/-- The names of the elements whose start tag is finished. -/
def entered (p : Progress) : List String := if p.pending then p.opened.tail else p.opened

/-- Why a call is refused. An attribute needs a pending start tag, an end an open element. -/
def refusal? (p : Progress) : Call → Option TreeError
  | .attach name _ => if p.pending then none else some (.attributeOutsideStartTag name)
  | .leave => if p.opened = [] then some .unbalancedEndElement else none
  | .declare | .enter .. | .text _ => none

end Progress

namespace Writer

def perform (w : Writer) : Call → Except TreeError Writer
  | .declare => .ok w.addDeclaration
  | .enter name uri => .ok (w.openElement name uri)
  | .attach name value => w.addAttribute name value
  | .text value => .ok (w.addText value)
  | .leave => w.closeElement

/-- The writer after a call. -/
def call (w : Writer) (c : Call) : Writer := (w.perform c).toOption.getD w

def calls (w : Writer) (cs : List Call) : Writer := cs.foldl call w

/-- The calls that do not fail. -/
def succeeding (w : Writer) : List Call → List Call
  | [] => []
  | c :: cs =>
    if (w.perform c).toOption.isSome then c :: (w.call c).succeeding cs
    else (w.call c).succeeding cs

/-- A writer that has come as far as calls amount to. A pending start tag is always that of the
innermost open element. -/
structure Tracks (w : Writer) (p : Progress) : Prop where
  opened : w.opened.map (·.name) = p.opened
  pending : w.pending.map (·.1) = if p.pending then p.opened.head? else none
  inside : p.pending = true → p.opened ≠ []
  written : readTags [] w.written = some p.entered

theorem tracks_start : Tracks {} {} where
  opened := rfl
  pending := rfl
  inside := nofun
  written := rfl

section
variable {w : Writer} {p : Progress}

theorem Tracks.pending_eq_none_iff (h : w.Tracks p) : w.pending = none ↔ p.pending = false := by
  have hpending := h.pending
  cases hp : p.pending with
  | false => simpa [hp] using hpending
  | true =>
    obtain ⟨name, names, hopened⟩ := List.exists_cons_of_ne_nil (h.inside hp)
    cases hw : w.pending <;> simp_all

theorem Tracks.pending_eq_some (h : w.Tracks p) {name : String}
    {attributes : List (String × String)} (hw : w.pending = some (name, attributes)) :
    p.pending = true ∧ p.opened = name :: p.opened.tail := by
  have hpending := h.pending
  cases hp : p.pending with
  | false => simp [hw, hp] at hpending
  | true =>
    obtain ⟨top, names, hopened⟩ := List.exists_cons_of_ne_nil (h.inside hp)
    simp_all

theorem Tracks.flush (h : w.Tracks p) : readTags [] w.flush.written = some p.opened := by
  have hwritten := h.written
  unfold Writer.flush
  cases hw : w.pending with
  | none =>
    have hp := h.pending_eq_none_iff.mp hw
    simpa [Progress.entered, hp] using hwritten
  | some tag =>
    obtain ⟨hp, hopened⟩ := h.pending_eq_some hw
    rw [readTags_concat, hwritten, Progress.entered, if_pos hp, hopened]
    rfl

theorem Tracks.declare (h : w.Tracks p) : w.addDeclaration.Tracks p where
  opened := h.opened
  pending := h.pending
  inside := h.inside
  written := by
    change readTags [] (w.written ++ [.declaration]) = _
    rw [readTags_concat, h.written]
    rfl

theorem Tracks.enter (h : w.Tracks p) (name : String) (uri : Option String) :
    (w.openElement name uri).Tracks (p.next (.enter name uri)) where
  opened := by simp [openElement, Progress.next, h.opened]
  pending := by simp [openElement, Progress.next]
  inside := by simp [Progress.next]
  written := h.flush

theorem Tracks.text (h : w.Tracks p) (value : String) :
    (w.addText value).Tracks (p.next (.text value)) where
  opened := by simpa [addText, Progress.next] using h.opened
  pending := by simp [addText, Progress.next]
  inside := by simp [Progress.next]
  written := by
    change readTags [] (w.flush.written ++ [.text value]) = _
    rw [readTags_concat, h.flush]
    rfl

theorem Tracks.attach (h : w.Tracks p) {tag : String} {attributes : List (String × String)}
    (hw : w.pending = some (tag, attributes)) (name value : String) :
    { w with pending := some (tag, attributes ++ [(name, value)]) }.Tracks p where
  opened := h.opened
  pending := by simpa [hw] using h.pending
  inside := h.inside
  written := h.written

/-- An element without content is ended by the pending start tag itself, which was not yet among
the tags, any other by a tag with the name of the innermost element among them. -/
theorem Tracks.leave (h : w.Tracks p) {e : OpenElement} {rest : List OpenElement}
    (hw : w.opened = e :: rest) :
    ∃ after, w.closeElement = .ok after ∧ after.Tracks (p.next .leave) := by
  have hopened : p.opened = e.name :: rest.map (·.name) := by rw [← h.opened, hw]; rfl
  unfold closeElement
  rw [hw]
  refine ⟨_, rfl, ?_, ?_, ?_, ?_⟩
  · simp [Progress.next, hopened]
  · simp [Progress.next]
  · simp [Progress.next]
  · cases hpending : w.pending with
    | none =>
      have hp := h.pending_eq_none_iff.mp hpending
      simp [readTags_concat, h.written, Progress.entered, Progress.next, hp, hopened, readTag]
    | some tag =>
      obtain ⟨hp, -⟩ := h.pending_eq_some hpending
      simp [readTags_concat, h.written, Progress.entered, Progress.next, hp, hopened, readTag]

/-- A call is carried out or refused, and a refused one makes no progress. -/
theorem Tracks.perform (h : w.Tracks p) (c : Call) :
    (∃ after, p.refusal? c = none ∧ w.perform c = .ok after ∧ after.Tracks (p.next c)) ∨
      ∃ e, p.refusal? c = some e ∧ w.perform c = .error e ∧ p.next c = p := by
  cases c with
  | declare => exact .inl ⟨_, rfl, rfl, h.declare⟩
  | enter name uri => exact .inl ⟨_, rfl, rfl, h.enter name uri⟩
  | text value => exact .inl ⟨_, rfl, rfl, h.text value⟩
  | attach name value =>
    cases hw : w.pending with
    | none =>
      have hp := h.pending_eq_none_iff.mp hw
      exact .inr ⟨.attributeOutsideStartTag name, by simp [Progress.refusal?, hp],
        by simp [Writer.perform, addAttribute, hw], rfl⟩
    | some tag =>
      have hp := (h.pending_eq_some hw).1
      exact .inl ⟨_, by simp [Progress.refusal?, hp], by simp [Writer.perform, addAttribute, hw],
        h.attach hw name value⟩
  | leave =>
    cases hw : w.opened with
    | nil =>
      have hopened : p.opened = [] := by rw [← h.opened, hw]; rfl
      have hp : p.pending = false := by
        cases hp : p.pending with
        | false => rfl
        | true => exact absurd hopened (h.inside hp)
      have hnext : p.next .leave = p := by
        cases p
        simp_all [Progress.next]
      exact .inr ⟨.unbalancedEndElement, by simp [Progress.refusal?, hopened],
        by simp [Writer.perform, closeElement, hw], hnext⟩
    | cons e rest =>
      have hopened : p.opened ≠ [] := by simp [← h.opened, hw]
      obtain ⟨after, hclose, hafter⟩ := h.leave hw
      exact .inl ⟨after, by simp [Progress.refusal?, hopened], hclose, hafter⟩

theorem Tracks.call (h : w.Tracks p) (c : Call) : (w.call c).Tracks (p.next c) := by
  unfold Writer.call
  obtain ⟨after, -, hperform, hafter⟩ | ⟨e, -, hperform, hnext⟩ := h.perform c
  · rw [hperform]
    exact hafter
  · rw [hperform, hnext]
    exact h

theorem Tracks.calls (h : w.Tracks p) (cs : List Call) :
    (w.calls cs).Tracks (cs.foldl Progress.next p) := by
  induction cs generalizing w p with
  | nil => exact h
  | cons c cs ih => exact ih (h.call c)

theorem Tracks.perform_eq_error_iff (h : w.Tracks p) (c : Call) (e : TreeError) :
    w.perform c = .error e ↔ p.refusal? c = some e := by
  obtain ⟨after, hrefusal, hperform, -⟩ | ⟨e', hrefusal, hperform, -⟩ := h.perform c <;>
    simp [hrefusal, hperform]

end

theorem call_eq_of_perform {w after : Writer} {c : Call} (h : w.perform c = .ok after) :
    w.call c = after := by
  rw [call, h]
  rfl

theorem foldlM_perform_succeeding (w : Writer) (cs : List Call) :
    (w.succeeding cs).foldlM perform w = .ok (w.calls cs) := by
  induction cs generalizing w with
  | nil => rfl
  | cons c cs ih =>
    cases hperform : w.perform c with
    | error e =>
      have hcall : w.call c = w := by rw [call, hperform]; rfl
      simpa [succeeding, hperform, calls, hcall, Except.toOption] using ih w
    | ok after =>
      have hcall := call_eq_of_perform hperform
      simpa [succeeding, hperform, calls, hcall, Except.toOption, bind, Except.bind] using ih after

theorem calls_of_foldlM_perform {w after : Writer} {cs : List Call}
    (h : cs.foldlM perform w = .ok after) : w.calls cs = after := by
  induction cs generalizing w with
  | nil => exact Except.ok.inj h
  | cons c cs ih =>
    cases hperform : w.perform c with
    | error e => simp [hperform, bind, Except.bind] at h
    | ok next =>
      have hrest : cs.foldlM perform next = .ok after := by
        simpa [hperform, bind, Except.bind] using h
      rw [calls, List.foldl_cons, call_eq_of_perform hperform]
      exact ih hrest

end Writer

open Writer in
/-- Whatever the calls: the tags match, and at the end they leave what has been entered and not
left; attributes are refused without a pending start tag and ends without an open element; and the
text is that of the calls that do not fail. -/
theorem tagsMatch_calls (cs : List Call) :
    let w := Writer.calls {} cs
    let p := Progress.after cs
    readTags [] w.written = some p.entered ∧ readTags [] w.flush.written = some p.opened ∧
      (∀ c e, w.perform c = .error e ↔ p.refusal? c = some e) ∧
      (succeeding {} cs).foldlM perform {} = .ok w ∧
      ∀ layout, (calls {} (succeeding {} cs)).toText layout = w.toText layout := by
  have h : (calls {} cs).Tracks (Progress.after cs) := tracks_start.calls cs
  have hsucceeding := foldlM_perform_succeeding {} cs
  exact ⟨h.written, h.flush, h.perform_eq_error_iff, hsucceeding, fun layout => by
    rw [calls_of_foldlM_perform hsucceeding]⟩

/-- A document cut off before its end tags, after calls that fail. -/
example :
    let cs := [.leave, .enter "list" none, .text "a", .attach "unit" "m", .enter "item" none]
    readTags [] (Writer.calls {} cs).flush.written = some ["item", "list"] ∧
      (Writer.succeeding {} cs).length = 3 := by
  decide +kernel

end XmlBinding.Xml
