import XmlBinding.Proofs.Xml.Congruence

/-! # What elements come down to

The gist of an element leaves out comments and instructions and does not tell where the text of the
element is cut in pieces. Builders that agree on the gists of what is open stay in agreement when
the same tokens are added to both, and when a comment or an instruction is added to one of them.
-/
namespace XmlBinding.Xml

structure Gist where
  name : ExpandedName
  attributes : List Attribute
  text : Option String
  children : List Gist

/-- All texts as one, if there are any. -/
def joinedText (content : List Content) : Option String :=
  let texts := content.filterMap Content.text?
  if texts.isEmpty then none else some (String.join texts)

def Element.gist (e : Element) : Gist :=
  ⟨e.name, e.attributes, joinedText e.content, e.elements.attach.map fun c => c.val.gist⟩
termination_by sizeOf e
decreasing_by exact Element.sizeOf_lt_of_mem c.property

theorem Element.gist_eq (e : Element) :
    e.gist = ⟨e.name, e.attributes, joinedText e.content, e.elements.map Element.gist⟩ := by
  rw [gist, List.attach_map_val]

/-- What more content adds to a gist. -/
def Gist.add (g : Gist) : Content → Gist
  | .element e => { g with children := g.children ++ [e.gist] }
  | .text t => { g with text := some (g.text.getD "" ++ t) }
  | .comment _ => g
  | .instruction .. => g

theorem joinedText_append_text (content : List Content) (t : String) :
    joinedText (content ++ [.text t]) = some ((joinedText content).getD "" ++ t) := by
  rw [joinedText, joinedText]
  cases h : content.filterMap Content.text? with
  | nil => simp [h, Content.text?]
  | cons s texts => simp [h, Content.text?, String.join_append, String.append_assoc]

theorem joinedText_append {c : Content} (hc : c.text? = none) (content : List Content) :
    joinedText (content ++ [c]) = joinedText content := by
  simp [joinedText, hc]

theorem Element.gist_append (e : Element) (c : Content) :
    ({ e with content := e.content ++ [c] } : Element).gist = e.gist.add c := by
  rw [gist_eq, gist_eq e]
  cases c with
  | text t => simp [Gist.add, elements, Content.element?, joinedText_append_text]
  | _ =>
    rw [joinedText_append rfl]
    simp [Gist.add, elements, Content.element?]

/-- Texts add as much together as they do one by one. -/
theorem Gist.add_text_text (g : Gist) (s t : String) :
    (g.add (.text s)).add (.text t) = g.add (.text (s ++ t)) := by
  simp [add, String.append_assoc]

theorem addContent_cases (content : List Content) (c : Content) :
    addContent content c = c :: content ∨ ∃ s before t, content = .text s :: before ∧ c = .text t ∧
      addContent content c = .text (s ++ t) :: before := by
  unfold addContent
  split
  · exact .inr ⟨_, _, _, rfl, rfl, rfl⟩
  · exact .inl rfl

/-- An open element keeps its content last piece first, and adjacent texts as one. -/
theorem Frame.gist_add (f : Frame) (c : Content) :
    ({ f with content := addContent f.content c } : Frame).element.gist =
      f.element.gist.add c := by
  have happend (before : List Content) (c : Content) :
      ({ f with content := c :: before } : Frame).element.gist =
        ({ f with content := before } : Frame).element.gist.add c := by
    rw [← Element.gist_append]
    simp [Frame.element]
  rcases addContent_cases f.content c with h | ⟨s, before, t, hf, rfl, h⟩
  · rw [h, happend]
  · have hgist : f.element.gist =
        ({ f with content := before } : Frame).element.gist.add (.text s) := by
      rw [← happend, ← hf]
    rw [h, happend, hgist, Gist.add_text_text]

/-- Open elements of the same tag and the same gist. -/
structure Frame.Agrees (f f' : Frame) : Prop where
  pfx : f.pfx = f'.pfx
  scope : f.scope = f'.scope
  gist : f.element.gist = f'.element.gist

namespace Frame.Agrees

variable {f f' : Frame}

theorem name (h : f.Agrees f') : f.name = f'.name := by
  have hname := congrArg Gist.name h.gist
  rwa [Element.gist_eq, Element.gist_eq] at hname

theorem elements (h : f.Agrees f') :
    f.element.elements.map Element.gist = f'.element.elements.map Element.gist := by
  have hchildren := congrArg Gist.children h.gist
  rwa [Element.gist_eq, Element.gist_eq] at hchildren

theorem add (h : f.Agrees f') {c c' : Content}
    (hc : f.element.gist.add c = f.element.gist.add c') :
    Frame.Agrees { f with content := addContent f.content c }
      { f' with content := addContent f'.content c' } where
  pfx := h.pfx
  scope := h.scope
  gist := by rw [Frame.gist_add, Frame.gist_add, hc, h.gist]

end Frame.Agrees

/-- What stands outside of all elements, as if there were one around it. -/
def Builder.outer (b : Builder) : Frame := ⟨"", ⟨none, ""⟩, [], [], b.outside⟩

/-- Builders with the same elements open, up to their gists. -/
structure Builder.Agrees (b b' : Builder) : Prop where
  opened : List.Forall₂ Frame.Agrees b.opened b'.opened
  outside : b.outer.Agrees b'.outer
  count : b.count = b'.count

namespace Builder.Agrees

variable {b b' : Builder}

/-- Content that adds the same to every gist can be added. -/
theorem add (h : b.Agrees b') {c c' : Content} (hc : ∀ g : Gist, g.add c = g.add c') :
    (b.add c).Agrees (b'.add c') := by
  obtain ⟨opened, outside, count⟩ := b
  obtain ⟨opened', outside', count'⟩ := b'
  obtain ⟨hopened, houtside, hcount⟩ := h
  cases hopened with
  | nil => exact ⟨.nil, houtside.add (hc _), hcount⟩
  | cons hf hfs => exact ⟨.cons (hf.add (hc _)) hfs, houtside, hcount⟩

theorem refl (b : Builder) : b.Agrees b :=
  ⟨List.forall₂_same.mpr fun _ _ => ⟨rfl, rfl, rfl⟩, ⟨rfl, rfl, rfl⟩, rfl⟩

/-- What adds nothing to any gist can be added to one of two builders. -/
theorem add_right (h : b.Agrees b') {c : Content} (hc : ∀ g : Gist, g.add c = g) :
    b.Agrees (b'.add c) := by
  have hframe {f f' : Frame} (hf : f.Agrees f') :
      f.Agrees { f' with content := addContent f'.content c } :=
    ⟨hf.pfx, hf.scope, by rw [Frame.gist_add, hc, hf.gist]⟩
  obtain ⟨opened, outside, count⟩ := b
  obtain ⟨opened', outside', count'⟩ := b'
  obtain ⟨hopened, houtside, hcount⟩ := h
  cases hopened with
  | nil => exact ⟨.nil, hframe houtside, hcount⟩
  | cons hf hfs => exact ⟨.cons (hframe hf) hfs, houtside, hcount⟩

theorem scope (h : b.Agrees b') : b.scope = b'.scope := by
  obtain ⟨opened, outside, count⟩ := b
  obtain ⟨opened', outside', count'⟩ := b'
  cases h.opened with
  | nil => rfl
  | cons hf _ => exact hf.scope

theorem closeTag (h : b.Agrees b') : Option.Rel Builder.Agrees b.closeTag b'.closeTag := by
  obtain ⟨opened, outside, count⟩ := b
  obtain ⟨opened', outside', count'⟩ := b'
  obtain ⟨hopened, houtside, hcount⟩ := h
  cases hopened with
  | nil => exact .none
  | cons hf hfs =>
    have houter : Builder.Agrees ⟨_, outside, count⟩ ⟨_, outside', count'⟩ :=
      ⟨hfs, houtside, hcount⟩
    apply Option.Rel.some
    apply houter.add
    intro g
    rw [Gist.add, Gist.add, hf.gist]

theorem closeNamed (h : b.Agrees b') (pfx localName : String) :
    Option.Rel Builder.Agrees (b.closeNamed pfx localName) (b'.closeNamed pfx localName) :=
  Builder.closeNamed_rel h.opened (fun _ _ hf => ⟨hf.pfx, hf.name⟩) h.closeTag pfx localName

theorem openTag (h : b.Agrees b') (entities : List Entity) (levels : Nat) (pfx localName : String)
    (attributes : List RawAttribute) :
    Option.Rel Builder.Agrees (b.openTag entities levels pfx localName attributes)
      (b'.openTag entities levels pfx localName attributes) := by
  rw [Builder.openTag, Builder.openTag, ← h.count, ← h.scope]
  split
  · exact .none
  · apply optionRel_bind (R := Eq) (optionRel_self _ fun _ _ => rfl)
    rintro declared _ rfl
    apply optionRel_bind (R := Eq) (optionRel_self _ fun _ _ => rfl)
    rintro name _ rfl
    apply optionRel_bind (R := Eq) (optionRel_self _ fun _ _ => rfl)
    rintro resolved _ rfl
    exact .some ⟨.cons ⟨rfl, rfl, rfl⟩ h.opened, h.outside, rfl⟩

end Builder.Agrees

theorem congruence_agrees : Congruence fun _ => Builder.Agrees where
  add h _ _ := h.add fun _ => rfl
  openTag h entities _ pfx localName attributes := h.openTag entities _ pfx localName attributes
  closeTag h := h.closeTag
  closeNamed h pfx localName := h.closeNamed pfx localName
  count h := h.count
  enter h _ _ := ⟨h.opened, h.outside, rfl⟩
  leave h := ⟨h.opened, h.outside, congrArg (countAfter _) h.count⟩

end XmlBinding.Xml
