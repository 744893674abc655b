import XmlBinding.Proofs.Xml.Resolving

/-! # Elements are read in the namespaces they were written in

A default namespace is declared only where it differs from the one around. The one in scope is
always that of the innermost open element, so that an element without a declaration is in the
namespace of its parent, and one with a declaration in its own.
-/
namespace XmlBinding.Xml
open XmlBinding.Tree

/-- An element that a reader of namespaces has no reason to refuse, with allowed characters in its
values, of which the namespace is one. -/
structure Outline.Proper (allowed : Char → Bool) (o : Outline) : Prop where
  name : isNCName o.name = true
  uri : ∀ u ∈ o.uri, u.toList.all allowed = true ∧ u ≠ xmlUri ∧ u ≠ xmlnsUri
  attributes : ∀ a ∈ o.attributes,
    isNCName a.1 = true ∧ a.1 ≠ "xmlns" ∧ a.2.toList.all allowed = true
  nodup : (o.attributes.map (·.1)).Nodup
  text : ∀ t ∈ o.text, t ≠ "" ∧ t.toList.all allowed = true

instance (allowed : Char → Bool) (o : Outline) : Decidable (o.Proper allowed) :=
  decidable_of_iff
    (isNCName o.name = true ∧
      (∀ u ∈ o.uri, u.toList.all allowed = true ∧ u ≠ xmlUri ∧ u ≠ xmlnsUri) ∧
      (∀ a ∈ o.attributes, isNCName a.1 = true ∧ a.1 ≠ "xmlns" ∧ a.2.toList.all allowed = true) ∧
      (o.attributes.map (·.1)).Nodup ∧ ∀ t ∈ o.text, t ≠ "" ∧ t.toList.all allowed = true)
    ⟨fun ⟨hn, hu, ha, hd, ht⟩ => ⟨hn, hu, ha, hd, ht⟩,
      fun h => ⟨h.name, h.uri, h.attributes, h.nodup, h.text⟩⟩

mutual

/-- An element with the name, attributes, text and children of an outline. No namespace and the
empty namespace are the same. -/
inductive Outline.ReadAs : Outline → Element → Prop
  | intro {name : String} {uri resolved : Option String} {attributes : List (String × String)}
      {text : Option String} {children : List Outline} {scope : Scope} {content : List Content}
      (sameNamespace : resolved.getD "" = uri.getD "")
      (sameChildren : ChildrenReadAs children content) :
      Outline.ReadAs ⟨name, uri, attributes, text, children⟩
        ⟨⟨resolved, name⟩, attributes.map fun a => ⟨⟨none, a.1⟩, a.2⟩, scope,
          text.toList.map Content.text ++ content⟩

inductive ChildrenReadAs : List Outline → List Content → Prop
  | nil : ChildrenReadAs [] []
  | cons {o : Outline} {os : List Outline} {e : Element} {content : List Content}
      (first : o.ReadAs e) (rest : ChildrenReadAs os content) :
      ChildrenReadAs (o :: os) (.element e :: content)

end

/-- The default namespace in scope. -/
def Scope.default (scope : Scope) : String := (scope.lookup none).getD ""

theorem default_inner {scope : Scope} {outer : Option String} (h : scope.default = outer.getD "")
    (uri : Option String) : ((bindingsOf outer uri).inner scope).default = uri.getD "" := by
  rw [bindingsOf]
  by_cases hu : uri = outer
  · have hinner : Scope.inner [] scope = scope := by simp [Scope.inner]
    rw [if_pos hu, hinner, h, hu]
  · rw [if_neg hu]
    rfl

theorem textContent_eq {text : Option String} (h : ∀ t ∈ text, t ≠ "") :
    textContent text = text.toList.map Content.text := by
  cases text with
  | none => rfl
  | some t => exact if_neg (h t rfl)

mutual

/-- The invariant is that the default namespace in scope is that of the element around. -/
theorem Outline.readAs_element : ∀ (o : Outline) {outer : Option String} {scope : Scope},
    scope.default = outer.getD "" → (∀ p ∈ o.outlines, ∀ t ∈ p.text, t ≠ "") →
      o.ReadAs (o.element outer scope)
  | ⟨name, uri, attributes, text, children⟩, outer, scope, hscope, htext => by
    obtain ⟨ho, hchildren⟩ := List.forall_mem_cons.mp htext
    have hinner := default_inner hscope uri
    rw [Outline.element, textContent_eq ho]
    exact .intro hinner (childrenReadAs_outlineContents children hinner hchildren)

theorem childrenReadAs_outlineContents : ∀ (os : List Outline) {outer : Option String}
    {scope : Scope}, scope.default = outer.getD "" →
      (∀ p ∈ outlinesIn os, ∀ t ∈ p.text, t ≠ "") →
        ChildrenReadAs os (outlineContents outer scope os)
  | [], _, _, _, _ => .nil
  | o :: os, _, _, hscope, htext => by
    obtain ⟨ho, hos⟩ := List.forall_mem_append.mp htext
    exact .cons (o.readAs_element hscope ho) (childrenReadAs_outlineContents os hscope hos)

end

/-- A character that documents may hold and that attributes keep as it is. -/
def isPlain (c : Char) : Bool := isXmlChar c && isKept c

theorem all_isPlain {s : List Char} (h : s.all isPlain = true) :
    s.all isXmlChar = true ∧ s.all isKept = true := by
  simpa [isPlain, List.all_eq_true, forall_and] using h

theorem Outline.Proper.faithful {o : Outline} (h : o.Proper isPlain) : o.Faithful where
  name := h.name
  uri u hu := (all_isPlain (h.uri u hu).1).1
  attributes a ha := ⟨(h.attributes a ha).1, (all_isPlain (h.attributes a ha).2.2).1⟩
  text t ht := (all_isPlain (h.text t ht).2).1
  nodup := h.nodup
  undeclared a ha := (h.attributes a ha).2.1
  kept a ha := (all_isPlain (h.attributes a ha).2.2).2
  uriKept u hu := ⟨(all_isPlain (h.uri u hu).1).2, (h.uri u hu).2⟩
  textKept t ht hcr := by
    have hkept := List.all_eq_true.mp (all_isPlain (h.text t ht).2).2 _ hcr
    exact absurd hkept (by decide)

theorem Outline.exists_write (o : Outline) :
    ∃ w, o.write {} = .ok w ∧ w.toText .plain = Layout.plain.render (o.pieces none) :=
  ⟨_, o.write_eq {}, rfl⟩

/-- What a new writer is told about an element is what is read from its text. -/
theorem Outline.exists_readAs_of_write {o : Outline} (h : ∀ p ∈ o.outlines, p.Proper isPlain)
    (allow : Bool) :
    ∃ w e, o.write {} = .ok w ∧ readDocument allow (w.toText .plain) = .ok e ∧ o.ReadAs e := by
  obtain ⟨w, hwrite, htext⟩ := o.exists_write
  have hread : readDocument allow (w.toText .plain) = .ok (o.element none []) :=
    htext ▸ readDocument_pieces (fun p hp => (h p hp).faithful) allow
  exact ⟨w, _, hwrite, hread, o.readAs_element rfl fun p hp t ht => ((h p hp).text t ht).1⟩

/-- Namespaces that change from element to element, and back to none. -/
def mixedOutline : Outline :=
  ⟨"Root", some "urn:a", [("Name", "x < y")], none,
    [⟨"Child", some "urn:a", [], some "a & b", [⟨"Inner", some "urn:b", [], none, []⟩]⟩,
      ⟨"Other", none, [("xml", "'")], none, [⟨"Last", some "", [], some " ", []⟩]⟩]⟩

theorem mixedOutline_readAs_of_write :
    (∀ p ∈ mixedOutline.outlines, p.Proper isPlain) ∧
      ∃ w e, mixedOutline.write {} = .ok w ∧ readDocument false (w.toText .plain) = .ok e ∧
        mixedOutline.ReadAs e :=
  ⟨by decide, Outline.exists_readAs_of_write (by decide) false⟩

/-- A control character of either range. -/
def isControl (c : Char) : Bool := c.toNat < 0x20 || 0x7F ≤ c.toNat && c.toNat ≤ 0x9F

/-- A text that is no control character, and no character of a document either. -/
def nonCharacter : Outline := ⟨"r", none, [], some "\ufffe", []⟩

/-- Writers do not look at the characters of a value, but readers do. -/
theorem not_readAs_of_write_nonCharacter :
    ¬ ∀ o : Outline, (∀ p ∈ o.outlines, p.Proper fun c => !isControl c) →
      ∃ w e, o.write {} = .ok w ∧ readDocument false (w.toText .plain) = .ok e ∧ o.ReadAs e := by
  intro h
  obtain ⟨w, e, hwrite, hread, -⟩ := h nonCharacter (by decide)
  obtain ⟨w', hwrite', htext⟩ := nonCharacter.exists_write
  obtain rfl : w' = w := Except.ok.inj (hwrite'.symm.trans hwrite)
  have hrefused : (readDocument false
      (Layout.plain.render (nonCharacter.pieces none))).toOption.isNone = true := by
    decide +kernel
  rw [← htext, hread] at hrefused
  cases hrefused

end XmlBinding.Xml
