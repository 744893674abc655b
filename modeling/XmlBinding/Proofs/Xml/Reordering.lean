import XmlBinding.Proofs.Xml.AttributeReading
import XmlBinding.Proofs.Xml.Congruence

/-! # Documents with attributes in another order

Builders that take in tokens with their attributes in another order stay alike, also while they are
inside of entities, or both fail. So documents that differ only in the order of the attributes
inside start tags are read as elements that differ only in the order of their attributes, or neither
is read.
-/
namespace XmlBinding.Xml

mutual

/-- Elements that differ at most in the order of attributes. -/
inductive Element.Reordered : Element → Element → Prop
  | intro {e e' : Element} (name : e.name = e'.name)
      (attributes : e.attributes.Perm e'.attributes)
      (content : ContentReordered e.content e'.content) : Element.Reordered e e'

inductive ContentReordered : List Content → List Content → Prop
  | nil : ContentReordered [] []
  | element {e e' : Element} {cs cs' : List Content} (he : e.Reordered e')
      (hcs : ContentReordered cs cs') : ContentReordered (.element e :: cs) (.element e' :: cs')
  | other {c : Content} {cs cs' : List Content} (hc : c.element? = none)
      (hcs : ContentReordered cs cs') : ContentReordered (c :: cs) (c :: cs')

end

namespace ContentReordered
variable {cs cs' ds ds' : List Content}

theorem append (h : ContentReordered cs cs') (h' : ContentReordered ds ds') :
    ContentReordered (cs ++ ds) (cs' ++ ds') := by
  induction cs generalizing cs' with
  | nil =>
    cases h
    exact h'
  | cons c cs ih =>
    cases h with
    | element he hcs => exact .element he (ih hcs)
    | other hc hcs => exact .other hc (ih hcs)

theorem reverse (h : ContentReordered cs cs') : ContentReordered cs.reverse cs'.reverse := by
  induction cs generalizing cs' with
  | nil =>
    cases h
    exact .nil
  | cons c cs ih =>
    cases h with
    | element he hcs =>
      rw [List.reverse_cons, List.reverse_cons]
      exact (ih hcs).append (.element he .nil)
    | other hc hcs =>
      rw [List.reverse_cons, List.reverse_cons]
      exact (ih hcs).append (.other hc .nil)

/-- Adjacent texts are one text on both sides. -/
theorem addContent_other (h : ContentReordered cs cs') {c : Content} (hc : c.element? = none) :
    ContentReordered (addContent cs c) (addContent cs' c) := by
  have hcons (content : List Content) (hcontent : ∀ s before, content ≠ .text s :: before) :
      addContent content c = c :: content := by
    unfold addContent
    split
    · next heq => exact absurd rfl (hcontent _ _)
    · rfl
  cases h with
  | nil =>
    rw [hcons [] (by simp)]
    exact .other hc .nil
  | element he hcs =>
    rw [hcons _ (by simp), hcons _ (by simp)]
    exact .other hc (.element he hcs)
  | @other d cs cs' hd hcs =>
    cases d with
    | element e => cases hd
    | text s =>
      cases c with
      | element e => cases hc
      | text t => exact .other rfl hcs
      | _ => exact .other rfl (.other rfl hcs)
    | _ =>
      rw [hcons _ (by simp), hcons _ (by simp)]
      exact .other hc (.other rfl hcs)

theorem addContent_element (h : ContentReordered cs cs') {e e' : Element} (he : e.Reordered e') :
    ContentReordered (addContent cs (.element e)) (addContent cs' (.element e')) := by
  rw [Xml.addContent_element, Xml.addContent_element]
  exact .element he h

end ContentReordered

/-- Open elements that differ at most in the order of attributes, with scopes that are alike. -/
structure Frame.Reordered (f f' : Frame) : Prop where
  pfx : f.pfx = f'.pfx
  name : f.name = f'.name
  attributes : f.attributes.Perm f'.attributes
  scope : f.scope.Alike f'.scope
  content : ContentReordered f.content f'.content

structure Builder.Reordered (levels : Nat) (b b' : Builder) : Prop where
  opened : List.Forall₂ Frame.Reordered b.opened b'.opened
  outside : ContentReordered b.outside b'.outside
  count : b.count = b'.count
  steady : Steady levels b.count

namespace Builder.Reordered
variable {levels : Nat} {b b' : Builder}

theorem add_other (h : Reordered levels b b') {c : Content} (hc : c.element? = none) :
    Reordered levels (b.add c) (b'.add c) := by
  obtain ⟨opened, outside, count⟩ := b
  obtain ⟨opened', outside', count'⟩ := b'
  obtain ⟨hopened, houtside, hcount, hsteady⟩ := h
  cases hopened with
  | nil => exact ⟨.nil, houtside.addContent_other hc, hcount, hsteady⟩
  | cons hf hfs =>
    exact ⟨.cons ⟨hf.pfx, hf.name, hf.attributes, hf.scope, hf.content.addContent_other hc⟩ hfs,
      houtside, hcount, hsteady⟩

theorem add_element (h : Reordered levels b b') {e e' : Element} (he : e.Reordered e') :
    Reordered levels (b.add (.element e)) (b'.add (.element e')) := by
  obtain ⟨opened, outside, count⟩ := b
  obtain ⟨opened', outside', count'⟩ := b'
  obtain ⟨hopened, houtside, hcount, hsteady⟩ := h
  cases hopened with
  | nil => exact ⟨.nil, houtside.addContent_element he, hcount, hsteady⟩
  | cons hf hfs =>
    exact ⟨.cons ⟨hf.pfx, hf.name, hf.attributes, hf.scope, hf.content.addContent_element he⟩ hfs,
      houtside, hcount, hsteady⟩

theorem scope (h : Reordered levels b b') : Scope.Alike b.scope b'.scope := by
  obtain ⟨opened, outside, count⟩ := b
  obtain ⟨opened', outside', count'⟩ := b'
  cases h.opened with
  | nil => exact fun _ => rfl
  | cons hf _ => exact hf.scope

/-- A start tag opens elements that are alike, in whatever order its attributes stand. -/
theorem openTag (h : Reordered levels b b') (entities : List Entity)
    (hlevels : levels ≤ entityLevels) (pfx localName : String)
    {attributes attributes' : List RawAttribute} (hperm : attributes.Perm attributes') :
    Option.Rel (Reordered levels) (b.openTag entities levels pfx localName attributes)
      (b'.openTag entities levels pfx localName attributes') := by
  have hread := Declared.foldlM_read_perm entities hlevels h.steady hperm
  rw [Builder.openTag, Builder.openTag, ← h.count]
  split
  · exact .none
  · refine optionRel_bind hread fun p p' hp => ?_
    obtain ⟨hdeclared, hcount, hsteady⟩ := hp
    have hscope := h.scope.inner hdeclared.nodup hdeclared.bindings
    have hname := hscope.elementName_eq pfx localName
    refine optionRel_bind (R := Eq) (hname ▸ optionRel_self _ fun _ _ => rfl) ?_
    rintro name _ rfl
    refine optionRel_bind (resolveAttributes_perm hscope hdeclared.attributes) fun as as' has => ?_
    exact .some ⟨.cons ⟨rfl, rfl, has, hscope, .nil⟩ h.opened, h.outside, hcount, hsteady⟩

theorem closeTag (h : Reordered levels b b') :
    Option.Rel (Reordered levels) b.closeTag b'.closeTag := by
  obtain ⟨opened, outside, count⟩ := b
  obtain ⟨opened', outside', count'⟩ := b'
  obtain ⟨hopened, houtside, hcount, hsteady⟩ := h
  cases hopened with
  | nil => exact .none
  | cons hf hfs =>
    have houter : Reordered levels ⟨_, outside, count⟩ ⟨_, outside', count'⟩ :=
      ⟨hfs, houtside, hcount, hsteady⟩
    exact .some (houter.add_element (.intro hf.name hf.attributes hf.content.reverse))

theorem closeNamed (h : Reordered levels b b') (pfx localName : String) :
    Option.Rel (Reordered levels) (b.closeNamed pfx localName) (b'.closeNamed pfx localName) :=
  Builder.closeNamed_rel h.opened (fun _ _ hf => ⟨hf.pfx, hf.name⟩) h.closeTag pfx localName

end Builder.Reordered

/-! ### Tokens and entities -/

theorem congruence_reordered : Congruence Builder.Reordered where
  add h _ hc := h.add_other hc
  openTag h entities hlevels pfx localName attributes :=
    h.openTag entities hlevels pfx localName (.refl attributes)
  closeTag h := h.closeTag
  closeNamed h pfx localName := h.closeNamed pfx localName
  count h := h.count
  enter h hlevels _ := ⟨h.opened, h.outside, rfl, fun heq => absurd heq hlevels.ne⟩
  leave h := ⟨h.opened, h.outside, congrArg (countAfter _) h.count, fun heq => if_pos heq⟩

section
variable {levels : Nat} {entity : String → Builder → Option Builder} {b b' : Builder}

theorem addToken_reordered (entities : List Entity) (hlevels : levels ≤ entityLevels)
    (hentity : Keeps (Builder.Reordered levels) entity) {t t' : Token} (ht : t.Reordered t')
    (started : Bool) (h : Builder.Reordered levels b b') :
    Option.Rel (Builder.Reordered levels) (b.addToken entities levels entity t started)
      (b'.addToken entities levels entity t' started) := by
  cases ht with
  | same t => exact congruence_reordered.addToken entities hlevels hentity t started h
  | @start pfx localName attributes attributes' empty hperm =>
    refine optionRel_bind (h.openTag entities hlevels pfx localName hperm) fun c c' hc => ?_
    cases empty with
    | true => exact hc.closeTag
    | false => exact .some hc

theorem addTokens_reordered (entities : List Entity) (hlevels : levels ≤ entityLevels)
    (hentity : Keeps (Builder.Reordered levels) entity) {ts ts' : List Token}
    (hts : List.Forall₂ Token.Reordered ts ts') (started : Bool)
    (h : Builder.Reordered levels b b') :
    Option.Rel (Builder.Reordered levels) (Builder.addTokens entities levels entity ts started b)
      (Builder.addTokens entities levels entity ts' started b') := by
  induction hts generalizing started b b' with
  | nil => exact .some h
  | @cons t t' ts ts' ht hts ih =>
    have hopens : t.opens = t'.opens := by
      cases ht with
      | same => rfl
      | start => rfl
    rw [addTokens_cons, addTokens_cons, hopens]
    exact optionRel_bind (addToken_reordered entities hlevels hentity ht started h)
      fun _ _ hb => ih _ hb

end

/-! ### Documents -/

theorem ContentReordered.elements {cs cs' : List Content} (h : ContentReordered cs cs') :
    List.Forall₂ Element.Reordered (cs.filterMap Content.element?)
      (cs'.filterMap Content.element?) := by
  induction cs generalizing cs' with
  | nil =>
    cases h
    exact .nil
  | cons c cs ih =>
    cases h with
    | element he hcs => exact .cons he (ih hcs)
    | other hc hcs =>
      rw [List.filterMap_cons_none hc, List.filterMap_cons_none hc]
      exact ih hcs

mutual

theorem Element.Reordered.refl : ∀ e : Element, e.Reordered e
  | ⟨_, _, _, content⟩ => .intro rfl (.refl _) (ContentReordered.refl content)

theorem ContentReordered.refl : ∀ content : List Content, ContentReordered content content
  | [] => .nil
  | .element e :: content => .element (Element.Reordered.refl e) (ContentReordered.refl content)
  | .text _ :: content => .other rfl (ContentReordered.refl content)
  | .comment _ :: content => .other rfl (ContentReordered.refl content)
  | .instruction .. :: content => .other rfl (ContentReordered.refl content)

end

theorem readRoot_tag (entities : List Entity) {t t' : StartTag} (ht : t.Reordered t')
    {s s' : List Char} (h : TextReordered s s') :
    Option.Rel Element.Reordered (readRoot entities (t.chars ++ s))
      (readRoot entities (t'.chars ++ s')) := by
  have hempty : Builder.Reordered entityLevels {} {} := ⟨.nil, .nil, rfl, fun _ => rfl⟩
  have hentity := congruence_reordered.keeps_addEntity entities (Nat.le_refl entityLevels)
  apply readRoot_rel (B := Builder.Reordered entityLevels)
  · apply optionRel_mono (takeRoot_reordered ht h)
    rintro p p' ⟨htokens, hrest⟩
    exact ⟨optionRel_mono (skipMisc_reordered hrest) fun _ _ => isEmpty_reordered,
      addTokens_reordered entities (Nat.le_refl entityLevels) hentity htokens false hempty⟩
  · exact fun b b' hb => hb.opened.length_eq
  · intro b b' hb
    have helements := hb.outside.reverse.elements
    generalize b.outside.reverse.filterMap Content.element? = es at helements
    generalize b'.outside.reverse.filterMap Content.element? = es' at helements
    cases helements with
    | nil => exact .none
    | cons he _ => exact .some he

/-- Document elements of texts that are alike are alike, or there is none. -/
theorem readRoot_reordered (entities : List Entity) {s s' : List Char} (h : TextReordered s s') :
    Option.Rel Element.Reordered (readRoot entities s) (readRoot entities s') := by
  have hnone {s : List Char} (h : takeRoot s = none) : readRoot entities s = none := by
    rw [readRoot, h]
    rfl
  cases h with
  | same s => exact optionRel_self _ fun e _ => .refl e
  | @markup p s s' hp h =>
    have hroot (r : List Char) : takeRoot (p ++ r) = none := by
      obtain ⟨c, q, rfl, hc⟩ : ∃ c q, p = '<' :: c :: q ∧ isNameChar c = false := by
        cases hp <;> exact ⟨_, _, rfl, by decide⟩
      exact takeRoot_eq_none hc (q ++ r)
    rw [hnone (hroot _), hnone (hroot _)]
    exact .none
  | @text run s s' hne hrun h =>
    have hroot (r : List Char) : takeRoot (run ++ r) = none := by
      obtain ⟨c, run, rfl⟩ := List.exists_cons_of_ne_nil hne
      exact takeRoot_cons_of_ne (fun heq => hrun (heq ▸ List.mem_cons_self)) (run ++ r)
    rw [hnone (hroot _), hnone (hroot _)]
    exact .none
  | tag ht h => exact readRoot_tag entities ht h

/-- Documents that differ only in the order of the attributes inside start tags. -/
def DocumentReordered (text text' : String) : Prop := TextReordered text.toList text'.toList

/-- Either neither is read, for the same reason, or the elements differ at most in the order of
their attributes. -/
theorem readDocument_reordered (allowDoctype : Bool) {text text' : String}
    (h : DocumentReordered text text') :
    (∃ err, readDocument allowDoctype text = .error err ∧
      readDocument allowDoctype text' = .error err) ∨
      ∃ e e', readDocument allowDoctype text = .ok e ∧ readDocument allowDoctype text' = .ok e' ∧
        e.Reordered e' := by
  have hprolog := takeProlog_reordered allowDoctype h
  rw [readDocument, readDocument]
  generalize takeProlog allowDoctype text.toList = p at hprolog
  generalize takeProlog allowDoctype text'.toList = p' at hprolog
  cases hprolog with
  | error err => exact .inl ⟨err, rfl, rfl⟩
  | @ok entities s s' h =>
    have hroot := readRoot_reordered entities h
    simp only [bind, Except.bind]
    generalize readRoot entities s = r at hroot
    generalize readRoot entities s' = r' at hroot
    cases hroot with
    | none => exact .inl ⟨.malformed, rfl, rfl⟩
    | some he => exact .inr ⟨_, _, rfl, rfl, he⟩

end XmlBinding.Xml
