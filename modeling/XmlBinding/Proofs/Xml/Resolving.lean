import XmlBinding.Proofs.Xml.Escaping

/-! # What is written is read again

The tokens of an outline build one element, whatever is open around it, and put it where the
innermost open element has its content. So a document is read as the element it was written from.
-/
namespace XmlBinding.Xml

/-- Nothing that namespaces refuse, and no attribute said twice. -/
structure Outline.Readable (o : Outline) : Prop extends o.Writable where
  nodup : (o.attributes.map (·.1)).Nodup
  undeclared : ∀ a ∈ o.attributes, a.1 ≠ "xmlns"
  uriKept : ∀ u ∈ o.uri, u.toList.all isKept = true ∧ u ≠ xmlUri ∧ u ≠ xmlnsUri

/-- Nothing is said twice, and nothing that namespaces or the reading of values would change. -/
structure Outline.Faithful (o : Outline) : Prop extends o.Writable where
  nodup : (o.attributes.map (·.1)).Nodup
  undeclared : ∀ a ∈ o.attributes, a.1 ≠ "xmlns"
  kept : ∀ a ∈ o.attributes, a.2.toList.all isKept = true
  uriKept : ∀ u ∈ o.uri, u.toList.all isKept = true ∧ u ≠ xmlUri ∧ u ≠ xmlnsUri
  textKept : ∀ t ∈ o.text, '\r' ∉ t.toList

theorem Outline.Faithful.readable {o : Outline} (h : o.Faithful) : o.Readable :=
  ⟨h.toWritable, h.nodup, h.undeclared, h.uriKept⟩

def readAttributes (attributes : List (String × String)) : List (String × String) :=
  attributes.map fun a => (a.1, readAttribute a.2)

mutual

/-- The outline with the values that are read where its values were written. -/
def Outline.read : Outline → Outline
  | ⟨name, uri, attributes, text, children⟩ =>
    ⟨name, uri, readAttributes attributes, text.map readText, readOutlines children⟩

def readOutlines : List Outline → List Outline
  | [] => []
  | o :: os => o.read :: readOutlines os

end

theorem Outline.read_eq (o : Outline) :
    o.read = ⟨o.name, o.uri, readAttributes o.attributes, o.text.map readText,
      readOutlines o.children⟩ := by
  cases o
  rfl

theorem Outline.Faithful.readAttributes_eq {o : Outline} (h : o.Faithful) :
    readAttributes o.attributes = o.attributes := by
  refine (List.map_congr_left fun a ha => ?_).trans (List.map_id _)
  exact Prod.ext rfl (readAttribute_eq_self_iff.mpr (h.kept a ha))

theorem Outline.Faithful.readText_eq {o : Outline} (h : o.Faithful) :
    o.text.map readText = o.text := by
  cases ht : o.text with
  | none => rfl
  | some t => exact congrArg some (readText_eq_self (h.textKept t ht))

mutual

/-- Faithful outlines are read as they are. -/
theorem Outline.read_of_faithful : ∀ o : Outline, (∀ p ∈ o.outlines, p.Faithful) → o.read = o
  | ⟨name, uri, attributes, text, children⟩, h => by
    obtain ⟨ho, hchildren⟩ := List.forall_mem_cons.mp h
    have hattributes : readAttributes attributes = attributes := ho.readAttributes_eq
    have htext : text.map readText = text := ho.readText_eq
    rw [Outline.read, hattributes, htext, readOutlines_of_faithful children hchildren]

theorem readOutlines_of_faithful : ∀ os : List Outline, (∀ p ∈ outlinesIn os, p.Faithful) →
    readOutlines os = os
  | [], _ => rfl
  | o :: os, h => by
    obtain ⟨ho, hos⟩ := List.forall_mem_append.mp h
    rw [readOutlines, o.read_of_faithful ho, readOutlines_of_faithful os hos]

end

/-- What an element binds that stands where `outer` is the default namespace. -/
def bindingsOf (outer uri : Option String) : Scope :=
  if uri = outer then [] else [(none, uri.getD "")]

def textContent : Option String → List Content
  | none => []
  | some text => if text = "" then [] else [.text text]

mutual

/-- The element that an outline is read as. -/
def Outline.element (outer : Option String) (scope : Scope) : Outline → Element
  | ⟨name, uri, attributes, text, children⟩ =>
    let inner := (bindingsOf outer uri).inner scope
    ⟨⟨inner.lookup none, name⟩, attributes.map fun a => ⟨⟨none, a.1⟩, a.2⟩, inner,
      textContent text ++ outlineContents uri inner children⟩

def outlineContents (outer : Option String) (scope : Scope) : List Outline → List Content
  | [] => []
  | o :: os => .element (o.element outer scope) :: outlineContents outer scope os

end

theorem resolveAttributes_eq (scope : Scope) {attributes : List (String × String)}
    (done : List Attribute) (hn : (attributes.map (·.1)).Nodup)
    (h : ∀ a ∈ attributes, ∀ d ∈ done, d.name ≠ ⟨none, a.1⟩) :
    resolveAttributes scope (attributes.map fun a => ("", a.1, a.2)) done =
      some (done.reverse ++ attributes.map fun a => ⟨⟨none, a.1⟩, a.2⟩) := by
  induction attributes generalizing done with
  | nil => simp [resolveAttributes]
  | cons a as ih =>
    obtain ⟨ha, has⟩ := List.forall_mem_cons.mp h
    rw [List.map_cons, List.nodup_cons] at hn
    have hnot : (done.any fun d => d.name == ⟨none, a.1⟩) = false := by
      simpa using ha
    have hlater : ∀ b ∈ as, ∀ d ∈ ⟨⟨none, a.1⟩, a.2⟩ :: done, d.name ≠ ⟨none, b.1⟩ := by
      intro b hb d hd
      rcases List.mem_cons.mp hd with rfl | hd
      · intro heq
        have hab : a.1 = b.1 := congrArg ExpandedName.localName heq
        exact hn.1 (hab ▸ List.mem_map_of_mem hb)
      · exact has b hb d hd
    have hname : attributeName scope "" a.1 = some ⟨none, a.1⟩ := rfl
    rw [List.map_cons, resolveAttributes, hname]
    simp only [bind, Option.bind, hnot, Bool.false_eq_true, if_false]
    rw [ih _ hn.2 hlater]
    simp

/-- Reads one attribute of a start tag. -/
def declareAttribute (s : Declared × Nat) (a : RawAttribute) : Option (Declared × Nat) := do
  let (value, count) ← attributeValue [] entityLevels a.value s.2
  let d ← s.1.add a.pfx a.localName (String.ofList value)
  some (d, count)

theorem declareAttribute_eq (a : String × String) (d : Declared) (count : Nat) :
    declareAttribute (d, count) (rawAttribute a) =
      (d.add "" a.1 (readAttribute a.2)).map (·, count) := by
  rw [declareAttribute, rawAttribute]
  simp only [attributeValue_escape, bind, Option.bind, readAttribute]
  cases d.add "" a.1 (String.ofList (attributeChars a.2.toList)) <;> rfl

theorem foldlM_declareAttribute {attributes : List (String × String)}
    (h : ∀ a ∈ attributes, a.1 ≠ "xmlns") (d : Declared) (count : Nat) :
    (attributes.map rawAttribute).foldlM declareAttribute (d, count) =
      some ({ d with attributes := d.attributes ++
        (readAttributes attributes).map fun a => ("", a.1, a.2) }, count) := by
  induction attributes generalizing d with
  | nil => simp [readAttributes]
  | cons a as ih =>
    obtain ⟨hne, has⟩ := List.forall_mem_cons.mp h
    have hadd : d.add "" a.1 (readAttribute a.2) =
        some { d with attributes := d.attributes ++ [("", a.1, readAttribute a.2)] } := by
      simp [Declared.add, hne]
    rw [List.map_cons, List.foldlM_cons, declareAttribute_eq, hadd]
    refine (ih has _).trans ?_
    simp [readAttributes]

theorem Outline.Readable.foldlM_declared {o : Outline} (h : o.Readable) (outer : Option String)
    (count : Nat) :
    ((o.declared outer).map rawAttribute).foldlM declareAttribute (⟨[], []⟩, count) =
      some (⟨bindingsOf outer o.uri,
        (readAttributes o.attributes).map fun a => ("", a.1, a.2)⟩, count) := by
  have hrest (d : Declared) := foldlM_declareAttribute h.undeclared d count
  rw [Outline.declared, namespaceDeclaration, bindingsOf]
  by_cases hu : o.uri = outer
  · rw [if_pos hu, if_pos hu]
    exact hrest ⟨[], []⟩
  · have huri : (o.uri.getD "").toList.all isKept = true ∧ o.uri.getD "" ≠ xmlUri ∧
        o.uri.getD "" ≠ xmlnsUri := by
      cases huo : o.uri with
      | none => exact ⟨rfl, by decide, by decide⟩
      | some u => exact h.uriKept u huo
    obtain ⟨hkept, hxml, hxmlns⟩ := huri
    have hadd : Declared.add ⟨[], []⟩ "" "xmlns" (readAttribute (o.uri.getD "")) =
        some ⟨[(none, o.uri.getD "")], []⟩ := by
      rw [readAttribute_eq_self_iff.mpr hkept]
      simp [Declared.add, hxml, hxmlns]
    rw [if_neg hu, if_neg hu, List.cons_append, List.nil_append, List.map_cons, List.foldlM_cons,
      declareAttribute_eq, hadd]
    exact hrest ⟨[(none, o.uri.getD "")], []⟩

/-- The scope inside of an element. -/
def Outline.inner (outer : Option String) (scope : Scope) (o : Outline) : Scope :=
  (bindingsOf outer o.uri).inner scope

/-- The frame of an element that has just been opened. -/
def Outline.frame (outer : Option String) (scope : Scope) (o : Outline) : Frame :=
  ⟨"", ⟨(o.inner outer scope).lookup none, o.name⟩, o.attributes.map fun a => ⟨⟨none, a.1⟩, a.2⟩,
    o.inner outer scope, []⟩

theorem Outline.Readable.openTag_eq {o : Outline} (h : o.Readable) (outer : Option String)
    (b : Builder) :
    b.openTag [] entityLevels "" o.name ((o.declared outer).map rawAttribute) =
      some { b with opened := o.read.frame outer b.scope :: b.opened } := by
  have hname : elementName (o.inner outer b.scope) "" o.name =
      some ⟨(o.inner outer b.scope).lookup none, o.name⟩ := rfl
  have hnodup : ((readAttributes o.attributes).map (·.1)).Nodup := by
    rw [readAttributes, List.map_map]
    exact h.nodup
  have hattributes := resolveAttributes_eq (o.inner outer b.scope) [] hnodup (by simp)
  have hfold := h.foldlM_declared outer b.count
  simp only [Builder.openTag]
  change (((o.declared outer).map rawAttribute).foldlM declareAttribute
    (⟨[], []⟩, b.count)).bind _ = _
  rw [hfold, Option.bind_some]
  change (elementName (o.inner outer b.scope) "" o.name).bind _ = _
  rw [hname, Option.bind_some]
  change (resolveAttributes (o.inner outer b.scope) _ []).bind _ = _
  rw [hattributes, o.read_eq]
  rfl

theorem addContent_element (content : List Content) (e : Element) :
    addContent content (.element e) = .element e :: content := by
  unfold addContent
  split
  · next heq => cases heq
  · rfl

/-- The builder whose innermost open element has more content, which comes in order. -/
def Builder.contain (b : Builder) (f : Frame) (fs : List Frame) (content : List Content) :
    Builder :=
  { b with opened := { f with content := content.reverse ++ f.content } :: fs }

section
variable {entity : String → Builder → Option Builder} {b : Builder} {ts : List Token}

/-- Adds tokens of a document without entities. -/
abbrev Builder.addPlain (entity : String → Builder → Option Builder) (ts : List Token)
    (started : Bool) (b : Builder) : Option Builder :=
  b.addTokens [] entityLevels entity ts started

theorem addPlain_start {b' : Builder} {name : String} {attributes : List RawAttribute}
    (h : b.openTag [] entityLevels "" name attributes = some b') (started : Bool) :
    Builder.addPlain entity (.start "" name attributes false :: ts) started b =
      Builder.addPlain entity ts true b' := by
  rw [Builder.addPlain, Builder.addTokens, h]
  cases started <;> rfl

theorem addPlain_empty {b' b'' : Builder} {name : String} {attributes : List RawAttribute}
    (h : b.openTag [] entityLevels "" name attributes = some b') (h' : b'.closeTag = some b'')
    (started : Bool) :
    Builder.addPlain entity (.start "" name attributes true :: ts) started b =
      Builder.addPlain entity ts true b'' := by
  rw [Builder.addPlain, Builder.addTokens, h]
  simp only [bind, Option.bind, if_true, h', Bool.or_true]

theorem addPlain_close {b' : Builder} {name : String} (h : b.closeNamed "" name = some b') :
    Builder.addPlain entity (.close "" name :: ts) true b = Builder.addPlain entity ts true b' := by
  rw [Builder.addPlain, Builder.addTokens, if_pos rfl, h]
  rfl

theorem addPlain_text {f : Frame} (hf : f.content = []) {fs : List Frame} (hb : b.opened = f :: fs)
    (text : Option String) :
    Builder.addPlain entity (textTokens text ++ ts) true b =
      Builder.addPlain entity ts true (b.contain f fs (textContent (text.map readText))) := by
  have hsame : b.contain f fs [] = b := by
    obtain ⟨opened, outside, count⟩ := b
    subst hb
    rfl
  have hrun (run : List Char) :
      b.addRun run = b.contain f fs (textContent (some (String.ofList run.reverse))) := by
    cases run with
    | nil => exact hsame.symm
    | cons c run =>
      have hne : String.ofList (c :: run).reverse ≠ "" := by
        rw [ne_eq, ← String.toList_eq_nil_iff, String.toList_ofList]
        simp
      rw [Builder.addRun, textContent, if_neg hne, if_neg (by simp), Builder.add, hb]
      simp [Builder.contain, addContent, hf]
  cases text with
  | none =>
    rw [textTokens, Option.map_none, textContent, hsame, List.nil_append]
  | some t =>
    by_cases ht : t = ""
    · have hread : readText "" = "" := rfl
      rw [textTokens, if_pos ht, Option.map_some, ht, hread, textContent, if_pos rfl, hsame,
        List.nil_append]
    · rw [textTokens, if_neg ht, List.singleton_append, Builder.addPlain, Builder.addTokens,
        textItems_escape]
      simp only [bind, Option.bind, bne_self_eq_false, addItems_escapedItem, hrun, Bool.or_false]
      rfl

theorem contain_contain (b : Builder) (f : Frame) (fs : List Frame) (cs ds : List Content) :
    (b.contain f fs cs).contain { f with content := cs.reverse ++ f.content } fs ds =
      b.contain f fs (cs ++ ds) := by
  simp [Builder.contain]

theorem add_element {f : Frame} {fs : List Frame} (hb : b.opened = f :: fs) (e : Element) :
    b.add (.element e) = b.contain f fs [.element e] := by
  rw [Builder.add, hb]
  simp [Builder.contain, addContent_element]

/-- From the start tag to the end tag of an element. -/
theorem addPlain_of_body {o : Outline} (h : o.Readable) (outer : Option String)
    (hchildren : ∀ (f : Frame) (fs : List Frame) (b : Builder) (ts : List Token),
      b.opened = f :: fs → Builder.addPlain entity (outlineTokens o.uri o.children ++ ts) true b =
        Builder.addPlain entity ts true
          (b.contain f fs (outlineContents o.uri f.scope (readOutlines o.children))))
    (started : Bool) :
    Builder.addPlain entity (o.tokens outer ++ ts) started b =
      Builder.addPlain entity ts true (b.add (.element (o.read.element outer b.scope))) := by
  have hopen := h.openTag_eq outer b
  rw [o.tokens_eq]
  cases hempty : o.isEmpty with
  | true =>
    have helement : (o.read.frame outer b.scope).element = o.read.element outer b.scope := by
      obtain ⟨name, uri, attributes, text, children⟩ := o
      simp only [Outline.isEmpty, Bool.and_eq_true, Option.isNone_iff_eq_none, List.isEmpty_iff]
        at hempty
      obtain ⟨rfl, rfl⟩ := hempty
      rfl
    rw [if_pos rfl, List.singleton_append, addPlain_empty hopen rfl, helement]
  | false =>
    rw [if_neg Bool.false_ne_true, List.cons_append, addPlain_start hopen, Outline.bodyTokens,
      List.append_assoc, List.append_assoc, addPlain_text rfl rfl o.text, hchildren _ _ _ _ rfl,
      contain_contain, List.singleton_append]
    refine addPlain_close ?_
    obtain ⟨name, uri, attributes, text, children⟩ := o
    simp [Builder.closeNamed, Builder.closeTag, Builder.contain, Outline.frame, Frame.element,
      Outline.read, Outline.element, Outline.inner]

mutual

theorem Outline.addPlain_eq : ∀ (o : Outline) (outer : Option String) (started : Bool) (b : Builder)
    (ts : List Token), (∀ p ∈ o.outlines, p.Readable) →
      Builder.addPlain entity (o.tokens outer ++ ts) started b =
        Builder.addPlain entity ts true (b.add (.element (o.read.element outer b.scope)))
  | ⟨_, uri, _, _, children⟩, outer, started, b, ts, h => by
    obtain ⟨ho, hchildren⟩ := List.forall_mem_cons.mp h
    exact addPlain_of_body ho outer
      (fun f fs b ts hb => addPlain_outlines children uri f fs b ts hb hchildren) started

theorem addPlain_outlines : ∀ (os : List Outline) (outer : Option String) (f : Frame)
    (fs : List Frame) (b : Builder) (ts : List Token), b.opened = f :: fs →
      (∀ p ∈ outlinesIn os, p.Readable) →
        Builder.addPlain entity (outlineTokens outer os ++ ts) true b =
          Builder.addPlain entity ts true
            (b.contain f fs (outlineContents outer f.scope (readOutlines os)))
  | [], _, f, fs, b, ts, hb, _ => by
    obtain ⟨opened, outside, count⟩ := b
    subst hb
    rfl
  | o :: os, outer, f, fs, b, ts, hb, h => by
    obtain ⟨ho, hos⟩ := List.forall_mem_append.mp h
    have hscope : b.scope = f.scope := by simp [Builder.scope, hb]
    rw [outlineTokens, List.append_assoc, o.addPlain_eq outer true b _ ho, add_element hb, hscope,
      addPlain_outlines os outer _ fs _ ts rfl hos, contain_contain]
    rfl

end

end

theorem skipMisc_eq {s : List Char} (h : takeMisc? (skipSpaces s) = some none) :
    skipMisc s = some (skipSpaces s) := by
  rw [skipMisc]
  split
  · next hnone => rw [h] at hnone; cases hnone
  · rfl
  · next hsome => rw [h] at hsome; cases hsome

/-- Before a root of a plain name stand no comment, no instruction and no document type. -/
theorem expect_root {name : String} (h : isNCName name = true) (rest : List Char) :
    (∀ blanks : List Char, (∀ c ∈ blanks, isSpace c = true) →
      skipMisc (blanks ++ '<' :: (name.toList ++ rest)) = some ('<' :: (name.toList ++ rest))) ∧
      expect "<!DOCTYPE".toList ('<' :: (name.toList ++ rest)) = none ∧
      expect "<?xml".toList ('<' :: (name.toList ++ rest)) = none := by
  obtain ⟨c, cs, hc, hstart⟩ := exists_cons_of_isNCName h
  have hbang : '!' ≠ c := by
    rintro rfl
    exact absurd hstart (by decide)
  have hquery : '?' ≠ c := by
    rintro rfl
    exact absurd hstart (by decide)
  refine ⟨fun blanks hb => ?_, ?_, ?_⟩
  · have hskip : skipSpaces (blanks ++ '<' :: (name.toList ++ rest)) =
        '<' :: (name.toList ++ rest) :=
      (List.dropWhile_append_of_pos hb).trans (skipSpaces_cons (by decide) _)
    refine (skipMisc_eq ?_).trans (congrArg some hskip)
    rw [hskip, hc]
    simp [takeMisc?, expect, hbang, hquery]
  · rw [hc]
    simp [expect, hbang]
  · rw [hc]
    simp [expect, hquery]

theorem takeProlog_root {name : String} (h : isNCName name = true) (allow : Bool)
    (rest : List Char) :
    takeProlog allow ('<' :: (name.toList ++ rest)) = .ok ([], '<' :: (name.toList ++ rest)) := by
  obtain ⟨hmisc, hdoctype, hmark⟩ := expect_root h rest
  have hmisc := hmisc [] (by simp)
  have hbom : expect ['\ufeff'] ('<' :: (name.toList ++ rest)) = none := rfl
  rw [List.nil_append] at hmisc
  simp only [takeProlog, hbom, Option.getD_none, hmark, Option.bind_some, hmisc, hdoctype]

/-- The declaration that writers put first is passed over with the blanks after it. -/
theorem takeProlog_declaration {name : String} (h : isNCName name = true) (allow : Bool)
    {blanks : List Char} (hb : ∀ c ∈ blanks, isSpace c = true) (rest : List Char) :
    takeProlog allow (Piece.declaration.chars ++ (blanks ++ '<' :: (name.toList ++ rest))) =
      .ok ([], '<' :: (name.toList ++ rest)) := by
  obtain ⟨hmisc, hdoctype, -⟩ := expect_root h rest
  have hmisc := hmisc blanks hb
  generalize blanks ++ '<' :: (name.toList ++ rest) = s at hmisc
  have hdeclaration (s : List Char) : skipDeclaration
      (" version=\"1.0\" encoding=\"utf-8\"?>".toList ++ s) = some s := rfl
  have hbom : expect ['\ufeff'] (Piece.declaration.chars ++ s) = none := rfl
  have hmark : expect "<?xml".toList (Piece.declaration.chars ++ s) =
      some (" version=\"1.0\" encoding=\"utf-8\"?>".toList ++ s) := rfl
  have hspace (s : List Char) : ((" version=\"1.0\" encoding=\"utf-8\"?>".toList ++ s).head? ==
      some ' ') = true := rfl
  simp only [takeProlog, hbom, Option.getD_none, hmark, hspace, if_true, hdeclaration,
    Option.bind_some, hmisc, hdoctype]

theorem readDocument_declaration {name : String} (h : isNCName name = true) (allow : Bool)
    {blanks : List Char} (hb : ∀ c ∈ blanks, isSpace c = true) (rest : List Char) :
    readDocument allow
      (String.ofList (Piece.declaration.chars ++ (blanks ++ '<' :: (name.toList ++ rest)))) =
      ((readRoot [] ('<' :: (name.toList ++ rest))).elim (.error .malformed) .ok) := by
  rw [readDocument, String.toList_ofList, takeProlog_declaration h allow hb]
  cases hroot : readRoot [] ('<' :: (name.toList ++ rest)) <;> simp [bind, Except.bind, hroot]

section
variable {o : Outline} (h : ∀ p ∈ o.outlines, p.Readable)
include h

/-- The root of a document is read as the element. -/
theorem readRoot_eq : readRoot [] (plainChars (o.pieces none)) = some (o.read.element none []) := by
  have hmisc : skipMisc [] = some [] := skipMisc_eq rfl
  have htokens := @Outline.addPlain_eq (Builder.addEntity [] entityLevels) o none false {} [] h
  rw [List.append_nil] at htokens
  rw [← List.append_nil (plainChars (o.pieces none)), readRoot,
    takeRoot_eq fun p hp => (h p hp).toWritable]
  simp only [bind, Option.bind, hmisc, Builder.addPlain] at htokens ⊢
  rw [htokens]
  rfl

theorem isNCName_root : isNCName o.name = true :=
  (h o (by rw [o.outlines_eq]; exact List.mem_cons_self)).name

/-- A document of one element is read as the element, with its values as they are read. -/
theorem readDocument_read (allow : Bool) :
    readDocument allow (Layout.plain.render (.declaration :: o.pieces none)) =
      .ok (o.read.element none []) := by
  have hchars : Layout.plain.render (.declaration :: o.pieces none) =
      String.ofList (Piece.declaration.chars ++ ([] ++ (plainChars (o.pieces none) ++ []))) := by
    rw [List.append_nil]
    rfl
  rw [hchars, o.plainChars_pieces,
    readDocument_declaration (isNCName_root h) _ (by simp), ← o.plainChars_pieces, List.append_nil,
    readRoot_eq h]
  rfl

end

section
variable {o : Outline} (h : ∀ p ∈ o.outlines, p.Faithful)
include h

theorem readDocument_eq (allow : Bool) :
    readDocument allow (Layout.plain.render (.declaration :: o.pieces none)) =
      .ok (o.element none []) := by
  rw [readDocument_read fun p hp => (h p hp).readable, o.read_of_faithful h]

/-- A declaration may be missing. -/
theorem readDocument_pieces (allow : Bool) :
    readDocument allow (Layout.plain.render (o.pieces none)) = .ok (o.element none []) := by
  have hreadable : ∀ p ∈ o.outlines, p.Readable := fun p hp => (h p hp).readable
  have hchars : (Layout.plain.render (o.pieces none)).toList =
      plainChars (o.pieces none) ++ [] := by
    rw [Layout.render, String.toList_ofList, List.append_nil]
    rfl
  rw [readDocument, hchars, o.plainChars_pieces, takeProlog_root (isNCName_root hreadable)]
  rw [← o.plainChars_pieces, List.append_nil]
  simp only [bind, Except.bind, readRoot_eq hreadable, o.read_of_faithful h]

end

end XmlBinding.Xml
