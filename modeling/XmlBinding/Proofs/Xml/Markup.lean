import XmlBinding.Proofs.Xml.Resolving

/-! # Pieces of markup

The text of a document is a row of pieces: start tags, other markup, and runs of text in between.
Where a piece ends can be told without reading it, and what a reader takes of it, or that it takes
nothing, does not depend on what comes after.
-/
namespace XmlBinding.Xml

/-- Whether a character may stand in a quoted value. -/
def isValueChar (c : Char) : Bool := isXmlChar c && c != '<'

/-- An attribute in a start tag: a name, an equal sign among blanks, and a quoted value. -/
structure AttributeText where
  name : List Char
  left : List Char
  right : List Char
  quote : Char
  value : List Char
deriving DecidableEq, Repr

namespace AttributeText

def chars (a : AttributeText) : List Char :=
  a.name ++ (a.left ++ '=' :: (a.right ++ a.quote :: (a.value ++ [a.quote])))

structure Proper (a : AttributeText) : Prop where
  named : a.name ≠ []
  name : ∀ c ∈ a.name, isNameChar c = true
  left : ∀ c ∈ a.left, isSpace c = true
  right : ∀ c ∈ a.right, isSpace c = true
  quote : a.quote = '"' ∨ a.quote = '\''
  value : a.quote ∉ a.value

/-- What is read of an attribute, unless its name or its value is refused. -/
def raw? (a : AttributeText) : Option RawAttribute :=
  (splitQualified a.name).bind fun name =>
    if a.value.all isValueChar then some ⟨name.1, name.2, a.value⟩ else none

end AttributeText

/-- A start tag or an empty tag; blanks stand before each attribute. -/
structure StartTag where
  name : List Char
  attributes : List (List Char × AttributeText)
  gap : List Char
  empty : Bool
deriving DecidableEq, Repr

namespace StartTag

/-- The tag from its name on. -/
def inner (t : StartTag) : List Char :=
  t.name ++ (t.attributes.flatMap (fun a => a.1 ++ a.2.chars) ++ (t.gap ++ tagEnd t.empty))

def chars (t : StartTag) : List Char := '<' :: t.inner

structure Proper (t : StartTag) : Prop where
  named : t.name ≠ []
  name : ∀ c ∈ t.name, isNameChar c = true
  attributes : ∀ a ∈ t.attributes, a.1 ≠ [] ∧ (∀ c ∈ a.1, isSpace c = true) ∧ a.2.Proper
  gap : ∀ c ∈ t.gap, isSpace c = true

/-- The token of a tag. -/
def token? (t : StartTag) : Option Token :=
  (splitQualified t.name).bind fun name =>
    ((t.attributes.map (·.2)).mapM AttributeText.raw?).map fun raws => .start name.1 name.2 raws t.empty

end StartTag

/-- Nowhere before its end does a text followed by a mark look like the mark. -/
def Unmarked (mark text : List Char) : Prop :=
  ∀ r, r ≠ [] → r <:+ text → ¬ mark <+: r ++ mark

/-- Markup that is no start tag, up to the first place where it can end. Where the two pieces end
that only a prolog may have is for their readers to say. -/
inductive Markup : List Char → Prop
  | comment {text : List Char} (h : Unmarked "-->".toList text) :
      Markup ("<!--".toList ++ (text ++ "-->".toList))
  | literal {text : List Char} (h : Unmarked "]]>".toList text) :
      Markup ("<![CDATA[".toList ++ (text ++ "]]>".toList))
  | instruction {text : List Char} (hname : ¬ "xml ".toList <+: text)
      (h : Unmarked "?>".toList text) : Markup ("<?".toList ++ (text ++ "?>".toList))
  | close {text : List Char} (h : '>' ∉ text) : Markup ("</".toList ++ (text ++ ">".toList))
  | declaration {text : List Char} (o : Option Unit)
      (h : ∀ rest, skipDeclaration (' ' :: (text ++ rest)) = o.map fun _ => rest) :
      Markup ("<?xml ".toList ++ text)
  | definition {text : List Char} (o : Option (List Entity))
      (h : ∀ rest, takeDoctype (text ++ rest) = o.map (·, rest)) :
      Markup ("<!DOCTYPE".toList ++ text)
  | misplaced {text : List Char} (h : '>' ∉ text)
      (hname : ∀ mark ∈ ["--", "[CDATA[", "DOCTYPE"], ¬ mark.toList <+: text) :
      Markup ("<!".toList ++ (text ++ ">".toList))

/-! ### Readers stop at the end of a piece -/

section
variable {p : Char → Bool} {d : Char} {s r text name rest : List Char}

theorem takeWhile_append_cons (hd : p d = false) (s r : List Char) :
    (s ++ d :: r).takeWhile p = s.takeWhile p := by
  rw [List.takeWhile_append, List.takeWhile_cons_of_neg (by simp [hd]), List.append_nil]
  split
  · next h => exact ((List.takeWhile_prefix p).eq_of_length h).symm
  · rfl

theorem dropWhile_append_cons (hd : p d = false) (s r : List Char) :
    (s ++ d :: r).dropWhile p = s.dropWhile p ++ d :: r := by
  rw [List.dropWhile_append, List.dropWhile_cons_of_neg (by simp [hd])]
  split
  · next h => rw [List.isEmpty_iff.mp h, List.nil_append]
  · rfl

theorem skipSpaces_append (hs : ∀ c ∈ s, isSpace c = true) (hd : isSpace d = false)
    (r : List Char) : skipSpaces (s ++ d :: r) = d :: r :=
  (List.dropWhile_append_of_pos hs).trans (skipSpaces_cons hd r)

theorem takeQualified_append_cons (hname : ∀ c ∈ name, isNameChar c = true)
    (hd : isNameChar d = false) (r : List Char) :
    takeQualified (name ++ d :: r) = (splitQualified name).map (·, d :: r) := by
  rw [takeQualified, List.takeWhile_append_of_pos hname, List.dropWhile_append_of_pos hname,
    List.takeWhile_cons_of_neg (by simp [hd]), List.dropWhile_cons_of_neg (by simp [hd]),
    List.append_nil]
  cases splitQualified name <;> rfl

theorem isNameChar_of_isSpace {c : Char} (h : isSpace c = true) : isNameChar c = false := by
  cases hn : isNameChar c with
  | false => rfl
  | true => exact absurd h (by simp [not_isSpace_of_isNameChar hn])

/-- Before what follows a name there may be blanks. -/
theorem takeQualified_append_blanks {blanks : List Char} (hname : ∀ c ∈ name, isNameChar c = true)
    (hblanks : ∀ c ∈ blanks, isSpace c = true) (hd : isNameChar d = false) (r : List Char) :
    takeQualified (name ++ (blanks ++ d :: r)) =
      (splitQualified name).map (·, blanks ++ d :: r) := by
  cases blanks with
  | nil => exact takeQualified_append_cons hname hd r
  | cons c blanks =>
    exact takeQualified_append_cons hname
      (isNameChar_of_isSpace (hblanks c List.mem_cons_self)) (blanks ++ d :: r)

theorem expect_cons_of_ne {c d : Char} (h : c ≠ d) (pre s : List Char) :
    expect (c :: pre) (d :: s) = none := by
  simp [expect, h]

/-- Characters are read up to a mark, if they may stand in a document. -/
theorem spanChars_mark {stop : List Char → Bool} {m : List Char} (hd : isXmlChar d = true)
    (hbefore : ∀ r, r ≠ [] → r <:+ text → ∀ rest, stop (r ++ (d :: m ++ rest)) = false)
    (hmark : ∀ rest, stop (d :: m ++ rest) = true) (rest : List Char) :
    spanChars stop (text ++ (d :: m ++ rest)) =
      if text.all isXmlChar then some (text, d :: m ++ rest) else none := by
  induction text with
  | nil =>
    have hstop := hmark rest
    rw [List.cons_append] at hstop
    simp [spanChars, hd, hstop]
  | cons c text ih =>
    have hstop := hbefore (c :: text) (by simp) (List.suffix_refl _) rest
    have ih := ih fun r hr hsuffix => hbefore r hr (hsuffix.trans (List.suffix_cons c text))
    rw [List.cons_append] at hstop
    rw [List.cons_append, spanChars, hstop, ih]
    cases hc : isXmlChar c with
    | false => simp [hc]
    | true => cases htext : text.all isXmlChar <;> simp [hc, htext]

/-- A value is taken up to its quotation mark, if it may stand there. -/
theorem takeValue_append {quote : Char} (hquote : quote = '"' ∨ quote = '\'') {value : List Char}
    (hvalue : quote ∉ value) (rest : List Char) :
    takeValue quote (value ++ quote :: rest) =
      if value.all isValueChar then some (value, rest) else none := by
  have hstop {d : Char} (hd : isXmlChar d = true) (hd' : d = quote ∨ d = '<') (value : List Char)
      (hvalue : ∀ c ∈ value, c ≠ quote ∧ c ≠ '<') (rest : List Char) :
      spanChars (fun s => s.head? == some quote || s.head? == some '<') (value ++ d :: rest) =
        if value.all isXmlChar then some (value, d :: rest) else none := by
    refine spanChars_mark (m := []) hd (fun r hr hsuffix rest => ?_) (fun rest => ?_) rest
    · obtain ⟨c, r, rfl⟩ := List.exists_cons_of_ne_nil hr
      obtain ⟨hq, hlt⟩ := hvalue c (hsuffix.subset List.mem_cons_self)
      simp [hq, hlt]
    · rcases hd' with rfl | rfl <;> simp
  have hxml : isXmlChar quote = true := by
    rcases hquote with rfl | rfl <;> decide
  by_cases hlt : '<' ∈ value
  · -- a value may hold no such character, and the reader does not get beyond the first
    obtain ⟨before, after, rfl, hbefore⟩ := List.eq_append_cons_of_mem hlt
    have hne : quote ≠ '<' := by
      rintro rfl
      exact hvalue hlt
    have hspan := hstop (d := '<') (by decide) (.inr rfl) before (fun c hc =>
      ⟨fun heq => hvalue (heq ▸ List.mem_append_left _ hc), fun heq => hbefore (heq ▸ hc)⟩)
      (after ++ quote :: rest)
    have hbad : ¬ (before ++ '<' :: after).all isValueChar = true := fun h =>
      absurd (List.all_eq_true.mp h '<' hlt) (by decide)
    rw [takeValue, List.append_assoc, List.cons_append, hspan, if_neg hbad]
    split
    · simp [bind, Option.bind, expect_cons_of_ne hne]
    · rfl
  · have hspan := hstop hxml (.inl rfl) value (fun c hc =>
      ⟨fun heq => hvalue (heq ▸ hc), fun heq => hlt (heq ▸ hc)⟩) rest
    have hsame : value.all isValueChar = value.all isXmlChar := by
      rw [Bool.eq_iff_iff, List.all_eq_true, List.all_eq_true]
      refine forall₂_congr fun c hc => ?_
      have hne : c ≠ '<' := fun heq => hlt (heq ▸ hc)
      simp [isValueChar, hne]
    have hexpect := expect_append [quote] rest
    rw [List.singleton_append] at hexpect
    rw [takeValue, hspan, hsame]
    split
    · simp [bind, Option.bind, hexpect]
    · rfl

/-- An attribute is read up to its end, whatever follows. -/
theorem AttributeText.Proper.takeAttribute_eq {a : AttributeText} (h : a.Proper) (rest : List Char) :
    takeAttribute (a.chars ++ rest) = a.raw?.map (·, rest) := by
  have hchars : a.chars ++ rest = a.name ++ (a.left ++ '=' :: (a.right ++
      a.quote :: (a.value ++ a.quote :: rest))) := by simp [AttributeText.chars]
  have hequal : isNameChar '=' = false ∧ isSpace '=' = false := by decide
  have hspace : isSpace a.quote = false := by
    rcases h.quote with hq | hq <;> rw [hq] <;> decide
  have hquote (r : List Char) : takeQuote (a.quote :: r) = some (a.quote, r) := by
    rcases h.quote with hq | hq <;> rw [hq] <;> rfl
  have hequals := expect_append ['='] (a.right ++ a.quote :: (a.value ++ a.quote :: rest))
  rw [List.singleton_append] at hequals
  rw [takeAttribute, hchars, takeQualified_append_blanks h.name h.left hequal.1, raw?]
  cases splitQualified a.name with
  | none => rfl
  | some name =>
    rw [Option.map_some]
    change (expect ['='] (skipSpaces (a.left ++ '=' :: (a.right ++
      a.quote :: (a.value ++ a.quote :: rest))))).bind _ = _
    rw [skipSpaces_append h.left hequal.2, hequals, Option.bind_some,
      skipSpaces_append h.right hspace, hquote]
    change (takeValue a.quote (a.value ++ a.quote :: rest)).bind _ = _
    rw [takeValue_append h.quote h.value]
    split <;> rfl

end

namespace StartTag

/-- The end of a tag after blanks. -/
theorem takeAttributes_end {gap : List Char} (hgap : ∀ c ∈ gap, isSpace c = true) (empty : Bool)
    (rest : List Char) :
    takeAttributes (gap ++ (tagEnd empty ++ rest)) = some (([], empty), rest) := by
  cases empty with
  | true =>
    have hskip : skipSpaces (gap ++ (tagEnd true ++ rest)) = '/' :: '>' :: rest :=
      skipSpaces_append hgap (by decide) _
    rw [takeAttributes]
    simp only [hskip]
  | false =>
    have hskip : skipSpaces (gap ++ (tagEnd false ++ rest)) = '>' :: rest :=
      skipSpaces_append hgap (by decide) _
    rw [takeAttributes]
    simp only [hskip]

/-- An attribute is read before those that follow it. -/
theorem takeAttributes_cons {blanks : List Char} (hne : blanks ≠ [])
    (hblanks : ∀ c ∈ blanks, isSpace c = true) {a : AttributeText} (ha : a.Proper)
    (rest : List Char) :
    takeAttributes (blanks ++ (a.chars ++ rest)) =
      a.raw?.bind fun raw => (takeAttributes rest).map fun p => ((raw :: p.1.1, p.1.2), p.2) := by
  obtain ⟨b, blanks, rfl⟩ := List.exists_cons_of_ne_nil hne
  obtain ⟨c, name, hname⟩ := List.exists_cons_of_ne_nil ha.named
  have hc : isNameChar c = true := ha.name c (hname ▸ List.mem_cons_self)
  have hchars : ∃ r, a.chars ++ rest = c :: r := by simp [AttributeText.chars, hname]
  obtain ⟨r, hr⟩ := hchars
  have hskip : skipSpaces (b :: blanks ++ (a.chars ++ rest)) = a.chars ++ rest := by
    rw [hr]
    exact skipSpaces_append hblanks (not_isSpace_of_isNameChar hc) r
  have hb : ((b :: blanks ++ (a.chars ++ rest)).head?.any isSpace) = true :=
    hblanks b List.mem_cons_self
  have htake := ha.takeAttribute_eq rest
  rw [takeAttributes]
  split
  · next h =>
    rw [hskip, hr] at h
    cases h
    exact absurd hc (by decide)
  · next h =>
    rw [hskip, hr] at h
    cases h
    exact absurd hc (by decide)
  · rw [if_pos hb]
    rw [← hskip] at htake
    split
    · next hnone =>
      rw [htake, Option.map_eq_none_iff] at hnone
      rw [hnone]
      rfl
    · next a' rest' hsome =>
      rw [htake, Option.map_eq_some_iff] at hsome
      obtain ⟨raw, hraw, heq⟩ := hsome
      obtain ⟨rfl, rfl⟩ := Prod.mk.inj heq
      rw [hraw]
      rfl

theorem takeAttributes_eq {attributes : List (List Char × AttributeText)}
    (h : ∀ a ∈ attributes, a.1 ≠ [] ∧ (∀ c ∈ a.1, isSpace c = true) ∧ a.2.Proper)
    {gap : List Char} (hgap : ∀ c ∈ gap, isSpace c = true) (empty : Bool) (rest : List Char) :
    takeAttributes (attributes.flatMap (fun a => a.1 ++ a.2.chars) ++
        (gap ++ (tagEnd empty ++ rest))) =
      ((attributes.map (·.2)).mapM AttributeText.raw?).map fun raws => ((raws, empty), rest) := by
  induction attributes with
  | nil => exact takeAttributes_end hgap empty rest
  | cons a attributes ih =>
    obtain ⟨⟨hne, hblanks, ha⟩, hattributes⟩ := List.forall_mem_cons.mp h
    rw [List.flatMap_cons, List.append_assoc, List.append_assoc,
      takeAttributes_cons hne hblanks ha, ih hattributes, List.map_cons, List.mapM_cons]
    cases a.2.raw? with
    | none => rfl
    | some raw => cases (attributes.map (·.2)).mapM AttributeText.raw? <;> rfl

variable {t : StartTag}

/-- The name of a tag is followed by a blank or by the end of the tag. -/
theorem Proper.exists_after_name (h : t.Proper) (rest : List Char) :
    ∃ d r, t.attributes.flatMap (fun a => a.1 ++ a.2.chars) ++
      (t.gap ++ (tagEnd t.empty ++ rest)) = d :: r ∧ isNameChar d = false := by
  have hblank {blanks : List Char} (hne : blanks ≠ []) (hblanks : ∀ c ∈ blanks, isSpace c = true)
      (s : List Char) : ∃ d r, blanks ++ s = d :: r ∧ isNameChar d = false := by
    obtain ⟨b, blanks, rfl⟩ := List.exists_cons_of_ne_nil hne
    exact ⟨b, _, rfl, isNameChar_of_isSpace (hblanks b List.mem_cons_self)⟩
  cases ht : t.attributes with
  | cons a attributes =>
    obtain ⟨hne, hblanks, -⟩ := h.attributes a (ht ▸ List.mem_cons_self)
    rw [List.flatMap_cons, List.append_assoc, List.append_assoc]
    exact hblank hne hblanks _
  | nil =>
    by_cases hgap : t.gap = []
    · rw [hgap]
      cases t.empty with
      | true => exact ⟨'/', _, rfl, by decide⟩
      | false => exact ⟨'>', _, rfl, by decide⟩
    · exact hblank hgap h.gap _

theorem Proper.takeStart_eq (h : t.Proper) (rest : List Char) :
    takeStart (t.inner ++ rest) = t.token?.map (·, rest) := by
  have hinner : t.inner ++ rest = t.name ++ (t.attributes.flatMap
      (fun a => a.1 ++ a.2.chars) ++ (t.gap ++ (tagEnd t.empty ++ rest))) := by
    simp [inner]
  obtain ⟨d, r, hr, hd⟩ := h.exists_after_name rest
  have hattributes := takeAttributes_eq h.attributes h.gap t.empty rest
  rw [hinner, takeStart, hr, takeQualified_append_cons h.name hd, ← hr, token?]
  cases splitQualified t.name with
  | none => rfl
  | some name =>
    simp only [bind, Option.map_some, Option.bind_some, hattributes]
    cases (t.attributes.map (·.2)).mapM AttributeText.raw? <;> rfl

/-- No other markup starts like a start tag. -/
theorem Proper.expect_chars (h : t.Proper) {c : Char} (hc : isNameChar c = false)
    (pre rest : List Char) : expect ('<' :: c :: pre) (t.chars ++ rest) = none := by
  obtain ⟨d, name, hname⟩ := List.exists_cons_of_ne_nil h.named
  have hd : isNameChar d = true := h.name d (hname ▸ List.mem_cons_self)
  have hne : c ≠ d := by
    rintro rfl
    rw [hc] at hd
    cases hd
  simp [expect, chars, inner, hname, hne]

theorem Proper.takeToken_eq (h : t.Proper) (rest : List Char) :
    takeToken (t.chars ++ rest) = t.token?.map (·, rest) := by
  have hcomment := h.expect_chars (c := '!') (by decide) ['-', '-'] rest
  have hliteral := h.expect_chars (c := '!') (by decide) ['[', 'C', 'D', 'A', 'T', 'A', '['] rest
  have hinstruction := h.expect_chars (c := '?') (by decide) [] rest
  have hclose := h.expect_chars (c := '/') (by decide) [] rest
  have hopen : expect "<".toList (t.chars ++ rest) = some (t.inner ++ rest) :=
    expect_append ['<'] _
  rw [takeToken]
  simp only [String.reduceToList, hcomment, hliteral, hinstruction, hclose] at hopen ⊢
  simp only [hopen, h.takeStart_eq]

end StartTag

/-! ### Markup that is no start tag -/

/-- A reader takes these characters, or fails at them, whatever follows. -/
def TakesWhole (f : List Char → Option (Token × List Char)) (s : List Char) : Prop :=
  ∃ o : Option Token, ∀ rest, f (s ++ rest) = o.map (·, rest)

section
variable {d : Char} {m text : List Char}

/-- What does not look like a mark before the mark does not so before anything that follows it. -/
theorem spanChars_unmarked (hd : isXmlChar d = true) (h : Unmarked (d :: m) text)
    (rest : List Char) :
    spanChars ((d :: m).isPrefixOf ·) (text ++ (d :: m ++ rest)) =
      if text.all isXmlChar then some (text, d :: m ++ rest) else none := by
  refine spanChars_mark hd (fun r hr hsuffix rest => ?_) (fun rest => ?_) rest
  · refine Bool.eq_false_iff.mpr fun hprefix => h r hr hsuffix ?_
    rw [List.isPrefixOf_iff_prefix, ← List.append_assoc] at hprefix
    exact List.prefix_of_prefix_length_le hprefix (List.prefix_append _ _) (by simp)
  · rw [List.isPrefixOf_iff_prefix]
    exact List.prefix_append _ _

/-- What is read of a comment, unless it is refused. -/
def commentToken? (text : List Char) : Option Token :=
  if text.all isXmlChar then
    if hasDoubleHyphen text || text.getLast? == some '-' then none
    else some (.comment (String.ofList text))
  else none

theorem takeComment_append (h : Unmarked "-->".toList text) (rest : List Char) :
    takeComment (text ++ "-->".toList ++ rest) = (commentToken? text).map (·, rest) := by
  have hspan := spanChars_unmarked (d := '-') (m := ['-', '>']) (by decide) h rest
  have hexpect := expect_append "-->".toList rest
  simp only [String.reduceToList] at hexpect ⊢
  rw [takeComment, commentToken?, List.append_assoc]
  simp only [String.reduceToList, List.cons_append, List.nil_append] at hspan hexpect ⊢
  rw [hspan]
  split
  · simp only [bind, Option.bind_some, hexpect]
    split <;> rfl
  · rfl

theorem takesWhole_comment (h : Unmarked "-->".toList text) :
    TakesWhole takeComment (text ++ "-->".toList) := ⟨_, takeComment_append h⟩

theorem takesWhole_literal (h : Unmarked "]]>".toList text) :
    TakesWhole takeLiteral (text ++ "]]>".toList) := by
  refine ⟨if text.all isXmlChar then some (.literal text) else none, fun rest => ?_⟩
  have hspan := spanChars_unmarked (d := ']') (m := [']', '>']) (by decide) h rest
  have hexpect := expect_append "]]>".toList rest
  simp only [String.reduceToList] at hexpect ⊢
  rw [takeLiteral, List.append_assoc]
  simp only [String.reduceToList, List.cons_append, List.nil_append] at hspan hexpect ⊢
  rw [hspan]
  split
  · simp only [bind, Option.bind_some, hexpect]
    rfl
  · rfl

theorem isPrefixOf_append_cons {pre : List Char} (hd : d ∉ pre) (s r : List Char) :
    pre.isPrefixOf (s ++ d :: r) = pre.isPrefixOf s := by
  induction pre generalizing s with
  | nil => simp
  | cons c pre ih =>
    rw [List.mem_cons, not_or] at hd
    cases s with
    | nil => simp [List.isPrefixOf, Ne.symm hd.1]
    | cons a s => rw [List.cons_append, List.isPrefixOf, List.isPrefixOf, ih hd.2]

theorem not_prefix_append_cons {mark : List Char} (hd : d ∉ mark) (h : ¬ mark <+: text)
    (r : List Char) : ¬ mark <+: text ++ d :: r := by
  rwa [← List.isPrefixOf_iff_prefix, isPrefixOf_append_cons hd, List.isPrefixOf_iff_prefix]

theorem Unmarked.of_suffix {mark r : List Char} (h : Unmarked mark text) (hr : r <:+ text) :
    Unmarked mark r := fun s hs hsuffix => h s hs (hsuffix.trans hr)

theorem unmarked_of_not_mem (h : d ∉ text) : Unmarked (d :: m) text := by
  intro r hr hsuffix hmark
  obtain ⟨c, r, rfl⟩ := List.exists_cons_of_ne_nil hr
  rw [List.cons_append, List.cons_prefix_cons] at hmark
  apply h
  rw [hmark.1]
  exact hsuffix.subset List.mem_cons_self

theorem takesWhole_instruction (h : Unmarked "?>".toList text) :
    TakesWhole takeInstruction (text ++ "?>".toList) := by
  have hxml (rest : List Char) : "xml ".toList.isPrefixOf (text ++ '?' :: '>' :: rest) =
      "xml ".toList.isPrefixOf text := isPrefixOf_append_cons (by decide) text _
  cases text with
  | nil => exact ⟨none, fun rest => rfl⟩
  | cons c text =>
    -- the target ends before the mark, and so do the blanks after it
    have hname (rest : List Char) : takeName (c :: text ++ '?' :: '>' :: rest) =
        if isNameStart c then some (String.ofList (c :: text.takeWhile isNameChar),
          text.dropWhile isNameChar ++ '?' :: '>' :: rest) else none := by
      rw [List.cons_append, takeName, takeWhile_append_cons (by decide),
        dropWhile_append_cons (by decide)]
    have hskip (rest : List Char) : skipSpaces (text.dropWhile isNameChar ++ '?' :: '>' :: rest) =
        (text.dropWhile isNameChar).dropWhile isSpace ++ '?' :: '>' :: rest :=
      dropWhile_append_cons (by decide) _ _
    have hvalue := h.of_suffix (((List.dropWhile_suffix isSpace).trans
      (List.dropWhile_suffix isNameChar)).trans (List.suffix_cons c text))
    generalize (text.dropWhile isNameChar).dropWhile isSpace = value at hskip hvalue
    refine ⟨if "xml ".toList.isPrefixOf (c :: text) then none else if isNameStart c then
      if value.all isXmlChar then some (.instruction
        (String.ofList (c :: text.takeWhile isNameChar)) (String.ofList value)) else none
      else none, fun rest => ?_⟩
    have hspan := spanChars_unmarked (d := '?') (m := ['>']) (by decide) hvalue rest
    have hexpect := expect_append "?>".toList rest
    have happend : c :: text ++ "?>".toList ++ rest = c :: text ++ '?' :: '>' :: rest := by simp
    rw [happend, takeInstruction, hxml, hname]
    split
    · rfl
    · split
      · simp only [String.reduceToList, List.cons_append, List.nil_append] at hspan hexpect
        simp only [String.reduceToList, bind, Option.bind_some, hskip, hspan]
        split
        · simp only [Option.bind_some, hexpect]
          rfl
        · rfl
      · rfl

theorem takesWhole_close (h : '>' ∉ text) : TakesWhole takeClose (text ++ ">".toList) := by
  have hqualified (rest : List Char) : takeQualified (text ++ '>' :: rest) =
      (splitQualified (text.takeWhile isNameChar)).map
        (·, text.dropWhile isNameChar ++ '>' :: rest) := by
    rw [takeQualified, takeWhile_append_cons (by decide), dropWhile_append_cons (by decide)]
    cases splitQualified (text.takeWhile isNameChar) <;> rfl
  have hskip (rest : List Char) : skipSpaces (text.dropWhile isNameChar ++ '>' :: rest) =
      (text.dropWhile isNameChar).dropWhile isSpace ++ '>' :: rest :=
    dropWhile_append_cons (by decide) _ _
  have hrest : (text.dropWhile isNameChar).dropWhile isSpace <:+ text :=
    (List.dropWhile_suffix isSpace).trans (List.dropWhile_suffix isNameChar)
  generalize (text.dropWhile isNameChar).dropWhile isSpace = gap at hskip hrest
  refine ⟨(splitQualified (text.takeWhile isNameChar)).bind fun name =>
    if gap = [] then some (.close name.1 name.2) else none, fun rest => ?_⟩
  have happend : text ++ ">".toList ++ rest = text ++ '>' :: rest := by simp
  rw [happend, takeClose, hqualified]
  cases splitQualified (text.takeWhile isNameChar) with
  | none => rfl
  | some name =>
    simp only [bind, Option.map_some, Option.bind_some, hskip]
    cases gap with
    | nil =>
      have hexpect := expect_append ['>'] rest
      rw [List.singleton_append] at hexpect
      simp only [List.nil_append, hexpect]
      rfl
    | cons c gap =>
      have hne : '>' ≠ c := fun heq => h (heq ▸ hrest.subset List.mem_cons_self)
      rw [List.cons_append, expect_cons_of_ne hne]
      rfl

theorem takeClose_append {q : String × String} (hname : ∀ c ∈ name, isNameChar c = true)
    (h : splitQualified name = some q) (rest : List Char) :
    takeClose (name ++ ">".toList ++ rest) = some (.close q.1 q.2, rest) := by
  have happend : name ++ ">".toList ++ rest = name ++ '>' :: rest := by simp
  have hskip : skipSpaces ('>' :: rest) = '>' :: rest := skipSpaces_cons (by decide) rest
  have hexpect : expect ['>'] ('>' :: rest) = some rest := expect_append ['>'] rest
  rw [happend, takeClose, takeQualified_append_cons hname (by decide), h]
  simp only [bind, Option.map_some, Option.bind_some, hskip, hexpect]

/-- No start tag begins with a mark. -/
theorem takeStart_eq_none {c : Char} (h : isNameChar c = false) (s : List Char) :
    takeStart (c :: s) = none := by
  have hname : takeQualified ([] ++ c :: s) = _ := takeQualified_append_cons (by simp) h s
  rw [List.nil_append] at hname
  rw [takeStart, hname]
  rfl

/-- No document element begins with a mark. -/
theorem takeRoot_eq_none {c : Char} (hc : isNameChar c = false) (r : List Char) :
    takeRoot ('<' :: c :: r) = none := by
  have hopen : expect ['<'] ('<' :: c :: r) = some (c :: r) := expect_append ['<'] _
  rw [takeRoot, hopen]
  simp only [bind, Option.bind_some, takeStart_eq_none hc, Option.bind_none]

theorem takeRoot_cons_of_ne {c : Char} (hc : '<' ≠ c) (r : List Char) :
    takeRoot (c :: r) = none := by
  rw [takeRoot, expect_cons_of_ne hc]
  rfl

/-- What is marked as a declaration but is neither a comment nor a literal is refused. -/
theorem takeToken_bang {r : List Char} (hcomment : ¬ "--".toList <+: r)
    (hliteral : ¬ "[CDATA[".toList <+: r) : takeToken ('<' :: '!' :: r) = none := by
  have hnone {pre : List Char} (h : ¬ pre <+: r) :
      expect ('<' :: '!' :: pre) ('<' :: '!' :: r) = none := by
    rw [← List.isPrefixOf_iff_prefix, Bool.not_eq_true] at h
    simp [expect, List.isPrefixOf, h]
  have hcomment := hnone hcomment
  have hliteral := hnone hliteral
  have hinstruction : expect ['<', '?'] ('<' :: '!' :: r) = none := by simp [expect]
  have hclose : expect ['<', '/'] ('<' :: '!' :: r) = none := by simp [expect]
  have hopen : expect ['<'] ('<' :: '!' :: r) = some ('!' :: r) := expect_append ['<'] _
  have hstart := takeStart_eq_none (c := '!') (by decide) r
  rw [takeToken]
  simp only [String.reduceToList] at hcomment hliteral ⊢
  simp only [hcomment, hliteral, hinstruction, hclose, hopen, hstart]

end

/-! ### Pieces are told by their marks -/

section
variable (r : List Char)

theorem takeToken_comment : takeToken ("<!--".toList ++ r) = takeComment r := by
  rw [takeToken, expect_append]

theorem takeMisc?_comment : takeMisc? ("<!--".toList ++ r) = (takeComment r).map (some ·.2) := by
  rw [takeMisc?, expect_append]

theorem expect_comment_instruction : expect "<!--".toList ("<?".toList ++ r) = none := by
  simp [expect]

theorem takeToken_instruction : takeToken ("<?".toList ++ r) = takeInstruction r := by
  have hliteral : expect "<![CDATA[".toList ("<?".toList ++ r) = none := by simp [expect]
  rw [takeToken, expect_comment_instruction, hliteral, expect_append]

theorem takeMisc?_instruction :
    takeMisc? ("<?".toList ++ r) = (takeInstruction r).map (some ·.2) := by
  rw [takeMisc?, expect_comment_instruction, expect_append]

theorem takeDefinition_comment :
    takeDefinition ("<!--".toList ++ r) = (takeComment r).map fun p => ([], p.2) := by
  have hentity : expect "<!ENTITY".toList ("<!--".toList ++ r) = none := by simp [expect]
  rw [takeDefinition, hentity, expect_append]

theorem takeDefinition_instruction :
    takeDefinition ("<?".toList ++ r) = (takeInstruction r).map fun p => ([], p.2) := by
  have hentity : expect "<!ENTITY".toList ("<?".toList ++ r) = none := by simp [expect]
  rw [takeDefinition, hentity, expect_comment_instruction, expect_append]

theorem takeToken_literal : takeToken ("<![CDATA[".toList ++ r) = takeLiteral r := by
  have hcomment : expect "<!--".toList ("<![CDATA[".toList ++ r) = none := by simp [expect]
  rw [takeToken, hcomment, expect_append]

theorem takeToken_end : takeToken ("</".toList ++ r) = takeClose r := by
  have hcomment : expect "<!--".toList ("</".toList ++ r) = none := by simp [expect]
  have hliteral : expect "<![CDATA[".toList ("</".toList ++ r) = none := by simp [expect]
  have hinstruction : expect "<?".toList ("</".toList ++ r) = none := by simp [expect]
  rw [takeToken, hcomment, hliteral, hinstruction, expect_append]

end

namespace Markup
variable {s : List Char}

theorem exists_cons (h : Markup s) : ∃ r, s = '<' :: r := by
  cases h <;> exact ⟨_, rfl⟩

theorem takesWhole (h : Markup s) : TakesWhole takeToken s := by
  cases h with
  | comment h =>
    obtain ⟨o, ho⟩ := takesWhole_comment h
    refine ⟨o, fun rest => (Eq.trans ?_ (ho rest))⟩
    rw [List.append_assoc, takeToken_comment]
  | literal h =>
    obtain ⟨o, ho⟩ := takesWhole_literal h
    refine ⟨o, fun rest => (Eq.trans ?_ (ho rest))⟩
    rw [List.append_assoc, takeToken_literal]
  | instruction _ h =>
    obtain ⟨o, ho⟩ := takesWhole_instruction h
    refine ⟨o, fun rest => (Eq.trans ?_ (ho rest))⟩
    rw [List.append_assoc, takeToken_instruction]
  | close h =>
    obtain ⟨o, ho⟩ := takesWhole_close h
    refine ⟨o, fun rest => (Eq.trans ?_ (ho rest))⟩
    rw [List.append_assoc, takeToken_end]
  | declaration => exact ⟨none, fun rest => takeToken_instruction _⟩
  | @definition text =>
    exact ⟨none, fun rest => takeToken_bang (r := 'D' :: ("OCTYPE".toList ++ text ++ rest))
      (by simp) (by simp)⟩
  | @misplaced text h hname =>
    refine ⟨none, fun rest => ?_⟩
    rw [List.append_assoc, List.append_assoc]
    exact takeToken_bang (not_prefix_append_cons (by decide) (hname "--" (by simp)) rest)
      (not_prefix_append_cons (by decide) (hname "[CDATA[" (by simp)) rest)

/-- Outside of the document element markup is passed over or not. -/
theorem takeMisc?_eq (h : Markup s) :
    (∃ o : Option Token, ∀ rest, takeMisc? (s ++ rest) = o.map fun _ => some rest) ∨
      ∀ rest, takeMisc? (s ++ rest) = some none := by
  cases h with
  | comment h =>
    obtain ⟨o, ho⟩ := takesWhole_comment h
    refine .inl ⟨o, fun rest => ?_⟩
    rw [List.append_assoc, takeMisc?_comment, ho, Option.map_map]
    rfl
  | literal h => exact .inr fun rest => by simp [takeMisc?, expect]
  | instruction _ h =>
    obtain ⟨o, ho⟩ := takesWhole_instruction h
    refine .inl ⟨o, fun rest => ?_⟩
    rw [List.append_assoc, takeMisc?_instruction, ho, Option.map_map]
    rfl
  | close h => exact .inr fun rest => by simp [takeMisc?, expect]
  | declaration => exact .inl ⟨none, fun rest => takeMisc?_instruction _⟩
  | definition => exact .inr fun rest => by simp [takeMisc?, expect]
  | @misplaced text h hname =>
    refine .inr fun rest => ?_
    have hcomment := not_prefix_append_cons (d := '>') (by decide) (hname "--" (by simp)) rest
    simp only [String.reduceToList] at hcomment
    simp [takeMisc?, expect, hcomment]

end Markup

/-- What is read of character data, unless it is refused. -/
def textToken? (run : List Char) : Option Token :=
  if run.all isXmlChar then (if hasLiteralEnd run then none else some (.text run)) else none

/-- Text is taken up to the markup that follows. -/
theorem takeToken_run {run : List Char} (hne : run ≠ []) (hrun : '<' ∉ run) (s : List Char) :
    takeToken (run ++ '<' :: s) = (textToken? run).map (·, '<' :: s) := by
  have hspan : spanChars (·.head? == some '<') (run ++ '<' :: s) =
      if run.all isXmlChar then some (run, '<' :: s) else none := by
    refine spanChars_mark (m := []) (by decide) (fun r hr hsuffix rest => ?_) (fun rest => rfl) s
    obtain ⟨c, r, rfl⟩ := List.exists_cons_of_ne_nil hr
    have hc : c ≠ '<' := fun heq => hrun (heq ▸ hsuffix.subset List.mem_cons_self)
    simp [hc]
  obtain ⟨c, run', rfl⟩ := List.exists_cons_of_ne_nil hne
  have hlt : '<' ≠ c := fun heq => hrun (heq ▸ List.mem_cons_self)
  have htake : takeToken (c :: run' ++ '<' :: s) = takeText (c :: run' ++ '<' :: s) := by
    simp [takeToken, expect, hlt]
  rw [htake, takeText, hspan, textToken?]
  split
  · simp only [bind, Option.bind_some]
    split <;> rfl
  · rfl

end XmlBinding.Xml
