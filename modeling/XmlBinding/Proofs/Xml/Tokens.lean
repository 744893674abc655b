import XmlBinding.Proofs.Xml.Outline
import XmlBinding.Xml.Reading

/-! # The tokens of what is written

Escaped text holds no markup, so a reader that takes tokens off the written pieces stops exactly
where one piece ends and the next begins.
-/
namespace XmlBinding.Xml

/-- A name without a colon. -/
def isNCName (s : String) : Bool :=
  s.toList.head?.any isNameStart && s.toList.all fun c => isNameChar c && c != ':'

/-- Characters that may stand in a document. -/
def isXmlText (s : String) : Bool := s.toList.all isXmlChar

def rawAttribute (a : String × String) : RawAttribute := ⟨"", a.1, escape a.2.toList⟩

def textTokens : Option String → List Token
  | none => []
  | some text => if text = "" then [] else [.text (escape text.toList)]

mutual

/-- The tokens of an element in a scope with the default namespace `outer`. -/
def Outline.tokens (outer : Option String) : Outline → List Token
  | ⟨name, uri, attributes, text, children⟩ =>
    let attributes := (namespaceDeclaration outer uri ++ attributes).map rawAttribute
    if text.isNone && children.isEmpty then [.start "" name attributes true]
    else .start "" name attributes false ::
      (textTokens text ++ outlineTokens uri children ++ [.close "" name])

def outlineTokens (outer : Option String) : List Outline → List Token
  | [] => []
  | o :: os => o.tokens outer ++ outlineTokens outer os

end

/-- Names are names and values are text, which is all that a reader of tokens looks at. -/
structure Outline.Writable (o : Outline) : Prop where
  name : isNCName o.name = true
  uri : ∀ u ∈ o.uri, isXmlText u = true
  attributes : ∀ a ∈ o.attributes, isNCName a.1 = true ∧ isXmlText a.2 = true
  text : ∀ t ∈ o.text, isXmlText t = true

theorem mem_escapeChar {c d : Char} (hd : isXmlChar d = true) (hc : c ∈ escapeChar d) :
    isXmlChar c = true ∧ c ≠ '<' ∧ c ≠ '"' ∧ c ≠ '>' := by
  have hplain {s : List Char} (hs : s.all fun c => isXmlChar c && ¬ ['<', '"', '>'].contains c)
      (hc : c ∈ s) : isXmlChar c = true ∧ c ≠ '<' ∧ c ≠ '"' ∧ c ≠ '>' := by
    simpa using List.all_eq_true.mp hs c hc
  unfold escapeChar at hc
  split at hc
  case h_6 hlt hgt _ _ hquot =>
    obtain rfl := List.mem_singleton.mp hc
    exact ⟨hd, hlt, hquot, hgt⟩
  all_goals exact hplain (by decide) hc

/-- Text as it is escaped: nothing that ends a value or starts markup. -/
theorem mem_escape {s : List Char} (h : s.all isXmlChar = true) {c : Char} (hc : c ∈ escape s) :
    isXmlChar c = true ∧ c ≠ '<' ∧ c ≠ '"' ∧ c ≠ '>' := by
  obtain ⟨d, hd, hc⟩ := List.mem_flatMap.mp hc
  exact mem_escapeChar (List.all_eq_true.mp h d hd) hc

theorem spanChars_append {stop : List Char → Bool} {p : Char → Bool}
    (hstop : ∀ c r, stop (c :: r) = p c) {run : List Char}
    (hrun : ∀ c ∈ run, isXmlChar c = true ∧ p c = false) {d : Char} (hd : isXmlChar d = true)
    (hpd : p d = true) (rest : List Char) :
    spanChars stop (run ++ d :: rest) = some (run, d :: rest) := by
  induction run with
  | nil => simp [spanChars, hd, hstop, hpd]
  | cons c run ih =>
    obtain ⟨hc, hrun⟩ := List.forall_mem_cons.mp hrun
    rw [List.cons_append, spanChars, hstop, hc.1, hc.2, ih hrun]
    rfl

theorem expect_append (pre rest : List Char) : expect pre (pre ++ rest) = some rest := by
  simp [expect, List.isPrefixOf_iff_prefix]

/-- A name is taken up to the first character that belongs to no name. -/
theorem takeQualified_append {name : String} (h : isNCName name = true) {d : Char}
    (hd : isNameChar d = false) (rest : List Char) :
    takeQualified (name.toList ++ d :: rest) = some (("", name), d :: rest) := by
  simp only [isNCName, Bool.and_eq_true, List.all_eq_true] at h
  obtain ⟨hhead, hall⟩ := h
  have hchars : ∀ c ∈ name.toList, isNameChar c = true := fun c hc => (hall c hc).1
  have hcolon : ':' ∉ name.toList := fun hc => by simpa using (hall _ hc).2
  have htake : (name.toList ++ d :: rest).takeWhile isNameChar = name.toList := by
    rw [List.takeWhile_append_of_pos hchars, List.takeWhile_cons, hd]
    simp
  have hdrop : (name.toList ++ d :: rest).dropWhile isNameChar = d :: rest := by
    rw [List.dropWhile_append_of_pos hchars, List.dropWhile_cons, hd]
    simp
  have hsplit : splitQualified name.toList = some ("", name) := by
    simp [splitQualified, hcolon, hhead]
  rw [takeQualified, htake, hdrop, hsplit]
  rfl

theorem exists_cons_of_isNCName {name : String} (h : isNCName name = true) :
    ∃ c cs, name.toList = c :: cs ∧ isNameStart c = true := by
  cases hs : name.toList with
  | nil => simp [isNCName, hs] at h
  | cons c cs =>
    simp only [isNCName, hs, Bool.and_eq_true] at h
    exact ⟨c, cs, rfl, h.1⟩

theorem skipSpaces_cons {c : Char} (h : isSpace c = false) (r : List Char) :
    skipSpaces (c :: r) = c :: r := by
  simp [skipSpaces, h]

theorem takeAttribute_append {a : String × String} (hn : isNCName a.1 = true)
    (hv : isXmlText a.2 = true) (rest : List Char) :
    takeAttribute (a.1.toList ++ '=' :: '"' :: (escape a.2.toList ++ '"' :: rest)) =
      some (rawAttribute a, rest) := by
  have hspan : spanChars (fun s => s.head? == some '"' || s.head? == some '<')
      (escape a.2.toList ++ '"' :: rest) = some (escape a.2.toList, '"' :: rest) := by
    have hrun : ∀ c ∈ escape a.2.toList, isXmlChar c = true ∧ (c == '"' || c == '<') = false := by
      intro c hc
      obtain ⟨hx, hlt, hquot, -⟩ := mem_escape hv hc
      exact ⟨hx, by simp [hlt, hquot]⟩
    exact spanChars_append (fun _ _ => rfl) hrun (by decide) (by decide) rest
  have hvalue : takeValue '"' (escape a.2.toList ++ '"' :: rest) =
      some (escape a.2.toList, rest) := by
    rw [takeValue, hspan]
    exact congrArg (Option.map (escape a.2.toList, ·)) (expect_append ['"'] rest)
  have hequals := expect_append ['='] ('"' :: (escape a.2.toList ++ '"' :: rest))
  rw [takeAttribute, takeQualified_append hn (by decide)]
  simp only [bind, Option.bind, skipSpaces_cons (show isSpace '=' = false by decide),
    List.singleton_append] at hequals ⊢
  rw [hequals]
  simp only [skipSpaces_cons (show isSpace '"' = false by decide), takeQuote, hvalue]
  rfl

/-- The end of a start tag or of an empty tag. -/
def tagEnd (empty : Bool) : List Char := if empty then ['/', '>'] else ['>']

theorem takeAttributes_append {attributes : List (String × String)} (empty : Bool)
    (h : ∀ a ∈ attributes, isNCName a.1 = true ∧ isXmlText a.2 = true) (rest : List Char) :
    takeAttributes (attributes.flatMap attributeText ++ (tagEnd empty ++ rest)) =
      some ((attributes.map rawAttribute, empty), rest) := by
  induction attributes with
  | nil =>
    cases empty <;> rw [takeAttributes] <;> rfl
  | cons a as ih =>
    obtain ⟨⟨hn, hv⟩, has⟩ := List.forall_mem_cons.mp h
    obtain ⟨c, cs, hc, hstart⟩ := exists_cons_of_isNCName hn
    have htext : (a :: as).flatMap attributeText ++ (tagEnd empty ++ rest) =
        ' ' :: (a.1.toList ++ '=' :: '"' :: (escape a.2.toList ++
          '"' :: (as.flatMap attributeText ++ (tagEnd empty ++ rest)))) := by
      simp [attributeText]
    have hskip : skipSpaces ((a :: as).flatMap attributeText ++ (tagEnd empty ++ rest)) =
        a.1.toList ++ '=' :: '"' :: (escape a.2.toList ++
          '"' :: (as.flatMap attributeText ++ (tagEnd empty ++ rest))) := by
      rw [htext, hc]
      have hspace := not_isSpace_of_isNameChar (isNameChar_of_isNameStart hstart)
      exact (List.dropWhile_cons_of_pos (by decide)).trans (skipSpaces_cons hspace _)
    have htake := takeAttribute_append hn hv (as.flatMap attributeText ++ (tagEnd empty ++ rest))
    rw [← hskip] at htake
    have hhead : ((a :: as).flatMap attributeText ++
        (tagEnd empty ++ rest)).head?.any isSpace = true := by
      rw [htext]
      rfl
    have hfirst (d : Char) (r : List Char) (hd : isNameStart d = false) :
        skipSpaces ((a :: as).flatMap attributeText ++ (tagEnd empty ++ rest)) ≠ d :: r := by
      rw [hskip, hc]
      rintro ⟨⟩
      rw [hstart] at hd
      cases hd
    rw [takeAttributes]
    split
    · next r hr => exact absurd hr (hfirst '>' r (by decide))
    · next r hr => exact absurd hr (hfirst '/' _ (by decide))
    · rw [if_pos hhead]
      split
      · next hnone => rw [htake] at hnone; cases hnone
      · next b rest' hsome =>
        rw [htake] at hsome
        cases hsome
        rw [ih has]
        rfl

/-- The text of a start tag or of an empty tag after its first character. -/
theorem takeStart_append {name : String} (hname : isNCName name = true)
    {attributes : List (String × String)} (empty : Bool)
    (h : ∀ a ∈ attributes, isNCName a.1 = true ∧ isXmlText a.2 = true) (rest : List Char) :
    takeStart (name.toList ++ (attributes.flatMap attributeText ++ (tagEnd empty ++ rest))) =
      some (.start "" name (attributes.map rawAttribute) empty, rest) := by
  have hname' : takeQualified (name.toList ++ (attributes.flatMap attributeText ++
      (tagEnd empty ++ rest))) =
      some (("", name), attributes.flatMap attributeText ++ (tagEnd empty ++ rest)) := by
    cases attributes with
    | nil => cases empty <;> exact takeQualified_append hname (by decide) _
    | cons a as =>
      simp only [List.flatMap_cons, attributeText, List.cons_append]
      exact takeQualified_append hname (by decide) _
  rw [takeStart, hname']
  simp only [bind, Option.bind, takeAttributes_append empty h rest]

theorem takeToken_start {name : String} (hname : isNCName name = true) (rest : List Char) :
    takeToken ('<' :: (name.toList ++ rest)) = takeStart (name.toList ++ rest) := by
  obtain ⟨c, cs, hc, hstart⟩ := exists_cons_of_isNCName hname
  have hne (d : Char) (hd : isNameStart d = false) : d ≠ c := by
    rintro rfl
    rw [hstart] at hd
    cases hd
  have hbang := hne '!' (by decide)
  have hquery := hne '?' (by decide)
  have hslash := hne '/' (by decide)
  rw [hc]
  simp [takeToken, expect, hbang, hquery, hslash]

theorem takeToken_close {name : String} (hname : isNCName name = true) (rest : List Char) :
    takeToken ('<' :: '/' :: (name.toList ++ '>' :: rest)) = some (.close "" name, rest) := by
  have hclose : takeClose (name.toList ++ '>' :: rest) = some (.close "" name, rest) := by
    rw [takeClose, takeQualified_append hname (by decide)]
    simp only [bind, Option.bind, skipSpaces_cons (show isSpace '>' = false by decide)]
    rw [show expect ['>'] ('>' :: rest) = some rest from expect_append ['>'] rest]
  simp [takeToken, expect, hclose]

theorem hasLiteralEnd_eq_false {s : List Char} (h : '>' ∉ s) : hasLiteralEnd s = false := by
  induction s with
  | nil => rfl
  | cons c s ih =>
    rw [hasLiteralEnd.eq_def]
    split
    · next heq =>
      rw [heq] at h
      simp at h
    · next heq =>
      cases heq
      exact ih fun hs => h (List.mem_cons_of_mem _ hs)
    · rfl

theorem escape_ne_nil {text : String} (hne : text ≠ "") : escape text.toList ≠ [] := by
  cases hs : text.toList with
  | nil => exact absurd (String.toList_eq_nil_iff.mp hs) hne
  | cons c s =>
    have hc : escapeChar c ≠ [] := by
      unfold escapeChar
      split <;> simp
    simp [escape, hc]

theorem takeToken_text {text : String} (h : isXmlText text = true) (hne : text ≠ "")
    (rest : List Char) :
    takeToken (escape text.toList ++ '<' :: rest) =
      some (.text (escape text.toList), '<' :: rest) := by
  have hspan : spanChars (·.head? == some '<') (escape text.toList ++ '<' :: rest) =
      some (escape text.toList, '<' :: rest) := by
    have hrun : ∀ c ∈ escape text.toList, isXmlChar c = true ∧ (c == '<') = false := by
      intro c hc
      obtain ⟨hx, hlt, -, -⟩ := mem_escape h hc
      exact ⟨hx, by simp [hlt]⟩
    exact spanChars_append (fun _ _ => rfl) hrun (by decide) (by decide) rest
  have hend : hasLiteralEnd (escape text.toList) = false :=
    hasLiteralEnd_eq_false fun hc => (mem_escape h hc).2.2.2 rfl
  have htake : takeText (escape text.toList ++ '<' :: rest) =
      some (.text (escape text.toList), '<' :: rest) := by
    simp [takeText, hspan, hend]
  obtain ⟨c, cs, hc⟩ := List.exists_cons_of_ne_nil (escape_ne_nil hne)
  have hlt : '<' ≠ c := by
    rintro rfl
    exact (mem_escape h (hc ▸ List.mem_cons_self)).2.1 rfl
  rw [← htake, hc]
  simp [takeToken, expect, hlt]

theorem takeTokens_cons {depth : Nat} {s rest : List Char} {t : Token} (hd : depth ≠ 0)
    (hs : s ≠ []) (h : takeToken s = some (t, rest)) :
    takeTokens depth s = (takeTokens (t.depthAfter depth) rest).map fun p => (t :: p.1, p.2) := by
  rw [takeTokens, if_neg hd, dif_neg hs]
  split
  · next hnone => rw [h] at hnone; cases hnone
  · next t' rest' hsome =>
    rw [h] at hsome
    cases hsome
    rfl

/-- The text of pieces on one line. -/
def plainChars (pieces : List Piece) : List Char := pieces.flatMap Piece.chars

@[simp] theorem plainChars_append (ps qs : List Piece) :
    plainChars (ps ++ qs) = plainChars ps ++ plainChars qs :=
  List.flatMap_append

theorem plainChars_startTag (name : String) (attributes : List (String × String)) :
    plainChars [.startTag name attributes] =
      '<' :: (name.toList ++ (attributes.flatMap attributeText ++ tagEnd false)) := by
  change '<' :: name.toList ++ attributes.flatMap attributeText ++ ['>'] ++ [] = _
  simp [tagEnd]

theorem plainChars_emptyTag (name : String) (attributes : List (String × String)) :
    plainChars [.emptyTag name attributes] =
      '<' :: (name.toList ++ (attributes.flatMap attributeText ++ tagEnd true)) := by
  change '<' :: name.toList ++ attributes.flatMap attributeText ++ ['/', '>'] ++ [] = _
  simp [tagEnd]

theorem plainChars_endTag (name : String) :
    plainChars [.endTag name] = '<' :: '/' :: (name.toList ++ ['>']) := by
  change '<' :: '/' :: name.toList ++ ['>'] ++ [] = _
  simp

theorem plainChars_text (text : String) : plainChars [.text text] = escape text.toList :=
  List.append_nil _

theorem exists_plainChars_eq (outer : Option String) (os : List Outline) (name : String) :
    ∃ r, plainChars (outlinePieces outer os ++ [.endTag name]) = '<' :: r := by
  cases os with
  | nil => exact ⟨_, rfl⟩
  | cons o os =>
    obtain ⟨n, uri, attributes, text, children⟩ := o
    rw [outlinePieces, Outline.pieces]
    split <;> exact ⟨_, rfl⟩

/-- What follows a start tag, up to its end tag. -/
def Outline.bodyTokens (o : Outline) : List Token :=
  textTokens o.text ++ outlineTokens o.uri o.children ++ [.close "" o.name]

def Outline.bodyPieces (o : Outline) : List Piece :=
  (o.text.map Piece.text).toList ++ outlinePieces o.uri o.children ++ [.endTag o.name]

/-- The attributes of an element, its namespace declaration among them. -/
def Outline.declared (outer : Option String) (o : Outline) : List (String × String) :=
  namespaceDeclaration outer o.uri ++ o.attributes

def Outline.isEmpty (o : Outline) : Bool := o.text.isNone && o.children.isEmpty

theorem Outline.pieces_eq (o : Outline) (outer : Option String) :
    o.pieces outer = if o.isEmpty then [.emptyTag o.name (o.declared outer)]
      else .startTag o.name (o.declared outer) :: o.bodyPieces := by
  cases o
  rfl

theorem Outline.tokens_eq (o : Outline) (outer : Option String) :
    o.tokens outer =
      if o.isEmpty then [.start "" o.name ((o.declared outer).map rawAttribute) true]
      else .start "" o.name ((o.declared outer).map rawAttribute) false :: o.bodyTokens := by
  cases o
  rfl

theorem Outline.takeStart_eq {o : Outline} (h : o.Writable) (outer : Option String) (empty : Bool)
    (rest : List Char) :
    takeStart (o.name.toList ++ ((o.declared outer).flatMap attributeText ++
      (tagEnd empty ++ rest))) =
      some (.start "" o.name ((o.declared outer).map rawAttribute) empty, rest) := by
  refine takeStart_append h.name empty (fun a ha => ?_) rest
  rcases List.mem_append.mp ha with ha | ha
  · rw [namespaceDeclaration] at ha
    split at ha
    · cases ha
    · obtain rfl := List.mem_singleton.mp ha
      refine ⟨(by decide : isNCName "xmlns" = true), ?_⟩
      cases hu : o.uri with
      | none => rfl
      | some u => exact h.uri u hu
  · exact h.attributes a ha

theorem Outline.takeTokens_body {o : Outline} (h : o.Writable)
    (hchildren : ∀ rest d, d ≠ 0 →
      takeTokens d (plainChars (outlinePieces o.uri o.children) ++ rest) =
        (takeTokens d rest).map fun p => (outlineTokens o.uri o.children ++ p.1, p.2))
    (rest : List Char) (d : Nat) :
    takeTokens (d + 1) (plainChars o.bodyPieces ++ rest) =
      (takeTokens d rest).map fun p => (o.bodyTokens ++ p.1, p.2) := by
  obtain ⟨name, uri, attributes, text, children⟩ := o
  obtain ⟨hname, -, -, htext⟩ := h
  have hclose : takeTokens (d + 1)
      (plainChars (outlinePieces uri children ++ [.endTag name]) ++ rest) =
      (takeTokens d rest).map fun p =>
        (outlineTokens uri children ++ .close "" name :: p.1, p.2) := by
    have hend : plainChars [.endTag name] ++ rest = '<' :: '/' :: (name.toList ++ '>' :: rest) := by
      simp [plainChars_endTag]
    rw [plainChars_append, List.append_assoc, hchildren _ _ (Nat.succ_ne_zero d), hend,
      takeTokens_cons (Nat.succ_ne_zero d) (List.cons_ne_nil _ _) (takeToken_close hname rest),
      Option.map_map]
    rfl
  rw [bodyPieces, List.append_assoc, plainChars_append, List.append_assoc]
  cases text with
  | none =>
    refine hclose.trans ?_
    simp [bodyTokens, textTokens]
  | some text =>
    by_cases hne : text = ""
    · subst hne
      refine hclose.trans ?_
      simp [bodyTokens, textTokens]
    · obtain ⟨r, hr⟩ := exists_plainChars_eq uri children name
      have htake := takeToken_text (htext text rfl) hne (r ++ rest)
      rw [← List.cons_append, ← hr] at htake
      have hchars : plainChars ((some text).map Piece.text).toList = escape text.toList :=
        plainChars_text text
      rw [hchars, takeTokens_cons (Nat.succ_ne_zero d) (by simp [escape_ne_nil hne]) htake]
      refine (congrArg (Option.map _) hclose).trans ?_
      simp [bodyTokens, textTokens, hne, Function.comp_def]

/-- The text of an element as its tag and what follows it. -/
theorem Outline.plainChars_pieces (o : Outline) (outer : Option String) (rest : List Char) :
    plainChars (o.pieces outer) ++ rest =
      '<' :: (o.name.toList ++ ((o.declared outer).flatMap attributeText ++
        (tagEnd o.isEmpty ++ ((if o.isEmpty then [] else plainChars o.bodyPieces) ++ rest)))) := by
  rw [o.pieces_eq]
  cases o.isEmpty with
  | true => simp [plainChars_emptyTag]
  | false =>
    rw [if_neg Bool.false_ne_true, ← List.singleton_append, plainChars_append, plainChars_startTag]
    simp

theorem Outline.takeTokens_of_body {o : Outline} (h : o.Writable)
    (hchildren : ∀ rest d, d ≠ 0 →
      takeTokens d (plainChars (outlinePieces o.uri o.children) ++ rest) =
        (takeTokens d rest).map fun p => (outlineTokens o.uri o.children ++ p.1, p.2))
    (outer : Option String) (rest : List Char) {d : Nat} (hd : d ≠ 0) :
    takeTokens d (plainChars (o.pieces outer) ++ rest) =
      (takeTokens d rest).map fun p => (o.tokens outer ++ p.1, p.2) := by
  have htoken := (takeToken_start h.name _).trans (o.takeStart_eq h outer o.isEmpty
    ((if o.isEmpty then [] else plainChars o.bodyPieces) ++ rest))
  rw [o.plainChars_pieces, takeTokens_cons hd (List.cons_ne_nil _ _) htoken, o.tokens_eq]
  cases o.isEmpty with
  | true => rfl
  | false =>
    rw [Token.depthAfter, if_neg Bool.false_ne_true, if_neg Bool.false_ne_true,
      if_neg Bool.false_ne_true, o.takeTokens_body h hchildren rest d, Option.map_map]
    rfl

mutual

theorem Outline.takeTokens_eq : ∀ (o : Outline) (outer : Option String) (rest : List Char)
    (d : Nat),
    (∀ p ∈ o.outlines, p.Writable) → d ≠ 0 → takeTokens d (plainChars (o.pieces outer) ++ rest) =
      (takeTokens d rest).map fun p => (o.tokens outer ++ p.1, p.2)
  | ⟨_, uri, _, _, children⟩, outer, rest, _, h, hd => by
    obtain ⟨ho, hchildren⟩ := List.forall_mem_cons.mp h
    exact Outline.takeTokens_of_body ho
      (fun rest d hd => takeTokens_outlines children uri rest d hchildren hd) outer rest hd

theorem takeTokens_outlines : ∀ (os : List Outline) (outer : Option String) (rest : List Char)
    (d : Nat), (∀ p ∈ outlinesIn os, p.Writable) → d ≠ 0 →
      takeTokens d (plainChars (outlinePieces outer os) ++ rest) =
        (takeTokens d rest).map fun p => (outlineTokens outer os ++ p.1, p.2)
  | [], outer, rest, d, _, _ => by
    change takeTokens d rest = _
    simp [outlineTokens]
  | o :: os, outer, rest, d, h, hd => by
    obtain ⟨ho, hos⟩ := List.forall_mem_append.mp h
    rw [outlinePieces, plainChars_append, List.append_assoc, o.takeTokens_eq outer _ d ho hd,
      takeTokens_outlines os outer rest d hos hd, Option.map_map]
    simp [outlineTokens, Function.comp_def]

end

/-- The root is read up to its end. -/
theorem takeRoot_eq {o : Outline} (h : ∀ p ∈ o.outlines, p.Writable) (outer : Option String)
    (rest : List Char) :
    takeRoot (plainChars (o.pieces outer) ++ rest) = some (o.tokens outer, rest) := by
  rw [o.outlines_eq] at h
  obtain ⟨ho, hchildren⟩ := List.forall_mem_cons.mp h
  have hlt (s : List Char) : expect ['<'] ('<' :: s) = some s := expect_append ['<'] s
  have hzero : takeTokens 0 rest = some ([], rest) := by rw [takeTokens, if_pos rfl]
  rw [o.plainChars_pieces, takeRoot, hlt]
  simp only [bind, Option.bind, o.takeStart_eq ho]
  rw [o.tokens_eq]
  cases o.isEmpty with
  | true => simp [Token.depthAfter, hzero]
  | false =>
    have hbody := o.takeTokens_body ho
      (fun rest d hd => takeTokens_outlines _ _ rest d hchildren hd) rest 0
    simp only [Nat.zero_add] at hbody
    simp [Token.depthAfter, hbody, hzero]

end XmlBinding.Xml
