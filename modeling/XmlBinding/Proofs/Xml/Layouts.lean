import XmlBinding.Text.Blank
import XmlBinding.Proofs.Xml.Characters

/-! # The tokens of a layout

A layout puts blanks before a tag unless text stands directly before it. Pieces that follow each
other as they do in an element have the same tokens in every layout but for these blanks.
-/
namespace XmlBinding.Xml

/-- What stands directly before: a start tag, text, or the end of an element. -/
inductive Position where
  | opened
  | said (text : String)
  | closed
deriving DecidableEq, Repr

/-- Whether a tag that follows starts a new line. -/
def Position.breaks : Position → Bool
  | .said _ => false
  | _ => true

/-- Text that stands beside elements is blank. -/
def Position.AllowsChild (pos : Position) : Prop :=
  ∀ text, pos = .said text → Text.allBlank text = true

def Piece.Named : Piece → Prop
  | .startTag name attributes | .emptyTag name attributes =>
    isNCName name = true ∧ ∀ a ∈ attributes, isNCName a.1 = true
  | .endTag name => isNCName name = true
  | _ => True

/-- How many elements are open after the piece when `depth` were open before. -/
def Piece.depthAfter (depth : Nat) : Piece → Nat
  | .startTag .. => depth + 1
  | .endTag _ => depth - 1
  | _ => depth

/-- The pieces that are still to come inside of some open elements, up to the end of the outermost
one. An element that has nothing inside is an empty tag, and text comes before the children. -/
inductive Completes : Position → Nat → List Piece → Prop
  | done : Completes .closed 0 []
  | text {depth : Nat} {value : String} {ps : List Piece}
      (h : Completes (.said value) (depth + 1) ps) :
      Completes .opened (depth + 1) (.text value :: ps)
  | start {pos : Position} {depth : Nat} {name : String} {attributes : List (String × String)}
      {ps : List Piece} (hx : (Piece.startTag name attributes).Named) (hpos : pos.AllowsChild)
      (h : Completes .opened (depth + 2) ps) :
      Completes pos (depth + 1) (.startTag name attributes :: ps)
  | empty {pos : Position} {depth : Nat} {name : String} {attributes : List (String × String)}
      {ps : List Piece} (hx : (Piece.emptyTag name attributes).Named) (hpos : pos.AllowsChild)
      (h : Completes .closed (depth + 1) ps) :
      Completes pos (depth + 1) (.emptyTag name attributes :: ps)
  | close {pos : Position} {depth : Nat} {name : String} {ps : List Piece}
      (hx : (Piece.endTag name).Named) (hpos : pos ≠ .opened) (h : Completes .closed depth ps) :
      Completes pos (depth + 1) (.endTag name :: ps)

/-! ### The pieces of an outline -/

structure Outline.Named (o : Outline) : Prop where
  name : isNCName o.name = true
  attributes : ∀ a ∈ o.attributes, isNCName a.1 = true

/-- Text that stands beside children is blank. -/
def Outline.Sparse (o : Outline) : Prop :=
  o.children ≠ [] → ∀ text ∈ o.text, Text.allBlank text = true

section
variable {o : Outline} {ps : List Piece} {depth : Nat}

theorem Outline.Named.declared (h : o.Named) (outer : Option String) :
    ∀ a ∈ o.declared outer, isNCName a.1 = true := by
  intro a ha
  rcases List.mem_append.mp ha with ha | ha
  · rw [namespaceDeclaration] at ha
    split at ha
    · cases ha
    · obtain rfl := List.mem_singleton.mp ha
      exact (by decide : isNCName "xmlns" = true)
  · exact h.attributes a ha

theorem Outline.completes_body (h : o.Named) (hs : o.Sparse) (hne : o.isEmpty = false)
    (hchildren : ∀ pos : Position, pos.AllowsChild → ∀ ps, o.children ≠ [] →
      Completes .closed (depth + 1) ps →
        Completes pos (depth + 1) (outlinePieces o.uri o.children ++ ps))
    (hps : Completes .closed depth ps) :
    Completes .opened (depth + 1) (o.bodyPieces ++ ps) := by
  have hclose {pos : Position} (hpos : pos ≠ .opened) :
      Completes pos (depth + 1) (.endTag o.name :: ps) := .close h.name hpos hps
  have hrest {pos : Position} (hpos : o.children = [] → pos ≠ .opened)
      (hallows : o.children ≠ [] → pos.AllowsChild) :
      Completes pos (depth + 1) (outlinePieces o.uri o.children ++ .endTag o.name :: ps) := by
    by_cases hc : o.children = []
    · rw [hc]
      exact hclose (hpos hc)
    · exact hchildren pos (hallows hc) _ hc (hclose (by rintro ⟨⟩))
  rw [bodyPieces, List.append_assoc, List.append_assoc]
  cases ht : o.text with
  | none =>
    refine hrest (fun hc => ?_) fun _ _ => by rintro ⟨⟩
    simp [isEmpty, ht, hc] at hne
  | some text =>
    refine .text (hrest (fun _ => by rintro ⟨⟩) fun hc => ?_)
    rintro _ ⟨⟩
    exact hs hc text ht

theorem Outline.completes_of_body {pos : Position} (h : o.Named) (hs : o.Sparse)
    (hpos : pos.AllowsChild)
    (hchildren : ∀ pos : Position, pos.AllowsChild → ∀ ps depth, o.children ≠ [] →
      Completes .closed (depth + 1) ps →
        Completes pos (depth + 1) (outlinePieces o.uri o.children ++ ps))
    (outer : Option String) (hps : Completes .closed (depth + 1) ps) :
    Completes pos (depth + 1) (o.pieces outer ++ ps) := by
  rw [o.pieces_eq]
  cases he : o.isEmpty with
  | true => exact .empty ⟨h.name, h.declared outer⟩ hpos hps
  | false =>
    refine .start ⟨h.name, h.declared outer⟩ hpos (completes_body h hs he ?_ hps)
    exact fun pos hpos ps hne hps => hchildren pos hpos ps _ hne hps

mutual

theorem Outline.completes_pieces : ∀ (o : Outline) (pos : Position) (outer : Option String)
    (ps : List Piece) (depth : Nat), (∀ q ∈ o.outlines, q.Named ∧ q.Sparse) → pos.AllowsChild →
      Completes .closed (depth + 1) ps → Completes pos (depth + 1) (o.pieces outer ++ ps)
  | ⟨_, uri, _, _, children⟩, pos, outer, ps, depth, h, hpos, hps => by
    obtain ⟨ho, hchildren⟩ := List.forall_mem_cons.mp h
    refine Outline.completes_of_body ho.1 ho.2 hpos ?_ outer hps
    exact fun pos hpos ps depth hne hps =>
      completes_outlines children pos uri ps depth hne hchildren hpos hps

theorem completes_outlines : ∀ (os : List Outline) (pos : Position) (outer : Option String)
    (ps : List Piece) (depth : Nat), os ≠ [] → (∀ q ∈ outlinesIn os, q.Named ∧ q.Sparse) →
      pos.AllowsChild → Completes .closed (depth + 1) ps →
        Completes pos (depth + 1) (outlinePieces outer os ++ ps)
  | [], _, _, _, _, hne, _, _, _ => absurd rfl hne
  | o :: os, pos, outer, ps, depth, _, h, hpos, hps => by
    obtain ⟨ho, hos⟩ := List.forall_mem_append.mp h
    rw [outlinePieces, List.append_assoc]
    refine o.completes_pieces pos outer _ depth ho hpos ?_
    cases os with
    | nil => exact hps
    | cons o' os =>
      exact completes_outlines (o' :: os) .closed outer ps depth (List.cons_ne_nil _ _) hos
        (by rintro _ ⟨⟩) hps

end

theorem Outline.completes_root (h : ∀ q ∈ o.outlines, q.Named ∧ q.Sparse)
    (hne : o.isEmpty = false) : Completes .opened 1 o.bodyPieces := by
  rw [o.outlines_eq] at h
  obtain ⟨ho, hchildren⟩ := List.forall_mem_cons.mp h
  have hbody := completes_body ho.1 ho.2 hne (fun pos hpos ps hc hps =>
    completes_outlines o.children pos o.uri ps 0 hc hchildren hpos hps) .done
  rwa [List.append_nil] at hbody

end

/-! ### Characters and tokens -/

/-- The place whose break comes before a piece. -/
def Place.before (p : Place) : Piece → Place
  | .endTag _ => ⟨p.depth - 1, p.breaks⟩
  | .text _ => ⟨p.depth, false⟩
  | _ => p

/-- The break of a layout that has the blanks `blanks` where it breaks. -/
def Place.gap (blanks : Nat → List Char) (p : Place) : List Char :=
  if p.breaks then blanks p.depth else []

def laidChars (blanks : Nat → List Char) : Place → List Piece → List Char
  | _, [] => []
  | p, x :: xs => (p.before x).gap blanks ++ (x.chars ++ laidChars blanks (p.step x).2 xs)

def Piece.tokens : Piece → List Token
  | .declaration => []
  | .startTag name attributes => [.start "" name (attributes.map rawAttribute) false]
  | .emptyTag name attributes => [.start "" name (attributes.map rawAttribute) true]
  | .endTag name => [.close "" name]
  | .text value => textTokens (some value)

def laidTokens (blanks : Nat → List Char) : Place → List Piece → List Token
  | _, [] => []
  | p, x :: xs => textTokens (some (String.ofList ((p.before x).gap blanks))) ++
      (x.tokens ++ laidTokens blanks (p.step x).2 xs)

/-- The blanks of the indented layout. -/
def indentation (depth : Nat) : List Char := '\n' :: List.replicate (2 * depth) ' '

theorem indentedChars_eq (p : Place) (ps : List Piece) :
    indentedChars p ps = laidChars indentation p ps := by
  induction ps generalizing p with
  | nil => rfl
  | cons x ps ih =>
    have hgap : (p.step x).1 = (p.before x).gap indentation := by cases x <;> rfl
    rw [indentedChars, laidChars, ih, hgap, List.append_assoc]

theorem plainChars_eq (p : Place) (ps : List Piece) :
    plainChars ps = laidChars (fun _ => []) p ps := by
  induction ps generalizing p with
  | nil => rfl
  | cons x ps ih =>
    have hgap : (p.before x).gap (fun _ => []) = [] := ite_self _
    rw [laidChars, ← ih, hgap]
    rfl

/-- Spaces and line feeds only. -/
def IsGap (s : List Char) : Prop := ∀ c ∈ s, c = ' ' ∨ c = '\n'

theorem isGap_indentation (depth : Nat) : IsGap (indentation depth) := by
  intro c hc
  rcases List.mem_cons.mp hc with rfl | hc
  · exact .inr rfl
  · exact .inl (List.eq_of_mem_replicate hc)

section
variable {s : List Char}

theorem IsGap.escape_eq (h : IsGap s) : escape s = s := by
  induction s with
  | nil => rfl
  | cons c s ih =>
    obtain ⟨hc, hs⟩ := List.forall_mem_cons.mp h
    have hcons : escape (c :: s) = escapeChar c ++ escape s := List.flatMap_cons
    rw [hcons, ih hs]
    rcases hc with rfl | rfl <;> rfl

theorem IsGap.isXmlChar (h : IsGap s) : s.all isXmlChar = true := by
  refine List.all_eq_true.mpr fun c hc => ?_
  rcases h c hc with rfl | rfl <;> decide

theorem IsGap.isSpace (h : IsGap s) : ∀ c ∈ s, isSpace c = true := by
  intro c hc
  rcases h c hc with rfl | rfl <;> decide

theorem IsGap.isBlank (h : IsGap s) : s.all Text.isBlank = true := by
  refine List.all_eq_true.mpr fun c hc => ?_
  rcases h c hc with rfl | rfl <;> decide

theorem IsGap.not_mem_return (h : IsGap s) : '\r' ∉ s := fun hc => by
  rcases h _ hc with h | h <;> cases h

end

section
variable {blanks : Nat → List Char} {depth : Nat} {ps : List Piece}

theorem isGap_gap (hb : ∀ d, IsGap (blanks d)) (p : Place) : IsGap (p.gap blanks) := by
  rw [Place.gap]
  split
  · exact hb _
  · exact fun c hc => by cases hc

/-- Escaped text up to the next tag is one token, or none if there is nothing. -/
theorem takeTokens_text (hd : depth ≠ 0) {text : String} (h : isXmlText text = true)
    (rest : List Char) :
    takeTokens depth (escape text.toList ++ '<' :: rest) =
      (takeTokens depth ('<' :: rest)).map fun q => (textTokens (some text) ++ q.1, q.2) := by
  by_cases hne : text = ""
  · subst hne
    simp [textTokens, escape]
  · rw [takeTokens_cons hd (by simp) (takeToken_text h hne rest)]
    simp [textTokens, hne, Token.depthAfter]

theorem isXmlText_of_mem {attributes : List (String × String)}
    (h : (attributes.flatMap attributeText).all isXmlChar = true) {a : String × String}
    (ha : a ∈ attributes) : isXmlText a.2 = true := by
  refine isXmlChar_of_escape (List.all_eq_true.mpr fun c hc => List.all_eq_true.mp h c ?_)
  refine List.mem_flatMap.mpr ⟨a, ha, ?_⟩
  simp [attributeText, hc]

theorem takeToken_tag {name : String} {attributes : List (String × String)} (empty : Bool)
    (hn : isNCName name = true ∧ ∀ a ∈ attributes, isNCName a.1 = true) {chars : List Char}
    (heq : chars = '<' :: (name.toList ++ (attributes.flatMap attributeText ++ tagEnd empty)))
    (hx : chars.all isXmlChar = true) (rest : List Char) :
    takeToken (chars ++ rest) = some (.start "" name (attributes.map rawAttribute) empty, rest) := by
  subst heq
  simp only [List.all_cons, List.all_append, Bool.and_eq_true] at hx
  rw [List.cons_append, List.append_assoc, List.append_assoc, takeToken_start hn.1]
  exact takeStart_append hn.1 empty (fun a ha => ⟨hn.2 a ha, isXmlText_of_mem hx.2.2.1 ha⟩) rest

/-- A tag with the blanks before it. -/
theorem takeTokens_tag (hb : ∀ d, IsGap (blanks d)) {x : Piece} {t : Token} (ht : x.tokens = [t])
    {cs : List Char} (hx : x.chars = '<' :: cs)
    (htake : ∀ rest, takeToken (x.chars ++ rest) = some (t, rest)) {p : Place}
    (h : takeTokens (t.depthAfter (depth + 1)) (laidChars blanks (p.step x).2 ps) =
      some (laidTokens blanks (p.step x).2 ps, [])) :
    takeTokens (depth + 1) (laidChars blanks p (x :: ps)) =
      some (laidTokens blanks p (x :: ps), []) := by
  have hgap := isGap_gap hb (p.before x)
  have hallowed : isXmlText (String.ofList ((p.before x).gap blanks)) = true := by
    rw [isXmlText, String.toList_ofList]
    exact hgap.isXmlChar
  have htext := takeTokens_text (Nat.succ_ne_zero depth) hallowed
    (cs ++ laidChars blanks (p.step x).2 ps)
  have htag := htake (laidChars blanks (p.step x).2 ps)
  rw [hx, List.cons_append] at htag
  rw [String.toList_ofList, hgap.escape_eq,
    takeTokens_cons (Nat.succ_ne_zero depth) (List.cons_ne_nil _ _) htag] at htext
  rw [laidChars, laidTokens, ht, hx, List.cons_append, htext, h]
  rfl

/-- Directly after text comes a tag. -/
theorem Completes.exists_laidChars_eq {pos : Position} {p : Place}
    (h : Completes pos (depth + 1) ps) (hpos : ∀ value ∈ ps.head?, pos ≠ .opened)
    (hp : p.breaks = false) : ∃ cs, laidChars blanks p ps = '<' :: cs := by
  have hgap (x : Piece) : (p.before x).gap blanks = [] := by
    cases x <;> simp [Place.before, Place.gap, hp]
  cases h with
  | text => exact absurd rfl (hpos _ rfl)
  | start => exact ⟨_, by rw [laidChars, hgap]; rfl⟩
  | empty => exact ⟨_, by rw [laidChars, hgap]; rfl⟩
  | close => exact ⟨_, by rw [laidChars, hgap]; rfl⟩

/-- What follows up to the end of the outermost element is read as the tokens of the layout. -/
theorem Completes.takeTokens_eq (hb : ∀ d, IsGap (blanks d)) {pos : Position}
    (h : Completes pos depth ps) (hx : ∀ x ∈ ps, x.chars.all isXmlChar = true) {p : Place}
    (hp : p.breaks = pos.breaks) :
    takeTokens depth (laidChars blanks p ps) = some (laidTokens blanks p ps, []) := by
  induction h generalizing p with
  | done => rw [laidChars, takeTokens, if_pos rfl, laidTokens]
  | @text depth value ps h ih =>
    obtain ⟨hvalue, hps⟩ := List.forall_mem_cons.mp hx
    obtain ⟨cs, hcs⟩ : ∃ cs, laidChars blanks ⟨p.depth, false⟩ ps = '<' :: cs :=
      h.exists_laidChars_eq (by rintro _ - ⟨⟩) rfl
    have hrest := ih hps (p := ⟨p.depth, false⟩) rfl
    rw [hcs] at hrest
    have htext := takeTokens_text (Nat.succ_ne_zero depth) (isXmlChar_of_escape hvalue) cs
    change takeTokens (depth + 1) ([] ++ (escape value.toList ++ laidChars blanks _ ps)) = _
    rw [List.nil_append, show (p.step (.text value)).2 = ⟨p.depth, false⟩ from rfl, hcs, htext,
      hrest]
    rfl
  | @start pos depth name attributes ps hn _ h ih =>
    obtain ⟨hchars, hps⟩ := List.forall_mem_cons.mp hx
    have heq := (List.append_nil _).symm.trans (plainChars_startTag name attributes)
    exact takeTokens_tag hb rfl heq (takeToken_tag false hn heq hchars) (ih hps rfl)
  | @empty pos depth name attributes ps hn _ h ih =>
    obtain ⟨hchars, hps⟩ := List.forall_mem_cons.mp hx
    have heq := (List.append_nil _).symm.trans (plainChars_emptyTag name attributes)
    exact takeTokens_tag hb rfl heq (takeToken_tag true hn heq hchars) (ih hps rfl)
  | @close pos depth name ps hn _ h ih =>
    obtain ⟨-, hps⟩ := List.forall_mem_cons.mp hx
    have heq := (List.append_nil _).symm.trans (plainChars_endTag name)
    have htake (rest : List Char) :
        takeToken ((Piece.endTag name).chars ++ rest) = some (.close "" name, rest) := by
      rw [heq]
      simpa using takeToken_close hn rest
    exact takeTokens_tag hb rfl heq htake (ih hps rfl)

/-- The root is read up to its end. -/
theorem takeRoot_laid (hb : ∀ d, IsGap (blanks d)) {o : Outline}
    (h : ∀ q ∈ o.outlines, q.Named ∧ q.Sparse)
    (hx : ∀ x ∈ o.pieces none, x.chars.all isXmlChar = true) :
    takeRoot (laidChars blanks ⟨0, false⟩ (o.pieces none)) =
      some (laidTokens blanks ⟨0, false⟩ (o.pieces none), []) := by
  have ho := (h o (by rw [o.outlines_eq]; exact List.mem_cons_self)).1
  have hstart {chars : List Char} {empty : Bool} (heq : chars = '<' :: (o.name.toList ++
      ((o.declared none).flatMap attributeText ++ tagEnd empty)))
      (hchars : chars.all isXmlChar = true) (rest : List Char) :
      expect ['<'] (chars ++ rest) = some (chars.tail ++ rest) ∧ takeStart (chars.tail ++ rest) =
        some (.start "" o.name ((o.declared none).map rawAttribute) empty, rest) := by
    subst heq
    simp only [List.all_cons, List.all_append, Bool.and_eq_true] at hchars
    refine ⟨expect_append ['<'] _, ?_⟩
    rw [List.tail_cons, List.append_assoc, List.append_assoc]
    exact takeStart_append ho.name empty (fun a ha =>
      ⟨ho.declared none a ha, isXmlText_of_mem hchars.2.2.1 ha⟩) rest
  rw [o.pieces_eq] at hx ⊢
  cases hempty : o.isEmpty with
  | true =>
    rw [hempty] at hx
    obtain ⟨hmark, htake⟩ := hstart ((List.append_nil _).symm.trans (plainChars_emptyTag _ _))
      (hx _ (List.mem_singleton_self _)) []
    change takeRoot ((Piece.emptyTag o.name (o.declared none)).chars ++ []) = _
    simp only [takeRoot, hmark, htake, bind, Option.bind, Token.depthAfter, if_true]
    rw [takeTokens, if_pos rfl]
    rfl
  | false =>
    rw [hempty] at hx
    obtain ⟨hroot, hbody⟩ := List.forall_mem_cons.mp hx
    obtain ⟨hmark, htake⟩ := hstart ((List.append_nil _).symm.trans (plainChars_startTag _ _)) hroot
      (laidChars blanks ⟨1, true⟩ o.bodyPieces)
    have hrest := (o.completes_root h hempty).takeTokens_eq hb hbody (p := ⟨1, true⟩) rfl
    change takeRoot ((Piece.startTag o.name (o.declared none)).chars ++
      laidChars blanks ⟨1, true⟩ o.bodyPieces) = _
    simp only [takeRoot, hmark, htake, bind, Option.bind, Token.depthAfter, Bool.false_eq_true,
      if_false, Nat.zero_add, hrest]
    rfl

end

end XmlBinding.Xml
