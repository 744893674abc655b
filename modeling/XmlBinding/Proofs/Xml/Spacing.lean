import Mathlib.Data.List.Forall2
import XmlBinding.Proofs.Xml.Layouts
import XmlBinding.Proofs.Xml.Resolving

/-! # Blanks between elements

Builders that take in the tokens of two layouts stay alike: what is open is the same but for blanks
beside child elements. So if a document is read in one line, it is read in any layout, as an element
that differs in such blanks only.
-/
namespace XmlBinding.Xml

/-- All texts are blank. -/
def BlankTexts (content : List Content) : Prop :=
  ∀ text, Content.text text ∈ content → Text.allBlank text = true

/-- The texts are the same, or blank and beside elements. -/
def TextsAlike (content content' : List Content) : Prop :=
  content.filterMap Content.text? = content'.filterMap Content.text? ∨
    content.filterMap Content.element? ≠ [] ∧ BlankTexts content ∧ BlankTexts content'

mutual

/-- Elements that differ at most in blanks beside child elements. -/
inductive Element.Alike : Element → Element → Prop
  | intro {e e' : Element} (name : e.name = e'.name) (attributes : e.attributes = e'.attributes)
      (texts : TextsAlike e.content e'.content) (elements : AlikeEach e.elements e'.elements) :
      Element.Alike e e'

inductive AlikeEach : List Element → List Element → Prop
  | nil : AlikeEach [] []
  | cons {e e' : Element} {es es' : List Element} (he : e.Alike e') (hes : AlikeEach es es') :
      AlikeEach (e :: es) (e' :: es')

end

theorem AlikeEach.append {es es' : List Element} (h : AlikeEach es es') {e e' : Element}
    (he : e.Alike e') : AlikeEach (es ++ [e]) (es' ++ [e']) := by
  induction es generalizing es' with
  | nil =>
    cases h
    exact .cons he .nil
  | cons d es ih =>
    cases h with
    | cons hd hes => exact .cons hd (ih hes)

theorem AlikeEach.forall₂ {es es' : List Element} (h : AlikeEach es es') :
    List.Forall₂ Element.Alike es es' := by
  induction es generalizing es' with
  | nil =>
    cases h
    exact .nil
  | cons e es ih =>
    cases h with
    | cons he hes => exact .cons he (ih hes)

/-- An element without child elements is alike to itself. -/
theorem Element.alike_self {e : Element} (h : e.elements = []) : e.Alike e :=
  .intro rfl rfl (.inl rfl) (by rw [h]; exact .nil)

/-! ### Blank texts -/

theorem allBlank_readText {s : String} (h : Text.allBlank s = true) :
    Text.allBlank (readText s) = true := by
  rw [Text.allBlank, readText, String.toList_ofList, List.all_reverse]
  refine List.all_eq_true.mpr fun c hc => ?_
  rcases mem_textRun hc with hc | hc | rfl
  · cases hc
  · exact List.all_eq_true.mp h c hc
  · decide

theorem mem_textContent {text t : String} (h : Content.text t ∈ textContent (some text)) :
    t = text := by
  rw [textContent] at h
  split at h
  · cases h
  · simpa using h

theorem filterMap_element?_textContent (text : Option String) :
    (textContent text).filterMap Content.element? = [] := by
  cases text with
  | none => rfl
  | some text =>
    rw [textContent]
    split <;> rfl

theorem reverse_textContent (text : Option String) :
    (textContent text).reverse = textContent text := by
  cases text with
  | none => rfl
  | some text =>
    rw [textContent]
    split <;> rfl

/-! ### Builders that are alike -/

theorem filterMap_element?_addContent (content : List Content) (text : String) :
    (addContent content (.text text)).reverse.filterMap Content.element? =
      content.reverse.filterMap Content.element? := by
  unfold addContent
  split
  · next heq =>
    cases heq
    simp [List.filterMap_cons, Content.element?]
  · simp [List.filterMap_cons, Content.element?]

theorem BlankTexts.addContent {content : List Content} (h : BlankTexts content) {text : String}
    (ht : Text.allBlank text = true) : BlankTexts (addContent content (.text text)) := by
  intro t hmem
  unfold Xml.addContent at hmem
  split at hmem
  · next before _ heq =>
    cases heq
    rcases List.mem_cons.mp hmem with hmem | hmem
    · have hs := h _ List.mem_cons_self
      obtain rfl := Content.text.inj hmem
      simp only [Text.allBlank, String.toList_append, List.all_append, Bool.and_eq_true] at hs ht ⊢
      exact ⟨hs, ht⟩
    · exact h t (List.mem_cons_of_mem _ hmem)
  · rcases List.mem_cons.mp hmem with hmem | hmem
    · exact Content.text.inj hmem ▸ ht
    · exact h t hmem

/-- Frames that differ at most in blanks, with blank texts only. -/
structure Frame.Alike (f f' : Frame) : Prop where
  pfx : f.pfx = f'.pfx
  name : f.name = f'.name
  attributes : f.attributes = f'.attributes
  scope : f.scope = f'.scope
  elements : AlikeEach f.element.elements f'.element.elements
  blank : BlankTexts f.content
  blank' : BlankTexts f'.content

structure Builder.Alike (b b' : Builder) : Prop where
  opened : List.Forall₂ Frame.Alike b.opened b'.opened
  outside : AlikeEach (b.outside.reverse.filterMap Content.element?)
    (b'.outside.reverse.filterMap Content.element?)
  count : b.count = b'.count

/-- The builder with one more element open. -/
def Builder.enter (b : Builder) (f : Frame) : Builder := { b with opened := f :: b.opened }

/-- What the innermost element contains at a position before its first child. -/
def Position.content : Position → List Content
  | .said text => textContent (some (readText text))
  | _ => []

/-- Up to the first child the innermost elements are the same, and after a child they differ at most
in blanks. -/
inductive AlikeAt : Position → Builder → Builder → Prop
  | within {pos : Position} {f : Frame} {c c' : Builder} (hc : c.Alike c')
      (hf : f.content = pos.content) (hpos : pos ≠ .closed) : AlikeAt pos (c.enter f) (c'.enter f)
  | after {b b' : Builder} (h : b.Alike b')
      (hf : ∀ f ∈ b.opened.head?, f.element.elements ≠ []) : AlikeAt .closed b b'

section
variable {pos : Position} {b b' c c' d z : Builder} {f f' : Frame}

theorem Frame.elements_of_content {text : Option String} (h : f.content = textContent text) :
    f.element.elements = [] := by
  change f.content.reverse.filterMap Content.element? = []
  rw [h, reverse_textContent, filterMap_element?_textContent]

theorem Position.content_eq (pos : Position) : ∃ text, pos.content = textContent text := by
  cases pos with
  | said text => exact ⟨some (readText text), rfl⟩
  | opened => exact ⟨none, rfl⟩
  | closed => exact ⟨none, rfl⟩

theorem AlikeAt.alike (h : AlikeAt pos b b') (hpos : pos.AllowsChild) : b.Alike b' := by
  cases h with
  | @within _ f c c' hc hf =>
    have hblank : BlankTexts f.content := by
      intro t ht
      rw [hf] at ht
      cases pos with
      | said text => exact mem_textContent ht ▸ allBlank_readText (hpos text rfl)
      | opened => cases ht
      | closed => cases ht
    have hnone : f.element.elements = [] := by
      obtain ⟨text, htext⟩ := pos.content_eq
      exact Frame.elements_of_content (hf.trans htext)
    refine ⟨.cons ⟨rfl, rfl, rfl, rfl, ?_, hblank, hblank⟩ hc.opened, hc.outside, hc.count⟩
    rw [hnone]
    exact .nil
  | after h => exact h

/-- Blanks make no difference where only blanks are. -/
theorem Builder.Alike.addText (h : b.Alike b') {text : String} (ht : Text.allBlank text = true) :
    b.Alike (b'.add (.text text)) := by
  obtain ⟨opened, outside, count⟩ := b
  obtain ⟨opened', outside', count'⟩ := b'
  obtain ⟨hopened, houtside, hcount⟩ := h
  cases hopened with
  | nil =>
    refine ⟨.nil, ?_, hcount⟩
    change AlikeEach _ ((Xml.addContent outside' (.text text)).reverse.filterMap Content.element?)
    rw [filterMap_element?_addContent]
    exact houtside
  | @cons f f' fs fs' hf hfs =>
    refine ⟨.cons ⟨hf.pfx, hf.name, hf.attributes, hf.scope, ?_, hf.blank,
      hf.blank'.addContent ht⟩ hfs, houtside, hcount⟩
    change AlikeEach _ ((Xml.addContent f'.content (.text text)).reverse.filterMap Content.element?)
    rw [filterMap_element?_addContent]
    exact hf.elements

/-- An element more is an element more of both. -/
theorem Builder.Alike.add (h : c.Alike c') {e e' : Element} (he : e.Alike e') :
    AlikeAt .closed (c.add (.element e)) (c'.add (.element e')) := by
  obtain ⟨opened, outside, count⟩ := c
  obtain ⟨opened', outside', count'⟩ := c'
  obtain ⟨hopened, houtside, hcount⟩ := h
  have helements (content : List Content) (e : Element) :
      (addContent content (.element e)).reverse.filterMap Content.element? =
        content.reverse.filterMap Content.element? ++ [e] := by
    rw [addContent_element, List.reverse_cons, List.filterMap_append]
    rfl
  have hblank {content : List Content} (hb : BlankTexts content) (e : Element) :
      BlankTexts (addContent content (.element e)) := by
    rw [addContent_element]
    intro t ht
    exact hb t (by simpa using ht)
  cases hopened with
  | nil =>
    refine .after ⟨.nil, ?_, hcount⟩ fun f hf => by cases hf
    change AlikeEach ((addContent outside _).reverse.filterMap Content.element?)
      ((addContent outside' _).reverse.filterMap Content.element?)
    rw [helements, helements]
    exact houtside.append he
  | @cons f f' fs fs' hf hfs =>
    refine .after ⟨.cons ⟨hf.pfx, hf.name, hf.attributes, hf.scope, ?_, hblank hf.blank e,
      hblank hf.blank' e'⟩ hfs, houtside, hcount⟩ fun g hg => ?_
    · change AlikeEach ((addContent f.content _).reverse.filterMap Content.element?)
        ((addContent f'.content _).reverse.filterMap Content.element?)
      rw [helements, helements]
      exact hf.elements.append he
    · obtain rfl := Option.some.inj hg
      change (addContent f.content _).reverse.filterMap Content.element? ≠ []
      rw [helements]
      simp

theorem Builder.Alike.scope_eq (h : b.Alike b') : b.scope = b'.scope := by
  obtain ⟨opened, outside, count⟩ := b
  obtain ⟨opened', outside', count'⟩ := b'
  cases h.opened with
  | nil => rfl
  | cons hf _ => exact hf.scope

/-- A start tag opens the same element in both. -/
theorem Builder.Alike.openTag (h : b.Alike b') {entities : List Entity} {levels : Nat}
    {pfx localName : String} {attributes : List RawAttribute}
    (hopen : b.openTag entities levels pfx localName attributes = some d) :
    ∃ (f : Frame) (c c' : Builder), f.content = [] ∧ c.Alike c' ∧ d = c.enter f ∧
      b'.openTag entities levels pfx localName attributes = some (c'.enter f) := by
  simp only [Builder.openTag, h.scope_eq, h.count] at hopen ⊢
  split at hopen
  · cases hopen
  · next hpfx =>
    simp only [bind, Option.bind_eq_some_iff, Prod.exists, Option.some.injEq] at hopen
    obtain ⟨declared, count, hfold, name, hname, resolved, hresolved, rfl⟩ := hopen
    refine ⟨⟨pfx, name, resolved, declared.bindings.inner b'.scope, []⟩, { b with count },
      { b' with count }, rfl, ⟨h.opened, h.outside, rfl⟩, rfl, ?_⟩
    rw [if_neg hpfx]
    simp [bind, hfold, hname, hresolved, Builder.enter]

theorem closeNamed_enter (c : Builder) (f : Frame) (pfx localName : String) :
    (c.enter f).closeNamed pfx localName =
      if f.pfx == pfx && f.name.localName == localName then some (c.add (.element f.element))
      else none := by
  simp only [Builder.closeNamed, Builder.enter, List.head?_cons, Option.any_some]
  rfl

/-- An end tag closes an element of both. -/
theorem Builder.Alike.close (h : c.Alike c') (hpfx : f.pfx = f'.pfx) (hname : f.name = f'.name)
    (hf : f.element.Alike f'.element) {pfx localName : String}
    (hclose : (c.enter f).closeNamed pfx localName = some d) :
    ∃ d', (c'.enter f').closeNamed pfx localName = some d' ∧ AlikeAt .closed d d' := by
  rw [closeNamed_enter, Option.ite_none_right_eq_some] at hclose
  obtain ⟨hnames, hd⟩ := hclose
  obtain rfl := Option.some.inj hd
  refine ⟨_, ?_, h.add hf⟩
  rw [closeNamed_enter, ← hpfx, ← hname, if_pos hnames]

end

/-! ### Tokens of two layouts -/

section
variable {entity : String → Builder → Option Builder} {b b' d z : Builder} {ts ts' : List Token}
  {pos : Position} {started : Bool}

theorem addPlain_gap {s : List Char} (hs : IsGap s) (b : Builder) :
    Builder.addPlain entity (textTokens (some (String.ofList s)) ++ ts) true b =
      Builder.addPlain entity ts true (b.addRun s.reverse) := by
  by_cases hne : String.ofList s = ""
  · have hnil : s = [] := by simpa using congrArg String.toList hne
    subst hnil
    rfl
  · rw [textTokens, if_neg hne, List.singleton_append, Builder.addPlain, Builder.addTokens,
      textItems_escape]
    simp only [bind, Option.bind, bne_self_eq_false, addItems_escapedItem, Bool.or_false,
      String.toList_ofList]
    rw [textRun_eq hs.not_mem_return (by simp), List.append_nil]

theorem Builder.Alike.addGap (h : b.Alike b') {s : List Char} (hs : IsGap s) :
    b.Alike (b'.addRun s.reverse) := by
  rw [Builder.addRun]
  split
  · exact h
  · refine h.addText ?_
    rw [Text.allBlank, String.toList_ofList, List.reverse_reverse]
    exact hs.isBlank

/-- What follows a start tag decides how it goes on. -/
theorem addPlain_start_alike (h : b.Alike b') {name : String} {attributes : List RawAttribute}
    (hz : Builder.addPlain entity (.start "" name attributes false :: ts) started b = some z)
    (hrest : ∀ d d', AlikeAt .opened d d' → Builder.addPlain entity ts true d = some z →
      ∃ z', Builder.addPlain entity ts' true d' = some z' ∧ z.Alike z') :
    ∃ z', Builder.addPlain entity (.start "" name attributes false :: ts') started b' = some z' ∧
      z.Alike z' := by
  cases hopen : b.openTag [] entityLevels "" name attributes with
  | none =>
    rw [Builder.addPlain, Builder.addTokens, hopen] at hz
    cases hz
  | some d =>
    obtain ⟨f, c, c', hf, hc, rfl, hopen'⟩ := h.openTag hopen
    rw [addPlain_start hopen] at hz
    rw [addPlain_start hopen']
    exact hrest _ _ (.within hc hf (by rintro ⟨⟩)) hz

theorem addPlain_empty_alike (h : b.Alike b') {name : String} {attributes : List RawAttribute}
    (hz : Builder.addPlain entity (.start "" name attributes true :: ts) started b = some z)
    (hrest : ∀ d d', AlikeAt .closed d d' → Builder.addPlain entity ts true d = some z →
      ∃ z', Builder.addPlain entity ts' true d' = some z' ∧ z.Alike z') :
    ∃ z', Builder.addPlain entity (.start "" name attributes true :: ts') started b' = some z' ∧
      z.Alike z' := by
  cases hopen : b.openTag [] entityLevels "" name attributes with
  | none =>
    rw [Builder.addPlain, Builder.addTokens, hopen] at hz
    cases hz
  | some d =>
    obtain ⟨f, c, c', hf, hc, rfl, hopen'⟩ := h.openTag hopen
    have hempty : f.content = textContent none := hf
    have hself : f.element.Alike f.element :=
      Element.alike_self (Frame.elements_of_content hempty)
    rw [addPlain_empty hopen rfl] at hz
    rw [addPlain_empty hopen' rfl]
    exact hrest _ _ (hc.add hself) hz

theorem addPlain_close_alike {c c' : Builder} (h : c.Alike c') {f f' : Frame}
    (hpfx : f.pfx = f'.pfx) (hname : f.name = f'.name) (hf : f.element.Alike f'.element)
    {name : String}
    (hz : Builder.addPlain entity (.close "" name :: ts) true (c.enter f) = some z)
    (hrest : ∀ d d', AlikeAt .closed d d' → Builder.addPlain entity ts true d = some z →
      ∃ z', Builder.addPlain entity ts' true d' = some z' ∧ z.Alike z') :
    ∃ z', Builder.addPlain entity (.close "" name :: ts') true (c'.enter f') = some z' ∧
      z.Alike z' := by
  cases hclose : (c.enter f).closeNamed "" name with
  | none =>
    rw [Builder.addPlain, Builder.addTokens, if_pos rfl, hclose] at hz
    cases hz
  | some d =>
    obtain ⟨d', hclose', hd⟩ := h.close hpfx hname hf hclose
    rw [addPlain_close hclose] at hz
    rw [addPlain_close hclose']
    exact hrest d d' hd hz

theorem laidTokens_plain (p : Place) (x : Piece) (ps : List Piece) :
    laidTokens (fun _ => []) p (x :: ps) = x.tokens ++ laidTokens (fun _ => []) (p.step x).2 ps := by
  have hgap : (p.before x).gap (fun _ => []) = [] := ite_self _
  rw [laidTokens, hgap]
  rfl

/-- What can be added without blanks can be added with them. -/
theorem Completes.addPlain_alike {blanks : Nat → List Char} (hb : ∀ d, IsGap (blanks d))
    {depth : Nat} {ps : List Piece} (h : Completes pos depth ps) {p : Place}
    (hp : p.breaks = pos.breaks) (halike : AlikeAt pos b b')
    (hz : Builder.addPlain entity (laidTokens (fun _ => []) p ps) true b = some z) :
    ∃ z', Builder.addPlain entity (laidTokens blanks p ps) true b' = some z' ∧ z.Alike z' := by
  induction h generalizing p b b' with
  | done =>
    obtain rfl : b = z := Option.some.inj hz
    exact ⟨b', rfl, halike.alike (by rintro _ ⟨⟩)⟩
  | @text depth value ps h ih =>
    cases halike with
    | @within _ f c c' hc hf =>
      have hcontent : (textContent (some (readText value))).reverse ++ f.content =
          Position.content (.said value) := by
        rw [hf, reverse_textContent]
        exact List.append_nil _
      have halike : AlikeAt (.said value)
          ((c.enter f).contain f c.opened (textContent (some (readText value))))
          ((c'.enter f).contain f c'.opened (textContent (some (readText value)))) :=
        .within hc hcontent (by rintro ⟨⟩)
      rw [laidTokens_plain] at hz
      refine (ih (p := ⟨p.depth, false⟩) rfl halike ?_).imp fun z' => And.imp_left fun hz' => ?_
      · exact (addPlain_text hf rfl (some value)).symm.trans hz
      · exact (addPlain_text hf rfl (some value)).trans hz'
  | @start pos depth name attributes ps _ hpos h ih =>
    have hgap := isGap_gap hb (p.before (.startTag name attributes))
    rw [laidTokens_plain] at hz
    rw [laidTokens, addPlain_gap hgap]
    exact addPlain_start_alike ((halike.alike hpos).addGap hgap) hz fun d d' hd =>
      ih (p := ⟨p.depth + 1, true⟩) rfl hd
  | @empty pos depth name attributes ps _ hpos h ih =>
    have hgap := isGap_gap hb (p.before (.emptyTag name attributes))
    rw [laidTokens_plain] at hz
    rw [laidTokens, addPlain_gap hgap]
    exact addPlain_empty_alike ((halike.alike hpos).addGap hgap) hz fun d d' hd =>
      ih (p := ⟨p.depth, true⟩) rfl hd
  | @close pos depth name ps _ hpos h ih =>
    have hgap := isGap_gap hb (p.before (.endTag name))
    rw [laidTokens_plain] at hz
    rw [laidTokens, addPlain_gap hgap]
    cases halike with
    | @within _ f c c' hc hf hclosed =>
      -- nothing breaks between a text and the end tag
      have hnone : (p.before (.endTag name)).gap blanks = [] := by
        cases pos with
        | said text => exact if_neg (by simp [Place.before, hp, Position.breaks])
        | opened => exact absurd rfl hpos
        | closed => exact absurd rfl hclosed
      obtain ⟨text, htext⟩ := pos.content_eq
      rw [hnone]
      exact addPlain_close_alike hc rfl rfl
        (Element.alike_self (Frame.elements_of_content (hf.trans htext))) hz fun d d' hd =>
          ih (p := ⟨p.depth - 1, true⟩) rfl hd
    | after halike hf =>
      have halike := halike.addGap hgap
      generalize b'.addRun ((p.before (.endTag name)).gap blanks).reverse = b' at halike ⊢
      obtain ⟨opened, outside, count⟩ := b
      obtain ⟨opened', outside', count'⟩ := b'
      obtain ⟨hopened, houtside, hcount⟩ := halike
      cases hopened with
      | nil => cases hz
      | @cons f f' fs fs' hff hfs =>
        have helement : f.element.Alike f'.element := by
          refine .intro hff.name hff.attributes (.inr ⟨hf f rfl, ?_, ?_⟩) hff.elements
          · exact fun t ht => hff.blank t (List.mem_reverse.mp ht)
          · exact fun t ht => hff.blank' t (List.mem_reverse.mp ht)
        have houter : Builder.Alike ⟨fs, outside, count⟩ ⟨fs', outside', count'⟩ :=
          ⟨hfs, houtside, hcount⟩
        exact addPlain_close_alike houter hff.pfx hff.name helement hz fun d d' hd =>
            ih (p := ⟨p.depth - 1, true⟩) rfl hd

end

/-! ### Documents of two layouts -/

/-- In front of the root stand the blanks of the outermost level. -/
theorem exists_laidChars_root (blanks : Nat → List Char) (o : Outline) :
    ∃ rest, laidChars blanks ⟨0, false⟩ (o.pieces none) = '<' :: (o.name.toList ++ rest) ∧
      laidChars blanks ⟨0, true⟩ (o.pieces none) =
        blanks 0 ++ '<' :: (o.name.toList ++ rest) := by
  rw [o.pieces_eq]
  cases o.isEmpty with
  | true =>
    have heq := (List.append_nil _).symm.trans (plainChars_emptyTag o.name (o.declared none))
    rw [if_pos rfl, laidChars, laidChars, laidChars, heq]
    exact ⟨_, (List.append_nil _).trans rfl, congrArg (blanks 0 ++ ·) (List.append_nil _)⟩
  | false =>
    have heq := (List.append_nil _).symm.trans (plainChars_startTag o.name (o.declared none))
    have happend (rest : List Char) :
        '<' :: (o.name.toList ++ ((o.declared none).flatMap attributeText ++ tagEnd false)) ++ rest =
          '<' :: (o.name.toList ++ ((o.declared none).flatMap attributeText ++
            (tagEnd false ++ rest))) := by simp
    rw [if_neg Bool.false_ne_true, laidChars, laidChars, heq, happend, happend]
    exact ⟨_, rfl, rfl⟩

section
variable {blanks : Nat → List Char} (hb : ∀ d, IsGap (blanks d)) {o : Outline}
  (h : ∀ q ∈ o.outlines, q.Named ∧ q.Sparse) {e : Element}
include hb h

theorem addPlain_root_alike {entity : String → Builder → Option Builder} {z : Builder}
    (hz : Builder.addPlain entity (laidTokens (fun _ => []) ⟨0, false⟩ (o.pieces none)) false {} =
      some z) :
    ∃ z', Builder.addPlain entity (laidTokens blanks ⟨0, false⟩ (o.pieces none)) false {} =
      some z' ∧ z.Alike z' := by
  have halike : Builder.Alike {} {} := ⟨.nil, .nil, rfl⟩
  rw [o.pieces_eq] at hz ⊢
  cases hempty : o.isEmpty with
  | true =>
    rw [hempty] at hz
    refine addPlain_empty_alike halike hz fun d d' hd hz => ⟨d', rfl, ?_⟩
    obtain rfl : d = z := Option.some.inj hz
    exact hd.alike (by rintro _ ⟨⟩)
  | false =>
    rw [hempty] at hz
    exact addPlain_start_alike halike hz fun d d' hd =>
      (o.completes_root h hempty).addPlain_alike hb (p := ⟨1, true⟩) rfl hd

theorem readRoot_alike (he : readRoot [] (plainChars (o.pieces none)) = some e) :
    ∃ e', readRoot [] (laidChars blanks ⟨0, false⟩ (o.pieces none)) = some e' ∧ e.Alike e' := by
  have hx : ∀ x ∈ o.pieces none, x.chars.all isXmlChar = true := fun x hx =>
    List.all_eq_true.mpr fun c hc =>
      List.all_eq_true.mp (isXmlChar_of_readRoot he) c (List.mem_flatMap.mpr ⟨x, hx, hc⟩)
  have hmisc : skipMisc [] = some [] := skipMisc_eq rfl
  rw [plainChars_eq ⟨0, false⟩, readRoot, takeRoot_laid (fun _ _ hc => by cases hc) h hx] at he
  simp only [bind, Option.bind, hmisc, List.isEmpty_nil, Bool.not_true, Bool.false_eq_true,
    if_false] at he
  split at he
  · cases he
  · next z hz =>
    obtain ⟨z', hz', halike⟩ := addPlain_root_alike hb h hz
    rw [readRoot, takeRoot_laid hb h hx]
    simp only [bind, Option.bind, hmisc, List.isEmpty_nil, Bool.not_true, Bool.false_eq_true,
      if_false]
    rw [show Builder.addTokens [] entityLevels _ _ false {} = some z' from hz']
    obtain ⟨opened, outside, count⟩ := z
    obtain ⟨opened', outside', count'⟩ := z'
    obtain ⟨hopened, houtside, -⟩ := halike
    cases hopened with
    | cons => cases he
    | nil =>
      change (outside.reverse.filterMap Content.element?).head? = some e at he
      change ∃ e', (outside'.reverse.filterMap Content.element?).head? = some e' ∧ _
      change AlikeEach (outside.reverse.filterMap Content.element?)
        (outside'.reverse.filterMap Content.element?) at houtside
      generalize outside.reverse.filterMap Content.element? = es at he houtside
      generalize outside'.reverse.filterMap Content.element? = es' at houtside ⊢
      cases houtside with
      | nil => cases he
      | cons hd _ =>
        obtain rfl := Option.some.inj he
        exact ⟨_, rfl, hd⟩

omit hb

/-- If the document of an outline is read in one line, it is read with line breaks, and as an
element that differs in blanks beside child elements only. -/
theorem readDocument_alike {allow : Bool}
    (he : readDocument allow (Layout.plain.render (.declaration :: o.pieces none)) = .ok e) :
    ∃ e', readDocument allow (Layout.indented.render (.declaration :: o.pieces none)) = .ok e' ∧
      e.Alike e' := by
  have hname := (h o (by rw [o.outlines_eq]; exact List.mem_cons_self)).1.name
  have hplain : Layout.plain.render (.declaration :: o.pieces none) =
      String.ofList (Piece.declaration.chars ++ ([] ++ (plainChars (o.pieces none) ++ []))) := by
    rw [List.append_nil]
    rfl
  rw [hplain, o.plainChars_pieces, readDocument_declaration hname _ (by simp),
    ← o.plainChars_pieces, List.append_nil] at he
  obtain ⟨e', he', halike⟩ : ∃ e', readRoot [] (laidChars indentation ⟨0, false⟩ (o.pieces none)) =
      some e' ∧ e.Alike e' := by
    refine readRoot_alike isGap_indentation h ?_
    cases hroot : readRoot [] (plainChars (o.pieces none)) with
    | none => simp [hroot] at he
    | some d => simpa [hroot] using he
  -- the line break before the root belongs to the prolog
  obtain ⟨rest, hrest, hroot⟩ := exists_laidChars_root indentation o
  have hindented : Layout.indented.render (.declaration :: o.pieces none) = String.ofList
      (Piece.declaration.chars ++ (indentation 0 ++ '<' :: (o.name.toList ++ rest))) := by
    have hfirst : (Place.start.step .declaration).1 = [] := rfl
    have hplace : (Place.start.step .declaration).2 = ⟨0, true⟩ := rfl
    rw [Layout.render, Layout.chars, indentedChars, hfirst, List.nil_append, hplace,
      indentedChars_eq, hroot]
  rw [hrest] at he'
  refine ⟨e', ?_, halike⟩
  rw [hindented, readDocument_declaration hname _ (isGap_indentation 0).isSpace, he']
  rfl

end

end XmlBinding.Xml
