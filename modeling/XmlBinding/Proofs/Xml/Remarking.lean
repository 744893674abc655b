import XmlBinding.Proofs.Xml.Gists
import XmlBinding.Proofs.Xml.Remarks

/-! # Reading documents with a remark more

A remark adds nothing to the gist of the element that it stands in, the two pieces of character data
that it cuts add what the whole does, and an end tag closes what an empty tag does. So documents
that differ in remarks are read as elements of the same gist, or neither is read, for the same
reason.
-/
namespace XmlBinding.Xml

section
variable {entities : List Entity} {entity : String → Builder → Option Builder} {b b' : Builder}

/-- A remark is added to what is open. -/
theorem exists_addToken_of_isRemark {t : Token} (ht : t.isRemark = true) (levels : Nat)
    (started : Bool) (b : Builder) :
    ∃ c : Content, (∀ g : Gist, g.add c = g) ∧
      b.addToken entities levels entity t started = some (b.add c) := by
  cases t with
  | comment value => exact ⟨.comment value, fun _ => rfl, rfl⟩
  | instruction target value => exact ⟨.instruction target value, fun _ => rfl, rfl⟩
  | start | close | text | literal => cases ht

theorem opens_of_isRemark {t : Token} (ht : t.isRemark = true) : t.opens = false := by
  cases t with
  | comment | instruction => rfl
  | start | close | text | literal => cases ht

theorem addToken_text (raw : List Char) (started : Bool) (b : Builder) :
    b.addToken entities entityLevels entity (.text raw) started =
      (textItems raw).bind fun items => b.addItems false entity items [] false := by
  rw [Builder.addToken, bne_self_eq_false]
  rfl

theorem localName_of_elementName {scope : Scope} {pfx localName : String} {name : ExpandedName}
    (h : elementName scope pfx localName = some name) : name.localName = localName := by
  rw [elementName] at h
  split at h
  · rw [← Option.some.inj h]
  · obtain ⟨uri, -, rfl⟩ := Option.map_eq_some_iff.mp h
    rfl

theorem exists_opened_of_openTag {levels : Nat} {pfx localName : String}
    {attributes : List RawAttribute} {c : Builder}
    (h : b.openTag entities levels pfx localName attributes = some c) :
    ∃ f fs, c.opened = f :: fs ∧ f.pfx = pfx ∧ f.name.localName = localName := by
  rw [Builder.openTag] at h
  split at h
  · cases h
  · simp only [bind, Option.bind_eq_some_iff, Option.some.injEq] at h
    obtain ⟨declared, -, name, hname, resolved, -, rfl⟩ := h
    exact ⟨_, _, rfl, rfl, localName_of_elementName hname⟩

/-- An element that was opened can be closed by its name, whatever is added to it. -/
theorem closeNamed_of_openTag {levels : Nat} {pfx localName : String}
    {attributes : List RawAttribute} {c : Builder}
    (h : b.openTag entities levels pfx localName attributes = some c) (content : Content) :
    (c.add content).closeNamed pfx localName = (c.add content).closeTag := by
  obtain ⟨f, fs, hopened, hpfx, hname⟩ := exists_opened_of_openTag h
  have hhead : (c.add content).opened.head?.any
      (fun f => f.pfx == pfx && f.name.localName == localName) = true := by
    simp [Builder.add, hopened, hpfx, hname]
  rw [Builder.closeNamed, if_pos hhead]

/-- Character data adds in two pieces what it adds in one. -/
theorem addToken_append {run rest : List Char} (h : Divides run rest) (started : Bool)
    (b : Builder) :
    b.addToken entities entityLevels entity (.text (run ++ rest)) started =
      (b.addToken entities entityLevels entity (.text run) started).bind
        fun b => b.addToken entities entityLevels entity (.text rest) started := by
  simp only [addToken_text, textItems_append h.references]
  cases hrun : textItems run with
  | none => rfl
  | some items =>
    cases hrest : textItems rest with
    | none =>
      simp
    | some after =>
      have hcarriage : tears false items after = false := by
        simpa only [isTorn, hrun, hrest] using h.carriage
      exact addItems_append (textItems_ne_nil h.before.1 hrun) (textItems_ne_nil h.after.1 hrest)
        hcarriage [] b

theorem addTokens_remarked (hentity : Keeps Builder.Agrees entity) {ts ts' : List Token}
    (h : TokensRemarked ts ts') (started : Bool) (hb : b.Agrees b') :
    Option.Rel Builder.Agrees (Builder.addTokens entities entityLevels entity ts started b)
      (Builder.addTokens entities entityLevels entity ts' started b') := by
  have htoken (t : Token) (started : Bool) {b b' : Builder} (hb : b.Agrees b') :=
    congruence_agrees.addToken entities (Nat.le_refl entityLevels) hentity t started hb
  have htokens (ts : List Token) (started : Bool) {b b' : Builder} (hb : b.Agrees b') :=
    congruence_agrees.addTokens entities (Nat.le_refl entityLevels) hentity ts started hb
  have hremark {t : Token} (ht : t.isRemark = true) (ts : List Token) (started : Bool)
      (b : Builder) : ∃ c : Content, (∀ g : Gist, g.add c = g) ∧
        Builder.addTokens entities entityLevels entity (t :: ts) started b =
          Builder.addTokens entities entityLevels entity ts started (b.add c) := by
    obtain ⟨c, hc, hadd⟩ := exists_addToken_of_isRemark ht entityLevels started b
    refine ⟨c, hc, ?_⟩
    rw [addTokens_cons, hadd, opens_of_isRemark ht, Bool.or_false, Option.bind_some]
  induction h generalizing started b b' with
  | same ts => exact htokens ts started hb
  | here ht ts =>
    obtain ⟨c, hc, hadd⟩ := hremark ht ts started b'
    rw [hadd]
    exact htokens ts started (hb.add_right hc)
  | @inside t run rest ht h ts =>
    have hopens (raw : List Char) : (started || (Token.text raw).opens) = started :=
      Bool.or_false started
    rw [addTokens_cons, addTokens_cons, addToken_append h, Option.bind_assoc, hopens, hopens]
    apply optionRel_bind (htoken (.text run) started hb)
    intro d d' hd
    obtain ⟨c, hc, hadd⟩ := hremark ht (.text rest :: ts) started d'
    rw [hadd, addTokens_cons, hopens]
    exact optionRel_bind (htoken (.text rest) started (hd.add_right hc)) fun _ _ he =>
      htokens ts started he
  | @filled t ht pfx localName attributes ts =>
    have hopen := hb.openTag entities entityLevels pfx localName attributes
    rw [addTokens_cons, addTokens_cons, Builder.addToken, Builder.addToken]
    generalize b.openTag entities entityLevels pfx localName attributes = o at hopen
    generalize hd : b'.openTag entities entityLevels pfx localName attributes = o' at hopen
    cases hopen with
    | none => exact .none
    | @some c c' hc =>
      obtain ⟨content, hcontent, hadd⟩ := hremark ht (.close pfx localName :: ts) true c'
      have hclose : (c'.add content).addToken entities entityLevels entity
          (.close pfx localName) true = (c'.add content).closeTag :=
        closeNamed_of_openTag hd content
      change Option.Rel _ (c.closeTag.bind (Builder.addTokens _ _ _ ts (started || true)))
        (Builder.addTokens _ _ _ (t :: .close pfx localName :: ts) (started || true) c')
      rw [Bool.or_true, hadd, addTokens_cons, hclose]
      exact optionRel_bind (hc.add_right hcontent).closeTag fun _ _ he => htokens ts true he
  | cons t h ih =>
    rw [addTokens_cons, addTokens_cons]
    exact optionRel_bind (htoken t started hb) fun _ _ hc => ih _ hc

end

/-- Elements of texts that differ in a remark have the same gist, or there are none. -/
theorem readRoot_settled (entities : List Entity) {s s' : List Char} (h : Settled s s') :
    Option.Rel (fun e e' => e.gist = e'.gist) (readRoot entities s) (readRoot entities s') := by
  have hentity := congruence_agrees.keeps_addEntity entities (Nat.le_refl entityLevels)
  apply readRoot_rel (B := Builder.Agrees)
  · apply optionRel_mono (takeRoot_settled h)
    rintro p p' ⟨htokens, hrest⟩
    exact ⟨optionRel_mono (skipMisc_settled hrest) fun _ _ => Settled.isEmpty_eq,
      addTokens_remarked hentity htokens false (.refl {})⟩
  · exact fun b b' hb => hb.opened.length_eq
  · intro b b' hb
    have houtside : (b.outside.reverse.filterMap Content.element?).map Element.gist =
        (b'.outside.reverse.filterMap Content.element?).map Element.gist := hb.outside.elements
    generalize b.outside.reverse.filterMap Content.element? = es at houtside
    generalize b'.outside.reverse.filterMap Content.element? = es' at houtside
    cases es with
    | nil =>
      rw [List.map_eq_nil_iff.mp houtside.symm]
      exact .none
    | cons e es =>
      obtain ⟨e', es', rfl, he, -⟩ := List.map_eq_cons_iff.mp houtside.symm
      exact .some he.symm

/-- A document with a remark more, or less, is refused for the same reason or has the same gist. -/
theorem readDocument_remarked (allowDoctype : Bool) {text text' : String}
    (h : DocumentRemarked text.toList text'.toList) :
    (∃ err, readDocument allowDoctype text = .error err ∧
      readDocument allowDoctype text' = .error err) ∨
      ∃ e e', readDocument allowDoctype text = .ok e ∧ readDocument allowDoctype text' = .ok e' ∧
        e.gist = e'.gist := by
  rw [readDocument, readDocument]
  rcases takeProlog_remarked allowDoctype h with
    ⟨err, hprolog, hprolog'⟩ | ⟨entities, r, r', hprolog, hprolog', hr⟩
  · rw [hprolog, hprolog']
    exact .inl ⟨err, rfl, rfl⟩
  · have hroot := readRoot_settled entities hr
    rw [hprolog, hprolog']
    simp only [bind, Except.bind]
    generalize readRoot entities r = o at hroot
    generalize readRoot entities r' = o' at hroot
    cases hroot with
    | none => exact .inl ⟨.malformed, rfl, rfl⟩
    | some he => exact .inr ⟨_, _, rfl, rfl, he⟩

end XmlBinding.Xml
