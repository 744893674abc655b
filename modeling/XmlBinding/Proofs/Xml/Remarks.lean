import XmlBinding.Proofs.Xml.Comments
import XmlBinding.Proofs.Xml.Cutting

/-! # Documents with a remark more

A remark may stand between any two pieces of a document, among the declarations of its document
type definition and inside of character data, but not inside of a reference. The tokens of a
document with a remark more are the tokens of the document and the remark, which cuts character data
in two.
-/
namespace XmlBinding.Xml

/-! ### Places inside of character data -/

/-- A place inside of character data where a remark may stand: not inside of a reference, not beside
a carriage return that is read otherwise there, and not inside of a mark that is refused in text. -/
structure Divides (run rest : List Char) : Prop where
  before : run ≠ [] ∧ '<' ∉ run
  after : rest ≠ [] ∧ '<' ∉ rest
  references : referencesEnd run = true
  carriage : isTorn run rest = false
  mark : hasLiteralEnd (run ++ rest) = (hasLiteralEnd run || hasLiteralEnd rest)

/-! ### Elements with an empty tag -/

namespace StartTag

/-- The tag with which an element begins that is not empty. -/
def opening (t : StartTag) : StartTag := { t with empty := false }

theorem Proper.opening {t : StartTag} (ht : t.Proper) : t.opening.Proper :=
  ⟨ht.named, ht.name, ht.attributes, ht.gap⟩

/-- Whether an element is empty does not matter for its tag to be read. -/
theorem token?_opening (t : StartTag) (hempty : t.empty = true) :
    t.token? = none ∧ t.opening.token? = none ∨
      ∃ (q : String × String) (attributes : List RawAttribute),
        splitQualified t.name = some q ∧ t.token? = some (.start q.1 q.2 attributes true) ∧
          t.opening.token? = some (.start q.1 q.2 attributes false) := by
  have hname : t.opening.name = t.name := rfl
  have hattributes : t.opening.attributes = t.attributes := rfl
  have hopening : t.opening.empty = false := rfl
  rw [token?, token?, hname, hattributes, hempty, hopening]
  cases splitQualified t.name with
  | none => exact .inl ⟨rfl, rfl⟩
  | some q =>
    cases (t.attributes.map (·.2)).mapM AttributeText.raw? with
    | none => exact .inl ⟨rfl, rfl⟩
    | some attributes => exact .inr ⟨q, attributes, rfl, rfl, rfl⟩

end StartTag

/-- A remark and the end tag behind it. -/
theorem IsRemark.exists_takeTokens {p name : List Char} {q : String × String} (hp : IsRemark p)
    (hname : ∀ c ∈ name, isNameChar c = true) (hq : splitQualified name = some q) :
    ∃ t : Token, t.isRemark = true ∧ ∀ (depth : Nat) (s : List Char),
      takeTokens (depth + 1) (p ++ ("</".toList ++ (name ++ ">".toList ++ s))) =
        (takeTokens depth s).map fun r => (t :: .close q.1 q.2 :: r.1, r.2) := by
  obtain ⟨t, ht, htake, -⟩ := hp.exists_token
  obtain ⟨r, rfl⟩ := hp.exists_cons
  refine ⟨t, ht, fun depth s => ?_⟩
  have hclose : takeTokens (depth + 1) ("</".toList ++ (name ++ ">".toList ++ s)) =
      (takeTokens depth s).map fun r => (.close q.1 q.2 :: r.1, r.2) := by
    rw [takeTokens_eq_bind (by simp) (by simp), takeToken_end, takeClose_append hname hq]
    rfl
  rw [takeTokens_eq_bind (by simp) (by simp), htake, Option.bind_some,
    Token.depthAfter_of_isRemark ht, hclose, Option.map_map]
  rfl

/-! ### Documents -/

/-- The second text is the first with at most one remark more; so many elements are open where the
texts begin. An element with an empty tag has two tags when there is a remark in it. -/
inductive Remarked : Nat → List Char → List Char → Prop
  | same (depth : Nat) (s : List Char) : Remarked depth s s
  | here {depth : Nat} {p : List Char} (hp : IsRemark p) (s : List Char) : Remarked depth s (p ++ s)
  | inside {depth : Nat} {p run rest s : List Char} (hp : IsRemark p) (h : Divides run rest) :
      Remarked (depth + 1) (run ++ (rest ++ '<' :: s)) (run ++ (p ++ (rest ++ '<' :: s)))
  | filled {depth : Nat} {t : StartTag} {p : List Char} (ht : t.Proper) (hempty : t.empty = true)
      (hp : IsRemark p) (s : List Char) : Remarked depth (t.chars ++ s)
        (t.opening.chars ++ (p ++ ("</".toList ++ (t.name ++ ">".toList ++ s))))
  | definition {text text' : List Char} (h : DefinitionRemarked text text') (s : List Char) :
      Remarked 0 ("<!DOCTYPE".toList ++ (text ++ s)) ("<!DOCTYPE".toList ++ (text' ++ s))
  | blank {c : Char} {s s' : List Char} (hc : isSpace c = true) (h : Remarked 0 s s') :
      Remarked 0 (c :: s) (c :: s')
  | remark {depth : Nat} {q s s' : List Char} (hq : IsRemark q) (h : Remarked depth s s') :
      Remarked depth (q ++ s) (q ++ s')
  | literal {depth : Nat} {text s s' : List Char} (htext : Unmarked "]]>".toList text)
      (h : Remarked (depth + 1) s s') :
      Remarked (depth + 1) ("<![CDATA[".toList ++ (text ++ "]]>".toList ++ s))
        ("<![CDATA[".toList ++ (text ++ "]]>".toList ++ s'))
  | close {depth : Nat} {name s s' : List Char} (hname : '>' ∉ name) (h : Remarked depth s s') :
      Remarked (depth + 1) ("</".toList ++ (name ++ ">".toList ++ s))
        ("</".toList ++ (name ++ ">".toList ++ s'))
  | tag {depth : Nat} {t : StartTag} {s s' : List Char} (ht : t.Proper)
      (h : Remarked (if t.empty then depth else depth + 1) s s') :
      Remarked depth (t.chars ++ s) (t.chars ++ s')
  | text {depth : Nat} {run s s' : List Char} (hne : run ≠ []) (hrun : '<' ∉ run)
      (h : Remarked (depth + 1) ('<' :: s) ('<' :: s')) :
      Remarked (depth + 1) (run ++ '<' :: s) (run ++ '<' :: s')
  | doctype {text s s' : List Char} (o : Option (List Entity))
      (htext : ∀ rest, takeDoctype (text ++ rest) = o.map (·, rest)) (h : Remarked 0 s s') :
      Remarked 0 ("<!DOCTYPE".toList ++ (text ++ s)) ("<!DOCTYPE".toList ++ (text ++ s'))

/-- Tokens with at most one remark more, which may cut character data in two. -/
inductive TokensRemarked : List Token → List Token → Prop
  | same (ts : List Token) : TokensRemarked ts ts
  | here {t : Token} (ht : t.isRemark = true) (ts : List Token) : TokensRemarked ts (t :: ts)
  | inside {t : Token} {run rest : List Char} (ht : t.isRemark = true) (h : Divides run rest)
      (ts : List Token) :
      TokensRemarked (.text (run ++ rest) :: ts) (.text run :: t :: .text rest :: ts)
  | filled {t : Token} (ht : t.isRemark = true) (pfx localName : String)
      (attributes : List RawAttribute) (ts : List Token) :
      TokensRemarked (.start pfx localName attributes true :: ts)
        (.start pfx localName attributes false :: t :: .close pfx localName :: ts)
  | cons (t : Token) {ts ts' : List Token} (h : TokensRemarked ts ts') :
      TokensRemarked (t :: ts) (t :: ts')

/-- Tokens, and what is left, with a remark more in one of them. -/
def TakenRemarked (p p' : List Token × List Char) : Prop :=
  TokensRemarked p.1 p'.1 ∧ Remarked 0 p.2 p'.2

/-- The same token is taken of both texts. -/
theorem takeTokens_remarked_cons {depth : Nat} {s s' r r' : List Char} {o : Option Token}
    (hs : takeToken s = o.map (·, r)) (hs' : takeToken s' = o.map (·, r')) (hne : s ≠ [])
    (hne' : s' ≠ []) (h : Remarked depth s s')
    (ih : ∀ t ∈ o, Option.Rel TakenRemarked (takeTokens (t.depthAfter depth) r)
      (takeTokens (t.depthAfter depth) r')) :
    Option.Rel TakenRemarked (takeTokens depth s) (takeTokens depth s') := by
  by_cases hd : depth = 0
  · subst hd
    rw [takeTokens_zero, takeTokens_zero]
    exact .some ⟨.same [], h⟩
  · rw [takeTokens_eq_bind hd hne, takeTokens_eq_bind hd hne', hs, hs']
    cases o with
    | none => exact .none
    | some t => exact optionRel_map (ih t rfl) fun _ _ h => ⟨.cons t h.1, h.2⟩

theorem exists_close_of_takeClose {s r : List Char} {t : Token} (h : takeClose s = some (t, r)) :
    ∃ pfx localName, t = .close pfx localName := by
  simp only [takeClose, bind, Option.bind_eq_some_iff, Prod.exists, Option.some.injEq,
    Prod.mk.injEq] at h
  obtain ⟨pfx, localName, -, -, -, -, ht, -⟩ := h
  exact ⟨pfx, localName, ht.symm⟩

theorem exists_literal_of_takeLiteral {s r : List Char} {t : Token}
    (h : takeLiteral s = some (t, r)) : ∃ raw, t = .literal raw := by
  simp only [takeLiteral, bind, Option.bind_eq_some_iff, Prod.exists, Option.some.injEq,
    Prod.mk.injEq] at h
  obtain ⟨raw, -, -, -, -, ht, -⟩ := h
  exact ⟨raw, ht.symm⟩

/-- Character data is refused in one piece if and only if it is in two. -/
theorem Divides.textToken?_append {run rest : List Char} (h : Divides run rest) :
    textToken? (run ++ rest) = (textToken? run).bind fun _ =>
      (textToken? rest).map fun _ => .text (run ++ rest) := by
  rw [textToken?, textToken?, textToken?, h.mark, List.all_append]
  cases run.all isXmlChar <;> cases hasLiteralEnd run <;> cases rest.all isXmlChar <;>
    cases hasLiteralEnd rest <;> rfl

theorem eq_text_of_textToken? {run : List Char} {t : Token} (h : textToken? run = some t) :
    t = .text run := by
  rw [textToken?] at h
  split at h
  · split at h
    · cases h
    · exact (Option.some.inj h).symm
  · cases h

theorem StartTag.exists_start_of_token? {t : StartTag} {token : Token} (h : t.token? = some token) :
    ∃ pfx localName attributes, token = .start pfx localName attributes t.empty := by
  simp only [StartTag.token?, Option.bind_eq_some_iff, Option.map_eq_some_iff] at h
  obtain ⟨name, -, raws, -, rfl⟩ := h
  exact ⟨_, _, _, rfl⟩

/-- A remark inside of character data cuts its token in two. -/
theorem takeTokens_inside {depth : Nat} {p run rest : List Char} (hp : IsRemark p)
    (h : Divides run rest) (s : List Char) : Option.Rel TakenRemarked
      (takeTokens (depth + 1) (run ++ (rest ++ '<' :: s)))
      (takeTokens (depth + 1) (run ++ (p ++ (rest ++ '<' :: s)))) := by
  obtain ⟨t, ht, htake, -⟩ := hp.exists_token
  obtain ⟨q, rfl⟩ := hp.exists_cons
  have hne : run ++ rest ≠ [] := by simp [h.before.1]
  have hmark : '<' ∉ run ++ rest := by simp [h.before.2, h.after.2]
  have hwhole := takeToken_run hne hmark s
  have hbefore := takeToken_run h.before.1 h.before.2 (q ++ (rest ++ '<' :: s))
  have hafter := takeToken_run h.after.1 h.after.2 s
  rw [List.append_assoc, h.textToken?_append] at hwhole
  rw [takeTokens_eq_bind (by simp) (by simp), hwhole, takeTokens_eq_bind (by simp)
    (by simp [h.before.1]), List.cons_append, hbefore]
  cases hrun : textToken? run with
  | none => exact .none
  | some tr =>
    obtain rfl := eq_text_of_textToken? hrun
    have hremark : takeTokens (depth + 1) ('<' :: (q ++ (rest ++ '<' :: s))) =
        (takeTokens (depth + 1) (rest ++ '<' :: s)).map fun p => (t :: p.1, p.2) := by
      rw [takeTokens_eq_bind (by simp) (by simp), ← List.cons_append, htake, Option.bind_some,
        Token.depthAfter_of_isRemark ht]
    simp only [Option.map_some, Option.bind_some, Token.depthAfter, hremark]
    rw [takeTokens_eq_bind (s := rest ++ '<' :: s) (by simp) (by simp), hafter]
    cases hrest : textToken? rest with
    | none => exact .none
    | some tr =>
      obtain rfl := eq_text_of_textToken? hrest
      simp only [Option.map_some, Option.bind_some, Token.depthAfter]
      cases takeTokens (depth + 1) ('<' :: s) with
      | none => exact .none
      | some p => exact .some ⟨.inside ht h p.1, .same 0 p.2⟩

/-- An element with an empty tag, and the same with a remark in it. -/
theorem takeTokens_filled {t : StartTag} (ht : t.Proper) (hempty : t.empty = true) {p : List Char}
    (hp : IsRemark p) (depth : Nat) (s : List Char) : Option.Rel TakenRemarked
      (t.token?.bind fun root =>
        (takeTokens (root.depthAfter depth) s).map fun r => (root :: r.1, r.2))
      (t.opening.token?.bind fun root =>
        (takeTokens (root.depthAfter depth) (p ++ ("</".toList ++ (t.name ++ ">".toList ++ s)))).map
          fun r => (root :: r.1, r.2)) := by
  rcases t.token?_opening hempty with ⟨hnone, hnone'⟩ | ⟨q, attributes, hq, htoken, htoken'⟩
  · rw [hnone, hnone']
    exact .none
  · obtain ⟨remark, hremark, htake⟩ := hp.exists_takeTokens ht.name hq
    rw [htoken, htoken', Option.bind_some, Option.bind_some]
    simp only [Token.depthAfter, if_true, Bool.false_eq_true, if_false, htake]
    cases takeTokens depth s with
    | none => exact .none
    | some r => exact .some ⟨.filled hremark _ _ _ _, .same 0 r.2⟩

theorem takeTokens_remarked {depth : Nat} {s s' : List Char} (h : Remarked depth s s') :
    Option.Rel TakenRemarked (takeTokens depth s) (takeTokens depth s') := by
  induction h with
  | same depth s => exact optionRel_self _ fun p _ => ⟨.same _, .same _ _⟩
  | @here depth p hp s =>
    cases depth with
    | zero =>
      rw [takeTokens_zero, takeTokens_zero]
      exact .some ⟨.same [], .here hp s⟩
    | succ depth =>
      obtain ⟨t, ht, htake, -⟩ := hp.exists_token
      obtain ⟨q, rfl⟩ := hp.exists_cons
      rw [takeTokens_eq_bind (s := '<' :: q ++ s) (by simp) (by simp), htake, Option.bind_some,
        Token.depthAfter_of_isRemark ht]
      cases takeTokens (depth + 1) s with
      | none => exact .none
      | some p => exact .some ⟨.here ht _, .same _ _⟩
  | inside hp h => exact takeTokens_inside hp h _
  | blank hc h =>
    rw [takeTokens_zero, takeTokens_zero]
    exact .some ⟨.same [], .blank hc h⟩
  | @remark depth q s s' hq h ih =>
    obtain ⟨t, ht, htake, -⟩ := hq.exists_token
    obtain ⟨r, hr⟩ := hq.exists_cons
    apply takeTokens_remarked_cons (o := some t) (htake s) (htake s') (by simp [hr]) (by simp [hr])
      (.remark hq h)
    rintro _ ⟨⟩
    rwa [Token.depthAfter_of_isRemark ht]
  | @literal depth text s s' htext h ih =>
    obtain ⟨o, ho⟩ := takesWhole_literal htext
    have htake (r : List Char) := (takeToken_literal (text ++ "]]>".toList ++ r)).trans (ho r)
    apply takeTokens_remarked_cons (htake s) (htake s') (by simp) (by simp) (.literal htext h)
    intro t ht
    have hraw := ho []
    rw [Option.mem_def.mp ht, Option.map_some] at hraw
    obtain ⟨raw, rfl⟩ := exists_literal_of_takeLiteral hraw
    exact ih
  | @close depth name s s' hname h ih =>
    obtain ⟨o, ho⟩ := takesWhole_close hname
    have htake (r : List Char) := (takeToken_end (name ++ ">".toList ++ r)).trans (ho r)
    apply takeTokens_remarked_cons (htake s) (htake s') (by simp) (by simp) (.close hname h)
    intro t ht
    have hclose := ho []
    rw [Option.mem_def.mp ht, Option.map_some] at hclose
    obtain ⟨pfx, localName, rfl⟩ := exists_close_of_takeClose hclose
    exact ih
  | @tag depth t s s' ht h ih =>
    apply takeTokens_remarked_cons (ht.takeToken_eq s) (ht.takeToken_eq s')
      (by simp [StartTag.chars]) (by simp [StartTag.chars]) (.tag ht h)
    intro token htoken
    obtain ⟨pfx, localName, attributes, rfl⟩ := StartTag.exists_start_of_token? htoken
    exact ih
  | @text depth run s s' hne hrun h ih =>
    apply takeTokens_remarked_cons (takeToken_run hne hrun s) (takeToken_run hne hrun s')
      (by simp) (by simp) (.text hne hrun h)
    intro t ht
    obtain rfl := eq_text_of_textToken? ht
    exact ih
  | doctype o htext h =>
    rw [takeTokens_zero, takeTokens_zero]
    exact .some ⟨.same [], .doctype o htext h⟩
  | @filled depth t p ht hempty hp s =>
    by_cases hd : depth = 0
    · subst hd
      rw [takeTokens_zero, takeTokens_zero]
      exact .some ⟨.same [], .filled ht hempty hp s⟩
    · rw [takeTokens_eq_bind hd (by simp [StartTag.chars]), ht.takeToken_eq,
        takeTokens_eq_bind hd (by simp [StartTag.chars]), ht.opening.takeToken_eq]
      rw [Option.bind_map, Option.bind_map]
      exact takeTokens_filled ht hempty hp depth s
  | definition h s =>
    rw [takeTokens_zero, takeTokens_zero]
    exact .some ⟨.same [], .definition h s⟩

/-! ### Outside of the document element -/

section
variable {s s' r : List Char}

/-- What is left begins with no remark. -/
theorem takeMisc?_of_skipMisc (h : skipMisc s = some r) : takeMisc? r = some none := by
  fun_induction skipMisc s with
  | case1 => cases h
  | case2 s hmisc => exact Option.some.inj h ▸ hmisc
  | case3 s q hmisc hlt ih => exact ih h

theorem skipMisc_doctype (text : List Char) :
    skipMisc ("<!DOCTYPE".toList ++ text) = some ("<!DOCTYPE".toList ++ text) := by
  have hskip : skipSpaces ("<!DOCTYPE".toList ++ text) = "<!DOCTYPE".toList ++ text :=
    skipSpaces_cons (by decide) _
  have hmisc : takeMisc? ("<!DOCTYPE".toList ++ text) = some none := by simp [takeMisc?, expect]
  rw [skipMisc_eq_match, hskip, hmisc]
  rfl

theorem skipMisc_remarked (h : Remarked 0 s s') :
    Option.Rel (Remarked 0) (skipMisc s) (skipMisc s') := by
  generalize hd : 0 = depth at h
  induction h with
  | same depth s => exact optionRel_self _ fun r _ => .same depth r
  | here hp s =>
    rw [hp.skipMisc_append]
    exact optionRel_self _ fun r _ => .same _ r
  | blank hc h ih =>
    rw [skipMisc_cons hc, skipMisc_cons hc]
    exact ih rfl
  | remark hq h ih =>
    rw [hq.skipMisc_append, hq.skipMisc_append]
    exact ih hd
  | tag ht h ih =>
    subst hd
    rw [ht.skipMisc_eq, ht.skipMisc_eq]
    exact .some (.tag ht h)
  | doctype o htext h ih =>
    rw [skipMisc_doctype, skipMisc_doctype]
    exact .some (.doctype o htext h)
  | filled ht hempty hp s =>
    rw [ht.skipMisc_eq, ht.opening.skipMisc_eq]
    exact .some (.filled ht hempty hp s)
  | definition h s =>
    rw [skipMisc_doctype, skipMisc_doctype]
    exact .some (.definition h s)
  | inside | literal | close | text => cases hd

/-- Texts outside of elements that differ in a remark more, if at all, but not at their begin. -/
structure Settled (s s' : List Char) : Prop where
  remarked : Remarked 0 s s'
  front : ∀ p, IsRemark p → s' ≠ p ++ s

theorem settled_self (s : List Char) : Settled s s where
  remarked := .same 0 s
  front p hp heq := by
    obtain ⟨q, rfl⟩ := hp.exists_cons
    have hlength := congrArg List.length heq
    simp at hlength
    omega

theorem skipMisc_settled (h : Remarked 0 s s') :
    Option.Rel Settled (skipMisc s) (skipMisc s') := by
  have hrel := skipMisc_remarked h
  cases hs : skipMisc s <;> cases hs' : skipMisc s' <;> rw [hs, hs'] at hrel <;> cases hrel
  · exact .none
  · next r r' hr =>
    refine .some ⟨hr, fun p hp heq => ?_⟩
    obtain ⟨t, -, -, hmisc⟩ := hp.exists_token
    have hnone := takeMisc?_of_skipMisc hs'
    rw [heq, hmisc] at hnone
    cases hnone

theorem Settled.isEmpty_eq (h : Settled s s') : s.isEmpty = s'.isEmpty := by
  obtain ⟨h, hfront⟩ := h
  cases h with
  | here hp => exact absurd rfl (hfront _ hp)
  | remark hq =>
    obtain ⟨q, rfl⟩ := hq.exists_cons
    rfl
  | same | blank | tag | doctype | filled | definition => rfl

/-- A text begins with a declaration of the version. -/
def IsDeclaration (d : List Char) : Prop :=
  ∃ text, d = "<?xml ".toList ++ text ∧
    ∀ rest, skipDeclaration (' ' :: (text ++ rest)) = some rest

/-- Behind a declaration of the version there may be a remark more. -/
inductive DeclaredRemarked : List Char → List Char → Prop
  | plain {s s' : List Char} (hs : ¬ "<?xml ".toList <+: s) (h : Remarked 0 s s') :
      DeclaredRemarked s s'
  | declared {d s s' : List Char} (hd : IsDeclaration d) (h : Remarked 0 s s') :
      DeclaredRemarked (d ++ s) (d ++ s')

/-- And behind a byte order mark. -/
inductive DocumentRemarked : List Char → List Char → Prop
  | plain {s s' : List Char} (hs : s.head? ≠ some '\ufeff') (h : DeclaredRemarked s s') :
      DocumentRemarked s s'
  | marked {s s' : List Char} (h : DeclaredRemarked s s') :
      DocumentRemarked ('\ufeff' :: s) ('\ufeff' :: s')

theorem Remarked.not_declaration (h : Remarked 0 s s') (hs : ¬ "<?xml ".toList <+: s) :
    ¬ "<?xml ".toList <+: s' := by
  cases h with
  | same => exact hs
  | here hp => exact hp.not_declaration _
  | blank hc h =>
    simp only [String.reduceToList, List.cons_prefix_cons]
    rintro ⟨rfl, -⟩
    cases hc
  | remark hq => exact hq.not_declaration _
  | tag ht => exact ht.not_declaration _
  | filled ht => exact ht.opening.not_declaration _
  | doctype | definition => simp

theorem DeclaredRemarked.afterDeclaration (h : DeclaredRemarked s s') :
    Option.Rel (Remarked 0) (afterDeclaration s) (afterDeclaration s') := by
  cases h with
  | plain hs h =>
    rw [afterDeclaration_of_not hs, afterDeclaration_of_not (h.not_declaration hs)]
    exact .some h
  | declared hd h =>
    obtain ⟨text, rfl, htext⟩ := hd
    have hafter (r : List Char) :
        Xml.afterDeclaration ("<?xml ".toList ++ text ++ r) = some r := htext r
    rw [hafter, hafter]
    exact .some h

theorem expect_mark_eq_none (h : s.head? ≠ some '\ufeff') : expect ['\ufeff'] s = none := by
  cases s with
  | nil => rfl
  | cons c s =>
    have hc : '\ufeff' ≠ c := fun heq => h (congrArg some heq.symm)
    exact expect_cons_of_ne hc [] s

theorem Remarked.head?_ne (h : Remarked 0 s s') (hs : s.head? ≠ some '\ufeff') :
    s'.head? ≠ some '\ufeff' := by
  cases h with
  | same => exact hs
  | here hp | remark hp =>
    obtain ⟨q, rfl⟩ := hp.exists_cons
    simp
  | blank => exact hs
  | tag | doctype | filled | definition => simp [StartTag.chars]

theorem DeclaredRemarked.head?_ne (h : DeclaredRemarked s s') (hs : s.head? ≠ some '\ufeff') :
    s'.head? ≠ some '\ufeff' := by
  cases h with
  | plain _ h => exact h.head?_ne hs
  | declared hd h =>
    obtain ⟨text, rfl, -⟩ := hd
    simp

/-- The document from its first element or its document type definition on. -/
theorem DocumentRemarked.prolog (h : DocumentRemarked s s') :
    Option.Rel Settled ((afterDeclaration ((expect ['\ufeff'] s).getD s)).bind skipMisc)
      ((afterDeclaration ((expect ['\ufeff'] s').getD s')).bind skipMisc) := by
  have hafter : Option.Rel (Remarked 0) (afterDeclaration ((expect ['\ufeff'] s).getD s))
      (afterDeclaration ((expect ['\ufeff'] s').getD s')) := by
    cases h with
    | plain hs h =>
      rw [expect_mark_eq_none hs, expect_mark_eq_none (h.head?_ne hs)]
      exact h.afterDeclaration
    | marked h =>
      have hmark (r : List Char) : expect ['\ufeff'] ('\ufeff' :: r) = some r :=
        expect_append ['\ufeff'] r
      rw [hmark, hmark]
      exact h.afterDeclaration
  exact optionRel_bind hafter fun _ _ => skipMisc_settled

/-- What is left of a prolog, unless it is refused. -/
def PrologsRemarked (p p' : Except ReadError (List Entity × List Char)) : Prop :=
  (∃ err, p = .error err ∧ p' = .error err) ∨
    ∃ entities r r', p = .ok (entities, r) ∧ p' = .ok (entities, r') ∧ Settled r r'

/-- Behind definitions of the same entities there may be a remark more. -/
theorem prologsRemarked_doctype (allowDoctype : Bool) {text text' : List Char}
    {o : Option (List Entity)} (htext : ∀ rest, takeDoctype (text ++ rest) = o.map (·, rest))
    (htext' : ∀ rest, takeDoctype (text' ++ rest) = o.map (·, rest)) (h : Remarked 0 s s') :
    PrologsRemarked (takeDefinition? allowDoctype ("<!DOCTYPE".toList ++ (text ++ s)))
      (takeDefinition? allowDoctype ("<!DOCTYPE".toList ++ (text' ++ s'))) := by
  have hrest := skipMisc_settled h
  rw [takeDefinition?_doctype allowDoctype htext, takeDefinition?_doctype allowDoctype htext']
  generalize skipMisc s = r at hrest
  generalize skipMisc s' = r' at hrest
  cases allowDoctype with
  | false => exact .inl ⟨_, rfl, rfl⟩
  | true =>
    cases o with
    | none => exact .inl ⟨_, rfl, rfl⟩
    | some entities =>
      cases hrest with
      | none => exact .inl ⟨_, rfl, rfl⟩
      | some h => exact .inr ⟨entities, _, _, rfl, rfl, h⟩

theorem takeDefinition?_settled (allowDoctype : Bool) (h : Settled s s') :
    PrologsRemarked (takeDefinition? allowDoctype s) (takeDefinition? allowDoctype s') := by
  have hother (hs : expect "<!DOCTYPE".toList s = none)
      (hs' : expect "<!DOCTYPE".toList s' = none) :
      PrologsRemarked (takeDefinition? allowDoctype s) (takeDefinition? allowDoctype s') := by
    rw [takeDefinition?_of_none allowDoctype hs, takeDefinition?_of_none allowDoctype hs']
    exact .inr ⟨[], s, s', rfl, rfl, h⟩
  obtain ⟨hr, hfront⟩ := h
  cases hr with
  | same =>
    cases takeDefinition? allowDoctype s with
    | error err => exact .inl ⟨err, rfl, rfl⟩
    | ok p => exact .inr ⟨p.1, p.2, p.2, rfl, rfl, settled_self p.2⟩
  | here hp => exact absurd rfl (hfront _ hp)
  | @blank c s s' hc h =>
    have hne : '<' ≠ c := by
      rintro rfl
      cases hc
    exact hother (expect_cons_of_ne hne _ s) (expect_cons_of_ne hne _ s')
  | remark hq => exact hother (hq.expect_doctype _) (hq.expect_doctype _)
  | tag ht =>
    exact hother (ht.expect_chars (c := '!') (by decide) _ _)
      (ht.expect_chars (c := '!') (by decide) _ _)
  | filled ht =>
    exact hother (ht.expect_chars (c := '!') (by decide) _ _)
      (ht.opening.expect_chars (c := '!') (by decide) _ _)
  | doctype o htext h => exact prologsRemarked_doctype allowDoctype htext htext h
  | @definition text text' h s =>
    obtain ⟨entities, htext, htext'⟩ := h.exists_entities
    exact prologsRemarked_doctype (o := some entities) allowDoctype htext htext' (.same 0 s)

theorem takeProlog_remarked (allowDoctype : Bool) (h : DocumentRemarked s s') :
    PrologsRemarked (takeProlog allowDoctype s) (takeProlog allowDoctype s') := by
  have hrest := h.prolog
  rw [takeProlog_eq, takeProlog_eq]
  generalize (afterDeclaration ((expect ['\ufeff'] s).getD s)).bind skipMisc = r at hrest
  generalize (afterDeclaration ((expect ['\ufeff'] s').getD s')).bind skipMisc = r' at hrest
  cases hrest with
  | none => exact .inl ⟨_, rfl, rfl⟩
  | some h => exact takeDefinition?_settled allowDoctype h

/-- The tokens of the document element, if there is one. -/
theorem takeRoot_settled (h : Settled s s') :
    Option.Rel TakenRemarked (takeRoot s) (takeRoot s') := by
  obtain ⟨h, hfront⟩ := h
  cases h with
  | same => exact optionRel_self _ fun p _ => ⟨.same _, .same _ _⟩
  | here hp => exact absurd rfl (hfront _ hp)
  | @blank c s s' hc h =>
    have hne : '<' ≠ c := by
      rintro rfl
      cases hc
    rw [takeRoot_cons_of_ne hne, takeRoot_cons_of_ne hne]
    exact .none
  | remark hq =>
    rw [hq.takeRoot_eq, hq.takeRoot_eq]
    exact .none
  | @tag depth t s s' ht h =>
    rw [ht.takeRoot_eq, ht.takeRoot_eq]
    cases htoken : t.token? with
    | none => exact .none
    | some root =>
      obtain ⟨pfx, localName, attributes, rfl⟩ := StartTag.exists_start_of_token? htoken
      exact optionRel_map (takeTokens_remarked h) fun _ _ h => ⟨.cons _ h.1, h.2⟩
  | filled ht hempty hp s =>
    rw [ht.takeRoot_eq, ht.opening.takeRoot_eq]
    exact takeTokens_filled ht hempty hp 0 s
  | doctype | definition =>
    have hroot (r : List Char) : takeRoot ("<!DOCTYPE".toList ++ r) = none :=
      takeRoot_eq_none (by decide) _
    rw [hroot, hroot]
    exact .none

end

end XmlBinding.Xml
