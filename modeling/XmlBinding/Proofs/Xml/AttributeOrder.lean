import Mathlib.Data.List.Forall2
import Mathlib.Data.List.Perm.Basic
import Mathlib.Data.List.TakeWhile
import XmlBinding.Proofs.Xml.Markup

/-! # Tags with their attributes in another order

Documents that differ only in the order of the attributes inside tags have the same tokens, but for
the order of attributes, or neither has tokens.
-/
namespace XmlBinding.Xml

section
variable {α β γ δ : Type} {R : α → β → Prop} {S : γ → δ → Prop}

theorem optionRel_bind {o : Option α} {o' : Option β} (h : Option.Rel R o o') {f : α → Option γ}
    {g : β → Option δ} (hfg : ∀ a b, R a b → Option.Rel S (f a) (g b)) :
    Option.Rel S (o.bind f) (o'.bind g) := by
  cases h with
  | some hab => exact hfg _ _ hab
  | none => exact .none

theorem optionRel_map {o : Option α} {o' : Option β} (h : Option.Rel R o o') {f : α → γ}
    {g : β → δ} (hfg : ∀ a b, R a b → S (f a) (g b)) : Option.Rel S (o.map f) (o'.map g) := by
  cases h with
  | some hab => exact .some (hfg _ _ hab)
  | none => exact .none

theorem optionRel_self {T : α → α → Prop} (o : Option α) (h : ∀ a ∈ o, T a a) :
    Option.Rel T o o := by
  cases o with
  | some a => exact .some (h a rfl)
  | none => exact .none

theorem optionRel_mono {T : α → β → Prop} {o : Option α} {o' : Option β} (h : Option.Rel R o o')
    (hRT : ∀ a b, R a b → T a b) : Option.Rel T o o' := by
  cases h with
  | some hab => exact .some (hRT _ _ hab)
  | none => exact .none

theorem optionRel_trans {T : α → α → Prop} (htrans : ∀ {a b c}, T a b → T b c → T a c)
    {o o' o'' : Option α} (h : Option.Rel T o o') (h' : Option.Rel T o' o'') :
    Option.Rel T o o'' := by
  cases h with
  | some hab =>
    cases h' with
    | some hbc => exact .some (htrans hab hbc)
  | none =>
    cases h'
    exact .none

/-- What is done to each of some things can be done in any order. -/
theorem mapM_perm (f : α → Option γ) {l l' : List α} (h : l.Perm l') :
    Option.Rel List.Perm (l.mapM f) (l'.mapM f) := by
  induction h with
  | nil => exact .some (List.Perm.refl _)
  | cons a _ ih =>
    rw [List.mapM_cons, List.mapM_cons]
    cases f a with
    | none => exact .none
    | some c => exact optionRel_bind ih fun _ _ hperm => .some (List.Perm.cons c hperm)
  | swap a b l =>
    simp only [List.mapM_cons]
    cases f a <;> cases f b <;> cases l.mapM f
    case some.some.some c d ds => exact .some (List.Perm.swap c d ds)
    all_goals exact .none
  | trans _ _ ih ih' => exact optionRel_trans (T := List.Perm) List.Perm.trans ih ih'

end

/-- The same tag but for the order of its attributes, and for blanks. -/
structure StartTag.Reordered (t t' : StartTag) : Prop where
  proper : t.Proper
  proper' : t'.Proper
  name : t.name = t'.name
  attributes : (t.attributes.map (·.2)).Perm (t'.attributes.map (·.2))
  empty : t.empty = t'.empty

/-- Texts that consist of the same pieces but for the order of attributes inside tags. What cannot
be divided into pieces is the same. -/
inductive TextReordered : List Char → List Char → Prop
  | same (s : List Char) : TextReordered s s
  | markup {p s s' : List Char} (hp : Markup p) (h : TextReordered s s') :
      TextReordered (p ++ s) (p ++ s')
  | text {run s s' : List Char} (hne : run ≠ []) (hrun : '<' ∉ run)
      (h : TextReordered ('<' :: s) ('<' :: s')) :
      TextReordered (run ++ '<' :: s) (run ++ '<' :: s')
  | tag {t t' : StartTag} {s s' : List Char} (ht : t.Reordered t') (h : TextReordered s s') :
      TextReordered (t.chars ++ s) (t'.chars ++ s')

/-- Tokens that differ at most in the order of attributes. -/
inductive Token.Reordered : Token → Token → Prop
  | same (t : Token) : Token.Reordered t t
  | start {pfx localName : String} {attributes attributes' : List RawAttribute} {empty : Bool}
      (h : attributes.Perm attributes') : Token.Reordered (.start pfx localName attributes empty)
        (.start pfx localName attributes' empty)

theorem Token.Reordered.depthAfter_eq {t t' : Token} (h : t.Reordered t') (depth : Nat) :
    t.depthAfter depth = t'.depthAfter depth := by
  cases h with
  | same => rfl
  | start => rfl

theorem StartTag.Reordered.token? {t t' : StartTag} (h : t.Reordered t') :
    Option.Rel Token.Reordered t.token? t'.token? := by
  rw [StartTag.token?, StartTag.token?, ← h.name, ← h.empty]
  refine optionRel_bind (optionRel_self (T := Eq) _ fun _ _ => rfl) ?_
  rintro name _ rfl
  exact optionRel_map (mapM_perm _ h.attributes) fun _ _ hperm => .start hperm

theorem takeTokens_zero (s : List Char) : takeTokens 0 s = some ([], s) := by
  rw [takeTokens, if_pos rfl]

theorem takeTokens_eq_bind {depth : Nat} (hd : depth ≠ 0) {s : List Char} (hs : s ≠ []) :
    takeTokens depth s = (takeToken s).bind fun p =>
      (takeTokens (p.1.depthAfter depth) p.2).map fun q => (p.1 :: q.1, q.2) := by
  cases h : takeToken s with
  | some p => exact takeTokens_cons hd hs h
  | none =>
    rw [takeTokens, if_neg hd, dif_neg hs]
    split
    · rfl
    · next hsome => rw [h] at hsome; cases hsome

/-- What is left of two texts after the same number of tokens, and the tokens. -/
def TakenAlike (p p' : List Token × List Char) : Prop :=
  List.Forall₂ Token.Reordered p.1 p'.1 ∧ TextReordered p.2 p'.2

/-- The first pieces are taken for tokens that are alike, or neither is taken. -/
theorem takeTokens_of_takeToken {s s' r r' : List Char} {o o' : Option Token}
    (hs : takeToken s = o.map (·, r)) (hs' : takeToken s' = o'.map (·, r'))
    (ho : Option.Rel Token.Reordered o o') (hne : s ≠ []) (hne' : s' ≠ [])
    (h : TextReordered s s')
    (ih : ∀ depth, Option.Rel TakenAlike (takeTokens depth r) (takeTokens depth r'))
    (depth : Nat) : Option.Rel TakenAlike (takeTokens depth s) (takeTokens depth s') := by
  by_cases hd : depth = 0
  · subst hd
    rw [takeTokens_zero, takeTokens_zero]
    exact .some ⟨.nil, h⟩
  · rw [takeTokens_eq_bind hd hne, takeTokens_eq_bind hd hne', hs, hs']
    cases ho with
    | none => exact .none
    | some ht =>
      simp only [Option.map_some, Option.bind_some, ht.depthAfter_eq]
      exact optionRel_map (ih _) fun _ _ h => ⟨.cons ht h.1, h.2⟩

theorem takeTokens_reordered {s s' : List Char} (h : TextReordered s s') (depth : Nat) :
    Option.Rel TakenAlike (takeTokens depth s) (takeTokens depth s') := by
  induction h generalizing depth with
  | same s =>
    refine optionRel_self _ fun p _ => ⟨?_, .same _⟩
    exact List.forall₂_same.mpr fun t _ => .same t
  | @markup p s s' hp h ih =>
    obtain ⟨o, ho⟩ := hp.takesWhole
    obtain ⟨r, rfl⟩ := hp.exists_cons
    exact takeTokens_of_takeToken (ho s) (ho s') (optionRel_self o fun t _ => .same t) (by simp)
      (by simp) (.markup hp h) ih depth
  | @text run s s' hne hrun h ih =>
    have hself := optionRel_self (T := Token.Reordered) (textToken? run) fun t _ => .same t
    exact takeTokens_of_takeToken (takeToken_run hne hrun s) (takeToken_run hne hrun s') hself
      (by simp) (by simp) (.text hne hrun h) ih depth
  | @tag t t' s s' ht h ih =>
    exact takeTokens_of_takeToken (ht.proper.takeToken_eq s) (ht.proper'.takeToken_eq s')
      ht.token? (by simp [StartTag.chars]) (by simp [StartTag.chars]) (.tag ht h) ih depth

/-- A document element is taken with all the tokens up to its end. -/
theorem StartTag.Proper.takeRoot_eq {t : StartTag} (ht : t.Proper) (s : List Char) :
    takeRoot (t.chars ++ s) =
      t.token?.bind fun root => (takeTokens (root.depthAfter 0) s).map fun p =>
        (root :: p.1, p.2) := by
  have hopen : expect ['<'] (t.chars ++ s) = some (t.inner ++ s) := expect_append ['<'] _
  rw [takeRoot, hopen]
  simp only [bind, Option.bind_some, ht.takeStart_eq]
  cases t.token? with
  | none => rfl
  | some root =>
    simp only [Option.map_some, Option.bind_some]
    cases takeTokens (root.depthAfter 0) s <;> rfl

/-- Document elements that differ in the order of attributes are taken alike. -/
theorem takeRoot_reordered {t t' : StartTag} (ht : t.Reordered t') {s s' : List Char}
    (h : TextReordered s s') :
    Option.Rel TakenAlike (takeRoot (t.chars ++ s)) (takeRoot (t'.chars ++ s')) := by
  rw [ht.proper.takeRoot_eq, ht.proper'.takeRoot_eq]
  refine optionRel_bind ht.token? fun root root' hr => ?_
  rw [hr.depthAfter_eq]
  exact optionRel_map (takeTokens_reordered h _) fun _ _ h => ⟨.cons hr h.1, h.2⟩

/-! ### Outside of the document element -/

theorem isEmpty_reordered {s s' : List Char} (h : TextReordered s s') : s.isEmpty = s'.isEmpty := by
  cases h with
  | same => rfl
  | markup hp h =>
    obtain ⟨r, rfl⟩ := hp.exists_cons
    rfl
  | text hne =>
    obtain ⟨c, run, rfl⟩ := List.exists_cons_of_ne_nil hne
    rfl
  | tag => rfl

theorem skipMisc_eq_match (s : List Char) : skipMisc s = (takeMisc? (skipSpaces s)).bind fun o =>
    o.elim (some (skipSpaces s)) skipMisc := by
  rw [skipMisc]
  split <;> simp_all

/-- A start tag is not passed over. -/
theorem StartTag.Proper.skipMisc_eq {t : StartTag} (ht : t.Proper) (r : List Char) :
    skipMisc (t.chars ++ r) = some (t.chars ++ r) := by
  have hcomment := ht.expect_chars (c := '!') (by decide) ['-', '-'] r
  have hinstruction := ht.expect_chars (c := '?') (by decide) [] r
  have hchars : skipSpaces (t.chars ++ r) = t.chars ++ r := skipSpaces_cons (by decide) _
  have hmisc : takeMisc? (t.chars ++ r) = some none := by
    simp [takeMisc?, hcomment, hinstruction]
  rw [skipMisc_eq_match, hchars, hmisc]
  rfl

/-- Comments, instructions and blanks are passed over alike. -/
theorem skipMisc_reordered {s s' : List Char} (h : TextReordered s s') :
    Option.Rel TextReordered (skipMisc s) (skipMisc s') := by
  have hskip (r : List Char) : skipSpaces ('<' :: r) = '<' :: r := skipSpaces_cons (by decide) r
  induction h with
  | same s => exact optionRel_self _ fun r _ => .same r
  | @markup p s s' hp h ih =>
    obtain ⟨r, rfl⟩ := hp.exists_cons
    rw [skipMisc_eq_match, skipMisc_eq_match ('<' :: r ++ s'), List.cons_append, List.cons_append,
      hskip, hskip, ← List.cons_append, ← List.cons_append]
    rcases hp.takeMisc?_eq with ⟨o, ho⟩ | hnone
    · rw [ho, ho]
      cases o with
      | none => exact .none
      | some t => exact ih
    · rw [hnone, hnone]
      exact .some (.markup hp h)
  | @text run s s' hne hrun h ih =>
    by_cases hblank : ∀ c ∈ run, isSpace c = true
    · have hrun (r : List Char) : skipMisc (run ++ '<' :: r) = skipMisc ('<' :: r) := by
        rw [skipMisc_eq_match, skipMisc_eq_match ('<' :: r), hskip,
          skipSpaces_append hblank (by decide)]
      rw [hrun, hrun]
      exact ih
    · have hrest : run.dropWhile isSpace ≠ [] := by
        rw [Ne, List.dropWhile_eq_nil_iff]
        exact hblank
      have hrun : '<' ∉ run.dropWhile isSpace :=
        fun hmem => hrun ((List.dropWhile_suffix isSpace).subset hmem)
      have hmore (r : List Char) :
          skipMisc (run ++ '<' :: r) = some (run.dropWhile isSpace ++ '<' :: r) := by
        have hspaces : skipSpaces (run ++ '<' :: r) = run.dropWhile isSpace ++ '<' :: r :=
          dropWhile_append_cons (by decide) run r
        obtain ⟨c, q, hq⟩ := List.exists_cons_of_ne_nil hrest
        have hc : '<' ≠ c := fun heq => hrun (hq ▸ heq ▸ List.mem_cons_self)
        rw [skipMisc_eq_match, hspaces, hq]
        simp [takeMisc?, expect, hc]
      rw [hmore, hmore]
      exact .some (.text hrest hrun h)
  | @tag t t' s s' ht h ih =>
    rw [ht.proper.skipMisc_eq, ht.proper'.skipMisc_eq]
    exact .some (.tag ht h)

/-- What is left after a byte order mark. -/
theorem skipMark_reordered {s s' : List Char} (h : TextReordered s s') :
    TextReordered ((expect ['\ufeff'] s).getD s) ((expect ['\ufeff'] s').getD s') := by
  have hopen (r : List Char) : expect ['\ufeff'] ('<' :: r) = none := by simp [expect]
  cases h with
  | same s => exact .same _
  | @markup p s s' hp h =>
    obtain ⟨r, rfl⟩ := hp.exists_cons
    rw [List.cons_append, List.cons_append, hopen, hopen]
    exact .markup hp h
  | @text run s s' hne hrun h =>
    obtain ⟨c, run, rfl⟩ := List.exists_cons_of_ne_nil hne
    by_cases hc : '\ufeff' = c
    · subst hc
      have hmark (r : List Char) : expect ['\ufeff'] ('\ufeff' :: run ++ r) = some (run ++ r) :=
        expect_append ['\ufeff'] (run ++ r)
      rw [hmark, hmark]
      cases run with
      | nil => exact h
      | cons d run => exact .text (by simp) (fun hd => hrun (List.mem_cons_of_mem _ hd)) h
    · have hnone (r : List Char) : expect ['\ufeff'] (c :: run ++ r) = none := by
        simp [expect, hc]
      rw [hnone, hnone]
      exact .text hne hrun h
  | @tag t t' s s' ht h =>
    have hnone {t : StartTag} (r : List Char) : expect ['\ufeff'] (t.chars ++ r) = none := hopen _
    rw [hnone, hnone]
    exact .tag ht h

/-- What is left after a declaration of the version, if there is one. -/
def afterDeclaration (s : List Char) : Option (List Char) :=
  match expect "<?xml".toList s with
  | some r => if r.head? == some ' ' then skipDeclaration r else some s
  | none => some s

theorem eq_append_of_expect {pre s r : List Char} (h : expect pre s = some r) : s = pre ++ r := by
  rw [expect, Option.ite_none_right_eq_some] at h
  obtain ⟨hpre, hr⟩ := h
  obtain ⟨q, rfl⟩ := List.isPrefixOf_iff_prefix.mp hpre
  rw [List.drop_left, Option.some.injEq] at hr
  rw [hr]

theorem afterDeclaration_of_not {s : List Char} (h : ¬ "<?xml ".toList <+: s) :
    afterDeclaration s = some s := by
  rw [afterDeclaration]
  split
  · next r hr =>
    refine if_neg fun hhead => h ?_
    obtain ⟨r, rfl⟩ := List.head?_eq_some_iff.mp (beq_iff_eq.mp hhead)
    exact ⟨r, (eq_append_of_expect hr).symm⟩
  · rfl

/-- No other markup looks like a declaration of the version. -/
theorem Markup.afterDeclaration_eq {p : List Char} (hp : Markup p) :
    (∃ o : Option Unit, ∀ rest, afterDeclaration (p ++ rest) = o.map fun _ => rest) ∨
      ∀ rest, afterDeclaration (p ++ rest) = some (p ++ rest) := by
  cases hp with
  | declaration o h => exact .inl ⟨o, h⟩
  | @instruction text hname h =>
    refine .inr fun rest => afterDeclaration_of_not fun hpre => ?_
    have hmark := not_prefix_append_cons (d := '?') (by simp) hname ('>' :: rest)
    exact hmark (by simpa using hpre)
  | comment | literal | close | definition | misplaced =>
    exact .inr fun rest => afterDeclaration_of_not (by simp)

theorem StartTag.Proper.not_declaration {t : StartTag} (ht : t.Proper) (r : List Char) :
    ¬ "<?xml ".toList <+: t.chars ++ r := by
  have hnone := ht.expect_chars (c := '?') (by decide) "xml ".toList r
  simp only [String.reduceToList] at hnone ⊢
  intro hpre
  rw [expect, if_pos (List.isPrefixOf_iff_prefix.mpr hpre)] at hnone
  cases hnone

theorem afterDeclaration_reordered {s s' : List Char} (h : TextReordered s s') :
    Option.Rel TextReordered (afterDeclaration s) (afterDeclaration s') := by
  have hother {s s' : List Char} (h : TextReordered s s') (hs : ¬ "<?xml ".toList <+: s)
      (hs' : ¬ "<?xml ".toList <+: s') :
      Option.Rel TextReordered (afterDeclaration s) (afterDeclaration s') := by
    rw [afterDeclaration_of_not hs, afterDeclaration_of_not hs']
    exact .some h
  cases h with
  | same s => exact optionRel_self _ fun r _ => .same r
  | markup hp h =>
    rcases hp.afterDeclaration_eq with ⟨o, ho⟩ | hsame
    · rw [ho, ho]
      cases o with
      | none => exact .none
      | some => exact .some h
    · rw [hsame, hsame]
      exact .some (.markup hp h)
  | @text run s s' hne hrun h =>
    have hmark (r : List Char) : ¬ "<?xml ".toList <+: run ++ r := by
      obtain ⟨c, run, rfl⟩ := List.exists_cons_of_ne_nil hne
      simp only [String.reduceToList, List.cons_append, List.cons_prefix_cons]
      rintro ⟨rfl, -⟩
      exact hrun List.mem_cons_self
    exact hother (.text hne hrun h) (hmark _) (hmark _)
  | @tag t t' s s' ht h =>
    exact hother (.tag ht h) (ht.proper.not_declaration _) (ht.proper'.not_declaration _)

/-! ### Prologs -/

/-- A prolog is refused for the same reason, or the same entities are declared and what is left is
alike. -/
inductive PrologsAlike : Except ReadError (List Entity × List Char) →
    Except ReadError (List Entity × List Char) → Prop
  | error (e : ReadError) : PrologsAlike (.error e) (.error e)
  | ok (entities : List Entity) {s s' : List Char} (h : TextReordered s s') :
      PrologsAlike (.ok (entities, s)) (.ok (entities, s'))

/-- What is done with a document type definition, if one stands here. -/
def takeDefinition? (allowDoctype : Bool) (s : List Char) :
    Except ReadError (List Entity × List Char) :=
  match expect "<!DOCTYPE".toList s with
  | none => .ok ([], s)
  | some r =>
    if !allowDoctype then .error .documentType
    else match takeDoctype r with
      | none => .error .malformed
      | some (es, r) =>
        match skipMisc r with
        | none => .error .malformed
        | some r => .ok (es, r)

theorem takeProlog_eq (allowDoctype : Bool) (s : List Char) : takeProlog allowDoctype s =
    ((afterDeclaration ((expect ['\ufeff'] s).getD s)).bind skipMisc).elim (.error .malformed)
      (takeDefinition? allowDoctype) := by
  have hmatch : takeProlog allowDoctype s =
      match (afterDeclaration ((expect ['\ufeff'] s).getD s)).bind skipMisc with
      | none => .error .malformed
      | some s => takeDefinition? allowDoctype s := rfl
  rw [hmatch]
  split <;> simp_all only [Option.elim]

theorem takeDefinition?_of_none (allowDoctype : Bool) {s : List Char}
    (h : expect "<!DOCTYPE".toList s = none) : takeDefinition? allowDoctype s = .ok ([], s) := by
  rw [takeDefinition?, h]

theorem takeDefinition?_doctype (allowDoctype : Bool) {text : List Char} {o : Option (List Entity)}
    (htext : ∀ rest, takeDoctype (text ++ rest) = o.map (·, rest)) (s : List Char) :
    takeDefinition? allowDoctype ("<!DOCTYPE".toList ++ (text ++ s)) =
      if allowDoctype then
        (o.bind fun es => (skipMisc s).map (es, ·)).elim (.error .malformed) .ok
      else .error .documentType := by
  rw [takeDefinition?, expect_append]
  simp only [htext]
  cases allowDoctype with
  | false => rfl
  | true =>
    cases o with
    | none => rfl
    | some es =>
      simp only [Option.map_some, Option.bind_some]
      cases skipMisc s <;> rfl

theorem takeDefinition?_reordered (allowDoctype : Bool) {s s' : List Char}
    (h : TextReordered s s') :
    PrologsAlike (takeDefinition? allowDoctype s) (takeDefinition? allowDoctype s') := by
  have hother {s s' : List Char} (h : TextReordered s s')
      (hs : expect "<!DOCTYPE".toList s = none) (hs' : expect "<!DOCTYPE".toList s' = none) :
      PrologsAlike (takeDefinition? allowDoctype s) (takeDefinition? allowDoctype s') := by
    rw [takeDefinition?_of_none allowDoctype hs, takeDefinition?_of_none allowDoctype hs']
    exact .ok [] h
  cases h with
  | same s =>
    cases takeDefinition? allowDoctype s with
    | error e => exact .error e
    | ok p => exact .ok p.1 (.same p.2)
  | @markup p s s' hp h =>
    by_cases hdefinition : ∃ (text : List Char) (o : Option (List Entity)),
        p = "<!DOCTYPE".toList ++ text ∧ ∀ rest, takeDoctype (text ++ rest) = o.map (·, rest)
    · obtain ⟨text, o, rfl, ho⟩ := hdefinition
      rw [List.append_assoc, List.append_assoc, takeDefinition?_doctype allowDoctype ho,
        takeDefinition?_doctype allowDoctype ho]
      have hrest := skipMisc_reordered h
      generalize skipMisc s = r at hrest
      generalize skipMisc s' = r' at hrest
      cases allowDoctype with
      | false => exact .error _
      | true =>
        cases o with
        | none => exact .error _
        | some es =>
          cases hrest with
          | none => exact .error _
          | some h => exact .ok es h
    · have hmark (r : List Char) : expect "<!DOCTYPE".toList (p ++ r) = none := by
        cases hp with
        | definition o ho => exact absurd ⟨_, o, rfl, ho⟩ hdefinition
        | @misplaced text hend hname =>
          have hmark := not_prefix_append_cons (d := '>') (by simp) (hname "DOCTYPE" (by simp)) r
          simp only [String.reduceToList] at hmark
          simp [expect, hmark]
        | _ => simp [expect]
      exact hother (.markup hp h) (hmark _) (hmark _)
  | @text run s s' hne hrun h =>
    have hmark (r : List Char) : expect "<!DOCTYPE".toList (run ++ r) = none := by
      obtain ⟨c, run, rfl⟩ := List.exists_cons_of_ne_nil hne
      have hc : '<' ≠ c := fun heq => hrun (heq ▸ List.mem_cons_self)
      simp [expect, hc]
    exact hother (.text hne hrun h) (hmark _) (hmark _)
  | @tag t t' s s' ht h =>
    exact hother (.tag ht h) (ht.proper.expect_chars (c := '!') (by decide) _ _)
      (ht.proper'.expect_chars (c := '!') (by decide) _ _)

theorem takeProlog_reordered (allowDoctype : Bool) {s s' : List Char} (h : TextReordered s s') :
    PrologsAlike (takeProlog allowDoctype s) (takeProlog allowDoctype s') := by
  have hrest := optionRel_bind (afterDeclaration_reordered (skipMark_reordered h))
    fun _ _ => skipMisc_reordered
  rw [takeProlog_eq, takeProlog_eq]
  generalize (afterDeclaration ((expect ['\ufeff'] s).getD s)).bind skipMisc = r at hrest
  generalize (afterDeclaration ((expect ['\ufeff'] s').getD s')).bind skipMisc = r' at hrest
  cases hrest with
  | none => exact .error _
  | some h => exact takeDefinition?_reordered allowDoctype h

end XmlBinding.Xml
