import XmlBinding.Proofs.Xml.AttributeOrder

/-! # Comments and instructions

A remark is a comment or an instruction. Wherever one may stand it is taken as a whole, whatever
comes after it, and nothing is left of it: neither outside of elements nor among the declarations of
a document type definition.
-/
namespace XmlBinding.Xml

/-- A comment, or an instruction that is not read as a declaration of the version. -/
inductive IsRemark : List Char → Prop
  | comment {text : List Char} (hchars : text.all isXmlChar = true)
      (hhyphens : hasDoubleHyphen text = false) (hlast : text.getLast? ≠ some '-') :
      IsRemark ("<!--".toList ++ (text ++ "-->".toList))
  | instruction {target data : List Char} (hstart : target.head?.any isNameStart = true)
      (htarget : target.all isNameChar = true) (hdeclaration : ¬ "xml ".toList <+: target ++ data)
      (hchars : data.all isXmlChar = true) (hblank : data.head?.all isSpace = true)
      (hmark : Unmarked "?>".toList data) :
      IsRemark ("<?".toList ++ (target ++ data ++ "?>".toList))

/-- The token of a remark. -/
def Token.isRemark : Token → Bool
  | .comment _ | .instruction .. => true
  | _ => false

theorem Token.depthAfter_of_isRemark {t : Token} (h : t.isRemark = true) (depth : Nat) :
    t.depthAfter depth = depth := by
  cases t <;> simp_all [isRemark, depthAfter]

theorem hasDoubleHyphen_of_suffix {text r : List Char} (h : '-' :: '-' :: r <:+ text) :
    hasDoubleHyphen text = true := by
  induction text with
  | nil => simp at h
  | cons c text ih =>
    rcases List.suffix_cons_iff.mp h with heq | h
    · rw [← heq, hasDoubleHyphen]
    · unfold hasDoubleHyphen
      split
      · rfl
      · next heq => exact (List.cons.inj heq).2 ▸ ih h
      · next heq => cases heq

/-- A comment without two hyphens together goes on to its mark. -/
theorem unmarked_of_hasDoubleHyphen {text : List Char} (h : hasDoubleHyphen text = false) :
    Unmarked "-->".toList text := by
  intro r hr hsuffix hmark
  match r with
  | [] => exact hr rfl
  | [c] => simp at hmark
  | [c, d] => simp at hmark
  | c :: d :: e :: q =>
    obtain ⟨rfl, rfl, rfl⟩ : '-' = c ∧ '-' = d ∧ '>' = e := by simpa using hmark
    rw [hasDoubleHyphen_of_suffix hsuffix] at h
    cases h

section
variable {target data : List Char}

/-- A target is followed by what belongs to no name. -/
theorem exists_after_target (hblank : data.head?.all isSpace = true) (rest : List Char) :
    ∃ d r, data ++ "?>".toList ++ rest = d :: r ∧ isNameChar d = false := by
  cases data with
  | nil => exact ⟨'?', '>' :: rest, rfl, by decide⟩
  | cons d data => exact ⟨d, _, rfl, isNameChar_of_isSpace (by simpa using hblank)⟩

theorem takeName_target (hstart : target.head?.any isNameStart = true)
    (htarget : target.all isNameChar = true) {d : Char} (hd : isNameChar d = false)
    (r : List Char) : takeName (target ++ d :: r) = some (String.ofList target, d :: r) := by
  cases target with
  | nil => cases hstart
  | cons c target =>
    have hc : isNameStart c = true := hstart
    have htail : ∀ c ∈ target, isNameChar c = true := fun c hmem =>
      List.all_eq_true.mp htarget c (List.mem_cons_of_mem _ hmem)
    rw [List.cons_append, takeName, if_pos hc, List.takeWhile_append_of_pos htail,
      List.dropWhile_append_of_pos htail, List.takeWhile_cons_of_neg (by simp [hd]),
      List.dropWhile_cons_of_neg (by simp [hd]), List.append_nil]

theorem takeInstruction_append (hstart : target.head?.any isNameStart = true)
    (htarget : target.all isNameChar = true) (hdeclaration : ¬ "xml ".toList <+: target ++ data)
    (hchars : data.all isXmlChar = true) (hblank : data.head?.all isSpace = true)
    (hmark : Unmarked "?>".toList data) (rest : List Char) :
    takeInstruction (target ++ data ++ "?>".toList ++ rest) =
      some (.instruction (String.ofList target) (String.ofList (skipSpaces data)), rest) := by
  have hxml : "xml ".toList.isPrefixOf (target ++ data ++ '?' :: '>' :: rest) = false := by
    rw [isPrefixOf_append_cons (by decide), ← Bool.not_eq_true, List.isPrefixOf_iff_prefix]
    exact hdeclaration
  obtain ⟨d, r, hr, hd⟩ := exists_after_target hblank rest
  have hassoc : target ++ data ++ '?' :: '>' :: rest = target ++ d :: r := by
    rw [← hr]
    simp
  have hskip : skipSpaces (d :: r) = skipSpaces data ++ '?' :: '>' :: rest := by
    rw [← hr, List.append_assoc]
    exact dropWhile_append_cons (by decide) data _
  have hvalue : (skipSpaces data).all isXmlChar = true := by
    rw [List.all_eq_true] at hchars ⊢
    exact fun c hc => hchars c ((List.dropWhile_suffix isSpace).subset hc)
  have hspan := spanChars_unmarked (d := '?') (m := ['>']) (by decide)
    (hmark.of_suffix (List.dropWhile_suffix isSpace)) rest
  have hexpect := expect_append "?>".toList rest
  change spanChars _ (skipSpaces data ++ '?' :: '>' :: rest) = _ at hspan
  rw [← skipSpaces, if_pos hvalue] at hspan
  rw [hassoc] at hxml
  rw [List.append_assoc _ "?>".toList]
  change takeInstruction (target ++ data ++ '?' :: '>' :: rest) = _
  rw [hassoc, takeInstruction, hxml]
  simp only [String.reduceToList] at hexpect ⊢
  simp only [Bool.false_eq_true, if_false, bind, takeName_target hstart htarget hd,
    Option.bind_some, hskip, hspan]
  exact (congrArg (Option.bind · _) hexpect).trans rfl

end

/-- Wherever a remark stands, it is taken for what it is, and passed over outside of elements. -/
theorem IsRemark.exists_token {p : List Char} (h : IsRemark p) :
    ∃ t : Token, t.isRemark = true ∧ (∀ rest, takeToken (p ++ rest) = some (t, rest)) ∧
      ∀ rest, takeMisc? (p ++ rest) = some (some rest) := by
  cases h with
  | @comment text hchars hhyphens hlast =>
    have htake (rest : List Char) : takeComment (text ++ "-->".toList ++ rest) =
        some (.comment (String.ofList text), rest) := by
      rw [takeComment_append (unmarked_of_hasDoubleHyphen hhyphens), commentToken?]
      simp [hchars, hhyphens, hlast]
    refine ⟨.comment (String.ofList text), rfl, fun rest => ?_, fun rest => ?_⟩
    · rw [List.append_assoc, takeToken_comment, htake]
    · rw [List.append_assoc, takeMisc?_comment, htake]
      rfl
  | @instruction target data hstart htarget hdeclaration hchars hblank hmark =>
    have htake := takeInstruction_append hstart htarget hdeclaration hchars hblank hmark
    refine ⟨.instruction (String.ofList target) (String.ofList (skipSpaces data)), rfl,
      fun rest => ?_, fun rest => ?_⟩
    · rw [List.append_assoc, takeToken_instruction, htake]
    · rw [List.append_assoc, takeMisc?_instruction, htake]
      rfl

theorem IsRemark.exists_cons {p : List Char} (h : IsRemark p) : ∃ r, p = '<' :: r := by
  cases h <;> exact ⟨_, rfl⟩

theorem skipMisc_cons {c : Char} (hc : isSpace c = true) (s : List Char) :
    skipMisc (c :: s) = skipMisc s := by
  have hskip : skipSpaces (c :: s) = skipSpaces s := List.dropWhile_cons_of_pos hc
  rw [skipMisc_eq_match, hskip, ← skipMisc_eq_match]

theorem IsRemark.skipMisc_append {p : List Char} (hp : IsRemark p) (s : List Char) :
    skipMisc (p ++ s) = skipMisc s := by
  obtain ⟨t, -, -, hmisc⟩ := hp.exists_token
  obtain ⟨q, rfl⟩ := hp.exists_cons
  have hskip : skipSpaces ('<' :: q ++ s) = '<' :: q ++ s := skipSpaces_cons (by decide) _
  rw [skipMisc_eq_match, hskip, hmisc]
  rfl

theorem IsRemark.not_declaration {p : List Char} (hp : IsRemark p) (r : List Char) :
    ¬ "<?xml ".toList <+: p ++ r := by
  cases hp with
  | comment => simp
  | @instruction target data hstart htarget hdeclaration =>
    have hmark := not_prefix_append_cons (d := '?') (by decide) hdeclaration ('>' :: r)
    simpa using hmark

theorem IsRemark.expect_doctype {p : List Char} (hp : IsRemark p) (r : List Char) :
    expect "<!DOCTYPE".toList (p ++ r) = none := by
  cases hp <;> simp [expect]

theorem IsRemark.takeRoot_eq {p : List Char} (hp : IsRemark p) (r : List Char) :
    takeRoot (p ++ r) = none := by
  cases hp <;> exact takeRoot_eq_none (by decide) _

/-! ### Among declarations -/

section
variable {s p : List Char} {es : List Entity}

theorem IsRemark.takeDefinition_eq (hp : IsRemark p) (rest : List Char) :
    takeDefinition (p ++ rest) = some ([], rest) := by
  obtain ⟨t, -, htake, -⟩ := hp.exists_token
  have htaken := htake rest
  cases hp with
  | comment =>
    rw [List.append_assoc, takeToken_comment] at htaken
    rw [List.append_assoc, takeDefinition_comment, htaken]
    rfl
  | instruction =>
    rw [List.append_assoc, takeToken_instruction] at htaken
    rw [List.append_assoc, takeDefinition_instruction, htaken]
    rfl

/-- Whole declarations, with blanks between them, and the entities they declare. -/
inductive Declares : List Char → List Entity → Prop
  | nil : Declares [] []
  | blank {c : Char} {s : List Char} {es : List Entity} (hc : isSpace c = true)
      (h : Declares s es) : Declares (c :: s) es
  | cons {d s : List Char} {es es' : List Entity}
      (hd : ∀ rest, takeDefinition (d ++ rest) = some (es, rest)) (h : Declares s es') :
      Declares (d ++ s) (es ++ es')

theorem takeDefinitions_blank {c : Char} (hc : isSpace c = true) (fuel : Nat) (s : List Char) :
    takeDefinitions fuel (c :: s) = takeDefinitions fuel s := by
  have hskip : skipSpaces (c :: s) = skipSpaces s := List.dropWhile_cons_of_pos hc
  cases fuel with
  | zero => rfl
  | succ fuel => rw [takeDefinitions, takeDefinitions, hskip]

theorem head?_of_takeDefinition {r : List Char} (h : takeDefinition s = some (es, r)) :
    s.head? = some '<' := by
  cases s with
  | nil => simp [takeDefinition, expect] at h
  | cons c s =>
    by_cases hc : '<' = c
    · rw [hc, List.head?_cons]
    · simp [takeDefinition, expect, hc] at h

theorem takeDefinitions_declaration {d : List Char}
    (hd : ∀ rest, takeDefinition (d ++ rest) = some (es, rest)) (fuel : Nat) (rest : List Char) :
    takeDefinitions (fuel + 1) (d ++ rest) =
      (takeDefinitions fuel rest).map fun p => (es ++ p.1, p.2) := by
  obtain ⟨r, hr⟩ := List.head?_eq_some_iff.mp (head?_of_takeDefinition (hd rest))
  have hskip : skipSpaces ('<' :: r) = '<' :: r := skipSpaces_cons (by decide) r
  have htake := hd rest
  rw [hr] at htake ⊢
  rw [takeDefinitions, hskip]
  change (takeDefinition ('<' :: r)).bind (fun p =>
    (takeDefinitions fuel p.2).bind fun q => some (p.1 ++ q.1, q.2)) = _
  rw [htake, Option.bind_some]
  cases takeDefinitions fuel rest <;> rfl

theorem Declares.takeDefinitions_append (h : Declares s es) : ∃ k ≤ s.length, ∀ fuel rest,
    takeDefinitions (k + fuel) (s ++ rest) =
      (takeDefinitions fuel rest).map fun p => (es ++ p.1, p.2) := by
  induction h with
  | nil => exact ⟨0, Nat.le_refl 0, fun fuel rest => by simp⟩
  | blank hc h ih =>
    obtain ⟨k, hk, ih⟩ := ih
    refine ⟨k, Nat.le_succ_of_le hk, fun fuel rest => ?_⟩
    rw [List.cons_append, takeDefinitions_blank hc, ih]
  | @cons d s es es' hd h ih =>
    obtain ⟨k, hk, ih⟩ := ih
    have hne : d ≠ [] := by
      rintro rfl
      cases head?_of_takeDefinition (hd [])
    have hpos := List.length_pos_iff_ne_nil.mpr hne
    refine ⟨k + 1, ?_, fun fuel rest => ?_⟩
    · rw [List.length_append]
      omega
    · rw [Nat.add_right_comm, List.append_assoc, takeDefinitions_declaration hd, ih, Option.map_map]
      simp [Function.comp_def]

/-- More fuel than needed does not matter. -/
theorem takeDefinitions_mono {fuel fuel' : Nat} (hle : fuel ≤ fuel') {r : List Entity × List Char}
    (h : takeDefinitions fuel s = some r) : takeDefinitions fuel' s = some r := by
  induction fuel generalizing fuel' s r with
  | zero => cases h
  | succ fuel ih =>
    obtain ⟨fuel', rfl⟩ := Nat.exists_eq_succ_of_ne_zero (Nat.ne_zero_of_lt hle)
    rw [takeDefinitions] at h ⊢
    split at h
    · exact h
    · simp only [bind, Option.bind_eq_some_iff] at h ⊢
      obtain ⟨d, hd, p, hp, hr⟩ := h
      exact ⟨d, hd, p, ih (Nat.le_of_succ_le_succ hle) hp, hr⟩

/-- A remark among declarations declares nothing. -/
theorem takeDefinitions_remark (hp : IsRemark p) (hs : Declares s es) {after : List Char}
    {r : List Entity × List Char}
    (h : takeDefinitions ((s ++ after).length + 1) (s ++ after) = some r) :
    takeDefinitions ((s ++ (p ++ after)).length + 1) (s ++ (p ++ after)) = some r := by
  obtain ⟨k, hk, htake⟩ := hs.takeDefinitions_append
  have hfuel : (s ++ after).length + 1 = k + (s.length - k + after.length + 1) := by
    rw [List.length_append]
    omega
  have hfuel' : (s ++ (p ++ after)).length + 1 =
      k + (s.length - k + p.length + after.length + 1) := by
    rw [List.length_append, List.length_append]
    omega
  rw [hfuel, htake, Option.map_eq_some_iff] at h
  obtain ⟨q, hq, rfl⟩ := h
  have hne : p.length ≠ 0 := by
    obtain ⟨r, rfl⟩ := hp.exists_cons
    simp
  have hle : s.length - k + after.length + 1 ≤ s.length - k + p.length + after.length := by omega
  have hmore := takeDefinitions_mono hle hq
  rw [hfuel', htake, takeDefinitions_declaration hp.takeDefinition_eq, hmore]
  rfl

/-- A document type definition with a remark more among its declarations. -/
inductive DefinitionRemarked : List Char → List Char → Prop
  | inside {p opening before after : List Char} {es entities : List Entity} (hp : IsRemark p)
      (hopening : ∀ r, takeDoctype (opening ++ '[' :: r) = takeDefinitions (r.length + 1) r)
      (hbefore : Declares before es)
      (h : ∀ rest, takeDoctype (opening ++ '[' :: (before ++ after) ++ rest) =
        some (entities, rest)) :
      DefinitionRemarked (opening ++ '[' :: (before ++ after))
        (opening ++ '[' :: (before ++ (p ++ after)))

/-- With a remark more the same entities are declared. -/
theorem DefinitionRemarked.exists_entities {text text' : List Char}
    (h : DefinitionRemarked text text') : ∃ entities,
      (∀ rest, takeDoctype (text ++ rest) = some (entities, rest)) ∧
        ∀ rest, takeDoctype (text' ++ rest) = some (entities, rest) := by
  cases h with
  | @inside p opening before after es entities hp hopening hbefore h =>
    refine ⟨entities, h, fun rest => ?_⟩
    have hplain := h rest
    rw [List.append_assoc, List.cons_append, hopening, List.append_assoc] at hplain
    rw [List.append_assoc, List.cons_append, hopening, List.append_assoc, List.append_assoc]
    exact takeDefinitions_remark hp hbefore hplain

end

end XmlBinding.Xml
