import XmlBinding.Proofs.Xml.Escaping

/-! # Readers pass characters of XML only

Whatever a reader takes off a text consists of characters that XML allows. So a text that is read to
its end has no others, and neither has what was escaped in it.
-/
namespace XmlBinding.Xml

/-- All that stands before `r` in `s` is allowed if the characters of `r` are. -/
def Passes (s r : List Char) : Prop := r.all isXmlChar = true → s.all isXmlChar = true

theorem isXmlChar_of_inRanges {ranges : List (Nat × Nat)} {c : Char}
    (h : inRanges ranges c = true)
    (hr : ∀ r ∈ ranges, 0x20 ≤ r.1 ∧ (r.2 < 0xFFFE ∨ 0xFFFF < r.1)) : isXmlChar c = true := by
  obtain ⟨r, hmem, hc⟩ := List.any_eq_true.mp h
  obtain ⟨hlow, hhigh⟩ := hr r hmem
  simp only [Bool.and_eq_true, decide_eq_true_eq] at hc
  have hge : ¬ c.toNat < 0x20 := by omega
  have hne : c.toNat ≠ 0xFFFE ∧ c.toNat ≠ 0xFFFF := by omega
  simp [isXmlChar, hge, hne]

theorem isXmlChar_of_range {c : Char} (h : 0x20 ≤ c.toNat ∧ c.toNat < 0xFFFE) :
    isXmlChar c = true :=
  have hrange : inRanges [(0x20, 0xFFFD)] c = true := by
    simp [inRanges]
    omega
  isXmlChar_of_inRanges hrange (by simp)

theorem isXmlChar_of_isNameChar {c : Char} (h : isNameChar c = true) : isXmlChar c = true := by
  have hletter (h : c.isAlpha = true ∨ c.isDigit = true) : isXmlChar c = true := by
    apply isXmlChar_of_range
    delta Char.isAlpha Char.isUpper Char.isLower Char.isDigit at h
    simp [UInt32.le_iff_toNat_le] at h
    omega
  simp only [isNameChar, isNameStart, Bool.or_eq_true, beq_iff_eq] at h
  rcases h with ((((((h | rfl) | rfl) | h) | h) | rfl) | rfl) | h
  · exact hletter (.inl h)
  · decide
  · decide
  · exact isXmlChar_of_inRanges h (by decide)
  · exact hletter (.inr h)
  · decide
  · decide
  · exact isXmlChar_of_inRanges h (by decide)

theorem isXmlChar_of_isSpace {c : Char} (h : isSpace c = true) : isXmlChar c = true := by
  simp only [isSpace, Bool.or_eq_true, beq_iff_eq] at h
  rcases h with ((rfl | rfl) | rfl) | rfl <;> decide

section
variable {s r : List Char}

theorem passes_dropWhile {p : Char → Bool} (hp : ∀ c, p c = true → isXmlChar c = true)
    (s : List Char) : Passes s (s.dropWhile p) := by
  intro hr
  rw [← List.takeWhile_append_dropWhile (p := p) (l := s), List.all_append, hr, Bool.and_true]
  exact List.all_eq_true.mpr fun c hc => hp c (List.all_eq_true.mp List.all_takeWhile c hc)

theorem passes_skipSpaces (s : List Char) : Passes s (skipSpaces s) :=
  passes_dropWhile (fun _ => isXmlChar_of_isSpace) s

theorem passes_of_expect {pre : List Char} (hpre : pre.all isXmlChar = true)
    (h : expect pre s = some r) : Passes s r := by
  simp only [expect, Option.ite_none_right_eq_some, Option.some.injEq] at h
  obtain ⟨hp, rfl⟩ := h
  obtain ⟨t, rfl⟩ := List.isPrefixOf_iff_prefix.mp hp
  intro hr
  rw [List.drop_left] at hr
  rw [List.all_append, hpre, hr]
  rfl

theorem passes_of_spanChars {stop : List Char → Bool} {run : List Char}
    (h : spanChars stop s = some (run, r)) : Passes s r := by
  induction s generalizing run r with
  | nil => exact fun _ => rfl
  | cons c s ih =>
    simp only [spanChars] at h
    split at h
    · cases h
    · next hc =>
      split at h
      · cases h
        exact id
      · simp only [bind, Option.bind_eq_some_iff, Prod.exists, Option.some.injEq,
          Prod.mk.injEq] at h
        obtain ⟨run', r', hrun, -, rfl⟩ := h
        intro hr
        rw [List.all_cons, ih hrun hr, Bool.and_true]
        simpa using hc

theorem passes_of_takeName {n : String} (h : takeName s = some (n, r)) : Passes s r := by
  cases s with
  | nil => cases h
  | cons c s =>
    simp only [takeName, Option.ite_none_right_eq_some, Option.some.injEq, Prod.mk.injEq] at h
    obtain ⟨hc, -, rfl⟩ := h
    intro hr
    rw [List.all_cons, isXmlChar_of_isNameChar (isNameChar_of_isNameStart hc)]
    exact passes_dropWhile (fun _ => isXmlChar_of_isNameChar) s hr

theorem passes_of_takeQualified {n : String × String} (h : takeQualified s = some (n, r)) :
    Passes s r := by
  simp only [takeQualified, bind, Option.bind_eq_some_iff, Option.some.injEq, Prod.mk.injEq] at h
  obtain ⟨_, -, -, rfl⟩ := h
  exact passes_dropWhile (fun _ => isXmlChar_of_isNameChar) s

theorem takeQuote_eq_some {q : Char} (h : takeQuote s = some (q, r)) :
    s = q :: r ∧ isXmlChar q = true := by
  unfold takeQuote at h
  split at h
  · cases h
    exact ⟨rfl, by decide⟩
  · cases h
    exact ⟨rfl, by decide⟩
  · cases h

theorem passes_of_takeAttribute {a : RawAttribute} (h : takeAttribute s = some (a, r)) :
    Passes s r := by
  simp only [takeAttribute, takeValue, bind, Option.bind_eq_some_iff, Prod.exists,
    Option.some.injEq, Prod.mk.injEq] at h
  obtain ⟨_, _, r1, hname, r2, hequals, q, r3, hquote, _, _, ⟨_, r4, hspan, _, hend, -, rfl⟩, -,
    rfl⟩ := h
  obtain ⟨hskip, hq⟩ := takeQuote_eq_some hquote
  intro hr
  have hvalue : r3.all isXmlChar = true :=
    passes_of_spanChars hspan (passes_of_expect (by simpa using hq) hend hr)
  have hquoted : (skipSpaces r2).all isXmlChar = true := by
    rw [hskip, List.all_cons, hq, hvalue]
    rfl
  refine passes_of_takeQualified hname (passes_skipSpaces r1 ?_)
  exact passes_of_expect (by decide) hequals (passes_skipSpaces r2 hquoted)

theorem passes_of_takeAttributes {a : List RawAttribute × Bool}
    (h : takeAttributes s = some (a, r)) : Passes s r := by
  fun_induction takeAttributes s generalizing a r with
  | case1 s r' hs =>
    cases h
    intro hr
    refine passes_skipSpaces s ?_
    rw [hs, List.all_cons, hr]
    rfl
  | case2 s r' hs =>
    cases h
    intro hr
    refine passes_skipSpaces s ?_
    rw [hs, List.all_cons, List.all_cons, hr]
    rfl
  | case3 => cases h
  | case4 s _ a' rest ha _ _ _ ih =>
    simp only [Option.map_eq_some_iff, Prod.exists, Prod.mk.injEq] at h
    obtain ⟨as, e, r'', hrest, -, rfl⟩ := h
    exact fun hr => passes_skipSpaces s (passes_of_takeAttribute ha (ih hrest hr))
  | case5 => cases h

variable {t : Token}

theorem passes_of_takeStart (h : takeStart s = some (t, r)) : Passes s r := by
  simp only [takeStart, bind, Option.bind_eq_some_iff, Prod.exists, Option.some.injEq,
    Prod.mk.injEq] at h
  obtain ⟨_, _, _, hname, _, _, _, hattributes, -, rfl⟩ := h
  exact fun hr => passes_of_takeQualified hname (passes_of_takeAttributes hattributes hr)

theorem passes_of_takeClose (h : takeClose s = some (t, r)) : Passes s r := by
  simp only [takeClose, bind, Option.bind_eq_some_iff, Prod.exists, Option.some.injEq,
    Prod.mk.injEq] at h
  obtain ⟨_, _, r1, hname, _, hend, -, rfl⟩ := h
  exact fun hr => passes_of_takeQualified hname
    (passes_skipSpaces r1 (passes_of_expect (by decide) hend hr))

theorem passes_of_takeComment (h : takeComment s = some (t, r)) : Passes s r := by
  simp only [takeComment, bind, Option.bind_eq_some_iff, Prod.exists,
    Option.ite_none_left_eq_some, Option.some.injEq, Prod.mk.injEq] at h
  obtain ⟨_, _, hspan, _, hend, -, -, rfl⟩ := h
  exact fun hr => passes_of_spanChars hspan (passes_of_expect (by decide) hend hr)

theorem passes_of_takeInstruction (h : takeInstruction s = some (t, r)) : Passes s r := by
  simp only [takeInstruction, bind, Option.bind_eq_some_iff, Prod.exists,
    Option.ite_none_left_eq_some, Option.some.injEq, Prod.mk.injEq] at h
  obtain ⟨-, _, r1, hname, _, _, hspan, _, hend, -, rfl⟩ := h
  exact fun hr => passes_of_takeName hname (passes_skipSpaces r1
    (passes_of_spanChars hspan (passes_of_expect (by decide) hend hr)))

theorem passes_of_takeLiteral (h : takeLiteral s = some (t, r)) : Passes s r := by
  simp only [takeLiteral, bind, Option.bind_eq_some_iff, Prod.exists, Option.some.injEq,
    Prod.mk.injEq] at h
  obtain ⟨_, _, hspan, _, hend, -, rfl⟩ := h
  exact fun hr => passes_of_spanChars hspan (passes_of_expect (by decide) hend hr)

theorem passes_of_takeText (h : takeText s = some (t, r)) : Passes s r := by
  simp only [takeText, bind, Option.bind_eq_some_iff, Prod.exists, Option.ite_none_left_eq_some,
    Option.some.injEq, Prod.mk.injEq] at h
  obtain ⟨_, _, hspan, -, -, rfl⟩ := h
  exact passes_of_spanChars hspan

theorem passes_of_takeToken (h : takeToken s = some (t, r)) : Passes s r := by
  unfold takeToken at h
  split at h
  · next hmark => exact fun hr => passes_of_expect (by decide) hmark (passes_of_takeComment h hr)
  split at h
  · next hmark => exact fun hr => passes_of_expect (by decide) hmark (passes_of_takeLiteral h hr)
  split at h
  · next hmark =>
    exact fun hr => passes_of_expect (by decide) hmark (passes_of_takeInstruction h hr)
  split at h
  · next hmark => exact fun hr => passes_of_expect (by decide) hmark (passes_of_takeClose h hr)
  split at h
  · next hmark => exact fun hr => passes_of_expect (by decide) hmark (passes_of_takeStart h hr)
  · exact passes_of_takeText h

theorem passes_of_takeTokens {depth : Nat} {ts : List Token}
    (h : takeTokens depth s = some (ts, r)) : Passes s r := by
  fun_induction takeTokens depth s generalizing ts r with
  | case1 =>
    cases h
    exact id
  | case2 =>
    cases h
    exact id
  | case3 => cases h
  | case4 depth s _ _ t rest ht _ ih =>
    simp only [Option.map_eq_some_iff, Prod.exists, Prod.mk.injEq] at h
    obtain ⟨_, _, hrest, -, rfl⟩ := h
    exact fun hr => passes_of_takeToken ht (ih hrest hr)

theorem passes_of_takeRoot {ts : List Token} (h : takeRoot s = some (ts, r)) : Passes s r := by
  simp only [takeRoot, bind, Option.bind_eq_some_iff, Prod.exists, Option.some.injEq,
    Prod.mk.injEq] at h
  obtain ⟨_, hmark, _, _, hroot, _, _, hrest, -, rfl⟩ := h
  exact fun hr => passes_of_expect (by decide) hmark
    (passes_of_takeStart hroot (passes_of_takeTokens hrest hr))

theorem passes_of_takeMisc (h : takeMisc? s = some (some r)) : Passes s r := by
  unfold takeMisc? at h
  split at h
  · next hmark =>
    simp only [Option.map_eq_some_iff, Option.some.injEq, Prod.exists] at h
    obtain ⟨_, _, hr, rfl⟩ := h
    exact fun hx => passes_of_expect (by decide) hmark (passes_of_takeComment hr hx)
  · split at h
    · next hmark =>
      simp only [Option.map_eq_some_iff, Option.some.injEq, Prod.exists] at h
      obtain ⟨_, _, hr, rfl⟩ := h
      exact fun hx => passes_of_expect (by decide) hmark (passes_of_takeInstruction hr hx)
    · cases h

theorem passes_of_skipMisc (h : skipMisc s = some r) : Passes s r := by
  fun_induction skipMisc s generalizing r with
  | case1 => cases h
  | case2 s _ =>
    cases h
    exact passes_skipSpaces s
  | case3 s r' hmisc _ ih =>
    exact fun hr => passes_skipSpaces s (passes_of_takeMisc hmisc (ih h hr))

end

/-- The document element and what follows it have no other characters. -/
theorem isXmlChar_of_readRoot {entities : List Entity} {s : List Char} {e : Element}
    (h : readRoot entities s = some e) : s.all isXmlChar = true := by
  simp only [readRoot, bind, Option.bind_eq_some_iff, Prod.exists] at h
  obtain ⟨_, _, hroot, rest, hmisc, h⟩ := h
  cases rest with
  | nil => exact passes_of_takeRoot hroot (passes_of_skipMisc hmisc rfl)
  | cons c rest => cases h

theorem isXmlChar_of_escape {s : List Char} (h : (escape s).all isXmlChar = true) :
    s.all isXmlChar = true := by
  refine List.all_eq_true.mpr fun c hc => ?_
  by_cases hplain : escapeChar c = [c]
  · refine List.all_eq_true.mp h c (List.mem_flatMap.mpr ⟨c, hc, ?_⟩)
    rw [hplain]
    exact List.mem_singleton_self c
  · unfold escapeChar at hplain
    split at hplain
    case h_6 => exact absurd rfl hplain
    all_goals decide

end XmlBinding.Xml
