import XmlBinding.Proofs.Xml.Tokens

/-! # Escaped text stands for itself

References give the characters with a meaning in markup back, and all others stand as they are but
for blanks in attribute values and carriage returns.
-/
namespace XmlBinding.Xml

/-- A character as its escaped form is read. -/
def escapedItem (c : Char) : TextItem :=
  if escapeChar c = [c] then .char c else .reference c

/-- A character is escaped to itself or to a reference. -/
theorem escapeChar_cases (c : Char) :
    (escapeChar c = [c] ∧ c ≠ '&') ∨
      ∃ r, escapeChar c = '&' :: r ∧ escapeChar c ≠ [c] ∧
        ∀ rest, takeReference (r ++ rest) = some (.reference c, rest) := by
  unfold escapeChar
  split
  · exact .inr ⟨_, rfl, by decide, fun _ => rfl⟩
  · exact .inr ⟨_, rfl, by decide, fun _ => rfl⟩
  · exact .inr ⟨_, rfl, by decide, fun _ => rfl⟩
  · exact .inr ⟨_, rfl, by decide, fun _ => rfl⟩
  · exact .inr ⟨_, rfl, by decide, fun _ => rfl⟩
  · next h _ _ => exact .inl ⟨rfl, h⟩

theorem textItems_escape (s : List Char) : textItems (escape s) = some (s.map escapedItem) := by
  induction s with
  | nil =>
    rw [escape, List.flatMap_nil, textItems]
    rfl
  | cons c s ih =>
    have hcons : escape (c :: s) = escapeChar c ++ escape s := List.flatMap_cons
    rw [hcons]
    rcases escapeChar_cases c with ⟨hc, hne⟩ | ⟨r, hr, hne, htake⟩
    · rw [hc, List.singleton_append, textItems.eq_def]
      split
      · next heq => cases heq
      · next heq => exact absurd (List.cons.inj heq).1 hne
      · next heq =>
        cases heq
        rw [ih]
        simp [escapedItem, hc]
    · rw [hr, List.cons_append, textItems.eq_def]
      split
      · next heq => cases heq
      · next heq =>
        cases heq
        split
        · next hnone =>
          rw [htake] at hnone
          cases hnone
        · next hsome =>
          rw [htake] at hsome
          cases hsome
          rw [ih]
          simp [escapedItem, hne]
      · next hx heq =>
        cases heq
        exact absurd rfl hx

/-- Characters that an attribute keeps as they are. -/
def isKept (c : Char) : Bool := c != '\t' && c != '\n' && c != '\r'

theorem isKept_of_escapeChar {c : Char} (h : escapeChar c ≠ [c]) : isKept c = true := by
  have hkept (d : Char) (hd : escapeChar d = [d]) : c ≠ d := fun hc => h (hc ▸ hd)
  simp [isKept, hkept '\t' rfl, hkept '\n' rfl, hkept '\r' rfl]

/-! ### Attribute values -/

/-- The characters of an attribute as they are read: blanks as spaces, a line end of two characters
as one. -/
def attributeChars : List Char → List Char
  | [] => []
  | c :: s => (attributeChar c s.head?).toList ++ attributeChars s

/-- The value of an attribute that was written with a value. -/
def readAttribute (s : String) : String := String.ofList (attributeChars s.toList)

theorem attributeChar_of_isKept {c : Char} (h : isKept c = true) (next : Option Char) :
    attributeChar c next = some c := by
  simp only [isKept, Bool.and_eq_true, bne_iff_ne] at h
  obtain ⟨⟨htab, hlf⟩, hcr⟩ := h
  simp [attributeChar, htab, hlf, hcr]

theorem isKept_of_mem_attributeChar {c d : Char} {next : Option Char}
    (h : d ∈ attributeChar c next) : isKept d = true := by
  unfold attributeChar at h
  split at h
  · cases h
  · split at h
    · obtain rfl := Option.some.inj h
      decide
    · next hblank =>
      obtain rfl := Option.some.inj h
      simp only [Bool.or_eq_true, beq_iff_eq, not_or] at hblank
      obtain ⟨⟨hlf, hcr⟩, htab⟩ := hblank
      simp [isKept, htab, hlf, hcr]

theorem isKept_of_mem_attributeChars {s : List Char} {c : Char} (h : c ∈ attributeChars s) :
    isKept c = true := by
  induction s with
  | nil => cases h
  | cons d s ih =>
    rcases List.mem_append.mp h with h | h
    · exact isKept_of_mem_attributeChar (Option.mem_toList.mp h)
    · exact ih h

/-- A value comes back as it was if nothing in it is a line end or a tab. -/
theorem attributeChars_eq_self_iff {s : List Char} :
    attributeChars s = s ↔ s.all isKept = true := by
  constructor
  · intro h
    exact List.all_eq_true.mpr fun c hc => isKept_of_mem_attributeChars (h.symm ▸ hc)
  · intro h
    induction s with
    | nil => rfl
    | cons c s ih =>
      obtain ⟨hc, hs⟩ := List.forall_mem_cons.mp (List.all_eq_true.mp h)
      rw [attributeChars, attributeChar_of_isKept hc, ih (List.all_eq_true.mpr hs)]
      rfl

theorem readAttribute_eq_self_iff {s : String} :
    readAttribute s = s ↔ s.toList.all isKept = true := by
  rw [readAttribute, ← attributeChars_eq_self_iff, ← String.toList_inj, String.toList_ofList]

/-- Only a line feed that stands as it is makes a line end of two characters. -/
theorem attributeChar_next (c : Char) (s : List Char) :
    attributeChar c (match s.map escapedItem with
      | .char d :: _ => some d
      | _ => none) = attributeChar c s.head? := by
  cases s with
  | nil => rfl
  | cons d s =>
    by_cases hd : escapeChar d = [d]
    · simp [escapedItem, hd]
    · have hlf : d ≠ '\n' := by
        rintro rfl
        exact hd rfl
      simp [escapedItem, hd, attributeChar, hlf]

theorem attributeOfItems_escapedItem (entity : String → Nat → Option (List Char × Nat))
    (s : List Char) (count : Nat) :
    attributeOfItems false entity (s.map escapedItem) count = some (attributeChars s, count) := by
  induction s with
  | nil => rfl
  | cons c s ih =>
    rw [List.map_cons, attributeOfItems.eq_def, attributeChars]
    by_cases hc : escapeChar c = [c]
    · simp only [escapedItem, hc, if_true, Bool.false_and, Bool.false_eq_true, if_false, bind,
        Option.bind, ih]
      exact congrArg (fun o => some (o.toList ++ attributeChars s, count)) (attributeChar_next c s)
    · simp [escapedItem, hc, ih, attributeChar_of_isKept (isKept_of_escapeChar hc)]

/-- An attribute is read as what its blanks make of it. -/
theorem attributeValue_escape (s : List Char) (count : Nat) :
    attributeValue [] entityLevels (escape s) count = some (attributeChars s, count) := by
  rw [entityLevels, attributeValue, textItems_escape]
  exact attributeOfItems_escapedItem _ s count

/-! ### Character data -/

/-- What is read of character data, last character first; `asIs` as in `Builder.addItems`. -/
def textRun : List Char → Bool → List Char → List Char
  | run, _, [] => run
  | run, asIs, c :: s =>
    if escapeChar c = [c] then textRun (if asIs then c :: run else pushText run c s.isEmpty) false s
    else textRun (c :: run) true s

/-- The text that is read where a text was written. -/
def readText (s : String) : String := String.ofList (textRun [] false s.toList).reverse

theorem addItems_escapedItem (entity : String → Builder → Option Builder) (s run : List Char)
    (asIs : Bool) (b : Builder) :
    Builder.addItems false entity (s.map escapedItem) run asIs b =
      some (b.addRun (textRun run asIs s)) := by
  induction s generalizing run asIs with
  | nil => rfl
  | cons c s ih =>
    rw [List.map_cons, Builder.addItems.eq_def, textRun]
    by_cases hc : escapeChar c = [c]
    · simp [escapedItem, hc, ih]
    · simp [escapedItem, hc, ih]

theorem pushText_of_head? {run : List Char} (h : run.head? ≠ some '\r') (c : Char) (atEnd : Bool) :
    pushText run c atEnd = (if atEnd && c == '\r' then '\n' else c) :: run := by
  unfold pushText
  split
  · exact absurd rfl h
  · rfl

theorem pushText_of_ne {run : List Char} (hrun : run.head? ≠ some '\r') {c : Char} (hc : c ≠ '\r')
    (atEnd : Bool) : pushText run c atEnd = c :: run := by
  simp [pushText_of_head? hrun, hc]

theorem mem_pushText {run : List Char} {c d : Char} {atEnd : Bool}
    (h : d ∈ pushText run c atEnd) : d ∈ run ∨ d = c ∨ d = '\n' := by
  unfold pushText at h
  grind

/-- Reading makes no characters but line feeds. -/
theorem mem_textRun {s run : List Char} {asIs : Bool} {d : Char} (h : d ∈ textRun run asIs s) :
    d ∈ run ∨ d ∈ s ∨ d = '\n' := by
  induction s generalizing run asIs with
  | nil => exact .inl h
  | cons c s ih =>
    rw [textRun] at h
    split at h
    · split at h
      · grind
      · grind [mem_pushText]
    · grind

/-- Text without carriage returns is what it was written as. -/
theorem textRun_eq {s : List Char} (h : '\r' ∉ s) {run : List Char}
    (hrun : run.head? ≠ some '\r') (asIs : Bool) : textRun run asIs s = s.reverse ++ run := by
  induction s generalizing run asIs with
  | nil => rfl
  | cons c s ih =>
    obtain ⟨hc, hs⟩ := not_or.mp (mt List.mem_cons.mpr h)
    have hhead : (c :: run).head? ≠ some '\r' := fun h => hc (Option.some.inj h).symm
    have hcons : (c :: s).reverse ++ run = s.reverse ++ c :: run := by simp
    rw [textRun, pushText_of_ne hrun (Ne.symm hc), ite_self, ih hs hhead, ih hs hhead, ite_self,
      hcons]

theorem readText_eq_self {s : String} (h : '\r' ∉ s.toList) : readText s = s := by
  rw [readText, textRun_eq h (by simp), List.append_nil, List.reverse_reverse, String.ofList_toList]

/-- Text in which each line end is one line feed. -/
def lineEnds : List Char → List Char
  | [] => []
  | '\r' :: '\n' :: s => '\n' :: lineEnds s
  | '\r' :: s => '\n' :: lineEnds s
  | c :: s => c :: lineEnds s

theorem lineEnds_cons {c : Char} (hc : c ≠ '\r') (s : List Char) :
    lineEnds (c :: s) = c :: lineEnds s := by
  rw [lineEnds.eq_def]
  split <;> simp_all

theorem lineEnds_return {c : Char} (hc : c ≠ '\n') (s : List Char) :
    lineEnds ('\r' :: c :: s) = '\n' :: lineEnds (c :: s) := by
  rw [lineEnds]
  rintro d ⟨⟩
  exact hc rfl

/-- Without markup a carriage return waits for what comes after it, and is a line end then. -/
theorem textRun_eq_lineEnds {s : List Char} (h : ∀ c ∈ s, escapeChar c = [c]) (before : List Char) :
    (before.head? ≠ some '\r' → textRun before false s = (lineEnds s).reverse ++ before) ∧
      (s ≠ [] → textRun ('\r' :: before) false s = (lineEnds ('\r' :: s)).reverse ++ before) := by
  induction s generalizing before with
  | nil => exact ⟨fun _ => rfl, fun h => absurd rfl h⟩
  | cons c s ih =>
    obtain ⟨hc, hs⟩ := List.forall_mem_cons.mp h
    have hne {d : Char} (hd : d ≠ '\r') : (d :: before).head? ≠ some '\r' := by simpa using hd
    simp only [textRun, hc, if_true, Bool.false_eq_true, if_false]
    refine ⟨fun hbefore => ?_, fun _ => ?_⟩
    · by_cases hcr : c = '\r'
      · subst hcr
        have hpush (atEnd : Bool) :
            pushText before '\r' atEnd = (if atEnd then '\n' else '\r') :: before := by
          unfold pushText
          split
          · exact absurd rfl hbefore
          · simp
        cases s with
        | nil => simp [hpush, textRun, lineEnds]
        | cons d s => simp [hpush, (ih hs before).2]
      · rw [pushText_of_ne hbefore hcr, (ih hs _).1 (hne hcr), lineEnds_cons hcr]
        simp
    · by_cases hlf : c = '\n'
      · subst hlf
        have hpush (atEnd : Bool) : pushText ('\r' :: before) '\n' atEnd = '\n' :: before := by
          simp [pushText]
        rw [hpush, (ih hs _).1 (hne (by decide)), lineEnds]
        simp
      · rw [lineEnds_return hlf]
        by_cases hcr : c = '\r'
        · subst hcr
          cases s with
          | nil => simp [pushText, textRun, lineEnds]
          | cons d s =>
            have hpush : pushText ('\r' :: before) '\r' false = '\r' :: '\n' :: before := rfl
            rw [List.isEmpty_cons, hpush, (ih hs _).2 (List.cons_ne_nil _ _)]
            simp
        · have hpush (atEnd : Bool) : pushText ('\r' :: before) c atEnd = c :: '\n' :: before := by
            simp [pushText, hcr, hlf]
          rw [hpush, (ih hs _).1 (by simpa using hcr), lineEnds_cons hcr]
          simp

theorem readText_eq_lineEnds {s : String} (h : ∀ c ∈ s.toList, escapeChar c = [c]) :
    readText s = String.ofList (lineEnds s.toList) := by
  rw [readText, (textRun_eq_lineEnds h []).1 (by simp), List.append_nil, List.reverse_reverse]

theorem not_mem_lineEnds (s : List Char) : '\r' ∉ lineEnds s := by
  fun_induction lineEnds s with
  | case1 => simp
  | case2 s ih => simp [ih]
  | case3 s _ ih => simp [ih]
  | case4 c s _ hcr ih =>
    have hne : '\r' ≠ c := fun hc => hcr hc.symm
    simp [hne, ih]

end XmlBinding.Xml
