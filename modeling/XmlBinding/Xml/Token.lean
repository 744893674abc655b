import XmlBinding.Xml.Char
/-!
# Tokens of XML text

A reader takes a prefix off a list of characters and leaves the rest; it fails where the text is
not well-formed. Tokens are read up to the end tag that closes the first element, without a look at
references or prefixes, which depend on declarations.
-/
namespace XmlBinding.Xml

abbrev Reader (α : Type) := List Char → Option (α × List Char)

structure RawAttribute where
  pfx : String
  localName : String
  value : List Char
deriving DecidableEq, Repr

inductive Token where
  | start (pfx localName : String) (attributes : List RawAttribute) (empty : Bool)
  | close (pfx localName : String)
  | text (raw : List Char)
  | literal (raw : List Char)
  | comment (value : String)
  | instruction (target value : String)
deriving DecidableEq, Repr

/-- How many elements are open after the token when `depth` were open before. -/
def Token.depthAfter (depth : Nat) : Token → Nat
  | .start _ _ _ empty => if empty then depth else depth + 1
  | .close .. => depth - 1
  | _ => depth

def skipSpaces (s : List Char) : List Char :=
  s.dropWhile isSpace

theorem length_dropWhile_le {α : Type} (p : α → Bool) (s : List α) :
    (s.dropWhile p).length ≤ s.length :=
  (List.dropWhile_suffix p).length_le

theorem length_skipSpaces_le (s : List Char) : (skipSpaces s).length ≤ s.length :=
  length_dropWhile_le ..

/-- The characters `pre` and nothing else. -/
def expect (pre : List Char) : List Char → Option (List Char)
  | s => if pre.isPrefixOf s then some (s.drop pre.length) else none

theorem length_of_expect {pre s r : List Char} (h : expect pre s = some r) :
    r.length + pre.length = s.length := by
  simp only [expect, Option.ite_none_right_eq_some, Option.some.injEq] at h
  obtain ⟨hp, rfl⟩ := h
  have := (List.isPrefixOf_iff_prefix.mp hp).length_le
  simp only [List.length_drop]
  omega

/-- Characters of a document up to where `stop` holds of what follows, or to the end. -/
def spanChars (stop : List Char → Bool) : Reader (List Char)
  | [] => some ([], [])
  | c :: r =>
    if !isXmlChar c then none
    else if stop (c :: r) then some ([], c :: r)
    else do
      let (run, rest) ← spanChars stop r
      some (c :: run, rest)

theorem length_spanChars_le {stop : List Char → Bool} {s run rest : List Char}
    (h : spanChars stop s = some (run, rest)) : rest.length ≤ s.length := by
  induction s generalizing run rest with
  | nil => simp_all [spanChars]
  | cons c r ih =>
    simp only [spanChars] at h
    split at h
    · cases h
    · split at h
      · simp_all
      · simp only [bind, Option.bind_eq_some_iff, Prod.exists, Option.some.injEq,
          Prod.mk.injEq] at h
        obtain ⟨run', rest', hr, -, rfl⟩ := h
        exact Nat.le_succ_of_le (ih hr)

/-- A name, in which colons have no meaning. -/
def takeName : Reader String
  | [] => none
  | c :: r =>
    if isNameStart c then
      some (String.ofList (c :: r.takeWhile isNameChar), r.dropWhile isNameChar)
    else none

theorem length_of_takeName {s r : List Char} {n : String} (h : takeName s = some (n, r)) :
    r.length < s.length := by
  cases s with
  | nil => cases h
  | cons c s =>
    simp only [takeName, Option.ite_none_right_eq_some, Option.some.injEq, Prod.mk.injEq] at h
    obtain ⟨-, -, rfl⟩ := h
    exact Nat.lt_succ_of_le (length_dropWhile_le ..)

/-- Cuts a qualified name at its colon; each part starts like a name, and only the part before
the colon may be missing. -/
def splitQualified (name : List Char) : Option (String × String) :=
  let pfx := if ':' ∈ name then name.takeWhile (· != ':') else []
  let localName := if ':' ∈ name then (name.dropWhile (· != ':')).drop 1 else name
  if ':' ∈ localName || !pfx.head?.all isNameStart || !localName.head?.any isNameStart then none
  else some (String.ofList pfx, String.ofList localName)

def takeQualified (s : List Char) : Option ((String × String) × List Char) := do
  let name ← splitQualified (s.takeWhile isNameChar)
  some (name, s.dropWhile isNameChar)

theorem length_takeQualified_le {s r : List Char} {n : String × String}
    (h : takeQualified s = some (n, r)) : r.length ≤ s.length := by
  simp only [takeQualified, bind, Option.bind_eq_some_iff, Option.some.injEq,
    Prod.mk.injEq] at h
  obtain ⟨_, -, -, rfl⟩ := h
  exact length_dropWhile_le ..

/-- An opening quotation mark of either kind. -/
def takeQuote : Reader Char
  | '"' :: r => some ('"', r)
  | '\'' :: r => some ('\'', r)
  | _ => none

/-- The rest of a quoted attribute value; it holds no `<`. -/
def takeValue (quote : Char) (s : List Char) : Option (List Char × List Char) := do
  let (value, rest) ← spanChars (fun s => s.head? == some quote || s.head? == some '<') s
  let rest ← expect [quote] rest
  some (value, rest)

def takeAttribute (s : List Char) : Option (RawAttribute × List Char) := do
  let (name, rest) ← takeQualified s
  let rest ← expect ['='] (skipSpaces rest)
  let (quote, rest) ← takeQuote (skipSpaces rest)
  let (value, rest) ← takeValue quote rest
  some (⟨name.1, name.2, value⟩, rest)

theorem length_of_takeQuote {s r : List Char} {q : Char} (h : takeQuote s = some (q, r)) :
    r.length < s.length := by
  unfold takeQuote at h
  split at h <;> simp_all

theorem length_of_takeValue {s v r : List Char} {q : Char} (h : takeValue q s = some (v, r)) :
    r.length < s.length := by
  simp only [takeValue, bind, Option.bind_eq_some_iff, Prod.exists, Option.some.injEq,
    Prod.mk.injEq] at h
  obtain ⟨_, r', h1, r'', h2, _, rfl⟩ := h
  have := length_spanChars_le h1
  have := length_of_expect h2
  simp at this
  omega

theorem length_of_takeAttribute {s r : List Char} {a : RawAttribute}
    (h : takeAttribute s = some (a, r)) : r.length < s.length := by
  simp only [takeAttribute, bind, Option.bind_eq_some_iff, Prod.exists, Option.some.injEq,
    Prod.mk.injEq] at h
  obtain ⟨_, _, r1, h1, r2, h2, q, r3, h3, v, r4, h4, _, rfl⟩ := h
  have := length_takeQualified_le h1
  have := length_of_expect h2
  have := length_of_takeQuote h3
  have := length_of_takeValue h4
  have := length_skipSpaces_le r1
  have := length_skipSpaces_le r2
  omega

/-- Attributes, each after blanks, up to the end of a start tag or of an empty tag. -/
def takeAttributes (s : List Char) : Option ((List RawAttribute × Bool) × List Char) :=
  match skipSpaces s with
  | '>' :: r => some (([], false), r)
  | '/' :: '>' :: r => some (([], true), r)
  | _ =>
    if s.head?.any isSpace then
      match h : takeAttribute (skipSpaces s) with
      | none => none
      | some (a, rest) =>
        have := Nat.lt_of_lt_of_le (length_of_takeAttribute h) (length_skipSpaces_le s)
        (takeAttributes rest).map fun ((as, empty), rest) => ((a :: as, empty), rest)
    else none
termination_by s.length

theorem length_of_takeAttributes {s r : List Char} {a : List RawAttribute × Bool}
    (h : takeAttributes s = some (a, r)) : r.length < s.length := by
  fun_induction takeAttributes s generalizing a r with
  | case1 s r' hs =>
    have hle := length_skipSpaces_le s
    rw [hs, List.length_cons] at hle
    cases h
    omega
  | case2 s r' hs =>
    have hle := length_skipSpaces_le s
    rw [hs, List.length_cons, List.length_cons] at hle
    cases h
    omega
  | case3 => cases h
  | case4 s _ _ _ a' rest ha hlt ih =>
    simp only [Option.map_eq_some_iff, Prod.exists, Prod.mk.injEq] at h
    obtain ⟨as, e, r'', hr, -, rfl⟩ := h
    have := ih hr
    omega
  | case5 => cases h

/-- What follows `<`: a name, attributes, and the end of the tag. -/
def takeStart (s : List Char) : Option (Token × List Char) := do
  let (name, rest) ← takeQualified s
  let ((attributes, empty), rest) ← takeAttributes rest
  some (.start name.1 name.2 attributes empty, rest)

/-- What follows `</`. -/
def takeClose (s : List Char) : Option (Token × List Char) := do
  let (name, rest) ← takeQualified s
  let rest ← expect ['>'] (skipSpaces rest)
  some (.close name.1 name.2, rest)

def hasDoubleHyphen : List Char → Bool
  | '-' :: '-' :: _ => true
  | _ :: r => hasDoubleHyphen r
  | [] => false

/-- What follows `<!--`; no two hyphens stand together before the end. -/
def takeComment (s : List Char) : Option (Token × List Char) := do
  let (value, rest) ← spanChars ("-->".toList.isPrefixOf ·) s
  let rest ← expect "-->".toList rest
  if hasDoubleHyphen value || value.getLast? == some '-' then none
  else some (.comment (String.ofList value), rest)

/-- What follows `<?`; a declaration is no instruction. -/
def takeInstruction (s : List Char) : Option (Token × List Char) :=
  if "xml ".toList.isPrefixOf s then none
  else do
    let (target, rest) ← takeName s
    let (value, rest) ← spanChars ("?>".toList.isPrefixOf ·) (skipSpaces rest)
    let rest ← expect "?>".toList rest
    some (.instruction target (String.ofList value), rest)

/-- What follows `<![CDATA[`. -/
def takeLiteral (s : List Char) : Option (Token × List Char) := do
  let (value, rest) ← spanChars ("]]>".toList.isPrefixOf ·) s
  let rest ← expect "]]>".toList rest
  some (.literal value, rest)

def hasLiteralEnd : List Char → Bool
  | ']' :: ']' :: '>' :: _ => true
  | _ :: r => hasLiteralEnd r
  | [] => false

/-- Character data up to the next markup. -/
def takeText (s : List Char) : Option (Token × List Char) := do
  let (value, rest) ← spanChars (·.head? == some '<') s
  if hasLiteralEnd value then none else some (.text value, rest)

/-- One token of the content of an element. -/
def takeToken (s : List Char) : Option (Token × List Char) :=
  if let some r := expect "<!--".toList s then takeComment r
  else if let some r := expect "<![CDATA[".toList s then takeLiteral r
  else if let some r := expect "<?".toList s then takeInstruction r
  else if let some r := expect "</".toList s then takeClose r
  else if let some r := expect "<".toList s then takeStart r
  else takeText s

theorem length_takeStart_le {s r : List Char} {t : Token} (h : takeStart s = some (t, r)) :
    r.length ≤ s.length := by
  simp only [takeStart, bind, Option.bind_eq_some_iff, Prod.exists, Option.some.injEq,
    Prod.mk.injEq] at h
  obtain ⟨_, _, r1, h1, _, _, r2, h2, -, rfl⟩ := h
  have := length_takeQualified_le h1
  have := length_of_takeAttributes h2
  omega

theorem length_takeClose_le {s r : List Char} {t : Token} (h : takeClose s = some (t, r)) :
    r.length ≤ s.length := by
  simp only [takeClose, bind, Option.bind_eq_some_iff, Prod.exists, Option.some.injEq,
    Prod.mk.injEq] at h
  obtain ⟨_, _, r1, h1, r2, h2, -, rfl⟩ := h
  have := length_takeQualified_le h1
  have := length_of_expect h2
  have := length_skipSpaces_le r1
  omega

theorem length_takeComment_le {s r : List Char} {t : Token} (h : takeComment s = some (t, r)) :
    r.length ≤ s.length := by
  simp only [takeComment, bind, Option.bind_eq_some_iff, Prod.exists,
    Option.ite_none_left_eq_some, Option.some.injEq, Prod.mk.injEq] at h
  obtain ⟨_, r1, h1, r2, h2, -, -, rfl⟩ := h
  have := length_spanChars_le h1
  have := length_of_expect h2
  omega

theorem length_takeInstruction_le {s r : List Char} {t : Token}
    (h : takeInstruction s = some (t, r)) : r.length ≤ s.length := by
  simp only [takeInstruction, bind, Option.bind_eq_some_iff, Prod.exists,
    Option.ite_none_left_eq_some, Option.some.injEq, Prod.mk.injEq] at h
  obtain ⟨-, _, r1, h1, _, r2, h2, r3, h3, -, rfl⟩ := h
  have := length_of_takeName h1
  have := length_skipSpaces_le r1
  have := length_spanChars_le h2
  have := length_of_expect h3
  omega

theorem length_takeLiteral_le {s r : List Char} {t : Token} (h : takeLiteral s = some (t, r)) :
    r.length ≤ s.length := by
  simp only [takeLiteral, bind, Option.bind_eq_some_iff, Prod.exists, Option.some.injEq,
    Prod.mk.injEq] at h
  obtain ⟨_, r1, h1, r2, h2, -, rfl⟩ := h
  have := length_spanChars_le h1
  have := length_of_expect h2
  omega

theorem length_of_takeText {c : Char} {s r : List Char} {t : Token}
    (hc : c ≠ '<') (h : takeText (c :: s) = some (t, r)) : r.length < (c :: s).length := by
  simp only [takeText, spanChars, bind, Option.bind_eq_some_iff, Prod.exists, List.head?_cons,
    beq_iff_eq, Option.some.injEq, hc, if_false, Option.ite_none_left_eq_some, Prod.mk.injEq] at h
  obtain ⟨_, r1, ⟨-, _, r2, h2, -, rfl⟩, -, -, rfl⟩ := h
  have := length_spanChars_le h2
  simp only [List.length_cons]
  omega

/-- Every token takes at least one character. -/
theorem length_of_takeToken {s r : List Char} {t : Token} (hs : s ≠ [])
    (h : takeToken s = some (t, r)) : r.length < s.length := by
  unfold takeToken at h
  split at h
  · have := length_takeComment_le h
    have := length_of_expect ‹_›
    simp at this
    omega
  · split at h
    · have := length_takeLiteral_le h
      have := length_of_expect ‹_›
      simp at this
      omega
    · split at h
      · have := length_takeInstruction_le h
        have := length_of_expect ‹_›
        simp at this
        omega
      · split at h
        · have := length_takeClose_le h
          have := length_of_expect ‹_›
          simp at this
          omega
        · split at h
          · have := length_takeStart_le h
            have := length_of_expect ‹_›
            simp at this
            omega
          · cases s with
            | nil => exact absurd rfl hs
            | cons c s =>
              refine length_of_takeText ?_ h
              rintro rfl
              simp_all [expect]

/-- The tokens up to the end tag that closes the last of `depth` open elements, or to the end. -/
def takeTokens (depth : Nat) (s : List Char) : Option (List Token × List Char) :=
  if depth = 0 then some ([], s)
  else if hs : s = [] then some ([], [])
  else
    match h : takeToken s with
    | none => none
    | some (t, rest) =>
      have := length_of_takeToken hs h
      (takeTokens (t.depthAfter depth) rest).map fun (ts, rest) => (t :: ts, rest)
termination_by s.length

end XmlBinding.Xml
