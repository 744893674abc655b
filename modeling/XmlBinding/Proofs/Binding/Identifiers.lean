import XmlBinding.Proofs.Binding.MemberNames

/-! # Names are legal

Whatever a text consists of, the name made from it consists of letters, digits and underscores and
starts like a name. It does so too with the words for functions in front and with marks and numbers
behind, so it is an identifier once the keywords among such names are marked.
-/
namespace XmlBinding.Binding
open Text Schema

/-- Letters, digits and underscores, the first of which is no digit. A lone underscore names
nothing. -/
structure IsName (name : String) : Prop where
  nonempty : name ≠ ""
  parts : ∀ c ∈ name.toList, isNamePart c = true
  start : ∀ c ∈ name.toList.head?, c.isDigit = false
  notWildcard : name ≠ "_"

instance (name : String) : Decidable (IsName name) :=
  decidable_of_iff (name ≠ "" ∧ name.toList.all isNamePart = true ∧
      name.toList.head?.all (fun c => !c.isDigit) = true ∧ name ≠ "_")
    ⟨fun h => ⟨h.1, List.all_eq_true.mp h.2.1, by simpa [Option.all_eq_true] using h.2.2.1, h.2.2.2⟩,
      fun h => ⟨h.nonempty, List.all_eq_true.mpr h.parts,
        by simpa [Option.all_eq_true] using h.start, h.notWildcard⟩⟩

/-- A name like those of types. It does not start with a small letter, as other names do. -/
structure IsTypeName (name : String) : Prop extends IsName name where
  capital : ∀ c ∈ name.toList.head?, c.isLower = false

instance (name : String) : Decidable (IsTypeName name) :=
  decidable_of_iff (name.toList.head?.all (fun c => !c.isLower) = true ∧ IsName name)
    ⟨fun h => ⟨h.2, by simpa [Option.all_eq_true] using h.1⟩,
      fun h => ⟨by simpa [Option.all_eq_true] using h.capital, h.toIsName⟩⟩

/-- An identifier of the generated language, as far as it is made of such characters: a name that is
no keyword, or one that is marked as raw. A keyword of paths cannot be marked. -/
inductive IsIdentifier : String → Prop
  | plain {name : String} (h : IsName name) (hword : name ∉ keywords) : IsIdentifier name
  | raw {name : String} (h : IsName name) (hpath : name ∉ pathKeywords) :
      IsIdentifier ("r#" ++ name)

section
variable {name s : String}

theorem IsName.append (h : IsName name) (hs : ∀ c ∈ s.toList, isNamePart c = true) :
    IsName (name ++ s) := by
  obtain ⟨c, cs, hname⟩ : ∃ c cs, name.toList = c :: cs :=
    List.exists_cons_of_ne_nil (by simpa using h.nonempty)
  constructor
  · simp [h.nonempty]
  · simpa [or_imp, forall_and] using ⟨h.parts, hs⟩
  · simpa [hname] using h.start
  · intro heq
    have hlist : c :: (cs ++ s.toList) = ['_'] := by
      simpa [hname] using congrArg String.toList heq
    have hlone : name.toList = ['_'] := by simp_all
    exact h.notWildcard (String.toList_injective hlone)

theorem isNamePart_toDigits (k : Nat) : ∀ c ∈ Nat.toDigits 10 k, isNamePart c = true := by
  intro c hc
  simp [isNamePart, Char.isAlphanum, Nat.isDigit_of_mem_toDigits (by decide) (by decide) hc]

theorem IsName.numbered (h : IsName name) (k : Nat) : IsName (numbered name k) :=
  h.append (by simpa using isNamePart_toDigits k)

theorem head?_toList_append {name : String} (h : name ≠ "") (s : String) :
    (name ++ s).toList.head? = name.toList.head? := by
  obtain ⟨c, cs, hname⟩ : ∃ c cs, name.toList = c :: cs :=
    List.exists_cons_of_ne_nil (by simpa using h)
  simp [hname]

theorem IsTypeName.append (h : IsTypeName name) (hs : ∀ c ∈ s.toList, isNamePart c = true) :
    IsTypeName (name ++ s) where
  toIsName := h.toIsName.append hs
  capital := head?_toList_append h.nonempty s ▸ h.capital

theorem IsTypeName.freeName (h : IsTypeName name) (taken : List String) :
    IsTypeName (freeName taken name) := by
  rw [Binding.freeName]
  split
  · exact h.append (by simpa using isNamePart_toDigits _)
  · exact h

theorem IsName.freeName (h : IsName name) (taken : List String) :
    IsName (freeName taken name) := by
  rw [Binding.freeName]
  split
  · exact h.numbered _
  · exact h

theorem IsName.marked (h : IsName name) : IsName (name ++ "_attr") :=
  h.append (List.all_eq_true.mp (by decide))

theorem IsName.chooseMember (h : IsName name) (taken : List String) :
    IsName (chooseMember taken name) := by
  rcases chooseMember_cases taken name with heq | heq | ⟨k, heq⟩ <;> rw [heq]
  · exact h
  · exact h.marked
  · exact h.marked.numbered k

end

/-! ## Conversions -/

theorem isDigit_of_isAlpha {c : Char} (h : c.isAlpha = true) : c.isDigit = false := by
  delta Char.isAlpha Char.isUpper Char.isLower at h
  simp only [Bool.or_eq_true, Bool.and_eq_true, decide_eq_true_eq, ge_iff_le,
    UInt32.le_iff_toNat_le] at h
  have hcapital : 'A'.val.toNat = 65 := rfl
  have hsmall : 'a'.val.toNat = 97 := rfl
  rw [Bool.eq_false_iff]
  intro hdigit
  have hlast : c.val.toNat ≤ 57 := by
    simp only [Char.isDigit, Bool.and_eq_true, decide_eq_true_eq, UInt32.le_iff_toNat_le] at hdigit
    exact hdigit.2
  omega

/-- The mark of a missing letter makes a name of what does not end in an underscore. -/
theorem isName_leadingLetter {fallback name : String} (hf : IsName fallback)
    (h : Identifier name) : IsName (leadingLetter fallback name) := by
  rw [leadingLetter]
  split
  · exact hf
  · next c cs hname =>
    have hne : name ≠ "" := by
      rintro rfl
      cases hname
    split
    · next halpha =>
      refine ⟨hne, h.parts, ?_, ?_⟩
      · simpa [hname] using isDigit_of_isAlpha halpha
      · rintro rfl
        exact h.unended (by decide)
    · refine ⟨by simp, ?_, by simp, ?_⟩
      · simpa [isNamePart] using h.parts
      · simpa using hne

theorem isName_typeName (s : String) : IsName (typeName s) :=
  isName_leadingLetter (by decide) (identifier_pascalCase _)

theorem isLower_toUpper (c : Char) : c.toUpper.isLower = false := by
  have ha : 'a'.toNat = 97 := rfl
  have hz : 'z'.toNat = 122 := rfl
  unfold Char.toUpper
  delta Char.isLower
  split
  · next hc =>
    simp only [UInt32.le_iff_toNat_le, Char.toNat_val] at hc
    simp [UInt32.le_iff_toNat_le]
    omega
  · next hc => simpa using hc

/-- Every word of a name in this style has a capital. -/
theorem capital_pascalCase (s : String) : ∀ c ∈ (pascalCase s).toList.head?, c.isLower = false := by
  rw [pascalCase, String.toList_ofList]
  induction nameWords s with
  | nil => simp
  | cons w ws ih =>
    cases w with
    | nil => simpa [capitalized] using ih
    | cons c r =>
      intro d hd
      obtain rfl : c.toUpper = d := by simpa [capitalized] using hd
      exact isLower_toUpper c

theorem isTypeName_typeName (s : String) : IsTypeName (typeName s) where
  toIsName := isName_typeName s
  capital := by
    have hcapital := capital_pascalCase (sanitize s)
    rw [typeName, leadingLetter]
    split
    · exact (by decide : IsTypeName "Unnamed").capital
    · split
      · exact hcapital
      · simp

theorem isName_memberName (s : String) : IsName (memberName s) :=
  isName_leadingLetter (by decide) (identifier_snakeCase _)

theorem isName_variantName (s : String) : IsName (variantName s) := by
  rw [variantName]
  split
  · decide
  · exact isName_leadingLetter (by decide) (identifier_pascalCase _)

theorem isName_flagName (s : String) : IsName (flagName s) := by
  rw [flagName]
  split
  · decide
  · exact isName_leadingLetter (by decide) (identifier_shoutyCase _)

theorem isTypeName_chooseName (taken : List String) (preferred : String)
    (alternative : Option String) : IsTypeName (chooseName taken preferred alternative) := by
  have hname := isTypeName_typeName preferred
  rw [chooseName]
  split
  · exact hname
  · split
    · exact hname.freeName taken
    · next other hother =>
      obtain ⟨s, -, rfl⟩ := Option.map_eq_some_iff.mp hother
      split
      · exact hname.freeName taken
      · exact isTypeName_typeName s

section
variable {convert : String → String} {number : Nat → Nat}

theorem isName_literalMembers (hconvert : ∀ s, IsName (convert s)) (taken : List String) (i : Nat)
    (fs : List Facet) : ∀ m ∈ literalMembers convert number taken i fs, IsName m.name := by
  induction fs generalizing taken i with
  | nil => nofun
  | cons f fs ih =>
    exact List.forall_mem_cons.mpr ⟨(hconvert f.value).freeName taken, ih _ _⟩

end

theorem Enumeration.isName_members (e : Enumeration) : ∀ m ∈ e.members, IsName m.name := by
  rw [members]
  split
  · have hsentinels : ∀ m ∈ [illegalMember, notSetMember], IsName m.name := by decide
    exact List.forall_mem_append.mpr ⟨hsentinels, isName_literalMembers isName_variantName _ _ _⟩
  · have hsentinel : ∀ m ∈ [emptyMember], IsName m.name := by decide
    exact List.forall_mem_append.mpr ⟨hsentinel, isName_literalMembers isName_flagName _ _ _⟩

/-- The names made from a text. -/
def conversions (s : String) : List String :=
  [typeName s, memberName s, variantName s, flagName s]

/-- What stands in front of a name in the names of functions. -/
def fronts : List String := ["", "set_", "parse_", "try_parse_"]

/-- What stands behind a name that is not free as it is. -/
def endings (k : Nat) : List String :=
  ["", numbered "" k, "_attr", numbered "_attr" k]

theorem isName_of_mem_conversions {s name : String} (h : name ∈ conversions s) : IsName name := by
  have hall : ∀ name ∈ conversions s, IsName name := by
    simp [conversions, isName_typeName, isName_memberName, isName_variantName, isName_flagName]
  exact hall name h

section
variable {name before after : String} {k : Nat}

theorem isName_front (h : before ∈ fronts) (hne : before ≠ "") : IsName before := by
  have hall : ∀ before ∈ fronts, before ≠ "" → IsName before := by decide
  exact hall before h hne

theorem isNamePart_ending (h : after ∈ endings k) : ∀ c ∈ after.toList, isNamePart c = true := by
  have hattr : ∀ c ∈ "_attr".toList, isNamePart c = true := List.all_eq_true.mp (by decide)
  have hdigits := isNamePart_toDigits k
  simp only [endings, List.mem_cons, List.not_mem_nil, or_false] at h
  rcases h with rfl | rfl | rfl | rfl
  · simp
  · simpa [numbered] using hdigits
  · exact hattr
  · intro c hc
    rw [numbered, String.toList_append, List.mem_append] at hc
    exact hc.elim (hattr c) fun hc => hdigits c (by simpa using hc)

theorem IsName.around (h : IsName name) (hbefore : before ∈ fronts) (hafter : after ∈ endings k) :
    IsName (before ++ name ++ after) := by
  refine IsName.append ?_ (isNamePart_ending hafter)
  by_cases hne : before = ""
  · simpa [hne] using h
  · exact (isName_front hbefore hne).append h.parts

end

/-! ## Identifiers -/

/-- Keywords of paths get an underscore, other keywords a mark. -/
theorem IsName.isIdentifier_written {name : String} (h : IsName name) :
    IsIdentifier (written name) := by
  have hended : ∀ word ∈ pathKeywords, word ++ "_" ∉ keywords := by decide
  unfold written
  split
  · next hpath =>
    have hname : IsName (name ++ "_") := h.append (List.all_eq_true.mp (by decide))
    exact .plain hname (hended name (by simpa using hpath))
  · next hpath =>
    split
    · exact .raw h (by simpa using hpath)
    · next hword => exact .plain h (by simp_all)

/-- No keyword has an underscore. -/
theorem IsName.isIdentifier {name : String} (h : IsName name) (hmem : '_' ∈ name.toList) :
    IsIdentifier name := by
  have hkeywords : ∀ word ∈ keywords, '_' ∉ word.toList := by decide
  exact .plain h fun hword => hkeywords name hword hmem

theorem isIdentifier_front {before name : String} (h : IsName name) (hbefore : before ∈ fronts)
    (hne : before ≠ "") : IsIdentifier (before ++ name) := by
  have hfronts : ∀ before ∈ fronts, before ≠ "" → '_' ∈ before.toList := by decide
  have hmem : '_' ∈ (before ++ name).toList := by
    rw [String.toList_append]
    exact List.mem_append_left _ (hfronts before hbefore hne)
  exact ((isName_front hbefore hne).append h.parts).isIdentifier hmem

theorem isIdentifier_of_mem_modulePath {path name : String} (h : name ∈ modulePath path) :
    IsIdentifier name := by
  obtain ⟨s, -, rfl⟩ := List.mem_map.mp h
  exact (isName_memberName s).isIdentifier_written

end XmlBinding.Binding
