import XmlBinding.Proofs.Binding.Freshness
import XmlBinding.Proofs.Binding.Literals

/-! # Members of enumerations

The names of the members of an enumeration are different, and remain so as they are written. The
literals take the first free names, of which none is a sentinel's.
-/
namespace XmlBinding.Text

/-- Words of a name are made of letters and digits. -/
theorem isAlphanum_of_mem_nameWords {s : String} {word : List Char} (hword : word ∈ nameWords s) :
    ∀ c ∈ word, c.isAlphanum = true := by
  obtain ⟨run, hrun, hword⟩ := List.mem_flatMap.mp hword
  have hflatten : (cutRun .neither [] run).flatten = run := cutRun_flatten _ _ _
  exact fun c hc => isAlphanum_of_mem_alphanumericRuns _ run hrun c
    (hflatten ▸ List.mem_flatten_of_mem hword hc)

theorem nil_notMem_cutRun {mode : LetterCase} {word r : List Char} (h : word ≠ [] ∨ r ≠ [])
    (hmode : mode = .capital → word ≠ []) : [] ∉ cutRun mode word r := by
  fun_induction cutRun mode word r with
  | case1 => simpa using h
  | case2 => simp
  | case3 mode word c next r hcut ih => simpa using ih
  | case4 mode word c next r hno hcut ih => simpa [hmode hcut.1] using ih
  | case5 mode word c next r hno hno' ih => simpa using ih

theorem nil_notMem_alphanumericRuns (s : List Char) : [] ∉ alphanumericRuns s := by
  fun_induction alphanumericRuns s <;> simp_all

theorem nil_notMem_nameWords (s : String) : [] ∉ nameWords s := by
  intro h
  obtain ⟨run, hrun, hword⟩ := List.mem_flatMap.mp h
  have hne : run ≠ [] := by
    rintro rfl
    exact nil_notMem_alphanumericRuns _ hrun
  exact nil_notMem_cutRun (.inr hne) (by simp) hword

end XmlBinding.Text

namespace XmlBinding.Binding
open Schema Text

def isNamePart (c : Char) : Bool := c.isAlphanum || c == '_'

/-- What conversion makes: letters, digits and underscores, of which none is at the end. -/
structure Identifier (name : String) : Prop where
  parts : ∀ c ∈ name.toList, isNamePart c = true
  unended : name.toList.getLast? ≠ some '_'

instance (name : String) : Decidable (Identifier name) :=
  decidable_of_iff (name.toList.all isNamePart = true ∧ name.toList.getLast? ≠ some '_')
    ⟨fun h => ⟨List.all_eq_true.mp h.1, h.2⟩, fun h => ⟨List.all_eq_true.mpr h.parts, h.unended⟩⟩

theorem Identifier.plain {name : String} (h : Identifier name) : Plain name where
  unmarked hmem := absurd (h.parts _ hmem) (by decide)
  unended := h.unended

/-- Letters and digits at the end make no difference. -/
theorem Identifier.append {name : String} {s : List Char} (h : Identifier name)
    (hs : ∀ c ∈ s, c.isAlphanum = true) : Identifier (name ++ String.ofList s) := by
  constructor
  · simp only [String.toList_append, String.toList_ofList, List.mem_append]
    rintro c (hc | hc)
    · exact h.parts c hc
    · simp [isNamePart, hs c hc]
  · rw [String.toList_append, String.toList_ofList]
    by_cases hne : s = []
    · simpa [hne] using h.unended
    · rw [List.getLast?_append_of_ne_nil _ hne]
      exact fun hlast => absurd (hs _ (List.mem_of_getLast? hlast)) (by decide)

theorem Identifier.numbered {name : String} (h : Identifier name) (k : Nat) :
    Identifier (numbered name k) :=
  h.append fun c hc => by
    simp [Char.isAlphanum, Nat.isDigit_of_mem_toDigits (by decide) (by decide) hc]

theorem Identifier.freeName {name : String} (h : Identifier name) (taken : List String) :
    Identifier (freeName taken name) := by
  rw [Binding.freeName]
  split
  · exact h.numbered _
  · exact h

theorem Identifier.leadingLetter {name fallback : String} (h : Identifier name)
    (hf : Identifier fallback) : Identifier (leadingLetter fallback name) := by
  rw [Binding.leadingLetter]
  split
  · exact hf
  · next c cs hname =>
    split
    · exact h
    · constructor
      · simpa [isNamePart] using h.parts
      · have := h.unended
        simp_all [List.getLast?_cons]

theorem identifier_pascalCase (s : String) : Identifier (pascalCase s) := by
  have hempty : Identifier "" := by decide
  have happend := hempty.append (isAlphanum_pascalCase s)
  rwa [String.ofList_toList, String.empty_append] at happend

/-- Words that are joined by underscores end in a letter or a digit. -/
theorem identifier_intercalate {words : List (List Char)}
    (h : ∀ w ∈ words, w ≠ [] ∧ ∀ c ∈ w, c.isAlphanum = true) :
    Identifier (String.ofList (List.intercalate ['_'] words)) := by
  have hempty : Identifier "" := by decide
  induction words with
  | nil => exact hempty
  | cons w words ih =>
    obtain ⟨⟨-, hw⟩, hwords⟩ := List.forall_mem_cons.mp h
    have hname := hempty.append hw
    rw [String.empty_append] at hname
    cases words with
    | nil => simpa using hname
    | cons v words =>
      have hrest : List.intercalate ['_'] (v :: words) ≠ [] := by
        have hv : v ≠ [] := (h v (by simp)).1
        cases words <;> simp [hv]
      have ih := ih hwords
      constructor
      · have hw := hname.parts
        have hrest := ih.parts
        simp only [String.toList_ofList, List.intercalate_cons_cons, List.mem_append] at hw hrest ⊢
        rintro c ((hc | hc) | hc)
        · exact hw c hc
        · simp_all [isNamePart]
        · exact hrest c hc
      · have hlast := ih.unended
        rw [String.toList_ofList] at hlast
        rwa [String.toList_ofList, List.intercalate_cons_cons,
          List.getLast?_append_of_ne_nil _ hrest]

theorem identifier_shoutyCase (s : String) : Identifier (shoutyCase s) := by
  refine identifier_intercalate fun word hword => ?_
  obtain ⟨w, hw, rfl⟩ := List.mem_map.mp hword
  constructor
  · rintro hnil
    exact nil_notMem_nameWords s (List.map_eq_nil_iff.mp hnil ▸ hw)
  · simp only [List.mem_map]
    rintro c ⟨d, hd, rfl⟩
    exact isAlphanum_toUpper (isAlphanum_of_mem_nameWords hw d hd)

theorem identifier_variantName (literal : String) : Identifier (variantName literal) := by
  rw [variantName]
  split
  · decide
  · exact (identifier_pascalCase _).leadingLetter (by decide)

theorem identifier_flagName (literal : String) : Identifier (flagName literal) := by
  rw [flagName]
  split
  · decide
  · exact (identifier_shoutyCase _).leadingLetter (by decide)

section
variable {convert : String → String} {number : Nat → Nat} {taken : List String} {i : Nat}
  {fs : List Facet}

theorem identifier_literalMembers (hconvert : ∀ s, Identifier (convert s)) :
    ∀ m ∈ literalMembers convert number taken i fs, Identifier m.name ∧ m.name ∉ taken := by
  induction fs generalizing taken i with
  | nil => nofun
  | cons f fs ih =>
    have hname := hconvert f.value
    refine List.forall_mem_cons.mpr ⟨⟨hname.freeName taken, ?_⟩, fun m hm => ?_⟩
    · exact (available_freeName taken hname.plain).new
    · obtain ⟨hm, hnew⟩ := ih m hm
      exact ⟨hm, fun htaken => hnew (List.mem_cons_of_mem _ htaken)⟩

theorem nodup_literalMembers (hconvert : ∀ s, Identifier (convert s)) :
    ((literalMembers convert number taken i fs).map (·.name)).Nodup := by
  induction fs generalizing taken i with
  | nil => exact List.nodup_nil
  | cons f fs ih =>
    rw [literalMembers, List.map_cons, List.nodup_cons]
    constructor
    · rw [List.mem_map]
      rintro ⟨m, hm, hname⟩
      exact (identifier_literalMembers hconvert m hm).2 (hname ▸ List.mem_cons_self)
    · exact ih

/-- Literals are named differently from the members before them. -/
theorem nodup_append_literalMembers {sentinels : List Member}
    (hs : (sentinels.map (·.name)).Nodup) (hconvert : ∀ s, Identifier (convert s)) :
    ((sentinels ++ literalMembers convert number (sentinels.map (·.name)) i fs).map
      (·.name)).Nodup := by
  rw [List.map_append, List.nodup_append]
  refine ⟨hs, nodup_literalMembers hconvert, fun name hname other hother => ?_⟩
  obtain ⟨m, hm, rfl⟩ := List.mem_map.mp hother
  rintro rfl
  exact (identifier_literalMembers hconvert m hm).2 hname

end

theorem Symbol.text?_eq_some {s : Symbol} {v : String} : s.text? = some v ↔ s = .literal v := by
  cases s <;> simp [text?]

theorem symbols_literalMembers (convert : String → String) (number : Nat → Nat)
    (taken : List String) (i : Nat) (fs : List Facet) :
    (literalMembers convert number taken i fs).map (·.symbol) = fs.map (.literal ·.value) := by
  induction fs generalizing taken i with
  | nil => rfl
  | cons f fs ih => rw [literalMembers, List.map_cons, List.map_cons, ih]

theorem exists_literal_of_mem {convert : String → String} {number : Nat → Nat}
    {taken : List String} {i : Nat} {fs : List Facet} {m : Member}
    (hm : m ∈ literalMembers convert number taken i fs) : ∃ s, m.symbol = .literal s := by
  have hmem := List.mem_map_of_mem (f := Member.symbol) hm
  rw [symbols_literalMembers, List.mem_map] at hmem
  obtain ⟨f, -, hf⟩ := hmem
  exact ⟨f.value, hf.symm⟩

namespace Enumeration

/-- Literals are told apart by their texts, and from the sentinels. -/
theorem nodup_symbols {e : Enumeration} (h : e.Distinct) : (e.members.map (·.symbol)).Nodup := by
  have hliterals : (e.literals.map fun f => Symbol.literal f.value).Nodup := by
    have hnodup := List.Nodup.map (f := Symbol.literal) (fun _ _ => Symbol.literal.inj) h
    rwa [List.map_map] at hnodup
  rw [members]
  split
  · simp [symbols_literalMembers, illegalMember, notSetMember, hliterals]
  · simp [symbols_literalMembers, emptyMember, hliterals]

theorem exists_member {e : Enumeration} {s : String} :
    (∃ m ∈ e.members, m.symbol = .literal s) ↔ s ∈ e.literals.map (·.value) := by
  have hmem : Symbol.literal s ∈ e.members.map (·.symbol) ↔ s ∈ e.literals.map (·.value) := by
    rw [members]
    split
    · simp [symbols_literalMembers, illegalMember, notSetMember]
    · simp [symbols_literalMembers, emptyMember]
  rwa [List.mem_map] at hmem

theorem identifier_members (e : Enumeration) : ∀ m ∈ e.members, Identifier m.name := by
  rw [members]
  split
  · simp only [List.forall_mem_cons]
    exact ⟨by decide, by decide, fun m hm =>
      (identifier_literalMembers identifier_variantName m hm).1⟩
  · simp only [List.forall_mem_cons]
    exact ⟨by decide, fun m hm => (identifier_literalMembers identifier_flagName m hm).1⟩

theorem nodup_members (e : Enumeration) : (e.members.map (·.name)).Nodup := by
  rw [members]
  split
  · have hsentinels : ([illegalMember, notSetMember].map (·.name)).Nodup := by decide
    exact nodup_append_literalMembers hsentinels identifier_variantName
  · have hsentinel : ([emptyMember].map (·.name)).Nodup := by decide
    exact nodup_append_literalMembers hsentinel identifier_flagName

/-- The members of an enumeration are told apart by their names as they are written. -/
theorem nodup_written_members (e : Enumeration) :
    (e.members.map fun m => written m.name).Nodup := by
  have hnodup := e.nodup_members.map_on (f := written) ?_
  · rwa [List.map_map] at hnodup
  · simp only [List.mem_map]
    rintro _ ⟨m, hm, rfl⟩ _ ⟨m', hm', rfl⟩ h
    exact (e.identifier_members m hm).plain.written_inj (e.identifier_members m' hm').plain h

end Enumeration

end XmlBinding.Binding
