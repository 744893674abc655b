import XmlBinding.Proofs.Schema.Prefixes
import XmlBinding.Proofs.Text.Blanks

/-! # Blanks around the values of attributes

Numbers, truth values and lists of names are read without the blanks around them. Single names are
not: a name keeps its blanks, so it is not found or refers to another component. Nor is the word
`unbounded`, which with blanks around it is taken for a number.
-/
namespace XmlBinding.Schema
open Text Xml Value

/-- A text and the same text with blanks around it. -/
inductive Padded (s : String) : String → Prop
  | intro (left right : String) (hl : ∀ c ∈ left.toList, isSpace c = true)
      (hr : ∀ c ∈ right.toList, isSpace c = true) : Padded s (left ++ s ++ right)

/-- Attributes that differ only in blanks around their values. Inside of an annotation any attribute
may differ so. -/
inductive AttributePadded (P : String → String → Prop) : Bool → Attribute → Attribute → Prop
  | same {remark : Bool} (a : Attribute) : AttributePadded P remark a a
  | padded {remark : Bool} {name v v' : String} (hname : remark = true ∨ P name v)
      (h : Padded v v') : AttributePadded P remark ⟨⟨none, name⟩, v⟩ ⟨⟨none, name⟩, v'⟩

/-- How documents differ that are the same but for blanks around the values of such attributes. -/
def otherBlanks (P : String → String → Prop) : Likeness where
  name := Eq
  scope := Eq
  attributes remark _ _ := AttributePadded P remark

/-- Attributes of which every value is read without blanks around it. -/
def trimmedAttributes : List String := ["minOccurs", "abstract", "mixed", "memberTypes"]

/-- Numbers but `unbounded`, truth values and lists of names. -/
def IsTrimmed (name value : String) : Prop :=
  name ∈ trimmedAttributes ∨
    name = "maxOccurs" ∧ value ≠ "unbounded"

/-- Attributes of types that collapse blanks. -/
def IsCollapsed (name _value : String) : Prop :=
  name ∈ ["minOccurs", "maxOccurs", "abstract", "mixed"] ++ nameAttributes

/-- The same error, but for blanks around the value that it quotes. -/
inductive SameFault : SchemaError → SchemaError → Prop
  | same (x : SchemaError) : SameFault x x
  | value (element attr : String) {v v' : String} (fault : AttributeFault) (h : Padded v v') :
      SameFault (.invalidAttribute element attr v fault) (.invalidAttribute element attr v' fault)

section
variable {s s' v v' name : String} {scope scope' : Scope} {n : ExpandedName}
  {P : String → String → Prop}

theorem Padded.refl (s : String) : Padded s s := by
  have h : Padded s ("" ++ s ++ "") := .intro "" "" (by simp) (by simp)
  simpa using h

theorem padded_of_all (left right : String) (hl : left.toList.all isSpace = true)
    (hr : right.toList.all isSpace = true) : Padded s (left ++ s ++ right) :=
  .intro left right (List.all_eq_true.mp hl) (List.all_eq_true.mp hr)

theorem not_isSpace_of_all (h : s.toList.all (fun c => !isSpace c) = true) :
    ∀ c ∈ s.toList, isSpace c = false := by
  simpa using h

theorem isAsciiBlank_of_isSpace {c : Char} (h : isSpace c = true) : isAsciiBlank c = true := by
  simp only [isSpace, Bool.or_eq_true, beq_iff_eq] at h
  rcases h with ((rfl | rfl) | rfl) | rfl <;> decide

theorem Padded.asciiWords_eq (h : Padded s s') : asciiWords s' = asciiWords s := by
  obtain ⟨left, right, hl, hr⟩ := h
  unfold asciiWords
  rw [String.toList_append, String.toList_append, List.append_assoc, wordsBy_around _
    (fun c hc => isAsciiBlank_of_isSpace (hl c hc)) fun c hc => isAsciiBlank_of_isSpace (hr c hc)]

theorem Padded.trimList_eq (h : Padded s s') : trimList s'.toList = trimList s.toList := by
  obtain ⟨left, right, hl, hr⟩ := h
  have hblank {c : Char} (hc : isSpace c = true) : isBlank c = true :=
    isBlank_of_isAsciiBlank (isAsciiBlank_of_isSpace hc)
  rw [String.toList_append, String.toList_append, List.append_assoc,
    trimList_around _ (fun c hc => hblank (hl c hc)) fun c hc => hblank (hr c hc)]

theorem Padded.convertBool_eq (h : Padded s s') : convertBool s' = convertBool s := by
  unfold convertBool trim
  rw [h.trimList_eq]

theorem Padded.convertCount_eq (h : Padded s s') : convertCount s' = convertCount s := by
  unfold convertCount IntegerType.read
  rw [h.trimList_eq]

theorem padded_of_values (h : (otherBlanks P).Values name scope scope' v v') : Padded v v' := by
  obtain ⟨-, h⟩ := h
  cases h with
  | same => exact .refl v
  | padded _ h => exact h

theorem not_isTrimmed (h : name ∉ "maxOccurs" :: trimmedAttributes) : ¬ IsTrimmed name v := by
  rw [List.mem_cons, not_or] at h
  rintro (hname | ⟨hname, -⟩)
  · exact h.2 hname
  · exact h.1 hname

/-- Attributes that may not have other blanks have the values that they had. -/
theorem eq_of_values_otherBlanks (hname : ¬ P name v)
    (h : (otherBlanks P).Values name scope scope' v v') : v = v' := by
  obtain ⟨-, h⟩ := h
  cases h with
  | same => rfl
  | padded hP => exact absurd (hP.resolve_left nofun) hname

theorem alike_valueAs_padded {α : Type} {convert : String → Except AttributeFault α}
    (h : Padded v v') (heq : convert v' = convert v) (tag name : String) :
    Alike SameFault Eq (valueAs convert tag name v) (valueAs convert tag name v') := by
  refine alike_valueAs (F := Eq) ?_ ?_
  · rw [heq]
    exact alike_self (fun _ => rfl) _
  · rintro fault _ rfl
    exact .value tag name fault h

/-- A text without blanks has none around it. -/
theorem Padded.eq_of_not_isSpace (h : Padded s s') (hs : ∀ c ∈ s'.toList, isSpace c = false) :
    s' = s := by
  obtain ⟨left, right, hl, hr⟩ := h
  have hempty {t : String} (ht : ∀ c ∈ t.toList, isSpace c = true)
      (hsub : ∀ c ∈ t.toList, c ∈ (left ++ s ++ right).toList) : t = "" := by
    rw [← String.toList_eq_nil_iff, List.eq_nil_iff_forall_not_mem]
    intro c hc
    exact Bool.false_ne_true ((hs c (hsub c hc)).symm.trans (ht c hc))
  rw [hempty hl fun c hc => by simp [hc], hempty hr fun c hc => by simp [hc], String.empty_append,
    String.append_empty]

theorem readAlike_otherBlanks : (otherBlanks IsTrimmed).ReadAlike SameFault where
  refl := .same
  localName h := congrArg _ h
  attributeName h := by cases h <;> rfl
  text hname h := by
    have hother : ∀ name ∈ textAttributes, name ∉ "maxOccurs" :: trimmedAttributes := by decide
    exact eq_of_values_otherBlanks (not_isTrimmed (hother _ hname)) h
  flag _ h tag := alike_valueAs_padded (padded_of_values h) (padded_of_values h).convertBool_eq tag _
  count _ h tag :=
    alike_valueAs_padded (padded_of_values h) (padded_of_values h).convertCount_eq tag _
  unbounded h := by
    have hpadded := padded_of_values h
    obtain ⟨-, h⟩ := h
    cases h with
    | same => exact Iff.rfl
    | padded hname h =>
      rcases hname.resolve_left nofun with hname | ⟨-, hv⟩
      · exact absurd hname (by decide)
      · refine ⟨fun hv' => absurd hv' hv, fun hv' => ?_⟩
        rw [← hpadded.eq_of_not_isSpace (not_isSpace_of_all (by rw [hv']; decide)), hv']
  reference hname h tag := by
    have hother : ∀ name ∈ referenceAttributes, name ∉ "maxOccurs" :: trimmedAttributes := by decide
    obtain rfl := h.1
    obtain rfl := eq_of_values_otherBlanks (not_isTrimmed (hother _ hname)) h
    exact (alike_self .same _).mono fun _ _ h => congrArg _ h
  references h tag := by
    have hpadded := padded_of_values h
    obtain rfl := h.1
    refine (alike_valueAs_padded hpadded ?_ tag _).mono ?_
    · unfold resolveNames
      rw [hpadded.asciiWords_eq]
    · rintro ns _ rfl
      exact List.forall₂_same.mpr fun n _ => rfl

theorem readMaximum_padded {e : Element} (hvalue : e.attribute? "maxOccurs" = some v)
    (h : Padded "unbounded" v) (hne : v ≠ "unbounded") :
    readMaximum e = .error (.invalidAttribute e.tag "maxOccurs" v .notCount) := by
  have hcount : convertCount v = .error .notCount := by
    rw [h.convertCount_eq]
    decide +kernel
  have hother : e.attribute? "maxOccurs" ≠ some "unbounded" := by
    rw [hvalue]
    exact fun hv => hne (Option.some.inj hv)
  unfold readMaximum
  rw [if_neg hother, attributeAs_eq, hvalue, Option.elim_some, valueAs, hcount]
  rfl

/-- With blanks around it a text begins or ends with a blank. -/
theorem Padded.blank_at_end (h : Padded s s') (hne : s' ≠ s) :
    (∃ c ∈ s'.toList.head?, isSpace c = true) ∨ ∃ c ∈ s'.toList.getLast?, isSpace c = true := by
  obtain ⟨left, right, hl, hr⟩ := h
  rcases List.eq_nil_or_concat' right.toList with hright | ⟨before, c, hright⟩
  · cases hleft : left.toList with
    | nil =>
      rw [String.toList_eq_nil_iff] at hright hleft
      rw [hright, hleft, String.empty_append, String.append_empty] at hne
      exact absurd rfl hne
    | cons c rest => exact .inl ⟨c, by simp [hleft], hl c (by simp [hleft])⟩
  · exact .inr ⟨c, by simp [hright], hr c (by simp [hright])⟩

/-- Prefixes are names, which have no blanks. -/
def Unblanked (scope : Scope) : Prop :=
  ∀ b ∈ scope, ∀ pfx ∈ b.1, ∀ c ∈ pfx.toList, isSpace c = false

/-- A name with blanks around it has a blank in its local part. -/
theorem Denotes.exists_isSpace (h : Denotes scope s' n) (hscope : Unblanked scope)
    (hpadded : Padded s s') (hne : s' ≠ s) : ∃ c ∈ n.localName.toList, isSpace c = true := by
  have hprefixed {pfx localName : String} (hpfx : ∀ c ∈ pfx.toList, isSpace c = false)
      (hs : s' = pfx ++ ":" ++ localName) : ∃ c ∈ localName.toList, isSpace c = true := by
    have hchars : s'.toList = pfx.toList ++ ':' :: localName.toList := by simp [hs]
    have hcolon : isSpace ':' ≠ true := by decide
    rcases hpadded.blank_at_end hne with ⟨c, hc, hblank⟩ | ⟨c, hc, hblank⟩ <;> rw [hchars] at hc
    · cases hfirst : pfx.toList with
      | nil =>
        rw [hfirst] at hc
        obtain rfl : ':' = c := by simpa using hc
        exact absurd hblank hcolon
      | cons d ds =>
        rw [hfirst] at hc
        obtain rfl : d = c := by simpa using hc
        exact absurd hblank (Bool.eq_false_iff.mp (hpfx d (by simp [hfirst])))
    · rcases List.eq_nil_or_concat' localName.toList with hlast | ⟨before, d, hlast⟩
      · rw [hlast] at hc
        obtain rfl : ':' = c := by simpa using hc
        exact absurd hblank hcolon
      · rw [hlast, ← List.cons_append, ← List.append_assoc, List.getLast?_concat] at hc
        obtain rfl : d = c := Option.some.inj hc
        exact ⟨d, by simp [hlast], hblank⟩
  cases h with
  | unprefixed =>
    rcases hpadded.blank_at_end hne with ⟨c, hc, hblank⟩ | ⟨c, hc, hblank⟩
    · exact ⟨c, List.mem_of_mem_head? hc, hblank⟩
    · exact ⟨c, List.mem_of_getLast? hc, hblank⟩
  | xml localName => exact hprefixed (not_isSpace_of_all (by decide)) rfl
  | @prefixed pfx uri localName _ _ huri =>
    obtain ⟨b, hb, -⟩ := Option.map_eq_some_iff.mp huri
    have hpfx : b.1 = some pfx := by simpa using List.find?_some hb
    exact hprefixed (hscope b (List.mem_of_find?_eq_some hb) pfx hpfx) rfl

/-- No built-in type has a blank in its name. -/
theorem ofExpanded_of_isSpace (h : ∃ c ∈ n.localName.toList, isSpace c = true) :
    TypeName.ofExpanded n = .schema n.localName := by
  have hbuiltin : (builtinNames.all fun name => name.toList.all fun c => !isSpace c) = true := by
    decide +kernel
  obtain ⟨c, hc, hblank⟩ := h
  refine if_neg fun hname => ?_
  have hmem : n.localName ∈ builtinNames := List.contains_iff_mem.mp hname.2
  have hother := not_isSpace_of_all (List.all_eq_true.mp hbuiltin _ hmem) c hc
  exact Bool.false_ne_true (hother.symm.trans hblank)

/-- A name with blanks around it is that of a component of the schema. -/
theorem ofExpanded_of_padded {e : Element} (hscope : Unblanked e.scope)
    (hvalue : e.attribute? name = some v') (h : Padded v v') (hne : v' ≠ v)
    (hname : nameAttribute e name = .ok (some n)) :
    TypeName.ofExpanded n = .schema n.localName ∧ ∃ c ∈ n.localName.toList, isSpace c = true := by
  have hresolve : resolveName e.scope v' = .ok n := by
    rw [nameAttribute, attributeAs_eq, hvalue, Option.elim_some, valueAs] at hname
    cases hv : resolveName e.scope v' with
    | error f => rw [hv] at hname; cases hname
    | ok m =>
      rw [hv] at hname
      cases hname
      rfl
  have hblank := (resolveName_eq_ok.mp hresolve).exists_isSpace hscope h hne
  exact ⟨ofExpanded_of_isSpace hblank, hblank⟩

/-- Blanks around the values of attributes make no difference to the schema that is read, but around
names and around `unbounded`: this is refused, and a name is refused or refers to a component of the
schema whose own name has a blank. -/
theorem readSchema_padded {allow : Bool} {text text' : String} {root root' : Element}
    (h : readDocument allow text = .ok root) (h' : readDocument allow text' = .ok root')
    (hpadded : (otherBlanks IsTrimmed).Elements false root root') :
    Alike SameFault Eq (readSchema allow text) (readSchema allow text') ∧
    (∀ (e : Element) (v : String), e.attribute? "maxOccurs" = some v → Padded "unbounded" v →
      v ≠ "unbounded" → readMaximum e = .error (.invalidAttribute e.tag "maxOccurs" v .notCount)) ∧
    ∀ (e : Element) (name v v' : String) (n : ExpandedName), Unblanked e.scope →
      e.attribute? name = some v' → Padded v v' → v' ≠ v → nameAttribute e name = .ok (some n) →
        TypeName.ofExpanded n = .schema n.localName ∧
          ∃ c ∈ n.localName.toList, isSpace c = true := by
  refine ⟨?_, fun e v => readMaximum_padded, fun e name v v' n => ofExpanded_of_padded⟩
  unfold readSchema
  rw [h, h']
  exact readModel_alike readAlike_otherBlanks hpadded

end

/-! ## Blanks that make no difference, and blanks that do -/

/-- A type with truth values as given. -/
def flagsText (isAbstract mixed : String) : String :=
  "<schema xmlns=\"http://www.w3.org/2001/XMLSchema\"><complexType name=\"T\" abstract=\"" ++
    isAbstract ++ "\" mixed=\"" ++ mixed ++ "\"/></schema>"

def flagsElement (isAbstract mixed : String) : Element :=
  ⟨schemaName "schema", [], [(none, schemaUri)],
    [.element ⟨schemaName "complexType", [⟨⟨none, "name"⟩, "T"⟩, ⟨⟨none, "abstract"⟩, isAbstract⟩,
      ⟨⟨none, "mixed"⟩, mixed⟩], [(none, schemaUri)], []⟩]⟩

/-- An element of a type as given. -/
def typedText (type : String) : String :=
  "<x:schema xmlns:x=\"http://www.w3.org/2001/XMLSchema\"><x:element name=\"e\" type=\"" ++ type ++
    "\"/></x:schema>"

def typedElement (type : String) : Element :=
  ⟨schemaName "element", [⟨⟨none, "name"⟩, "e"⟩, ⟨⟨none, "type"⟩, type⟩], [(some "x", schemaUri)],
    []⟩

def typedRoot (type : String) : Element :=
  ⟨schemaName "schema", [], [(some "x", schemaUri)], [.element (typedElement type)]⟩

theorem eq_ok_of_toOption {α : Type} {x : Result α} {a : α} (h : x.toOption = some a) :
    x = .ok a := by
  cases x with
  | error e => cases h
  | ok b => rw [Option.some.inj h]

theorem padded_flagsElement : (otherBlanks IsTrimmed).Elements false
    (flagsElement "true" "1") (flagsElement " true\n" "\t1") := by
  have htrue : Padded "true" " true\n" := padded_of_all " " "\n" (by decide) (by decide)
  have hone : Padded "1" "\t1" := padded_of_all "\t" "" (by decide) (by decide)
  refine .intro rfl rfl .nil (.element (.intro rfl rfl ?_ .nil) .nil)
  exact .cons (.same _) (.cons (.padded (.inr (.inl (by decide))) htrue)
    (.cons (.padded (.inr (.inl (by decide))) hone) .nil))

theorem unblanked_typedElement : Unblanked (typedElement "x:string ").scope := by
  intro b hb pfx hpfx
  obtain rfl := List.mem_singleton.mp hb
  obtain rfl : "x" = pfx := Option.some.inj hpfx
  exact not_isSpace_of_all (by decide)

theorem readSchema_padded_flags :
    readDocument false (flagsText "true" "1") = .ok (flagsElement "true" "1") ∧
    readDocument false (flagsText " true&#10;" "&#9;1") = .ok (flagsElement " true\n" "\t1") ∧
    (∃ m, readSchema false (flagsText "true" "1") = .ok m ∧
      readSchema false (flagsText " true&#10;" "&#9;1") = .ok m) ∧
    readMaximum ⟨schemaName "any", [⟨⟨none, "maxOccurs"⟩, "unbounded "⟩], [], []⟩ =
      .error (.invalidAttribute "any" "maxOccurs" "unbounded " .notCount) ∧
    nameAttribute (typedElement "x:string ") "type" = .ok (some (schemaName "string ")) ∧
    TypeName.ofExpanded (schemaName "string ") = .schema "string " := by
  have hread : readDocument false (flagsText "true" "1") = .ok (flagsElement "true" "1") := by
    decide +kernel
  have hread' : readDocument false (flagsText " true&#10;" "&#9;1") =
      .ok (flagsElement " true\n" "\t1") := by decide +kernel
  have hok : (readModel (flagsElement "true" "1")).toOption.isSome = true := by cbv
  have hname : nameAttribute (typedElement "x:string ") "type" =
      .ok (some (schemaName "string ")) := by decide +kernel
  obtain ⟨halike, hunbounded, hnames⟩ := readSchema_padded hread hread' padded_flagsElement
  refine ⟨hread, hread', ?_, ?_, hname, ?_⟩
  · obtain ⟨m, hm⟩ := Option.isSome_iff_exists.mp hok
    have hread : readSchema false (flagsText "true" "1") = .ok m :=
      readSchema_eq_ok.mpr ⟨_, hread, eq_ok_of_toOption hm⟩
    have hsame := halike.toOption_eq
    rw [hread] at hsame
    exact ⟨m, hread, eq_ok_of_toOption hsame.symm⟩
  · exact hunbounded _ _ rfl (padded_of_all "" " " (by decide) (by decide)) (by decide)
  · have hpadded : Padded "x:string" "x:string " := padded_of_all "" " " (by decide) (by decide)
    exact (hnames _ _ _ _ _ unblanked_typedElement rfl hpadded (by decide) hname).1

/-- Only the name of the type can be at fault. -/
theorem isSome_readModel_typedRoot (type : String) : (readModel (typedRoot type)).toOption.isSome =
    (nameAttribute (typedElement type) "type").toOption.isSome := by
  have htag : (typedRoot type).tag = "schema" := rfl
  have helements : (typedRoot type).elements = [typedElement type] := rfl
  have hcomponent : readComponent (typedRoot type) (typedElement type) =
      (do return some (Component.element (← readElement (typedElement type)))) := rfl
  have hname : requiredText (typedElement type) "name" = .ok "e" := rfl
  have habstract : boolAttribute (typedElement type) "abstract" = .ok none := rfl
  rw [readModel, helements]
  simp only [htag, List.foldlM_cons, readChild, hcomponent, readElement, hname, habstract]
  cases nameAttribute (typedElement type) "type" with
  | error x => rfl
  | ok n => cases n <;> rfl

/-- A blank before the prefix of a type makes a schema unreadable. -/
theorem not_readSchema_padded_type :
    readDocument false (typedText "x:string") = .ok (typedRoot "x:string") ∧
    readDocument false (typedText " x:string") = .ok (typedRoot " x:string") ∧
    (otherBlanks IsCollapsed).Elements false (typedRoot "x:string") (typedRoot " x:string") ∧
    ¬ Alike SameFault Eq (readSchema false (typedText "x:string"))
      (readSchema false (typedText " x:string")) := by
  have hread : readDocument false (typedText "x:string") = .ok (typedRoot "x:string") := by
    decide +kernel
  have hread' : readDocument false (typedText " x:string") = .ok (typedRoot " x:string") := by
    decide +kernel
  have hpadded : Padded "x:string" " x:string" := padded_of_all " " "" (by decide) (by decide)
  have htype : AttributePadded IsCollapsed false ⟨⟨none, "type"⟩, "x:string"⟩
      ⟨⟨none, "type"⟩, " x:string"⟩ := .padded (.inr (by unfold IsCollapsed; decide)) hpadded
  refine ⟨hread, hread', .intro rfl rfl .nil (.element ?_ .nil), fun halike => ?_⟩
  · exact .intro rfl rfl (.cons (.same _) (.cons htype .nil)) .nil
  · have hsame := congrArg Option.isSome halike.toOption_eq
    unfold readSchema at hsame
    rw [hread, hread'] at hsame
    simp only [isSome_readModel_typedRoot] at hsame
    revert hsame
    decide +kernel

end XmlBinding.Schema
