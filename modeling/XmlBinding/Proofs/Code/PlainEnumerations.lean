import XmlBinding.Proofs.Code.Literals

/-! # Plain enumerations

The type of a plain enumeration has a variant for every literal and two sentinels. The generated
functions read the literals for their variants and anything else for one of the sentinels, and
tell the literals again.
-/
namespace XmlBinding.Code
open Binding

/-- A result of either kind is taken out of what it is in. -/
theorem eval_either {scope : Naming} {name : String} {f : Meaning} {o x : Object}
    (hf : scope.functions.lookup name = some f)
    (hx : f [o] = some (.ok x) ∨ f [o] = some (.err x)) :
    (Expr.select (callOf name [.word "value"])
      [⟨.either [.apply "Ok" [.word "value"], .apply "Err" [.word "value"]],
        .word "value"⟩]).eval scope [("value", o)] = .next x [("value", o)] := by
  have hvalue (o : Object) (vars : Vars) : scope.word (("value", o) :: vars) "value" = some o :=
    Naming.word_name (by decide) (by simp)
  have hbind (o : Object) : scope.bindWord "value" o = some [("value", o)] :=
    Naming.bindWord_name (by decide) (by decide) o
  rcases hx with hx | hx
  · simp [callOf, Expr.eval, evalAll, evalArms, hvalue, hf, hx, Object.ok, Pat.bind, bindAll,
      bindFirst, hbind]
  · simp [callOf, Expr.eval, evalAll, evalArms, hvalue, hf, hx, Object.err, Pat.bind, bindAll,
      bindFirst, hbind]

end XmlBinding.Code

namespace XmlBinding.Binding.Enumeration
open Schema Code Text

variable {e : Enumeration}

/-- The variant of a member. -/
def variant (m : Member) : Object := .made (written m.name) []

/-- The variants that the type of an enumeration is given. -/
def variants (e : Enumeration) : List Object := e.scope.constants.map Prod.snd

def illegal : Object := .made "IllegalValue" []
def notSet : Object := .made "NotSet" []

theorem variant_inj {m m' : Member} (hm : m ∈ e.members) (hm' : m' ∈ e.members) :
    variant m = variant m' ↔ m = m' := by
  constructor
  · intro h
    exact eq_of_written hm hm' (by simpa [variant] using h)
  · rintro rfl
    rfl

@[simp] theorem illegal_ne_notSet : illegal ≠ notSet := by simp [illegal, notSet]

theorem variant_illegalMember : variant illegalMember = illegal := by
  have hwritten : written illegalMember.name = "IllegalValue" := by decide
  rw [variant, hwritten, illegal]

theorem variant_notSetMember : variant notSetMember = notSet := by
  have hwritten : written notSetMember.name = "NotSet" := by decide
  rw [variant, hwritten, notSet]

/-- Within a plain enumeration there are its variants. -/
def variantScope (e : Enumeration) : Naming :=
  { Naming.initial with constants := e.members.map fun m => (written m.name, variant m) }

section
variable (h : e.form = .plain)
include h

theorem constants_plain :
    e.scope.constants = e.members.map fun m => (written m.name, variant m) := by
  rw [scope, enumerationItems, h]
  exact List.map_map

/-- What the text of a variant is found by. -/
theorem xmlValue_plain (x : Object) :
    e.xmlValue x = (evalArms e.variantScope ((literalNames e).map (fun (n, s) =>
      Arm.mk (.word ("Self::" ++ n)) (callOf "Some" [stringLiteral s])) ++
        [⟨.word "_", .word "None"⟩]) x [("self", x)]).result? := by
  have hconstants : (e.members.map variantOf).map (fun v => (v.2.1, .made v.2.1 [])) =
      e.variantScope.constants := List.map_map
  have hself : e.variantScope.word [("self", x)] "self" = some x :=
    Naming.word_name (by decide) (by simp)
  rw [xmlValue, scope, enumerationItems, h]
  simp only [plainItems, List.foldl_cons, List.foldl_nil, Naming.addItem, hconstants]
  exact congrArg (Outcome.result? <| Outcome.bind · _) (congrArg (Outcome.ofOption · _) hself)

theorem tryParse_plain (value : Option String) :
    e.tryParse value = (evalArms (e.scope.outside (written e.name))
      (⟨noText, callOf "Err" [.word (written e.name ++ "::" ++ notSetMember.name)]⟩ ::
        ((literalNames e).map (fun (n, s) => Arm.mk (.apply "Some" [.word (literal s)])
          (callOf "Ok" [.word (written e.name ++ "::" ++ n)])) ++
        [⟨.apply "Some" [.word "_"],
          callOf "Err" [.word (written e.name ++ "::" ++ illegalMember.name)]⟩]))
      (.ofText value) [("value", .ofText value)]).result? := by
  have hvalue : (e.scope.outside (written e.name)).word [("value", .ofText value)] "value" =
      some (.ofText value) := Naming.word_name (by decide) (by simp)
  have hreaders : enumerationReaders e = plainReaders e := by rw [enumerationReaders, h]
  rw [tryParse_run hreaders rfl rfl]
  · exact congrArg (Outcome.result? <| Outcome.bind · _) (congrArg (Outcome.ofOption · _) hvalue)
  · simp only [List.forall_mem_singleton]
    exact ⟨_, rfl, rfl, rfl⟩

theorem parsed_plain {value : Option String} {x : Object}
    (hx : e.tryParse value = some (.ok x) ∨ e.tryParse value = some (.err x)) :
    e.parsed value = some x := by
  have hreaders : enumerationReaders e = plainReaders e := by rw [enumerationReaders, h]
  rw [tryParse_run hreaders rfl rfl
    (List.forall_mem_singleton.mpr ⟨_, rfl, rfl, rfl⟩)] at hx
  rw [parsed, readerScope, hreaders, plainReaders, List.foldl_cons, List.foldl_cons,
    List.foldl_nil, Naming.add_function rfl, Naming.add_function rfl, List.lookup_cons_self]
  exact congrArg Outcome.result? (eval_either List.lookup_cons_self hx)

theorem clear_plain : (e.scope.outside (written e.name)).Clear :=
  e.clear_of_constants (constants_plain h)

theorem mem_constants_plain {m : Member} (hm : m ∈ e.members) :
    (written m.name, variant m) ∈ (e.scope.outside (written e.name)).constants := by
  change _ ∈ e.scope.constants
  rw [constants_plain h]
  exact List.mem_map_of_mem hm

/-- A result that names a variant. -/
theorem eval_result {m : Member} (hm : m ∈ e.members) {name : String}
    (hname : name = "Ok" ∨ name = "Err") (vars : Vars) :
    (callOf name [.word (written e.name ++ "::" ++ written m.name)]).eval
      (e.scope.outside (written e.name)) vars = .next (.made name [variant m]) vars := by
  refine eval_callOf (Naming.word_path (clear_plain h) (mem_constants_plain h hm) vars) ?_
  rcases hname with rfl | rfl <;> rfl

/-- A missing and an empty value are not set. -/
theorem tryParse_notSet {value : Option String} (hvalue : value.getD "" = "") :
    e.tryParse value = some (.err notSet) := by
  have hmem : notSetMember ∈ e.members := by simp [members, h]
  rw [tryParse_plain h, evalArms_cons, bind_noText (clear_plain h), if_pos hvalue,
    ← variant_notSetMember]
  exact congrArg Outcome.result? ((Outcome.leave_zero _).trans (eval_result h hmem (.inr rfl) _))

section
variable {s : String} (hne : s ≠ "")
include hne

theorem tryParse_some :
    e.tryParse (some s) = (evalArms (e.scope.outside (written e.name))
        ((literalNames e).map (fun (n, s) => Arm.mk (.apply "Some" [.word (literal s)])
          (callOf "Ok" [.word (written e.name ++ "::" ++ n)])) ++
        [⟨.apply "Some" [.word "_"],
          callOf "Err" [.word (written e.name ++ "::" ++ illegalMember.name)]⟩])
      (.present (.text s)) [("value", .present (.text s))]).result? := by
  rw [tryParse_plain h, evalArms_cons, bind_noText (clear_plain h), if_neg (by simpa using hne)]
  rfl

/-- A literal is read for its member. -/
theorem tryParse_literal (hd : e.Distinct) {m : Member} (hm : m ∈ e.members)
    (hs : m.symbol = .literal s) : e.tryParse (some s) = some (.ok (variant m)) := by
  rw [tryParse_some h hne, evalArms_literal hm hs]
  · exact congrArg Outcome.result? (eval_result h hm (.inl rfl) _)
  · intro m' hm' t ht
    refine (bind_someLiteral (clear_plain h) t s).trans (if_congr ?_ rfl rfl)
    constructor
    · rintro rfl
      exact eq_of_symbol hd hm' hm (ht.trans hs.symm)
    · rintro rfl
      exact Symbol.literal.inj (ht.symm.trans hs)

/-- Any other text is illegal. -/
theorem tryParse_illegal (hs : s ∉ e.literals.map (·.value)) :
    e.tryParse (some s) = some (.err illegal) := by
  have hmem : illegalMember ∈ e.members := by simp [members, h]
  rw [tryParse_some h hne, evalArms_noLiteral, evalArms_cons, ← variant_illegalMember]
  · have hany : (Pat.apply "Some" [.word "_"]).bind (e.scope.outside (written e.name))
        (.present (.text s)) = some [] := by
      simp [Pat.bind, bindAll, Object.present, Naming.bindWord_any]
    rw [hany]
    exact congrArg Outcome.result? ((Outcome.leave_zero _).trans (eval_result h hmem (.inr rfl) _))
  · intro m hm t ht
    refine (bind_someLiteral (clear_plain h) t s).trans (if_neg ?_)
    rintro rfl
    exact hs (exists_member.mp ⟨m, hm, ht⟩)

end

/-- Variants have the texts of their literals, and the sentinels have none. -/
theorem xmlValue_variant {m : Member} (hm : m ∈ e.members) :
    e.xmlValue (variant m) = some (.ofText m.symbol.text?) := by
  have hclear : e.variantScope.Clear := e.clear_of_constants rfl
  have hbind (m' : Member) (hm' : m' ∈ e.members) :
      (Pat.word ("Self::" ++ written m'.name)).bind e.variantScope (variant m) =
        if m' = m then some [] else none := by
    have hconstant : (written m'.name, variant m') ∈ e.variantScope.constants :=
      List.mem_map_of_mem hm'
    refine (Naming.bindWord_path hclear hconstant _).trans (if_congr ?_ rfl rfl)
    rw [← variant_inj hm' hm]
    simp [variant, Object.isSame]
  rw [xmlValue_plain h]
  by_cases hs : ∃ s, m.symbol = .literal s
  · obtain ⟨s, hs⟩ := hs
    rw [evalArms_literal hm hs fun m' hm' _ _ => hbind m' hm', hs]
    exact congrArg Outcome.result? (eval_callOf (Naming.word_literal hclear s _) rfl)
  · have hnone : m.symbol.text? = none := by
      cases hsymbol : m.symbol <;> simp_all [Symbol.text?]
    have hword (vars : Vars) : e.variantScope.word vars "None" = some .absent := by
      simp [Naming.word, Naming.constant?_none]
    rw [evalArms_noLiteral, evalArms_cons]
    · simp [Pat.bind, Naming.bindWord_any, eval_word (hword _), hnone, Outcome.result?,
        Object.ofText]
    · intro m' hm' t ht
      refine (hbind m' hm').trans (if_neg ?_)
      rintro rfl
      exact hs ⟨t, ht⟩

theorem xmlValue_eq_literal {m : Member} (hm : m ∈ e.members) {s : String} :
    e.xmlValue (variant m) = some (.ofText (some s)) ↔ m.symbol = .literal s := by
  rw [xmlValue_variant h hm, Option.some.injEq, Object.ofText_injective.eq_iff,
    Symbol.text?_eq_some]

theorem mem_variants {x : Object} : x ∈ e.variants ↔ ∃ m ∈ e.members, variant m = x := by
  rw [variants, constants_plain h, List.map_map, List.mem_map]
  rfl

/-- A value is missing or empty, a literal, or something else. -/
theorem tryParse_cases (hd : e.Distinct) (value : Option String) :
    (value.getD "" = "" ∧ e.tryParse value = some (.err notSet)) ∨
    (∃ s, value = some s ∧ s ≠ "" ∧ s ∉ e.literals.map (·.value) ∧
      e.tryParse value = some (.err illegal)) ∨
    ∃ s, value = some s ∧ s ≠ "" ∧
      ∃ m ∈ e.members, m.symbol = .literal s ∧ e.tryParse value = some (.ok (variant m)) := by
  by_cases hvalue : value.getD "" = ""
  · exact .inl ⟨hvalue, tryParse_notSet h hvalue⟩
  · obtain ⟨s, rfl⟩ : ∃ s, value = some s := by
      cases value with
      | none => exact absurd rfl hvalue
      | some s => exact ⟨s, rfl⟩
    by_cases hs : s ∈ e.literals.map (·.value)
    · obtain ⟨m, hm, hsymbol⟩ := exists_member.mpr hs
      exact .inr (.inr ⟨s, rfl, hvalue, m, hm, hsymbol, tryParse_literal h hvalue hd hm hsymbol⟩)
    · exact .inr (.inl ⟨s, rfl, hvalue, hs, tryParse_illegal h hvalue hs⟩)

/-- The generated function finds what the value of a tree is read as. -/
theorem exists_tryParse (hd : e.Distinct) (value : Option String) :
    ∃ m ∈ e.members, m.symbol = e.parse value ∧ e.tryParse value =
      some (if (e.readSymbol value).isOk then .ok (variant m) else .err (variant m)) := by
  rcases tryParse_cases h hd value with ⟨hvalue, ht⟩ | ⟨s, rfl, hne, hs, ht⟩ |
    ⟨s, rfl, hne, m, hm, hsymbol, ht⟩
  · have hread : e.readSymbol value = .error .notSet := by
      cases value <;> simp_all [readSymbol]
    refine ⟨notSetMember, by simp [members, h], by rw [parse, hread]; rfl, ?_⟩
    rw [ht, hread, ← variant_notSetMember]
    rfl
  · have hlit : e.hasLiteral s = false := by simpa [hasLiteral] using hs
    have hread : e.readSymbol (some s) = .error .illegal := by simp [readSymbol, hne, hlit]
    refine ⟨illegalMember, by simp [members, h], by rw [parse, hread]; rfl, ?_⟩
    rw [ht, hread, ← variant_illegalMember]
    rfl
  · have hlit : e.hasLiteral s = true := by
      simpa [hasLiteral] using exists_member.mp ⟨m, hm, hsymbol⟩
    have hread : e.readSymbol (some s) = .ok (.literal s) := by simp [readSymbol, hne, hlit]
    exact ⟨m, hm, by rw [parse, hread, hsymbol], by rw [ht, hread]; rfl⟩

end

/-- The generated functions of a plain enumeration read exactly the literals. -/
structure ReadsLiterals (e : Enumeration) (literals : List String) : Prop where
  sentinels : illegal ∈ e.variants ∧ notSet ∈ e.variants
  exists_variant : ∀ s ∈ literals, ∃ x ∈ e.variants, e.xmlValue x = some (.ofText (some s))
  tryParse_ok : ∀ value x, e.tryParse value = some (.ok x) ↔ ∃ s ∈ literals, s ≠ "" ∧
    value = some s ∧ x ∈ e.variants ∧ e.xmlValue x = some (.ofText (some s))
  tryParse_notSet : ∀ value, e.tryParse value = some (.err notSet) ↔ value = none ∨ value = some ""
  tryParse_illegal : ∀ value, e.tryParse value = some (.err illegal) ↔
    ∃ s, s ∉ literals ∧ s ≠ "" ∧ value = some s
  parsed : ∀ value x, e.parsed value = some x ↔
    e.tryParse value = some (.ok x) ∨ e.tryParse value = some (.err x)
  xmlValue : ∀ x ∈ e.variants, ∃ text, e.xmlValue x = some (.ofText text) ∧
    (text = none ↔ x = illegal ∨ x = notSet)

/-- Whatever the facets are of which a plain enumeration is made, with values that come twice, are
empty or are named like a sentinel. -/
theorem readsLiterals_ofFacets (name : String) (documentation owner : Option String)
    (fs : List Facet) :
    (ofFacets name documentation owner fs).ReadsLiterals (fs.map (·.value)) := by
  have hform : (ofFacets name documentation owner fs).form = .plain := rfl
  have hd : (ofFacets name documentation owner fs).Distinct := nodup_distinctLiterals fs
  have hliterals (s : String) : s ∈ (ofFacets name documentation owner fs).literals.map (·.value) ↔
      s ∈ fs.map (·.value) := mem_values_distinctLiterals
  generalize ofFacets name documentation owner fs = e at hform hd hliterals
  have hillegal : illegalMember ∈ e.members := by simp [members, hform]
  have hnotSet : notSetMember ∈ e.members := by simp [members, hform]
  have hmem {m : Member} {s : String} (hm : m ∈ e.members) (hsymbol : m.symbol = .literal s) :
      s ∈ fs.map (·.value) := (hliterals s).mp (exists_member.mp ⟨m, hm, hsymbol⟩)
  constructor
  case sentinels =>
    simp only [mem_variants hform]
    exact ⟨⟨_, hillegal, variant_illegalMember⟩, ⟨_, hnotSet, variant_notSetMember⟩⟩
  case exists_variant =>
    intro s hs
    obtain ⟨m, hm, hsymbol⟩ := exists_member.mpr ((hliterals s).mpr hs)
    exact ⟨variant m, (mem_variants hform).mpr ⟨m, hm, rfl⟩,
      (xmlValue_eq_literal hform hm).mpr hsymbol⟩
  case tryParse_ok =>
    intro value x
    constructor
    · intro hx
      rcases tryParse_cases hform hd value with ⟨-, ht⟩ | ⟨_, -, -, -, ht⟩ |
        ⟨s, rfl, hne, m, hm, hsymbol, ht⟩
      · simp [ht] at hx
      · simp [ht] at hx
      · obtain rfl : variant m = x := by simpa [ht] using hx
        exact ⟨s, hmem hm hsymbol, hne, rfl, (mem_variants hform).mpr ⟨m, hm, rfl⟩,
          (xmlValue_eq_literal hform hm).mpr hsymbol⟩
    · rintro ⟨s, -, hne, rfl, hx, htext⟩
      obtain ⟨m, hm, rfl⟩ := (mem_variants hform).mp hx
      exact tryParse_literal hform hne hd hm ((xmlValue_eq_literal hform hm).mp htext)
  case tryParse_notSet =>
    intro value
    rcases tryParse_cases hform hd value with ⟨hvalue, ht⟩ | ⟨s, rfl, hne, -, ht⟩ |
      ⟨s, rfl, hne, m, -, -, ht⟩
    · cases value <;> simp_all
    · simp [ht, hne]
    · simp [ht, hne]
  case tryParse_illegal =>
    intro value
    rcases tryParse_cases hform hd value with ⟨hvalue, ht⟩ | ⟨s, rfl, hne, hs, ht⟩ |
      ⟨s, rfl, hne, m, hm, hsymbol, ht⟩
    · cases value <;> simp_all [illegal_ne_notSet.symm]
    · exact iff_of_true ht ⟨s, fun hs' => hs ((hliterals s).mpr hs'), hne, rfl⟩
    · refine iff_of_false (by simp [ht]) ?_
      rintro ⟨t, ht, -, ⟨rfl⟩⟩
      exact ht (hmem hm hsymbol)
  case parsed =>
    intro value x
    rcases tryParse_cases hform hd value with ⟨hvalue, ht⟩ | ⟨s, rfl, hne, hs, ht⟩ |
      ⟨s, rfl, hne, m, hm, hsymbol, ht⟩
    · simp [parsed_plain hform (.inr ht), ht]
    · simp [parsed_plain hform (.inr ht), ht]
    · simp [parsed_plain hform (.inl ht), ht]
  case xmlValue =>
    intro x hx
    obtain ⟨m, hm, rfl⟩ := (mem_variants hform).mp hx
    refine ⟨m.symbol.text?, xmlValue_variant hform hm, ?_⟩
    rw [← variant_illegalMember, ← variant_notSetMember, variant_inj hm hillegal,
      variant_inj hm hnotSet]
    constructor
    · intro hnone
      simp only [members, hform, List.mem_cons] at hm
      rcases hm with rfl | rfl | hm
      · exact .inl rfl
      · exact .inr rfl
      · obtain ⟨s, hs⟩ := exists_literal_of_mem hm
        rw [hs] at hnone
        cases hnone
    · rintro (rfl | rfl) <;> rfl

end XmlBinding.Binding.Enumeration
