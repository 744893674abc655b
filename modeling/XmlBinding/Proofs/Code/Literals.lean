import XmlBinding.Proofs.Binding.Members
import XmlBinding.Proofs.Value.Numerals
import XmlBinding.Proofs.Code.Evaluation

/-! # Code that goes by literals

The names of constants, of variables and of texts are told apart by how they are written. So of
arms that go by different constants or different texts at most one matches.
-/
namespace XmlBinding.Code
open Binding Text Value

theorem lookup_of_mem {β : Type} {table : List (String × β)} {name : String} {x : β}
    (hn : (table.map Prod.fst).Nodup) (h : (name, x) ∈ table) : table.lookup name = some x := by
  obtain ⟨before, after, rfl⟩ := List.append_of_mem h
  refine List.lookup_eq_some_iff.mpr ⟨before, after, rfl, fun c hc => ?_⟩
  rw [List.map_append, List.map_cons, List.nodup_append] at hn
  simpa using (hn.2.2 _ (List.mem_map_of_mem hc) _ List.mem_cons_self).symm

namespace Naming
variable {scope : Naming}

/-- Constants have different names, without quotation marks. -/
structure Clear (scope : Naming) : Prop where
  nodup : (scope.constants.map Prod.fst).Nodup
  unquoted : ∀ c ∈ scope.constants, '"' ∉ c.1.toList

/-- A word that is no constant and no literal. -/
def IsName (word : String) : Prop :=
  ':' ∉ word.toList ∧ word ≠ "None" ∧ readLiteral word = none

instance (word : String) : Decidable (IsName word) :=
  inferInstanceAs (Decidable (_ ∧ _ ∧ _))

theorem constant?_none (scope : Naming) : scope.constant? "None" = some .absent := by
  simp [constant?]

/-- Constants are found under the path of their type. -/
theorem constant?_path (h : scope.Clear) {name : String} {x : Object}
    (hx : (name, x) ∈ scope.constants) :
    scope.constant? (scope.path ++ "::" ++ name) = some x := by
  have hne : scope.path ++ "::" ++ name ≠ "None" := by
    intro heq
    have hcolon : ':' ∈ (scope.path ++ "::" ++ name).toList := by simp
    rw [heq] at hcolon
    exact absurd hcolon (by decide)
  have hnodup : ((scope.constants.map fun c => (scope.path ++ "::" ++ c.1, c.2)).map
      Prod.fst).Nodup := by
    have hpaths := h.nodup.map fun a b => (String.append_right_inj (scope.path ++ "::")).mp
    rw [List.map_map] at hpaths ⊢
    exact hpaths
  have hmem := List.mem_map_of_mem (f := fun c => (scope.path ++ "::" ++ c.1, c.2)) hx
  rw [constant?, List.lookup_cons, beq_eq_false_iff_ne.mpr hne]
  exact lookup_of_mem hnodup hmem

theorem constant?_eq_none {word : String} (hne : word ≠ "None")
    (h : ∀ c ∈ scope.constants, word ≠ scope.path ++ "::" ++ c.1) :
    scope.constant? word = none := by
  rw [constant?, List.lookup_cons, beq_eq_false_iff_ne.mpr hne]
  refine List.lookup_eq_none_iff.mpr fun c hc => ?_
  obtain ⟨d, hd, rfl⟩ := List.mem_map.mp hc
  simpa using h d hd

theorem constant?_name {word : String} (hw : IsName word) : scope.constant? word = none := by
  refine constant?_eq_none hw.2.1 fun c _ heq => hw.1 ?_
  rw [heq]
  simp

theorem constant?_literal (h : scope.Clear) (s : String) : scope.constant? (literal s) = none := by
  have hlast : (literal s).toList.getLast? = some '"' := by
    rw [literal, String.toList_ofList]
    exact List.getLast?_concat
  refine constant?_eq_none ?_ fun c hc heq => ?_
  · intro heq
    rw [heq] at hlast
    exact absurd hlast (by decide)
  · rw [heq, String.toList_append, List.getLast?_append, Option.or_eq_some_iff] at hlast
    rcases hlast with hlast | ⟨-, hlast⟩
    · exact h.unquoted c hc (List.mem_of_getLast? hlast)
    · simp at hlast

theorem word_path (h : scope.Clear) {name : String} {x : Object}
    (hx : (name, x) ∈ scope.constants) (vars : Vars) :
    scope.word vars (scope.path ++ "::" ++ name) = some x := by
  rw [word, constant?_path h hx]
  rfl

theorem word_literal (h : scope.Clear) (s : String) (vars : Vars) :
    scope.word vars (literal s) = some (.text s) := by
  rw [word, constant?_literal h, readLiteral_literal]
  rfl

theorem word_name {word : String} (hw : IsName word) {vars : Vars} {x : Object}
    (hx : vars.lookup word = some x) : scope.word vars word = some x := by
  rw [Naming.word, constant?_name hw, hw.2.2, hx]
  rfl

theorem bindWord_none (scope : Naming) (x : Object) :
    scope.bindWord "None" x = if Object.absent.isSame x then some [] else none := by
  rw [bindWord, constant?_none]

theorem bindWord_path (h : scope.Clear) {name : String} {c : Object}
    (hc : (name, c) ∈ scope.constants) (x : Object) :
    scope.bindWord (scope.path ++ "::" ++ name) x = if c.isSame x then some [] else none := by
  rw [bindWord, constant?_path h hc]

theorem bindWord_literal (h : scope.Clear) (s : String) (x : Object) :
    scope.bindWord (literal s) x = if x.text? = some s then some [] else none := by
  rw [bindWord, constant?_literal h, readLiteral_literal]

theorem bindWord_name {word : String} (hw : IsName word) (hne : word ≠ "_") (x : Object) :
    scope.bindWord word x = some [(variableName word, x)] := by
  rw [bindWord, constant?_name hw, hw.2.2]
  exact if_neg hne

theorem bindWord_any (scope : Naming) (x : Object) : scope.bindWord "_" x = some [] := by
  rw [bindWord, constant?_name (by decide)]
  rfl

end Naming

theorem readLiteral_eq_none {word : String} (h : word.toList.head? ≠ some '"') :
    readLiteral word = none := by
  unfold readLiteral
  split
  · next r hr => simp [hr] at h
  · rfl

theorem isName_integerText (n : Nat) : Naming.IsName (toString (n : Int)) := by
  have htext : toString (n : Int) = integerText n := rfl
  have hdigit {c : Char} (hc : c ∈ (integerText n).toList) : c.isDigit = true ∨ c = '-' :=
    mem_integerText hc
  rw [htext]
  refine ⟨fun hc => ?_, fun h => ?_, readLiteral_eq_none fun h => ?_⟩
  · rcases hdigit hc with hc | hc <;> revert hc <;> decide
  · have hc : 'N' ∈ (integerText n).toList := by simp [h]
    rcases hdigit hc with hc | hc <;> revert hc <;> decide
  · rcases hdigit (List.mem_of_head? h) with hc | hc <;> revert hc <;> decide

/-- Numbers below `2 ^ 32` are read from their digits. -/
theorem word_number {scope : Naming} {n : Nat} (h : n < 2 ^ 32) :
    scope.word [] (toString (n : Int)) = some (.number n) := by
  have hholds : (⟨false, 32⟩ : IntegerType).holds n := by
    constructor
    · simp [IntegerType.negativeMax]
    · simp [IntegerType.max]; omega
  have hread : readNumber (toString (n : Int)) = some n := by
    rw [readNumber]
    change ((IntegerType.readNumeral _ (integerText n).toList).toOption.map Int.toNat) = _
    rw [IntegerType.readNumeral_integerText hholds]
    rfl
  have hname := isName_integerText n
  rw [Naming.word, Naming.constant?_name hname, hname.2.2, hread]
  rfl

section
variable {scope : Naming} {x y : Object} {vars : Vars}

theorem evalArms_cons (a : Arm) (arms : List Arm) :
    evalArms scope (a :: arms) x vars = match a.pat.bind scope x with
      | some bound => (a.body.eval scope (bound ++ vars)).leave bound.length
      | none => evalArms scope arms x vars := by
  cases a
  rfl

/-- Arms that do not match are passed over. -/
theorem evalArms_append {arms : List Arm} (h : ∀ a ∈ arms, a.pat.bind scope x = none)
    (rest : List Arm) : evalArms scope (arms ++ rest) x vars = evalArms scope rest x vars := by
  induction arms with
  | nil => rfl
  | cons a arms ih =>
    obtain ⟨ha, harms⟩ := List.forall_mem_cons.mp h
    rw [List.cons_append, evalArms_cons, ha, ih harms]

/-- If only one of the arms matches, it is taken. -/
theorem evalArms_of_mem {arms : List Arm} {a : Arm} (ha : a ∈ arms)
    (hbind : a.pat.bind scope x = some [])
    (hother : ∀ b ∈ arms, b.pat.bind scope x ≠ none → b = a) (rest : List Arm) :
    evalArms scope (arms ++ rest) x vars = a.body.eval scope vars := by
  induction arms with
  | nil => cases ha
  | cons b arms ih =>
    obtain ⟨hb, harms⟩ := List.forall_mem_cons.mp hother
    rw [List.cons_append, evalArms_cons]
    by_cases hnone : b.pat.bind scope x = none
    · have ha : a ∈ arms := by
        rcases List.mem_cons.mp ha with rfl | ha
        · rw [hnone] at hbind
          cases hbind
        · exact ha
      rw [hnone]
      exact ih ha harms
    · obtain rfl := hb hnone
      simp [hbind]

theorem eval_word {word : String} (h : scope.word vars word = some x) :
    (Expr.word word).eval scope vars = .next x vars := by
  rw [Expr.eval, h, Outcome.ofOption_some]

/-- A constructor makes an object of its argument. -/
theorem eval_callOf {name word : String} (hword : scope.word vars word = some x)
    (hname : scope.functions.lookup name = some fun xs => some (.made name xs)) :
    (callOf name [.word word]).eval scope vars = .next (.made name [x]) vars := by
  simp [callOf, Expr.eval, evalAll, hword, hname]

theorem eval_method {e : Expr} {name : String} {types : List Ty} {args : List Expr}
    {as : List Argument} (he : e.eval scope vars = .next x vars)
    (hargs : evalArguments scope args vars = .next as vars)
    (hmethod : scope.method name x as = some y) :
    (Expr.method e name types args).eval scope vars = .next y vars := by
  rw [Expr.eval, he, Outcome.bind_next, hargs, Outcome.bind_next, hmethod, Outcome.ofOption_some]

end

section
variable {scope : Naming} (h : scope.Clear)
include h

/-- The pattern of a missing or empty value matches nothing else. -/
theorem bind_noText (value : Option String) :
    noText.bind scope (.ofText value) = if value.getD "" = "" then some [] else none := by
  cases value with
  | none =>
    simp [noText, Pat.bind, bindFirst, Naming.bindWord_none, Object.ofText, Object.absent,
      Object.isSame]
  | some s =>
    simp [noText, Pat.bind, bindFirst, bindAll, Naming.bindWord_none, Naming.bindWord_literal h,
      Object.ofText, Object.present, Object.absent, Object.isSame, Object.text?]

theorem bind_someLiteral (s t : String) :
    (Pat.apply "Some" [.word (literal s)]).bind scope (.present (.text t)) =
      if s = t then some [] else none := by
  simp [Pat.bind, bindAll, Object.present, Naming.bindWord_literal h, Object.text?, eq_comm]

end

end XmlBinding.Code

namespace XmlBinding.Binding.Enumeration
open Schema Code Text

variable {e : Enumeration}

theorem mem_literalNames {n s : String} :
    (n, s) ∈ literalNames e ↔ ∃ m ∈ e.members, m.symbol = .literal s ∧ n = written m.name := by
  simp only [literalNames, List.mem_filterMap, Option.map_eq_some_iff, Symbol.text?_eq_some,
    Prod.mk.injEq]
  constructor
  · rintro ⟨m, hm, t, ht, rfl, rfl⟩
    exact ⟨m, hm, ht, rfl⟩
  · rintro ⟨m, hm, hsymbol, rfl⟩
    exact ⟨m, hm, s, hsymbol, rfl, rfl⟩

section
variable {scope : Naming} {x : Object} {vars : Vars} {arm : String × String → Arm}

/-- Of arms for all literals the one of the member is taken that matches alone. -/
theorem evalArms_literal {m : Member} (hm : m ∈ e.members) {s : String}
    (hs : m.symbol = .literal s) (hbind : ∀ m' ∈ e.members, ∀ t, m'.symbol = .literal t →
      (arm (written m'.name, t)).pat.bind scope x = if m' = m then some [] else none)
    (rest : List Arm) :
    evalArms scope ((literalNames e).map arm ++ rest) x vars =
      (arm (written m.name, s)).body.eval scope vars := by
  have hmem := mem_literalNames.mpr ⟨m, hm, hs, rfl⟩
  refine evalArms_of_mem (List.mem_map_of_mem hmem) ?_ ?_ rest
  · rw [hbind m hm s hs, if_pos rfl]
  · simp only [List.mem_map, Prod.exists]
    rintro _ ⟨n, t, hnt, rfl⟩ hne
    obtain ⟨m', hm', ht, rfl⟩ := mem_literalNames.mp hnt
    rw [hbind m' hm' t ht] at hne
    obtain rfl : m' = m := by simpa using hne
    obtain rfl := Symbol.literal.inj (hs.symm.trans ht)
    rfl

/-- Arms for literals are passed over if none of them matches. -/
theorem evalArms_noLiteral (hbind : ∀ m ∈ e.members, ∀ t, m.symbol = .literal t →
      (arm (written m.name, t)).pat.bind scope x = none) (rest : List Arm) :
    evalArms scope ((literalNames e).map arm ++ rest) x vars = evalArms scope rest x vars := by
  refine evalArms_append (List.forall_mem_map.mpr fun ⟨n, t⟩ hnt => ?_) rest
  obtain ⟨m, hm, ht, rfl⟩ := mem_literalNames.mp hnt
  exact hbind m hm t ht

end

theorem eq_of_symbol (hd : e.Distinct) {m m' : Member} (hm : m ∈ e.members) (hm' : m' ∈ e.members)
    (h : m.symbol = m'.symbol) : m = m' :=
  List.inj_on_of_nodup_map (nodup_symbols hd) hm hm' h

theorem eq_of_written {m m' : Member} (hm : m ∈ e.members) (hm' : m' ∈ e.members)
    (h : written m.name = written m'.name) : m = m' :=
  List.inj_on_of_nodup_map e.nodup_written_members hm hm' h

theorem clear_of_constants {scope : Naming} {object : Member → Object}
    (h : scope.constants = e.members.map fun m => (written m.name, object m)) : scope.Clear := by
  constructor
  · rw [h, List.map_map]
    exact e.nodup_written_members
  · rw [h]
    simp only [List.mem_map]
    rintro _ ⟨m, hm, rfl⟩ hquote
    have hparts := (e.identifier_members m hm).parts
    have hname : '"' ∉ m.name.toList := fun hmem => absurd (hparts _ hmem) (by decide)
    rcases written_cases m.name with hw | hw | hw <;> simp_all

/-- The first of the functions that read an enumeration is not hidden by the others. -/
theorem tryParse_run {f : Function} {others : List Associated}
    (h : enumerationReaders e = .function f :: others) (hname : f.name = e.tryParseName)
    (hparams : f.params = [valueParam]) (hothers : ∀ a ∈ others, ∃ g : Function,
      a = .function g ∧ g.name = e.parseName ∧ g.params = [valueParam]) (value : Option String) :
    e.tryParse value =
      (f.run (e.scope.outside (written e.name)) [.ofText value]).result? := by
  have hne : ("Self::" ++ e.tryParseName == "Self::" ++ e.parseName) = false := by
    refine beq_eq_false_iff_ne.mpr fun heq => ?_
    rw [String.append_right_inj, tryParseName, parseName] at heq
    simpa using congrArg (·.toList.head?) heq
  have hkept (scope : Naming) : (others.foldl Naming.add scope).functions.lookup
      ("Self::" ++ e.tryParseName) = scope.functions.lookup ("Self::" ++ e.tryParseName) := by
    clear h
    induction others generalizing scope with
    | nil => rfl
    | cons a others ih =>
      obtain ⟨⟨g, rfl, hg, hgp⟩, hrest⟩ := List.forall_mem_cons.mp hothers
      rw [List.foldl_cons, ih hrest, Naming.add_function hgp, hg, List.lookup_cons, hne]
  rw [tryParse, readerScope, h, List.foldl_cons, hkept, Naming.add_function hparams, hname,
    List.lookup_cons_self]
  rfl

end XmlBinding.Binding.Enumeration
