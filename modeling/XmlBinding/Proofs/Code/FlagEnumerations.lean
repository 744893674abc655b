import XmlBinding.Proofs.Code.Literals
import Mathlib.Data.Nat.Bitwise

/-! # Types of flags

The type of an enumeration of flags has a constant for every literal, with one bit, and one for the
empty set. Sets are joined by their bits, and the text of a set lists the literals whose bits it
has.
-/
namespace XmlBinding.Code
open Binding Text

/-- A set of flags. -/
def flagSet (bits : Nat) : Object := .made "Self" [.number bits]

section
variable {f : Function} (scope : Naming) (a b : Nat)

theorem part?_flagSet : (flagSet a).part? = some (.number a) := rfl

theorem changePart_flagSet (f : Object → Option Object) :
    (flagSet a).changePart f = (f (.number a)).map fun x => .made "Self" [x] := rfl

theorem binary_and : binary "&" (.number a) (.number b) = some (.number (a &&& b)) := rfl

theorem binary_eq : binary "==" (.number a) (.number b) = some (.truth (a == b)) := rfl

theorem run_contains (hparams : f.params = [.self "self", .typed "other" (.path "Self")])
    (hbody : f.body = [.result (.binary "==" (.paren (.binary "&" (.field self "0")
      (.field (.word "other") "0"))) (.field (.word "other") "0"))]) :
    (f.run scope [flagSet a, flagSet b]).result? = some (.truth (a &&& b == b)) := by
  have hself (vars : Vars) : scope.word (("self", flagSet a) :: vars) "self" = some (flagSet a) :=
    Naming.word_name (by decide) (by simp)
  have hother : scope.word [("self", flagSet a), ("other", flagSet b)] "other" =
      some (flagSet b) := Naming.word_name (by decide) (by simp [List.lookup_cons])
  simp [Function.run, hparams, hbody, Param.variable, evalBody, Expr.eval, self, hself, hother,
    part?_flagSet, binary_and, binary_eq, Outcome.result?]

theorem run_bitorAssign (hparams : f.params = [.self "&mut self", .typed "rhs" (.path "Self")])
    (hbody : f.body = [.run (.binary "|=" (.field self "0") (.field (.word "rhs") "0"))]) :
    (f.run scope [flagSet a, flagSet b]).valueOf? "self" = some (flagSet (a ||| b)) := by
  have hrhs : scope.word [("self", flagSet a), ("rhs", flagSet b)] "rhs" =
      some (flagSet b) := Naming.word_name (by decide) (by simp [List.lookup_cons])
  simp [Function.run, hparams, hbody, Param.variable, evalBody, Expr.eval, self, hrhs,
    part?_flagSet, Expr.change, changePart_flagSet, Naming.orAssign, Vars.set, Outcome.valueOf?]
  rfl

end

section
variable {α : Type} {g : α → Object} {l : List α}

theorem evalAll_map {scope : Naming} {vars : Vars} {f : α → Expr}
    (h : ∀ a ∈ l, (f a).eval scope vars = .next (g a) vars) :
    evalAll scope (l.map f) vars = .next (l.map g) vars := by
  induction l with
  | nil => rfl
  | cons a l ih =>
    obtain ⟨ha, hl⟩ := List.forall_mem_cons.mp h
    rw [List.map_cons, evalAll, ha, Outcome.bind_next, ih hl, Outcome.bind_next, List.map_cons]

theorem keepBy_map {f : Meaning} {p : α → Bool} (h : ∀ a ∈ l, f [g a] = some (.truth (p a))) :
    keepBy f (l.map g) = some ((l.filter p).map g) := by
  induction l with
  | nil => rfl
  | cons a l ih =>
    obtain ⟨ha, hl⟩ := List.forall_mem_cons.mp h
    cases hp : p a <;> simp [keepBy, ih hl, ha, hp, Object.truth?]

theorem mapM_map {β : Type} {f : Object → Option β} {k : α → β}
    (h : ∀ a ∈ l, f (g a) = some (k a)) : (l.map g).mapM f = some (l.map k) := by
  induction l with
  | nil => rfl
  | cons a l ih =>
    obtain ⟨ha, hl⟩ := List.forall_mem_cons.mp h
    simp [List.mapM_cons, ha, ih hl]

end

/-- A set has a flag if it has its bit. -/
theorem and_two_pow_beq (b i : Nat) : (b &&& 2 ^ i == 2 ^ i) = b.testBit i := by
  have hpos : 2 ^ i ≠ 0 := (Nat.two_pow_pos i).ne'
  rw [Nat.and_two_pow]
  cases b.testBit i <;> simp [hpos.symm]

/-- Constants are added with the sets that they are. -/
theorem foldl_flagConstant {scope : Naming}
    (hself : scope.functions.lookup "Self" = some fun xs => some (.made "Self" xs))
    {ms : List Member} (hms : ∀ m ∈ ms, ∃ n < 2 ^ 32, m.number = (n : Nat)) :
    (ms.map flagConstant).foldl Naming.add scope = { scope with
      constants :=
        scope.constants ++ ms.map fun m => (written m.name, flagSet m.number.toNat) } := by
  induction ms generalizing scope with
  | nil => simp
  | cons m ms ih =>
    obtain ⟨⟨n, hn, hm⟩, hms⟩ := List.forall_mem_cons.mp hms
    have hadd : scope.add (flagConstant m) = { scope with
        constants := scope.constants ++ [(written m.name, flagSet m.number.toNat)] } := by
      have hcall := eval_callOf (word_number hn) hself
      rw [flagConstant, Naming.add, hm, hcall]
      rfl
    rw [List.map_cons, List.foldl_cons, hadd, ih (by exact hself) hms, List.append_assoc]
    rfl

end XmlBinding.Code

namespace XmlBinding.Binding.Enumeration
open Schema Code Text

variable {e : Enumeration}

/-- Within an enumeration of flags there are its constants. -/
def flagScope (e : Enumeration) : Naming where
  path := "Self"
  constants := e.members.map fun m => (written m.name, flagSet m.number.toNat)
  functions := ("Self", fun xs => some (.made "Self" xs)) :: Naming.libraryFunctions
  methods := []
  updates := []

/-- What is known of the members of an enumeration of flags. -/
theorem exists_bit (hd : e.Distinct) {done fs : List Facet} (he : e.literals = done ++ fs)
    {taken : List String} {m : Member}
    (hm : m ∈ literalMembers flagName (Nat.pow 2) taken done.length fs) :
    ∃ i < e.literals.length, m.number = (2 ^ i : Nat) ∧ ∃ s, m.symbol = .literal s ∧
      e.bit? s = some (2 ^ i) := by
  induction fs generalizing done taken with
  | nil => cases hm
  | cons f fs ih =>
    rw [literalMembers] at hm
    rcases List.mem_cons.mp hm with rfl | hm
    · exact ⟨done.length, by simp [he], rfl, f.value, rfl, bit?_eq hd he⟩
    · have hlength : (done ++ [f]).length = done.length + 1 := List.length_append
      exact @ih (done ++ [f]) (by simp [he]) _ (hlength ▸ hm)

section
variable (hf : e.form = .flags) (hd : e.Distinct)
include hf hd

/-- Every member but the first has the bit of its literal. -/
theorem flag_of_mem {m : Member} (hm : m ∈ e.members) : m = emptyMember ∨
    ∃ i < e.literals.length, m.number = (2 ^ i : Nat) ∧
      ∃ s, m.symbol = .literal s ∧ e.bit? s = some (2 ^ i) := by
  rw [members, hf] at hm
  rcases List.mem_cons.mp hm with rfl | hm
  · exact .inl rfl
  · exact .inr (exists_bit hd (List.nil_append _).symm hm)

theorem bit?_member {m : Member} (hm : m ∈ e.members) {s : String} (hs : m.symbol = .literal s) :
    ∃ i, m.number.toNat = 2 ^ i ∧ e.bit? s = some (2 ^ i) := by
  rcases flag_of_mem hf hd hm with rfl | ⟨i, hi, hnumber, t, ht, hbit⟩
  · cases hs
  · cases ht.symm.trans hs
    exact ⟨i, by rw [hnumber]; rfl, hbit⟩

variable (hl : e.literals.length ≤ 32)
include hl

theorem exists_number {m : Member} (hm : m ∈ e.members) :
    ∃ n < 2 ^ 32, m.number = (n : Nat) := by
  rcases flag_of_mem hf hd hm with rfl | ⟨i, hi, hnumber, -⟩
  · exact ⟨0, by decide, rfl⟩
  · exact ⟨2 ^ i, Nat.pow_lt_pow_right (by decide) (by omega), hnumber⟩

/-- The methods of a type of flags, of which each knows those before it. -/
theorem scope_flags : ∃ bits has bitor assign : Meaning,
    e.scope = { e.flagScope with
      methods := [("bitor", bitor), ("xml_value", fun xs => ((flagsToText e).run { e.flagScope with
        methods := [("contains", has), ("bits", bits)] } xs).result?),
        ("contains", has), ("bits", bits)]
      updates := [("bitor_assign", assign)] } ∧
    (∀ a b, has [flagSet a, flagSet b] = some (.truth (a &&& b == b))) ∧
    ∀ a b, assign [flagSet a, flagSet b] = some (flagSet (a ||| b)) := by
  rw [scope, enumerationItems, hf]
  simp only [flagsItems, List.foldl_cons, List.foldl_nil, Naming.addItem, List.foldl_append]
  rw [foldl_flagConstant rfl fun m hm => exists_number hf hd hl hm, Naming.add_update rfl,
    Naming.add_method rfl, Naming.add_method rfl, Naming.add_method rfl, Naming.add_method rfl]
  exact ⟨_, _, _, _, rfl, fun a b => run_contains _ a b rfl rfl,
    fun a b => run_bitorAssign _ a b rfl rfl⟩

end

theorem literalsIn_eq (b i : Nat) (fs : List Facet) :
    literalsIn b i fs = ((fs.zipIdx i).filter fun p => b.testBit p.2).map (·.1.value) := by
  induction fs generalizing i with
  | nil => rfl
  | cons f fs ih =>
    rw [literalsIn, List.zipIdx_cons, ih]
    split <;> simp_all

theorem mem_of_mem_flagLiterals {b : Nat} {w : String} (hw : w ∈ e.flagLiterals b) :
    w ∈ e.literals.map (·.value) := by
  rw [flagLiterals, literalsIn_eq] at hw
  obtain ⟨p, hp, rfl⟩ := List.mem_map.mp hw
  exact List.mem_map_of_mem (List.fst_mem_of_mem_zipIdx (List.mem_of_mem_filter hp))

/-- The literals and bits of the members of an enumeration of flags. -/
theorem bits_literalMembers (convert : String → String) (taken : List String) (i : Nat)
    (fs : List Facet) :
    (literalMembers convert (Nat.pow 2) taken i fs).map (fun m => (m.symbol.text?, m.number)) =
      (fs.zipIdx i).map fun p => (some p.1.value, ((2 ^ p.2 : Nat) : Int)) := by
  induction fs generalizing taken i with
  | nil => rfl
  | cons f fs ih =>
    rw [literalMembers, List.map_cons, ih, List.zipIdx_cons, List.map_cons]
    rfl

theorem members_flags (hf : e.form = .flags) : e.members = emptyMember ::
    literalMembers flagName (Nat.pow 2) [emptyMember.name] 0 e.literals := by
  rw [members, hf]

theorem mapM_literal (scope : Naming) (b : Nat) (ps : List (Facet × Nat)) :
    (ps.map fun p => Object.many [flagSet (2 ^ p.2), .text p.1.value]).mapM (fun x => do
      ((Expr.word "literal").eval scope ((← bindAll scope [.tuple [.word "_", .word "literal"]]
        [x]) ++ [("self", flagSet b)])).result?) =
      some (ps.map fun p => .text p.1.value) := by
  refine mapM_map fun p _ => ?_
  have hliteral (vars : Vars) : scope.word (("literal", .text p.1.value) :: vars) "literal" =
      some (.text p.1.value) := Naming.word_name (by decide) (by simp)
  have hbind (x : Object) : scope.bindWord "literal" x = some [("literal", x)] :=
    Naming.bindWord_name (by decide) (by decide) x
  simp [bindAll, Pat.bind, hbind, Naming.bindWord_any, Expr.eval, hliteral, Outcome.result?]

/-- What is known within a type of flags where its flags are listed. -/
structure Lists (e : Enumeration) (scope : Naming) : Prop where
  form : e.form = .flags
  path : scope.path = "Self"
  constants : scope.constants = e.members.map fun m => (written m.name, flagSet m.number.toNat)
  contains : ∀ a b, scope.method "contains" (flagSet a) [.object (flagSet b)] =
    some (.truth (a &&& b == b))
  library : ∀ name ∈ ["into_iter", "filter", "map", "collect", "is_empty", "join", "then"],
    scope.methods.lookup name = none

section
variable {scope : Naming} (h : e.Lists scope)
include h

theorem Lists.clear : scope.Clear := e.clear_of_constants h.constants

theorem Lists.method {name : String} (hn : name ∈ ["into_iter", "filter", "map", "collect",
    "is_empty", "join", "then"]) (x : Object) (as : List Argument) :
    scope.method name x as = libraryMethod name x as := by
  rw [Naming.method, h.library name hn]

/-- The array of all flags with their literals. -/
theorem Lists.eval_pairs (vars : Vars) :
    evalAll scope ((literalNames e).map fun (n, s) =>
      Expr.tuple [.word ("Self::" ++ n), stringLiteral s]) vars =
      .next (e.literals.zipIdx.map fun p => .many [flagSet (2 ^ p.2), .text p.1.value]) vars := by
  have hbits := bits_literalMembers flagName [emptyMember.name] 0 e.literals
  have hobjects := congrArg (List.map fun p : Option String × Int =>
    Object.many [flagSet p.2.toNat, .text (p.1.getD "")]) hbits
  have hmem : ∀ m ∈ literalMembers flagName (Nat.pow 2) [emptyMember.name] 0 e.literals,
      m ∈ e.members ∧ ∃ s, m.symbol = .literal s := fun m hm =>
    ⟨members_flags h.form ▸ List.mem_cons_of_mem _ hm, exists_literal_of_mem hm⟩
  rw [List.map_map, List.map_map] at hobjects
  rw [literalNames, members_flags h.form, List.filterMap_cons_none rfl]
  generalize literalMembers flagName (Nat.pow 2) [emptyMember.name] 0 e.literals = ms
    at hobjects hmem
  have hnames : (ms.filterMap fun m => m.symbol.text?.map fun s => (written m.name, s)) =
      ms.map fun m => (written m.name, m.symbol.text?.getD "") := by
    refine (List.filterMap_congr fun m hm => ?_).trans (congrFun List.filterMap_eq_map _)
    obtain ⟨-, s, hs⟩ := hmem m hm
    simp [hs, Symbol.text?]
  have htuple : ∀ m ∈ ms, (Expr.tuple [.word ("Self::" ++ written m.name),
      stringLiteral (m.symbol.text?.getD "")]).eval scope vars =
        .next (.many [flagSet m.number.toNat, .text (m.symbol.text?.getD "")]) vars := by
    intro m hm
    have hconstant : (written m.name, flagSet m.number.toNat) ∈ scope.constants :=
      h.constants ▸ List.mem_map_of_mem (f := fun m => (written m.name, flagSet m.number.toNat))
        (hmem m hm).1
    have hword := Naming.word_path h.clear hconstant vars
    have hself : "Self" ++ "::" = "Self::" := by decide
    rw [h.path, hself] at hword
    simp [Expr.eval, evalAll, stringLiteral, Naming.word_literal h.clear, hword]
  rw [hnames, List.map_map]
  exact (evalAll_map htuple).trans (congrArg (Outcome.next · vars) hobjects)

/-- The flags that a set has. -/
theorem Lists.keepBy_contains (b : Nat) (ps : List (Facet × Nat)) :
    keepBy (fun xs => do ((methodOf self "contains" [.unary "*" (.word "flag")]).eval
      scope ((← bindAll scope [.tuple [.word "flag", .word "_"]] xs) ++
        [("self", flagSet b)])).result?)
      (ps.map fun p => .many [flagSet (2 ^ p.2), .text p.1.value]) =
      some ((ps.filter fun p => b.testBit p.2).map fun p =>
        .many [flagSet (2 ^ p.2), .text p.1.value]) := by
  refine keepBy_map fun p _ => ?_
  have hflag (vars : Vars) : scope.word (("flag", flagSet (2 ^ p.2)) :: vars) "flag" =
      some (flagSet (2 ^ p.2)) := Naming.word_name (by decide) (by simp)
  have hself : scope.word [("flag", flagSet (2 ^ p.2)), ("self", flagSet b)] "self" =
      some (flagSet b) := Naming.word_name (by decide) (by simp [List.lookup_cons])
  have hbind (x : Object) : scope.bindWord "flag" x = some [("flag", x)] :=
    Naming.bindWord_name (by decide) (by decide) x
  simp [bindAll, Pat.bind, hbind, Naming.bindWord_any, methodOf, Expr.eval, evalArguments, self,
    hself, hflag, unary, h.contains, and_two_pow_beq, Outcome.result?]

/-- The literals of the flags that a set has. -/
theorem Lists.eval_flags (b : Nat) :
    (Expr.method (methodOf (methodOf (methodOf (.array ((literalNames e).map fun (n, s) =>
      Expr.tuple [.word ("Self::" ++ n), stringLiteral s])) "into_iter" []) "filter"
        [.closure [.tuple [.word "flag", .word "_"]]
          (methodOf self "contains" [.unary "*" (.word "flag")])]) "map"
        [.closure [.tuple [.word "_", .word "literal"]] (.word "literal")])
      "collect" [.apply "Vec" [textRef]] []).eval scope [("self", flagSet b)] =
      .next (.many ((e.flagLiterals b).map .text)) [("self", flagSet b)] := by
  have harray := congrArg (Outcome.bind · fun xs vars => .next (Object.many xs) vars)
    (h.eval_pairs [("self", flagSet b)])
  have hkeep := congrArg (Option.map Object.many) (h.keepBy_contains b e.literals.zipIdx)
  have hmap := congrArg (Option.map Object.many)
    (mapM_literal scope b (e.literals.zipIdx.filter fun p => b.testBit p.2))
  rw [flagLiterals, literalsIn_eq, List.map_map]
  refine eval_method (eval_method (eval_method (eval_method harray rfl
    (h.method (by simp) _ _)) rfl ((h.method (by simp) _ _).trans hkeep)) rfl
    ((h.method (by simp) _ _).trans hmap)) rfl (h.method (by simp) _ _)

theorem Lists.join (ws : List String) :
    scope.method "join" (.many (ws.map .text)) [.object (.text " ")] =
      some (.text (" ".intercalate ws)) := by
  have htexts : (ws.map Object.text).mapM Object.text? = some ws := by
    simpa using mapM_map (f := Object.text?) (k := id) (l := ws) fun _ _ => rfl
  rw [h.method (by simp)]
  simp [libraryMethod, htexts]

theorem Lists.andThen (c : Bool) (f : Meaning) :
    scope.method "then" (.truth c) [.closure f] =
      if c then (f []).map .present else some .absent := by
  rw [h.method (by simp)]
  cases c <;> rfl

/-- The text of a set lists the literals of its flags. -/
theorem Lists.run_flagsToText (b : Nat) :
    ((flagsToText e).run scope [flagSet b]).result? = some (.ofText (e.flagsText b)) := by
  have hbind (x : Object) : scope.bindWord "literals" x = some [("literals", x)] :=
    Naming.bindWord_name (by decide) (by decide) x
  have hword (x : Object) (vars : Vars) : scope.word (("literals", x) :: vars) "literals" =
      some x := Naming.word_name (by decide) (by simp)
  have hlist := h.eval_flags b
  have hempty (xs : List Object) : scope.method "is_empty" (.many xs) [] =
      some (.truth xs.isEmpty) := h.method (by simp) _ _
  change (evalBody scope (flagsToText e).body [("self", flagSet b)]).result? = _
  simp only [flagsToText, evalBody]
  rw [hlist]
  simp only [Outcome.bind_next, Pat.bind, hbind, Outcome.ofOption_some, List.singleton_append,
    methodOf, Expr.eval, hword, evalArguments, hempty, unary, h.andThen]
  rw [flagsText, ← flagLiterals]
  cases hws : e.flagLiterals b with
  | nil => rfl
  | cons w ws =>
    have hjoin := h.join (w :: ws)
    rw [List.map_cons] at hjoin ⊢
    simp [bindAll, hword, evalArguments, Expr.eval, stringLiteral, Naming.word_literal h.clear,
      hjoin, Outcome.result?, Object.ofText]

end

section
variable (hf : e.form = .flags) (hd : e.Distinct) (hl : e.literals.length ≤ 32)
include hf hd hl

theorem constants_flags : e.scope.constants =
    e.members.map fun m => (written m.name, flagSet m.number.toNat) := by
  obtain ⟨_, _, _, _, hscope, -⟩ := scope_flags hf hd hl
  rw [hscope]
  rfl

/-- Flags are added to a set by the union of bits. -/
theorem orAssign_flags (a b : Nat) :
    e.scope.orAssign (flagSet b) (flagSet a) = some (flagSet (a ||| b)) := by
  obtain ⟨_, _, _, assign, hscope, -, hassign⟩ := scope_flags hf hd hl
  rw [hscope]
  exact hassign a b

theorem xmlValue_flags (b : Nat) : e.xmlValue (flagSet b) = some (.ofText (e.flagsText b)) := by
  obtain ⟨bits, has, _, _, hscope, hhas, -⟩ := scope_flags hf hd hl
  have hlists : e.Lists { e.flagScope with methods := [("contains", has), ("bits", bits)] } :=
    ⟨hf, rfl, rfl, hhas, by simp [List.lookup_cons]⟩
  rw [xmlValue, hscope]
  exact hlists.run_flagsToText b

end

end XmlBinding.Binding.Enumeration
