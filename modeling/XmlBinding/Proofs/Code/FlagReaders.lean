import XmlBinding.Proofs.Code.FlagEnumerations

/-! # Sets of flags are read and written

The generated function goes through the words of a text and joins their flags. It leaves the loop
with the empty set at the first word that is no literal. What it finds is what the value of a tree
is read as.
-/
namespace XmlBinding.Binding.Enumeration
open Schema Code Text

variable {e : Enumeration}

theorem bit?_eq_none {w : String} : e.bit? w = none ↔ w ∉ e.literals.map (·.value) := by
  simp [bit?]

/-- What is done with every word of a set. -/
def tokenBody (e : Enumeration) : List Stmt :=
  [.result (.select (.word "token") ((literalNames e).map (fun (n, s) => Arm.mk (.word (literal s))
    (.binary "|=" (.word "flags") (.word (written e.name ++ "::" ++ n)))) ++
      [⟨.word "_", .giveBack
        (callOf "Err" [.word (written e.name ++ "::" ++ emptyMember.name)])⟩]))]

section
variable (hf : e.form = .flags) (hd : e.Distinct) (hl : e.literals.length ≤ 32)
include hf hd hl

theorem method_split (s : String) : (e.scope.outside (written e.name)).method "split_whitespace"
    (.text s) [] = some (.many ((words s).map .text)) := by
  obtain ⟨_, _, _, _, hscope, -⟩ := scope_flags hf hd hl
  rw [hscope]
  rfl

theorem clear_flags : (e.scope.outside (written e.name)).Clear :=
  e.clear_of_constants (constants_flags hf hd hl)

/-- The constant of a member. -/
theorem word_member {m : Member} (hm : m ∈ e.members) (vars : Vars) :
    (e.scope.outside (written e.name)).word vars (written e.name ++ "::" ++ written m.name) =
      some (flagSet m.number.toNat) := by
  refine Naming.word_path (clear_flags hf hd hl) ?_ vars
  change _ ∈ e.scope.constants
  rw [constants_flags hf hd hl]
  exact List.mem_map_of_mem (f := fun m => (written m.name, flagSet m.number.toNat)) hm

theorem word_empty (vars : Vars) :
    (e.scope.outside (written e.name)).word vars (written e.name ++ "::" ++ emptyMember.name) =
      some (flagSet 0) :=
  word_member hf hd hl (m := emptyMember) (by simp [members, hf]) vars

/-- Leaving with the empty set. -/
theorem eval_refused (vars : Vars) :
    (Expr.giveBack (callOf "Err" [.word (written e.name ++ "::" ++ emptyMember.name)])).eval
      (e.scope.outside (written e.name)) vars = .returned (.err (flagSet 0)) := by
  have hcall : (callOf "Err" [.word (written e.name ++ "::" ++ emptyMember.name)]).eval _ vars =
      .next (.err (flagSet 0)) vars := eval_callOf (word_empty hf hd hl vars) rfl
  rw [Expr.eval, hcall, Outcome.bind_next]

/-- A word that is a literal adds its bit, and any other ends the function. -/
theorem eval_token (w : String) (b : Nat) (rest : Vars) :
    evalBody (e.scope.outside (written e.name)) e.tokenBody
      (("token", .text w) :: ("flags", flagSet b) :: rest) =
    match e.bit? w with
    | some k => .next .unit (("token", .text w) :: ("flags", flagSet (b ||| k)) :: rest)
    | none => .returned (.err (flagSet 0)) := by
  have htoken : (e.scope.outside (written e.name)).word
      (("token", .text w) :: ("flags", flagSet b) :: rest) "token" = some (.text w) :=
    Naming.word_name (by decide) (by simp)
  have hbind (s : String) : (Pat.word (literal s)).bind (e.scope.outside (written e.name))
      (.text w) = if s = w then some [] else none := by
    refine (Naming.bindWord_literal (clear_flags hf hd hl) s (.text w)).trans ?_
    simp [Object.text?, eq_comm]
  rw [tokenBody, evalBody, Expr.eval, eval_word htoken, Outcome.bind_next]
  by_cases hw : w ∈ e.literals.map (·.value)
  · obtain ⟨m, hm, hsymbol⟩ := exists_member.mpr hw
    rw [evalArms_literal hm hsymbol]
    · obtain ⟨i, hnumber, hbit⟩ := bit?_member hf hd hm hsymbol
      have hword := word_member hf hd hl hm (("token", .text w) :: ("flags", flagSet b) :: rest)
      have hadd : (e.scope.outside (written e.name)).orAssign (flagSet (2 ^ i)) (flagSet b) =
        some (flagSet (b ||| 2 ^ i)) := orAssign_flags hf hd hl b (2 ^ i)
      rw [hnumber] at hword
      simp [Expr.eval, hword, Expr.change, List.lookup_cons, hadd, Vars.set, hbit]
    · intro m' hm' s hs
      refine (hbind s).trans (if_congr ?_ rfl rfl)
      constructor
      · rintro rfl
        exact eq_of_symbol hd hm' hm (hs.trans hsymbol.symm)
      · rintro rfl
        exact Symbol.literal.inj (hs.symm.trans hsymbol)
  · have hany : (Pat.word "_").bind (e.scope.outside (written e.name)) (.text w) = some [] :=
      Naming.bindWord_any _ _
    rw [bit?_eq_none.mpr hw, evalArms_noLiteral, evalArms_cons, hany]
    · exact congrArg (Outcome.leave 0) (eval_refused hf hd hl _)
    · intro m hm s hs
      refine (hbind s).trans (if_neg ?_)
      rintro rfl
      exact hw (exists_member.mp ⟨m, hm, hs⟩)

/-- The loop collects the bits of words as far as they are literals. -/
theorem iterate_tokens (ws : List String) (b : Nat) (rest : Vars) :
    iterate (fun x vars =>
      (Outcome.ofOption ((Pat.word "token").bind (e.scope.outside (written e.name)) x) vars).bind
        fun bound vars => (evalBody (e.scope.outside (written e.name)) e.tokenBody
          (bound ++ vars)).leave bound.length)
      (ws.map .text) (("flags", flagSet b) :: rest) =
    match e.readBits ws with
    | some r => .next .unit (("flags", flagSet (b ||| r)) :: rest)
    | none => .returned (.err (flagSet 0)) := by
  induction ws generalizing b with
  | nil => simp [readBits, iterate]
  | cons w ws ih =>
    have hbind : (Pat.word "token").bind (e.scope.outside (written e.name)) (.text w) =
        some [("token", .text w)] := Naming.bindWord_name (by decide) (by decide) _
    rw [List.map_cons, iterate, hbind, Outcome.ofOption_some, Outcome.bind_next,
      List.singleton_append, eval_token hf hd hl]
    cases hw : e.bit? w with
    | none => simp [readBits, hw]
    | some k =>
      simp only [Outcome.leave_next, List.length_singleton, List.drop_succ_cons, List.drop_zero,
        Outcome.bind_next]
      rw [ih]
      cases hws : e.readBits ws <;> simp [readBits, hw, hws, Nat.or_assoc]

/-- What is done with a text that is not empty. -/
theorem evalBody_tokens (s : String) (rest : Vars) :
    (evalBody (e.scope.outside (written e.name)) [
      .declare (.word "mut flags") (.word (written e.name ++ "::" ++ emptyMember.name)),
      .result (.forIn (.word "token") (methodOf (.word "value") "split_whitespace" [])
        e.tokenBody),
      .result (callOf "Ok" [.word "flags"])] (("value", .text s) :: rest)).result? =
    some (match e.readBits (words s) with
      | some b => .ok (flagSet b)
      | none => .err (flagSet 0)) := by
  have hempty := word_empty hf hd hl (("value", .text s) :: rest)
  have hbind : (Pat.word "mut flags").bind (e.scope.outside (written e.name)) (flagSet 0) =
      some [("flags", flagSet 0)] := Naming.bindWord_name (by decide) (by decide) _
  have hvalue : (e.scope.outside (written e.name)).word
      (("flags", flagSet 0) :: ("value", .text s) :: rest) "value" = some (.text s) :=
    Naming.word_name (by decide) (by simp [List.lookup_cons])
  have hsplit : (methodOf (.word "value") "split_whitespace" []).eval
      (e.scope.outside (written e.name)) (("flags", flagSet 0) :: ("value", .text s) :: rest) =
      .next (.many ((words s).map .text)) (("flags", flagSet 0) :: ("value", .text s) :: rest) :=
    eval_method (eval_word hvalue) rfl (method_split hf hd hl s)
  have hloop := iterate_tokens hf hd hl (words s) 0 (("value", .text s) :: rest)
  rw [evalBody, eval_word hempty, Outcome.bind_next, hbind, Outcome.ofOption_some,
    Outcome.bind_next, List.singleton_append, evalBody, Expr.eval, hsplit, Outcome.bind_next]
  · dsimp only
    rw [hloop]
    cases e.readBits (words s) with
    | none => rfl
    | some b =>
      have hflags : (e.scope.outside (written e.name)).word
          (("flags", flagSet b) :: ("value", .text s) :: rest) "flags" = some (flagSet b) :=
        Naming.word_name (by decide) (by simp)
      have hok : (callOf "Ok" [.word "flags"]).eval _ _ = .next (.ok (flagSet b)) _ :=
        eval_callOf hflags rfl
      dsimp only
      rw [Outcome.bind_next, evalBody, Nat.zero_or, hok]
      rfl
  · exact List.cons_ne_nil _ _

/-- The generated function finds what the value of a tree is read as. -/
theorem tryParse_flags (value : Option String) : e.tryParse value =
    some (match e.readFlags value with
      | some b => .ok (flagSet b)
      | none => .err (flagSet 0)) := by
  have hreaders : enumerationReaders e = flagsReaders e := by rw [enumerationReaders, hf]
  rw [tryParse_run hreaders rfl rfl nofun]
  have hvalue (x : Object) (vars : Vars) : (e.scope.outside (written e.name)).word
      (("value", x) :: vars) "value" = some x := Naming.word_name (by decide) (by simp)
  change (evalBody _ (.declare (.word "value") (.select (.word "value")
    [⟨noText, .giveBack (callOf "Err" [.word (written e.name ++ "::" ++ emptyMember.name)])⟩,
      ⟨.apply "Some" [.word "value"], .word "value"⟩]) :: _) [("value", .ofText value)]).result? = _
  rw [evalBody, Expr.eval, eval_word (hvalue _ _), Outcome.bind_next, evalArms_cons,
    bind_noText (clear_flags hf hd hl)]
  by_cases habsent : value.getD "" = ""
  · have hread : e.readFlags value = none := by
      cases value <;> simp_all [readFlags]
    rw [if_pos habsent, hread]
    dsimp only
    rw [List.nil_append, eval_refused hf hd hl]
    rfl
  · obtain ⟨s, rfl⟩ : ∃ s, value = some s := by
      cases value with
      | none => exact absurd rfl habsent
      | some s => exact ⟨s, rfl⟩
    have hread : e.readFlags (some s) = e.readBits (words s) := if_neg habsent
    have hbind (x : Object) : (e.scope.outside (written e.name)).bindWord "value" x =
        some [("value", x)] := Naming.bindWord_name (by decide) (by decide) x
    have harm : evalArms (e.scope.outside (written e.name))
        [⟨.apply "Some" [.word "value"], .word "value"⟩] (.ofText (some s))
        [("value", .ofText (some s))] = .next (.text s) [("value", .ofText (some s))] := by
      simp [evalArms, Pat.bind, bindAll, Object.ofText, Object.present, hbind,
        eval_word (hvalue _ _)]
    have hdeclare : (Pat.word "value").bind (e.scope.outside (written e.name)) (.text s) =
        some [("value", .text s)] := hbind _
    rw [if_neg habsent, hread, ← evalBody_tokens hf hd hl s [("value", .ofText (some s))]]
    dsimp only
    rw [harm, Outcome.bind_next, hdeclare, Outcome.ofOption_some, Outcome.bind_next,
      List.singleton_append]
    exact Outcome.result?_leave _ _

end

/-- The union of the flags of words. The literal at place `i` is the flag with the bit `2 ^ i`. -/
def union (literals ws : List String) : Nat :=
  ws.foldr (fun w bits => 2 ^ literals.idxOf w ||| bits) 0

theorem testBit_union {literals ws : List String} {i : Nat} :
    (union literals ws).testBit i = true ↔ ∃ w ∈ ws, literals.idxOf w = i := by
  induction ws with
  | nil => simp [union]
  | cons w ws ih =>
    rw [union, List.foldr_cons, ← union, Nat.testBit_or, Bool.or_eq_true, ih, Nat.testBit_two_pow]
    simp

/-- Neither order nor repetition of words matters. -/
theorem union_congr {literals ws ws' : List String} (h : ∀ w, w ∈ ws ↔ w ∈ ws') :
    union literals ws = union literals ws' := by
  refine Nat.eq_of_testBit_eq fun i => Bool.eq_iff_iff.mpr ?_
  simp only [testBit_union, h]

theorem bit?_of_mem {w : String} (hw : w ∈ e.literals.map (·.value)) :
    e.bit? w = some (2 ^ (e.literals.map (·.value)).idxOf w) := by
  obtain ⟨f, hf, rfl⟩ := List.mem_map.mp hw
  rw [bit?, List.findIdx?_eq_some_of_exists ⟨f, hf, by simp⟩, List.idxOf, List.findIdx_map]
  rfl

/-- Words are read for the union of their flags if all of them are literals. -/
theorem readBits_of_mem {ws : List String} (h : ∀ w ∈ ws, w ∈ e.literals.map (·.value)) :
    e.readBits ws = some (union (e.literals.map (·.value)) ws) := by
  induction ws with
  | nil => rfl
  | cons w ws ih =>
    obtain ⟨hw, hws⟩ := List.forall_mem_cons.mp h
    simp [readBits, bit?_of_mem hw, ih hws, union]

theorem readBits_of_notMem {ws : List String} {w : String} (hw : w ∈ ws)
    (h : w ∉ e.literals.map (·.value)) : e.readBits ws = none := by
  induction ws with
  | nil => cases hw
  | cons v ws ih =>
    rcases List.mem_cons.mp hw with rfl | hw
    · simp [readBits, bit?_eq_none.mpr h]
    · simp [readBits, ih hw]

/-- The generated functions of an enumeration of flags read sets of literals, and list them. -/
structure ReadsFlags (e : Enumeration) (literals : List String) : Prop where
  constants : e.scope.constants.map Prod.snd =
    flagSet 0 :: (List.range literals.length).map fun i => flagSet (2 ^ i)
  tryParse_ok : ∀ s, s ≠ "" → (∀ w ∈ words s, w ∈ literals) →
    e.tryParse (some s) = some (.ok (flagSet (union literals (words s))))
  tryParse_congr : ∀ s t, s ≠ "" → t ≠ "" → (∀ w, w ∈ words s ↔ w ∈ words t) →
    e.tryParse (some s) = e.tryParse (some t)
  tryParse_unknown : ∀ s, ∀ w ∈ words s, w ∉ literals →
    e.tryParse (some s) = some (.err (flagSet 0))
  tryParse_empty : ∀ value, value.getD "" = "" → e.tryParse value = some (.err (flagSet 0))
  xmlValue : (∀ w ∈ literals, w ≠ "" ∧ ∀ c ∈ w.toList, isBlank c = false) →
    ∀ bits, bits ≠ 0 → bits < 2 ^ literals.length → ∃ text,
      e.xmlValue (flagSet bits) = some (.ofText (some text)) ∧
        e.tryParse (some text) = some (.ok (flagSet bits))
  xmlValue_zero : e.xmlValue (flagSet 0) = some .absent

/-- Whatever the facets are of which flags are made: each literal has a bit of its own, texts are
read for the unions of their words, and sets of words can be read again. -/
theorem readsFlags_toFlags {name : String} {documentation owner : Option String} {fs : List Facet}
    (h : (ofFacets name documentation owner fs).toFlags = .ok e) :
    e.ReadsFlags ((distinctLiterals fs).map (·.value)) := by
  obtain ⟨hf, hl, hliterals⟩ : e.form = .flags ∧ e.literals.length ≤ 32 ∧
      e.literals = distinctLiterals fs := by
    rw [toFlags, if_neg (by simp [ofFacets])] at h
    split at h
    · cases h
    · next hle =>
      cases h
      exact ⟨rfl, Nat.not_lt.mp hle, rfl⟩
  have hd : e.Distinct := by
    rw [Distinct, hliterals]; exact nodup_distinctLiterals fs
  rw [← hliterals]
  clear h hliterals
  constructor
  case constants =>
    have hbits := congrArg (List.map fun p : Option String × Int => flagSet p.2.toNat)
      (bits_literalMembers flagName [emptyMember.name] 0 e.literals)
    rw [List.map_map, List.map_map] at hbits
    have hrange : e.literals.zipIdx.map Prod.snd = List.range e.literals.length := by
      rw [List.zipIdx_map_snd, List.range_eq_range']
    rw [constants_flags hf hd hl, members_flags hf, List.map_map, List.map_cons, List.length_map,
      ← hrange, List.map_map]
    exact congrArg (flagSet 0 :: ·) hbits
  case tryParse_ok =>
    intro s hs hw
    rw [tryParse_flags hf hd hl, readFlags, if_neg hs, readBits_of_mem hw]
  case tryParse_congr =>
    intro s t hs ht hst
    have hbits : e.readBits (words s) = e.readBits (words t) := by
      by_cases hw : ∀ w ∈ words s, w ∈ e.literals.map (·.value)
      · rw [readBits_of_mem hw, readBits_of_mem fun w h => hw w ((hst w).mpr h), union_congr hst]
      · push Not at hw
        obtain ⟨w, hmem, hw⟩ := hw
        rw [readBits_of_notMem hmem hw, readBits_of_notMem ((hst w).mp hmem) hw]
    rw [tryParse_flags hf hd hl, tryParse_flags hf hd hl, readFlags, readFlags, if_neg hs,
      if_neg ht, hbits]
  case tryParse_unknown =>
    intro s w hmem hw
    rw [tryParse_flags hf hd hl, readFlags, readBits_of_notMem hmem hw, ite_self]
  case tryParse_empty =>
    intro value hvalue
    have hread : e.readFlags value = none := by
      cases value <;> simp_all [readFlags]
    rw [tryParse_flags hf hd hl, hread]
  case xmlValue =>
    intro hwords bits hne hbits
    rw [List.length_map] at hbits
    refine ⟨" ".intercalate (e.flagLiterals bits), ?_, ?_⟩
    · rw [xmlValue_flags hf hd hl, flagsText_eq (flagLiterals_ne_nil hd hbits hne)]
    · rw [tryParse_flags hf hd hl, readFlags_intercalate hd hbits hne]
      exact fun w hw => hwords w (mem_of_mem_flagLiterals hw)
  case xmlValue_zero =>
    rw [xmlValue_flags hf hd hl, flagsText, literalsIn_eq]
    simp [Object.ofText]

/-- Three permissions, of which one is declared twice. -/
def permissions : List Facet := [⟨"read", none⟩, ⟨"write", none⟩, ⟨"read", none⟩, ⟨"all", none⟩]

theorem readsFlags_permissions :
    ∃ e, (ofFacets "Permission" none none permissions).toFlags = .ok e ∧
      e.ReadsFlags ["read", "write", "all"] ∧
        e.tryParse (some "all  read all") = some (.ok (flagSet 5)) := by
  have hflags : (ofFacets "Permission" none none permissions).toFlags =
      .ok ⟨"Permission", none, none, .flags, distinctLiterals permissions⟩ := rfl
  have hreads := readsFlags_toFlags hflags
  exact ⟨_, hflags, hreads, hreads.tryParse_ok "all  read all" (by decide) (by decide)⟩

end XmlBinding.Binding.Enumeration
