import XmlBinding.Proofs.Code.Identifiers

/-! # Paths in the code

Types, traits, constructors, functions and variables are all looked up by the first name of their
path. Members are not looked up, and documentation and attributes are no code.
-/
namespace XmlBinding.Code
open Binding Schema Text Value

/-- The name that a path is looked up by. -/
def pathHead (path : String) : String := String.ofList (path.toList.takeWhile (· ≠ ':'))

mutual

/-- The paths in a type. -/
@[simp]
def Ty.paths : Ty → List String
  | .path name | .dynamic name => [name]
  | .apply name args => name :: tyPaths args
  | .reference _ _ t => t.paths
  | .some bound => bound.paths
  | .unit => []

def tyPaths : List Ty → List String
  | [] => []
  | t :: ts => t.paths ++ tyPaths ts

end

mutual

/-- The paths in a pattern. What is bound counts too, for it might be a constructor. -/
@[simp]
def Pat.paths : Pat → List String
  | .word s => [s]
  | .apply name args => name :: patPaths args
  | .tuple args => patPaths args
  | .either cases => patPaths cases
  | .typed p t => p.paths ++ t.paths

def patPaths : List Pat → List String
  | [] => []
  | p :: ps => p.paths ++ patPaths ps

end

mutual

/-- The paths in an expression; literals count as paths of one name. -/
@[simp]
def Expr.paths : Expr → List String
  | .word s => [s]
  | .generic name args => name :: tyPaths args
  | .field e _ => e.paths
  | .call f args => f.paths ++ exprPaths args
  | .method e _ types args => e.paths ++ tyPaths types ++ exprPaths args
  | .question e | .unary _ e | .paren e | .giveBack e => e.paths
  | .binary _ left right | .assign left right => left.paths ++ right.paths
  | .tuple es | .array es => exprPaths es
  | .closure inputs body => patPaths inputs ++ body.paths
  | .block body => stmtPaths body
  | .record name fields => name :: fieldPaths fields
  | .select e arms => e.paths ++ armPaths arms
  | .ifLet p e body | .forIn p e body => p.paths ++ e.paths ++ stmtPaths body

@[simp]
def Stmt.paths : Stmt → List String
  | .declare p e => p.paths ++ e.paths
  | .run e | .result e => e.paths

@[simp]
def Arm.paths : Arm → List String
  | ⟨p, e⟩ => p.paths ++ e.paths

def exprPaths : List Expr → List String
  | [] => []
  | e :: es => e.paths ++ exprPaths es

/-- A field without a value takes that of the variable of its name. -/
def fieldPaths : List (String × Option Expr) → List String
  | [] => []
  | (name, none) :: fs => name :: fieldPaths fs
  | (_, some e) :: fs => e.paths ++ fieldPaths fs

def armPaths : List Arm → List String
  | [] => []
  | arm :: arms => arm.paths ++ armPaths arms

def stmtPaths : List Stmt → List String
  | [] => []
  | s :: ss => s.paths ++ stmtPaths ss

end

def Param.paths : Param → List String
  | .self _ => []
  | .typed _ t => t.paths

/-- A type parameter is found in the function itself. -/
def Function.paths (f : Function) : List String :=
  (f.typeParam.toList.map (·.2) ++ f.params.flatMap Param.paths ++ f.output.elim [] Ty.paths ++
    stmtPaths f.body).filter fun path => f.typeParam.all (·.1 ≠ path)

def Associated.paths : Associated → List String
  | .constant _ _ t e => t.paths ++ e.paths
  | .type _ t => t.paths
  | .function f => f.paths

def Item.paths : Item → List String
  | .words _ | .unit .. => []
  | .enumeration _ _ variants => variants.flatMap (·.2.2.paths)
  | .record _ _ fields => fields.flatMap (·.2.paths)
  | .wrapper _ _ t => t.paths
  | .trait _ _ super => [super]
  | .impl implemented name members =>
    implemented.toList ++ name :: members.flatMap Associated.paths
  | .function f => f.paths

/-- The names by which a file refers to anything. -/
def File.uses (f : File) : List String := (f.items.flatMap Item.paths).map pathHead

@[simp]
theorem tyPaths_eq_flatMap (ts : List Ty) : tyPaths ts = ts.flatMap Ty.paths := by
  induction ts with
  | nil => rfl
  | cons t ts ih => rw [tyPaths, ih, List.flatMap_cons]

@[simp]
theorem patPaths_eq_flatMap (ps : List Pat) : patPaths ps = ps.flatMap Pat.paths := by
  induction ps with
  | nil => rfl
  | cons p ps ih => rw [patPaths, ih, List.flatMap_cons]

@[simp]
theorem exprPaths_eq_flatMap (es : List Expr) : exprPaths es = es.flatMap Expr.paths := by
  induction es with
  | nil => rfl
  | cons e es ih => rw [exprPaths, ih, List.flatMap_cons]

@[simp]
theorem fieldPaths_eq_flatMap (fs : List (String × Option Expr)) :
    fieldPaths fs = fs.flatMap fun f => f.2.elim [f.1] Expr.paths := by
  induction fs with
  | nil => rfl
  | cons f fs ih => obtain ⟨name, _ | e⟩ := f <;> simp [fieldPaths, ih]

@[simp]
theorem armPaths_eq_flatMap (arms : List Arm) : armPaths arms = arms.flatMap Arm.paths := by
  induction arms with
  | nil => rfl
  | cons arm arms ih => rw [armPaths, ih, List.flatMap_cons]

@[simp]
theorem stmtPaths_eq_flatMap (ss : List Stmt) : stmtPaths ss = ss.flatMap Stmt.paths := by
  induction ss with
  | nil => rfl
  | cons s ss ih => rw [stmtPaths, ih, List.flatMap_cons]

@[simp]
theorem paths_stringLiteral (s : String) : (stringLiteral s).paths = [literal s] := by
  rw [stringLiteral, Expr.paths]

@[simp]
theorem paths_self : self.paths = ["self"] := by rw [self, Expr.paths]

@[simp]
theorem paths_callOf (name : String) (args : List Expr) :
    (callOf name args).paths = name :: args.flatMap Expr.paths := by
  simp [callOf]

@[simp]
theorem paths_methodOf (e : Expr) (name : String) (args : List Expr) :
    (methodOf e name args).paths = e.paths ++ args.flatMap Expr.paths := by
  simp [methodOf]

@[simp]
theorem paths_optionOf (t : Ty) : (optionOf t).paths = "Option" :: t.paths := by
  simp [optionOf]

@[simp]
theorem paths_textRef : textRef.paths = ["str"] := by simp [textRef]

@[simp]
theorem paths_optionalText : optionalText.paths = ["Option", "str"] := by simp [optionalText]

/-! ## Names around the code -/

/-- Types that the code imports. -/
def importedNames : List String := ["Any", "RefCell", "Rc", "Weak"]

/-- Types, traits and constructors that are there in any code. -/
def standardNames : List String :=
  ["Option", "Some", "None", "Result", "Ok", "Err", "String", "Vec", "Into"]

/-- What the code refers to without saying where it is, apart from what it declares itself. -/
def outerNames : List String := importedNames ++ standardNames

/-- These names are kept from the types that are declared, all but one. -/
theorem reservedTypeNames_perm :
    ("Into" :: reservedTypeNames).Perm (containerName :: outerNames) := by
  decide

/-- Whatever may be the name of a type is known, if a path starts with it and it is no keyword. -/
def Found (known : List String) (path : String) : Prop :=
  IsTypeName (pathHead path) → pathHead path ∈ known ∨ pathHead path ∈ keywords

instance (known : List String) (path : String) : Decidable (Found known path) :=
  inferInstanceAs (Decidable (_ → _))

/-- All but one of the names around the code are known, and whatever is known is a single name. -/
structure Scope (known : List String) : Prop where
  outer : outerNames.erase "Into" ⊆ known
  simple : ∀ name ∈ known, ':' ∉ name.toList

def AllFound (known paths : List String) : Prop := ∀ path ∈ paths, Found known path

section
variable {known : List String}

@[simp]
theorem allFound_nil : AllFound known [] := by simp [AllFound]

@[simp]
theorem allFound_cons {path : String} {paths : List String} :
    AllFound known (path :: paths) ↔ Found known path ∧ AllFound known paths :=
  List.forall_mem_cons

@[simp]
theorem allFound_append {paths paths' : List String} :
    AllFound known (paths ++ paths') ↔ AllFound known paths ∧ AllFound known paths' :=
  List.forall_mem_append

@[simp]
theorem allFound_flatMap {α : Type} {xs : List α} {f : α → List String} :
    AllFound known (xs.flatMap f) ↔ ∀ x ∈ xs, AllFound known (f x) :=
  List.forall_mem_flatMap

theorem Found.mono {known' : List String} {path : String} (h : Found known path)
    (hsub : known ⊆ known') : Found known' path :=
  fun hname => (h hname).imp_left fun hmem => hsub hmem

theorem pathHead_append {name rest : String} (h : ':' ∉ name.toList) :
    pathHead (name ++ "::" ++ rest) = name := by
  have hname : ∀ c ∈ name.toList, (decide (c ≠ ':')) = true :=
    fun c hc => decide_eq_true fun hcolon => h (hcolon ▸ hc)
  have hhead : (name ++ "::" ++ rest).toList.takeWhile (· ≠ ':') = name.toList := by
    rw [String.append_assoc, String.toList_append, List.takeWhile_append_of_pos hname]
    simp
  rw [pathHead, hhead, String.ofList_toList]

theorem pathHead_eq_self {name : String} (h : ':' ∉ name.toList) : pathHead name = name := by
  have hname : name.toList.takeWhile (· ≠ ':') = name.toList :=
    List.takeWhile_eq_self_iff.mpr
      fun c hc => decide_eq_true fun hcolon => h (hcolon ▸ hc)
  rw [pathHead, hname, String.ofList_toList]

/-- What starts like no type is none. -/
theorem found_of_head? {path : String} {c : Char} (hhead : path.toList.head? = some c)
    (hc : c.isLower = true ∨ c.isDigit = true ∨ isNamePart c = false) : Found known path := by
  obtain ⟨cs, hpath⟩ := List.head?_eq_some_iff.mp hhead
  intro hname
  by_cases hcolon : c = ':'
  · exact absurd (by simp [pathHead, hpath, hcolon]) hname.nonempty
  · have htoList : (pathHead path).toList = c :: cs.takeWhile (· ≠ ':') := by
      simp [pathHead, hpath, hcolon]
    rcases hc with hc | hc | hc
    · exact absurd (hname.capital c (by simp [htoList])) (by simp [hc])
    · exact absurd (hname.start c (by simp [htoList])) (by simp [hc])
    · exact absurd (hname.parts c (by simp [htoList])) (by simp [hc])

@[simp]
theorem found_literal (s : String) : Found known (literal s) :=
  found_of_head? (c := '"') (by simp [literal]) (.inr (.inr (by decide)))

@[simp]
theorem found_numeral (n : Nat) : Found known n.repr := by
  obtain ⟨c, cs, hdigits⟩ : ∃ c cs, Nat.toDigits 10 n = c :: cs :=
    List.exists_cons_of_ne_nil Nat.toDigits_ne_nil
  have hc : c.isDigit = true :=
    Nat.isDigit_of_mem_toDigits (by decide) (by decide) (hdigits ▸ List.mem_cons_self)
  exact found_of_head? (by simp [Nat.repr, hdigits]) (.inr (.inl hc))

@[simp]
theorem found_integer (n : Int) : Found known n.repr := by
  cases n with
  | ofNat n => exact found_numeral n
  | negSucc n => exact found_of_head? (c := '-') (by simp [Int.repr]) (.inr (.inr (by decide)))

@[simp]
theorem found_integerTypeName (t : IntegerType) : Found known (integerTypeName t) := by
  unfold integerTypeName
  split
  · exact found_of_head? (c := 'i') (by simp) (.inl (by decide))
  · exact found_of_head? (c := 'u') (by simp) (.inl (by decide))

theorem found_self (rest : String) : Found known ("Self::" ++ rest) := by
  have hsplit : "Self::" = "Self" ++ "::" := by decide
  have hcolon : ':' ∉ "Self".toList := by decide
  rw [Found, hsplit, pathHead_append hcolon]
  exact fun _ => .inr (by decide)

section
variable (h : Scope known)
include h

theorem Scope.fixed {path : String} (hpath : Found (outerNames.erase "Into") path) :
    Found known path :=
  hpath.mono h.outer

theorem Scope.found {name : String} (hname : name ∈ known) : Found known name :=
  fun _ => .inl ((pathHead_eq_self (h.simple name hname)).symm ▸ hname)

theorem Scope.found_within {name : String} (hname : name ∈ known) (rest : String) :
    Found known (name ++ "::" ++ rest) :=
  fun _ => .inl ((pathHead_append (h.simple name hname)).symm ▸ hname)

end

end

end XmlBinding.Code
