import XmlBinding.Text.Property
/-!
# Quoted text

A quoted text stands between two quotation marks. Inside, the quotation mark, the backslash and
whatever would not print by itself are written as escapes.
-/
namespace XmlBinding.Text

/-- Digits of `n` in base 16, in lower case, without leading zeros. -/
def hexDigits (n : Nat) : List Char :=
  Nat.toDigits 16 n

def byNumber (c : Char) : List Char :=
  ['\\', 'u', '\x7b'] ++ hexDigits c.toNat ++ ['\x7d']

/-- What stands for `c` inside quotation marks. Marks that attach to the character before them
are written by number. -/
def escaped (c : Char) : List Char :=
  match c with
  | '\x00' => ['\\', '0']
  | '\t' => ['\\', 't']
  | '\r' => ['\\', 'r']
  | '\n' => ['\\', 'n']
  | '\\' => ['\\', '\\']
  | '"' => ['\\', '"']
  | c =>
    if c.toNat < 0x7F && 0x20 ≤ c.toNat then [c]
    else if inTable graphemeExtend c || inTable unprintable c then byNumber c
    else [c]

/-- The text between quotation marks. -/
def quoted (s : String) : String :=
  String.ofList ('"' :: s.toList.flatMap escaped ++ ['"'])

/-- As `quoted`, but the character number zero before an octal digit takes two digits, so that a
reader cannot take the three characters for one octal escape. -/
def literalBody : List Char → List Char
  | '\x00' :: d :: r =>
    (if '0' ≤ d ∧ d ≤ '7' then ['\\', 'x', '0', '0'] else escaped '\x00') ++ literalBody (d :: r)
  | c :: r => escaped c ++ literalBody r
  | [] => []

/-- A string literal of a program text. -/
def literal (s : String) : String :=
  String.ofList ('"' :: literalBody s.toList ++ ['"'])

/-- Without the character number zero the two forms agree. -/
theorem literalBody_eq_flatMap {s : List Char} (h : '\x00' ∉ s) :
    literalBody s = s.flatMap escaped := by
  induction s with
  | nil => rfl
  | cons c r ih =>
    have hc : c ≠ '\x00' := fun e => h (e ▸ List.mem_cons_self ..)
    have hr := ih fun m => h (List.mem_cons_of_mem _ m)
    cases r with
    | nil => simp [literalBody]
    | cons d r =>
      rw [literalBody, hr]
      · rfl
      · rintro - - rfl
        exact absurd rfl hc

end XmlBinding.Text
