/-!
# Blanks, words and lines

Texts are lists of characters. Words are the maximal runs free of blanks, so a text is its words
up to blanks; lines end at a line feed, which a carriage return may precede.
-/
namespace XmlBinding.Text

/-- The property White_Space. -/
def isBlank (c : Char) : Bool :=
  let n := c.toNat
  (9 ≤ n && n ≤ 13) || n == 32 || n == 0x85 || n == 0xA0 || n == 0x1680 ||
    (0x2000 ≤ n && n ≤ 0x200A) || n == 0x2028 || n == 0x2029 || n == 0x202F || n == 0x205F ||
    n == 0x3000

/-- The blanks of ASCII, without the vertical tab. -/
def isAsciiBlank (c : Char) : Bool :=
  c == ' ' || c == '\t' || c == '\n' || c == '\x0c' || c == '\r'

/-- Every ASCII blank is a blank. -/
theorem isBlank_of_isAsciiBlank {c : Char} (h : isAsciiBlank c = true) : isBlank c = true := by
  simp only [isAsciiBlank, Bool.or_eq_true, beq_iff_eq] at h
  rcases h with (((rfl | rfl) | rfl) | rfl) | rfl <;> decide

/-- The maximal runs of characters that are not blank. -/
def wordsBy (blank : Char → Bool) : List Char → List (List Char)
  | [] => []
  | c :: r =>
    if blank c then wordsBy blank r
    else match r with
      | [] => [[c]]
      | d :: _ =>
        if blank d then [c] :: wordsBy blank r
        else match wordsBy blank r with
          | [] => [[c]]
          | w :: ws => (c :: w) :: ws

/-- No character is lost but blanks. -/
theorem wordsBy_flatten (blank : Char → Bool) (s : List Char) :
    (wordsBy blank s).flatten = s.filter (fun c => !blank c) := by
  induction s with
  | nil => rfl
  | cons c r ih =>
    cases hc : blank c with
    | true => simp [wordsBy, hc, ih]
    | false =>
      cases r with
      | nil => simp [wordsBy, hc]
      | cons d r =>
        cases hd : blank d with
        | true => simp_all [wordsBy]
        | false =>
          generalize hw : wordsBy blank (d :: r) = ws at ih
          cases ws with
          | nil => simp [hd] at ih
          | cons w ws =>
            rw [wordsBy, hw]
            simp [hc, hd, ← ih]

/-- Words separated by any blanks. -/
def words (s : String) : List String :=
  (wordsBy isBlank s.toList).map String.ofList

/-- Words separated by ASCII blanks. -/
def asciiWords (s : String) : List String :=
  (wordsBy isAsciiBlank s.toList).map String.ofList

def trimList (s : List Char) : List Char :=
  ((s.dropWhile isBlank).reverse.dropWhile isBlank).reverse

/-- The text without the blanks at both ends. -/
def trim (s : String) : String :=
  String.ofList (trimList s.toList)

/-- A text of blanks only, the empty one included. -/
def allBlank (s : String) : Bool :=
  s.toList.all isBlank

def linesList : List Char → List (List Char)
  | [] => []
  | '\n' :: r => [] :: linesList r
  | '\r' :: '\n' :: r => [] :: linesList r
  | c :: r =>
    match linesList r with
    | [] => [[c]]
    | l :: ls => (c :: l) :: ls

/-- The lines of a text; what follows the last line end counts unless it is empty. -/
def lines (s : String) : List String :=
  (linesList s.toList).map String.ofList

end XmlBinding.Text
