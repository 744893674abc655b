/-!
# Letter case of names

A name is cut into words at every character that is neither an ASCII letter nor a digit, between
a small and a capital letter, and before the last of several capitals when a small letter
follows. The words are then joined in one of three styles.
-/
namespace XmlBinding.Text

/-- What the letters of the current word so far end with. -/
inductive LetterCase where
  | neither
  | small
  | capital
deriving DecidableEq

def LetterCase.after (mode : LetterCase) (c : Char) : LetterCase :=
  if c.isLower then .small else if c.isUpper then .capital else mode

/-- Cuts a run of letters and digits; `word` is the current word, last character first. -/
def cutRun : LetterCase → List Char → List Char → List (List Char)
  | _, word, [] => [word.reverse]
  | _, word, [c] => [(c :: word).reverse]
  | mode, word, c :: next :: r =>
    if mode.after c = .small ∧ next.isUpper then
      (c :: word).reverse :: cutRun .neither [] (next :: r)
    else if mode = .capital ∧ c.isUpper ∧ next.isLower then
      word.reverse :: cutRun .neither [c] (next :: r)
    else cutRun (mode.after c) (c :: word) (next :: r)

/-- Cutting loses no character. -/
theorem cutRun_flatten (mode : LetterCase) (word r : List Char) :
    (cutRun mode word r).flatten = word.reverse ++ r := by
  fun_induction cutRun mode word r <;> simp_all

/-- The maximal runs of ASCII letters and digits. -/
def alphanumericRuns : List Char → List (List Char)
  | [] => []
  | c :: r =>
    if !c.isAlphanum then alphanumericRuns r
    else match r with
      | [] => [[c]]
      | d :: _ =>
        if !d.isAlphanum then [c] :: alphanumericRuns r
        else match alphanumericRuns r with
          | [] => [[c]]
          | w :: ws => (c :: w) :: ws

def nameWords (s : String) : List (List Char) :=
  (alphanumericRuns s.toList).flatMap (cutRun .neither [])

def capitalized : List Char → List Char
  | [] => []
  | c :: r => c.toUpper :: r.map Char.toLower

/-- Words run together, each with a capital: `ReadOnly`. -/
def pascalCase (s : String) : String :=
  String.ofList ((nameWords s).flatMap capitalized)

/-- Words in small letters joined by underscores: `read_only`. -/
def snakeCase (s : String) : String :=
  String.ofList (List.intercalate ['_'] ((nameWords s).map (·.map Char.toLower)))

/-- Words in capitals joined by underscores: `READ_ONLY`. -/
def shoutyCase (s : String) : String :=
  String.ofList (List.intercalate ['_'] ((nameWords s).map (·.map Char.toUpper)))

end XmlBinding.Text
