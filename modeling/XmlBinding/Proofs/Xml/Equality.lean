import XmlBinding.Xml.Document

/-! # Documents can be compared -/
namespace XmlBinding.Xml

mutual

def decideElement : (e e' : Element) → Decidable (e = e')
  | ⟨n, as, s, cs⟩, ⟨n', as', s', cs'⟩ =>
    match decideContents cs cs' with
    | isTrue h => decidable_of_iff (n = n' ∧ as = as' ∧ s = s') (by simp [h])
    | isFalse h => isFalse (by simp [h])

def decideContent : (c c' : Content) → Decidable (c = c')
  | .element e, .element e' =>
    match decideElement e e' with
    | isTrue h => isTrue (by rw [h])
    | isFalse h => isFalse (by simpa using h)
  | .text s, .text s' => decidable_of_iff (s = s') (by simp)
  | .comment s, .comment s' => decidable_of_iff (s = s') (by simp)
  | .instruction t s, .instruction t' s' => decidable_of_iff (t = t' ∧ s = s') (by simp)
  | .element _, .text _ | .element _, .comment _ | .element _, .instruction .. => isFalse nofun
  | .text _, .element _ | .text _, .comment _ | .text _, .instruction .. => isFalse nofun
  | .comment _, .element _ | .comment _, .text _ | .comment _, .instruction .. => isFalse nofun
  | .instruction .., .element _ | .instruction .., .text _ | .instruction .., .comment _ =>
    isFalse nofun

def decideContents : (cs cs' : List Content) → Decidable (cs = cs')
  | [], [] => isTrue rfl
  | [], _ :: _ => isFalse nofun
  | _ :: _, [] => isFalse nofun
  | c :: cs, c' :: cs' =>
    match decideContent c c', decideContents cs cs' with
    | isTrue h, isTrue h' => isTrue (by rw [h, h'])
    | isFalse h, _ => isFalse (by simp [h])
    | _, isFalse h => isFalse (by simp [h])

end

instance : DecidableEq Element := decideElement

end XmlBinding.Xml
