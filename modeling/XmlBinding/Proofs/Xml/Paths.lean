import XmlBinding.Xml.Document

/-! # Ways into a document

The way to an element tells at each step which child element comes next. The elements are ranked in
document order, each one before those in it: a way leads past whole siblings, and one step down.
-/
namespace XmlBinding.Xml

mutual

/-- How many elements there are, this one included. -/
def Element.size : Element → Nat
  | ⟨_, _, _, content⟩ => 1 + contentSize content

def Content.size : Content → Nat
  | .element e => e.size
  | _ => 0

def contentSize : List Content → Nat
  | [] => 0
  | c :: cs => c.size + contentSize cs

end

def totalSize : List Element → Nat
  | [] => 0
  | e :: es => e.size + totalSize es

/-- The element that a way leads to. -/
def Element.at? : Element → List Nat → Option Element
  | e, [] => some e
  | e, i :: p => (e.elements[i]?).bind fun c => c.at? p

/-- How many elements start before the one that a way leads to. -/
def Element.rank : Element → List Nat → Nat
  | _, [] => 0
  | e, i :: p => 1 + totalSize (e.elements.take i) + (e.elements[i]?).elim 0 fun c => c.rank p

/-- Numbers of siblings that start at `first` and leave room for what is in each. -/
def siblingNumbers : Nat → List Element → List Nat
  | _, [] => []
  | first, e :: es => first :: siblingNumbers (first + e.size) es

section
variable {e d c : Element} {es : List Element} {p q : List Nat} {i j : Nat}

@[simp] theorem totalSize_nil : totalSize [] = 0 := rfl

@[simp] theorem totalSize_cons : totalSize (e :: es) = e.size + totalSize es := rfl

theorem totalSize_append (es es' : List Element) :
    totalSize (es ++ es') = totalSize es + totalSize es' := by
  induction es with
  | nil => simp
  | cons e es ih => simp [ih, Nat.add_assoc]

theorem contentSize_eq (content : List Content) :
    contentSize content = totalSize (content.filterMap Content.element?) := by
  induction content with
  | nil => rfl
  | cons c content ih =>
    cases c <;> simp [contentSize, Content.size, Content.element?, List.filterMap_cons, ih]

theorem Element.size_eq (e : Element) : e.size = 1 + totalSize e.elements := by
  cases e
  rw [size, contentSize_eq]
  rfl

theorem totalSize_take_add_size (h : es[i]? = some c) :
    totalSize (es.take i) + c.size = totalSize (es.take (i + 1)) := by
  rw [List.take_add_one, h, totalSize_append]
  simp

theorem totalSize_take_mono (hij : i ≤ j) : totalSize (es.take i) ≤ totalSize (es.take j) := by
  rw [← Nat.add_sub_cancel' hij, List.take_add, totalSize_append]
  exact Nat.le_add_right _ _

theorem totalSize_take_le (es : List Element) (i : Nat) :
    totalSize (es.take i) ≤ totalSize es := by
  have hsum := totalSize_append (es.take i) (es.drop i)
  rw [List.take_append_drop] at hsum
  omega

@[simp] theorem Element.at?_nil : e.at? [] = some e := by
  rw [at?]

@[simp] theorem Element.rank_nil : e.rank [] = 0 := by
  rw [rank]

theorem Element.at?_cons_eq_some :
    e.at? (i :: p) = some d ↔ ∃ c, e.elements[i]? = some c ∧ c.at? p = some d := by
  rw [at?, Option.bind_eq_some_iff]

theorem Element.rank_cons (h : e.elements[i]? = some c) :
    e.rank (i :: p) = 1 + totalSize (e.elements.take i) + c.rank p := by
  rw [rank, h, Option.elim_some]

/-- What a way leads to lies within the element it starts from. -/
theorem Element.rank_add_size_le (h : e.at? p = some d) : e.rank p + d.size ≤ e.size := by
  induction p generalizing e with
  | nil =>
    obtain rfl := Option.some.inj (at?_nil.symm.trans h)
    simp
  | cons i p ih =>
    obtain ⟨c, hc, hd⟩ := at?_cons_eq_some.mp h
    have hbelow := ih hd
    have htake := totalSize_take_add_size hc
    have hle := totalSize_take_le e.elements (i + 1)
    rw [rank_cons hc, e.size_eq]
    omega

theorem Element.rank_lt (h : e.at? p = some d) : e.rank p < e.size := by
  have hle := rank_add_size_le h
  rw [d.size_eq] at hle
  omega

/-- A step on from an element. -/
theorem Element.at?_append (h : e.at? p = some d) : e.at? (p ++ q) = d.at? q := by
  induction p generalizing e with
  | nil => rw [List.nil_append, ← Option.some.inj (at?_nil.symm.trans h)]
  | cons i p ih =>
    obtain ⟨c, hc, hd⟩ := at?_cons_eq_some.mp h
    rw [List.cons_append, at?, hc]
    exact ih hd

theorem Element.isSome_at?_append (h : e.at? p = some d) :
    (e.at? (p ++ [i])).isSome ↔ i < d.elements.length := by
  rw [at?_append h, at?]
  cases hc : d.elements[i]? with
  | none => simp [List.getElem?_eq_none_iff.mp hc]
  | some c => simp [(List.getElem?_eq_some_iff.mp hc).1]

theorem Element.rank_append (h : e.at? p = some d) : e.rank (p ++ q) = e.rank p + d.rank q := by
  induction p generalizing e with
  | nil => simp [Option.some.inj (at?_nil.symm.trans h)]
  | cons i p ih =>
    obtain ⟨c, hc, hd⟩ := at?_cons_eq_some.mp h
    rw [List.cons_append, rank_cons hc, rank_cons hc, ih hd]
    omega

theorem Element.exists_at?_of_append (h : e.at? (p ++ q) = some c) :
    ∃ d, e.at? p = some d ∧ d.at? q = some c := by
  induction p generalizing e with
  | nil => exact ⟨e, at?_nil, h⟩
  | cons i p ih =>
    obtain ⟨b, hb, hrest⟩ := at?_cons_eq_some.mp h
    obtain ⟨d, hd, hc⟩ := ih hrest
    exact ⟨d, at?_cons_eq_some.mpr ⟨b, hb, hd⟩, hc⟩

/-- The way through an earlier sibling leads to an element that starts before. -/
theorem Element.rank_cons_lt (hp : e.at? (i :: p) = some d) (hq : e.at? (j :: q) = some c)
    (hij : i < j) : e.rank (i :: p) < e.rank (j :: q) := by
  obtain ⟨b, hb, hd⟩ := at?_cons_eq_some.mp hp
  obtain ⟨a, ha, -⟩ := at?_cons_eq_some.mp hq
  have hlt := rank_lt hd
  have htake := totalSize_take_add_size hb
  have hmono : totalSize (e.elements.take (i + 1)) ≤ totalSize (e.elements.take j) :=
    totalSize_take_mono hij
  rw [rank_cons hb, rank_cons ha]
  omega

/-- No two ways lead to elements of one rank. -/
theorem Element.rank_injective (hp : e.at? p = some d) (hq : e.at? q = some c)
    (h : e.rank p = e.rank q) : p = q := by
  induction p generalizing e q with
  | nil =>
    cases q with
    | nil => rfl
    | cons j q =>
      obtain ⟨a, ha, -⟩ := at?_cons_eq_some.mp hq
      rw [rank_nil, rank_cons ha] at h
      omega
  | cons i p ih =>
    cases q with
    | nil =>
      obtain ⟨b, hb, -⟩ := at?_cons_eq_some.mp hp
      rw [rank_nil, rank_cons hb] at h
      omega
    | cons j q =>
      rcases Nat.lt_trichotomy i j with hij | rfl | hij
      · exact absurd h (Nat.ne_of_lt (rank_cons_lt hp hq hij))
      · obtain ⟨b, hb, hd⟩ := at?_cons_eq_some.mp hp
        obtain ⟨b', hb', hc⟩ := at?_cons_eq_some.mp hq
        obtain rfl := Option.some.inj (hb.symm.trans hb')
        rw [rank_cons hb, rank_cons hb] at h
        rw [ih hd hc (by omega)]
      · exact absurd h.symm (Nat.ne_of_lt (rank_cons_lt hq hp hij))

theorem getElem?_siblingNumbers (first : Nat) (es : List Element) (i : Nat) :
    (siblingNumbers first es)[i]? = (es[i]?).map fun _ => first + totalSize (es.take i) := by
  induction es generalizing first i with
  | nil => rfl
  | cons e es ih =>
    cases i with
    | zero => rfl
    | succ i => simp [siblingNumbers, ih, Nat.add_assoc]

/-- Children come right after the element, in the order of their ways. -/
theorem siblingNumbers_elements (first : Nat) (e : Element) :
    siblingNumbers (first + 1) e.elements =
      (List.range e.elements.length).map fun i => first + e.rank [i] := by
  refine List.ext_getElem? fun i => ?_
  rw [getElem?_siblingNumbers, List.getElem?_map]
  cases h : e.elements[i]? with
  | none => simp [List.getElem?_eq_none_iff.mp h]
  | some c =>
    simp [List.getElem?_range (List.getElem?_eq_some_iff.mp h).1, Element.rank_cons h,
      Nat.add_assoc]

end

end XmlBinding.Xml
