import Mathlib.Data.List.Perm.Subperm
import XmlBinding.Proofs.Tree.Blueprints
import XmlBinding.Proofs.Tree.Trees

/-! # What is written of a tree

The outline of a tree lists the texts of its values. An element is written as the outline of its
tree: the bound on the depth is never reached, since the elements on the way down to one hold larger
and larger trees upwards, so there are no more of them than elements in the store.
-/
namespace XmlBinding.Tree
open Binding Xml

/-- A value under its name, if it is set and has a text. -/
def said (isText : Bool) (rule : ValueRule) (held : Option Held) : Option (String × String) :=
  if rule.isText = isText then (held.bind rule.kind.text?).map fun value => (rule.name, value)
  else none

/-- The values that are said, either of the text or of attributes. -/
def saidValues (isText : Bool) : List (ValueRule × Option Held) → List (String × String)
  | [] => []
  | (rule, held) :: r => (said isText rule held).toList ++ saidValues isText r

namespace ElementTree

variable (t : ElementTree)

/-- The rules of an element with their values. -/
def held : List (ValueRule × Option Held) := t.blueprint.rules.zip t.values

def attributes : List (String × String) := saidValues false t.held

def text : Option String := (saidValues true t.held).head?.map (·.2)

end ElementTree

mutual

def ElementTree.outline : ElementTree → Outline
  | ⟨blueprint, values, counts, children⟩ =>
    let t : ElementTree := ⟨blueprint, values, counts, children⟩
    ⟨t.name, blueprint.uri, t.attributes, t.text, outlinesFor children⟩

def outlinesFor : List ElementTree → List Outline
  | [] => []
  | t :: ts => t.outline :: outlinesFor ts

end

theorem ElementTree.outline_eq (t : ElementTree) :
    t.outline = ⟨t.name, t.blueprint.uri, t.attributes, t.text, outlinesFor t.children⟩ := by
  cases t
  rfl

theorem said_eq_some {isText : Bool} {rule : ValueRule} {held : Option Held} {a : String × String} :
    said isText rule held = some a ↔ rule.isText = isText ∧
      ∃ v, held = some v ∧ rule.kind.text? v = some a.2 ∧ rule.name = a.1 := by
  obtain ⟨name, value⟩ := a
  by_cases h : rule.isText = isText
  · simp [said, h, Option.bind_eq_some_iff]
  · simp [said, h]

theorem mem_saidValues {isText : Bool} {held : List (ValueRule × Option Held)}
    {a : String × String} :
    a ∈ saidValues isText held ↔ ∃ p ∈ held, said isText p.1 p.2 = some a := by
  induction held with
  | nil => simp [saidValues]
  | cons p held ih => simp [saidValues, ih]

theorem writeHeld_attributes (held : List (ValueRule × Option Held)) (w : Writer) :
    writeHeld false held w = writeAttributes (saidValues false held) w := by
  induction held generalizing w with
  | nil => rfl
  | cons p held ih =>
    obtain ⟨rule, value⟩ := p
    rw [writeHeld, saidValues]
    cases htext : value.bind rule.kind.text? with
    | none => simp [said, htext, ih]
    | some text =>
      by_cases h : rule.isText = false
      · simp [said, h, htext, ih, writeValue, writeAttributes]
      · simp [said, h, ih]

theorem writeHeld_text (held : List (ValueRule × Option Held)) (w : Writer) :
    writeHeld true held w = .ok ((saidValues true held).foldl (fun w a => w.addText a.2) w) := by
  induction held generalizing w with
  | nil => rfl
  | cons p held ih =>
    obtain ⟨rule, value⟩ := p
    rw [writeHeld, saidValues]
    cases htext : value.bind rule.kind.text? with
    | none => simp [said, htext, ih]
    | some text =>
      by_cases h : rule.isText = true
      · simp [said, h, htext, ih, writeValue, bind, Except.bind]
      · simp [said, h, ih]

/-- Values are said in the order of the rules. -/
theorem sublist_saidValues (isText : Bool) (rules : List ValueRule) (values : List (Option Held)) :
    ((saidValues isText (rules.zip values)).map (·.1)).Sublist (rules.map (·.name)) := by
  induction rules generalizing values with
  | nil => exact List.Sublist.refl _
  | cons rule rules ih =>
    cases values with
    | nil => exact List.nil_sublist _
    | cons v values =>
      rw [List.zip_cons_cons, saidValues, List.map_append]
      cases hsaid : said isText rule v with
      | none => exact (ih values).cons _
      | some a =>
        obtain ⟨-, -, -, -, hname⟩ := said_eq_some.mp hsaid
        have hcons := (ih values).cons_cons rule.name
        simpa [hname] using hcons

/-- There is one text at most. -/
theorem saidValues_text {rules : List ValueRule} (h : ProperRules rules)
    (values : List (Option Held)) :
    saidValues true (rules.zip values) = [] ∨
      ∃ text, saidValues true (rules.zip values) = [(contentName, text)] := by
  have hname : ∀ a ∈ saidValues true (rules.zip values), a.1 = contentName := by
    intro a ha
    obtain ⟨p, hp, hsaid⟩ := mem_saidValues.mp ha
    obtain ⟨htext, -, -, -, hname⟩ := said_eq_some.mp hsaid
    exact hname ▸ h.textName _ (List.of_mem_zip hp).1 htext
  have hnodup := (sublist_saidValues true rules values).nodup h.nodup
  match hsaid : saidValues true (rules.zip values) with
  | [] => exact .inl rfl
  | [(name, text)] =>
    obtain rfl : name = contentName := hname (name, text) (by simp [hsaid])
    exact .inr ⟨text, rfl⟩
  | a :: b :: r =>
    have ha := hname a (by simp [hsaid])
    have hb := hname b (by simp [hsaid])
    simp [hsaid, ha, hb] at hnodup

theorem length_saidValues_le (rules : List ValueRule) (values : List (Option Held)) :
    (saidValues true (rules.zip values)).length ≤ rules.countP ValueRule.isText := by
  induction rules generalizing values with
  | nil => exact Nat.le_refl _
  | cons rule rules ih =>
    cases values with
    | nil => exact Nat.zero_le _
    | cons v values =>
      have hrest := ih values
      rw [List.zip_cons_cons, saidValues, List.length_append, List.countP_cons]
      cases ht : rule.isText with
      | false => simpa [said, ht] using hrest
      | true =>
        have hone := Option.length_toList_le (o := said true rule v)
        rw [if_pos rfl]
        omega

/-- The values of an element, attributes first. -/
theorem writeValues_eq {n : Node} {t : ElementTree} (hn : n.Shows t) (hb : t.blueprint.OneText)
    (w : Writer) : n.writeValues w = (writeAttributes t.attributes w).map (writeText t.text) := by
  rw [Node.writeValues, hn.blueprint, hb.attributes, hn.values]
  change (writeHeld false t.held w >>= writeHeld true t.held) = _
  rw [writeHeld_attributes, ElementTree.attributes]
  cases writeAttributes (saidValues false t.held) w with
  | error e => rfl
  | ok w =>
    have hlength := Nat.le_trans (length_saidValues_le t.blueprint.rules t.values) hb.single
    rw [← ElementTree.held] at hlength
    change writeHeld true t.held w = .ok (writeText t.text w)
    rw [writeHeld_text, ElementTree.text]
    match saidValues true t.held, hlength with
    | [], _ => rfl
    | [_], _ => rfl

/-- All on the way down to a tree hold larger ones. -/
structure Above (s : Store) (above : List Nat) (t : ElementTree) : Prop where
  nodup : above.Nodup
  larger : ∀ id ∈ above, ∃ among u, s.Holds among id u ∧ sizeOf t < sizeOf u

section
variable {s : Store} {among : Nat → Prop} {above : List Nat} {id : Nat} {t : ElementTree}

theorem Store.Holds.lt_length (h : s.Holds among id t) : id < s.length := by
  cases h with
  | intro _ hn _ _ => exact (List.getElem?_eq_some_iff.mp hn).1

theorem Above.nodup_cons (ha : Above s above t) (ht : s.Holds among id t) :
    (id :: above).Nodup := by
  refine List.nodup_cons.mpr ⟨fun hid => ?_, ha.nodup⟩
  obtain ⟨_, u, hu, hlt⟩ := ha.larger id hid
  rw [hu.unique ht] at hlt
  exact Nat.lt_irrefl _ hlt

/-- There is always room for one more. -/
theorem Above.length_lt (ha : Above s above t) (ht : s.Holds among id t) :
    above.length < s.length := by
  have hsub : id :: above ⊆ List.range s.length := by
    intro j hj
    rw [List.mem_range]
    rcases List.mem_cons.mp hj with rfl | hj
    · exact ht.lt_length
    · obtain ⟨_, u, hu, -⟩ := ha.larger j hj
      exact hu.lt_length
  have hle := ((ha.nodup_cons ht).subperm hsub).length_le
  rwa [List.length_cons, List.length_range] at hle

theorem Above.step {u : ElementTree} (ha : Above s above t) (ht : s.Holds among id t)
    (hu : u ∈ t.children) : Above s (id :: above) u := by
  have hlt : sizeOf u < sizeOf t := by
    cases t with
    | mk blueprint values counts children =>
      have hlt : sizeOf u < sizeOf children := List.sizeOf_lt_of_mem hu
      simp only [ElementTree.mk.sizeOf_spec]
      omega
  refine ⟨ha.nodup_cons ht, fun j hj => ?_⟩
  rcases List.mem_cons.mp hj with rfl | hj
  · exact ⟨_, t, ht, hlt⟩
  · obtain ⟨_, v, hv, hvt⟩ := ha.larger j hj
    exact ⟨_, v, hv, Nat.lt_trans hlt hvt⟩

end

theorem Store.children_of_getElem? {s : Store} {id : Nat} {n : Node} (hn : s[id]? = some n) :
    s.children id = n.children := by
  rw [children, children?, hn, Node.children]
  cases h : n.collection <;> simp [h]

mutual

/-- An element is written as the outline of its tree. -/
theorem Store.Holds.writeNode_eq {s : Store} {among : Nat → Prop} :
    ∀ {id : Nat} {t : ElementTree}, s.Holds among id t → (∀ u ∈ t.subtrees, u.blueprint.OneText) →
      ∀ {above : List Nat} {depth : Nat}, Above s above t → s.length < depth + above.length →
        ∀ w, writeNode s depth id w = t.outline.write w
  | id, t, h, hp, above, 0, ha, hd, w => by
    have := ha.length_lt h
    omega
  | id, t, .intro (n := n) hid hn ht hc, hp, above, depth + 1, ha, hd, w => by
    have hb : t.blueprint.OneText := hp t (by rw [t.subtrees_eq]; exact List.mem_cons_self)
    have hbelow : ∀ u ∈ subtreesIn t.children, u.blueprint.OneText := fun u hu =>
      hp u (by rw [t.subtrees_eq]; exact List.mem_cons_of_mem _ hu)
    have hchildren (w : Writer) : writeEach (writeNode s depth) (s.children id) w =
        writeOutlines (outlinesFor t.children) w := by
      rw [children_of_getElem? hn]
      exact hc.writeEach_eq hbelow (fun u hu => ha.step (.intro hid hn ht hc) hu)
        (by rw [List.length_cons]; omega) w
    rw [writeNode, hn, t.outline_eq, Outline.write]
    simp only [writeValues_eq ht hb, Node.name, ht.blueprint, hchildren, ElementTree.name]
    cases writeAttributes t.attributes
      (w.openElement t.blueprint.elementName t.blueprint.uri) <;> rfl

theorem Store.HoldsEach.writeEach_eq {s : Store} {among : Nat → Prop} :
    ∀ {parent : Nat} {xs : List Child} {ts : List ElementTree}, s.HoldsEach among parent xs ts →
      (∀ u ∈ subtreesIn ts, u.blueprint.OneText) →
      ∀ {above : List Nat} {depth : Nat}, (∀ t ∈ ts, Above s above t) →
        s.length < depth + above.length →
          ∀ w, writeEach (writeNode s depth) xs w = writeOutlines (outlinesFor ts) w
  | _, _, _, .nil, _, _, _, _, _, _ => rfl
  | _, _, _, .cons _ _ ht hts, hp, above, depth, ha, hd, w => by
    have hfirst := ht.writeNode_eq (fun u hu => hp u (List.mem_append_left _ hu))
      (ha _ List.mem_cons_self) hd
    have hrest := hts.writeEach_eq (fun u hu => hp u (List.mem_append_right _ hu))
      (fun u hu => ha u (List.mem_cons_of_mem _ hu)) hd
    rw [writeEach, outlinesFor, writeOutlines, hfirst w]
    exact bind_congr hrest

end

/-- The document of a tree. -/
theorem Store.Holds.toXml_eq {s : Store} {among : Nat → Prop} {root : Nat} {t : ElementTree}
    (h : s.Holds among root t) (hp : ∀ u ∈ t.subtrees, u.blueprint.OneText) (layout : Layout) :
    s.toXml layout root = .ok (layout.render (.declaration :: t.outline.pieces none)) := by
  have habove : Above s [] t := ⟨List.nodup_nil, by simp⟩
  have hwrite := h.writeNode_eq hp habove (Nat.lt_succ_self s.length) (Writer.addDeclaration {})
  rw [Outline.write_eq] at hwrite
  rw [toXml, hwrite]
  rfl

end XmlBinding.Tree
