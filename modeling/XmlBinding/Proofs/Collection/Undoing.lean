import XmlBinding.Proofs.Collection.Invariant

/-! # Removing what has been added

A removal takes the first occurrence of an element out of the slot that holds it. An element that
was not held before it was added stands at the end of one slot and nowhere else, so that its removal
gives the collection back as it was.
-/
namespace XmlBinding.Tree

/-- An element is held at some depth. -/
def Collection.Contains (c : Collection) (x : Child) : Prop := ∃ y ∈ c.children, y.id = x.id

theorem Slot.holds_iff {id : Nat} {s : Slot} : s.holds id = true ↔ ∃ y ∈ s.held, y.id = id := by
  simp [Slot.holds]

section
variable {ss : List Slot} {id i : Nat}

/-- The first slot that holds an element holds its first occurrence. -/
theorem flatMap_held_withdraw (h : ss.findIdx? (·.holds id) = some i) :
    (ss.modify i (·.withdraw id)).flatMap Slot.held =
      (ss.flatMap Slot.held).eraseP (·.id == id) := by
  induction ss generalizing i with
  | nil => cases h
  | cons s ss ih =>
    rw [List.findIdx?_cons] at h
    by_cases hs : s.holds id = true
    · simp only [hs, if_true, Option.some.injEq] at h
      subst h
      obtain ⟨y, hy, hid⟩ := Slot.holds_iff.mp hs
      rw [List.modify_zero_cons, List.flatMap_cons, List.flatMap_cons, Slot.withdraw]
      rw [List.eraseP_append_left (a := y) (by simpa using hid) _ hy]
    · simp only [hs, Bool.false_eq_true, if_false] at h
      obtain ⟨j, hj, rfl⟩ := Option.map_eq_some_iff.mp h
      rw [List.modify_succ_cons, List.flatMap_cons, List.flatMap_cons, ih hj]
      rw [List.eraseP_append_right]
      intro y hy hid
      exact hs (Slot.holds_iff.mpr ⟨y, hy, by simpa using hid⟩)

end

section
variable {c c' : Collection} {x : Child}

theorem Collection.contains_iff :
    c.Contains x ↔ ∃ i, c.slots.findIdx? (·.holds x.id) = some i := by
  rw [← Option.isSome_iff_exists, List.findIdx?_isSome, List.any_eq_true, Contains,
    c.children_eq_flatMap]
  simp only [List.mem_flatMap, Slot.holds_iff]
  constructor
  · rintro ⟨y, ⟨s, hs, hy⟩, hid⟩
    exact ⟨s, hs, y, hy, hid⟩
  · rintro ⟨s, hs, y, hy, hid⟩
    exact ⟨y, ⟨s, hs, hy⟩, hid⟩

theorem Collection.remove_eq_error_iff {e : TreeError} :
    c.remove x = .error e ↔ ¬ c.Contains x ∧ e = .notAChild x.name := by
  rw [contains_iff, remove, c.take_eq]
  cases c.slots.findIdx? (·.holds x.id) with
  | none => simp [eq_comm]
  | some i => simp

theorem Collection.children_remove (h : c.remove x = .ok c') :
    c'.children = c.children.eraseP (·.id == x.id) := by
  obtain ⟨i, hi, rfl⟩ := remove_eq_ok_iff.mp h
  rw [children_eq_flatMap, c.slots_refill _ (by simp), flatMap_held_withdraw hi,
    c.children_eq_flatMap]

theorem Collection.map_emptied_modify_withdraw (c : Collection) (id i : Nat) :
    (c.slots.modify i (·.withdraw id)).map Slot.emptied = c.slots.map Slot.emptied := by
  ext j : 1
  rw [List.getElem?_map, List.getElem?_modify, List.getElem?_map]
  cases c.slots[j]? with
  | none => rfl
  | some s => by_cases hij : i = j <;> simp [hij]

theorem Collection.remove_eq_ok_iff_slots : c.remove x = .ok c' ↔
    ∃ i, c.slots.findIdx? (·.holds x.id) = some i ∧
      c'.slots = c.slots.modify i (·.withdraw x.id) ∧ c'.emptied = c.emptied := by
  rw [remove_eq_ok_iff]
  refine exists_congr fun i => and_congr_right fun _ => ⟨?_, fun ⟨hs, he⟩ => ?_⟩
  · rintro rfl
    exact ⟨c.slots_refill _ (by simp), emptied_refill (c.map_emptied_modify_withdraw x.id i)⟩
  · apply eq_of_emptied_of_slots
    · rw [he, emptied_refill (c.map_emptied_modify_withdraw x.id i)]
    · rw [hs, c.slots_refill _ (by simp)]

theorem Slot.withdraw_push {s : Slot} (h : s.holds x.id = false) :
    (s.push x).withdraw x.id = s := by
  have hnone : ∀ y ∈ s.held, ¬ (y.id == x.id) = true := by
    simpa [Slot.holds] using h
  simp [Slot.withdraw, Slot.push, List.eraseP_append_right _ hnone]

/-- What is added is held by the slot it went to, and by no other if it was new. -/
theorem findIdx?_holds_push {ss : List Slot} {i : Nat} (hi : i < ss.length)
    (h : ∀ s ∈ ss, s.holds x.id = false) :
    (ss.modify i (·.push x)).findIdx? (·.holds x.id) = some i := by
  rw [List.findIdx?_eq_some_iff_getElem]
  refine ⟨by simpa using hi, by simp [Slot.holds], fun j hj => ?_⟩
  rw [List.getElem_modify, if_neg (by omega), h _ (List.getElem_mem _)]
  exact Bool.false_ne_true

theorem Collection.remove_add (h : ¬ c.Contains x) (ha : c.add x = .ok c') :
    c'.remove x = .ok c := by
  obtain ⟨i, s, hs, -, -, -, rfl⟩ := add_eq_ok_iff.mp ha
  have hnew : ∀ t ∈ c.slots, t.holds x.id = false := by
    intro t ht
    apply Bool.eq_false_iff.mpr
    intro hholds
    obtain ⟨y, hy, hid⟩ := Slot.holds_iff.mp hholds
    exact h ⟨y, c.children_eq_flatMap ▸ List.mem_flatMap.mpr ⟨t, ht, hy⟩, hid⟩
  have hlt : i < c.slots.length := (List.getElem?_eq_some_iff.mp hs).1
  have hback : (c.slots.modify i (·.push x)).modify i (·.withdraw x.id) = c.slots := by
    ext j : 1
    rw [List.getElem?_modify, List.getElem?_modify]
    cases hj : c.slots[j]? with
    | none => rfl
    | some t =>
      by_cases hij : i = j
      · simp [hij, Slot.withdraw_push (hnew t (List.mem_of_getElem? hj))]
      · simp [hij]
  apply remove_eq_ok_iff.mpr
  refine ⟨i, ?_, ?_⟩
  · rw [c.slots_refill _ (by simp)]
    exact findIdx?_holds_push hlt hnew
  · rw [c.slots_refill _ (by simp), hback, c.refill_refill _ _ (by simp) rfl, c.refill_slots]

end

/-- A removal succeeds iff the element is held. It takes the first occurrence out of its slot and
leaves the other slots as they are, or it fails and changes nothing. Removing an element right after
it was added for the first time restores the collection. -/
theorem Collection.remove_first (c : Collection) (x : Child) :
    ((∃ c', c.remove x = .ok c') ↔ c.Contains x) ∧
    (∀ c', c.remove x = .ok c' ↔ ∃ i, c.slots.findIdx? (·.holds x.id) = some i ∧
      c'.slots = c.slots.modify i (·.withdraw x.id) ∧ c'.emptied = c.emptied) ∧
    (∀ c', c.remove x = .ok c' → c'.children = c.children.eraseP (·.id == x.id)) ∧
    (∀ e, c.remove x = .error e ↔ ¬ c.Contains x ∧ e = .notAChild x.name) ∧
    (¬ c.Contains x → c.change (.remove x) = c) ∧
    (∀ c', ¬ c.Contains x → c.add x = .ok c' → c'.remove x = .ok c) := by
  refine ⟨?_, fun c' => remove_eq_ok_iff_slots, fun c' => children_remove,
    fun e => remove_eq_error_iff, fun h => ?_, fun c' => remove_add⟩
  · rw [contains_iff]
    constructor
    · rintro ⟨c', h⟩
      obtain ⟨i, hi, -⟩ := remove_eq_ok_iff.mp h
      exact ⟨i, hi⟩
    · rintro ⟨i, hi⟩
      exact ⟨_, remove_eq_ok_iff.mpr ⟨i, hi, rfl⟩⟩
  · rw [change, remove_eq_error_iff.mpr ⟨h, rfl⟩]

/-- Element 1 is held by two slots. -/
def twiceHeld : Collection :=
  ⟨.sequence, 1, some 1, [.slot ⟨some "a", some 2, [⟨0, "a"⟩, ⟨1, "a"⟩]⟩,
    .nested ⟨.choice, 0, none, [.slot ⟨none, none, [⟨1, "a"⟩]⟩]⟩]⟩

theorem Collection.remove_first_twiceHeld :
    let filled := twiceHeld.change (.add ⟨2, "a"⟩)
    ¬ twiceHeld.Contains ⟨2, "a"⟩ ∧ twiceHeld.add ⟨2, "a"⟩ = .ok filled ∧
      filled.children = [⟨0, "a"⟩, ⟨1, "a"⟩, ⟨1, "a"⟩, ⟨2, "a"⟩] ∧
      filled.remove ⟨2, "a"⟩ = .ok twiceHeld ∧
      (twiceHeld.change (.remove ⟨1, "a"⟩)).children = [⟨0, "a"⟩, ⟨1, "a"⟩] := by
  intro filled
  have hnew : ¬ twiceHeld.Contains ⟨2, "a"⟩ := by
    simp [Contains, twiceHeld, children, childrenOfEntries, Entry.children]
  have hadd : twiceHeld.add ⟨2, "a"⟩ = .ok filled := rfl
  obtain ⟨-, -, -, -, -, hundo⟩ := Collection.remove_first twiceHeld ⟨2, "a"⟩
  exact ⟨hnew, hadd, by decide, hundo filled hnew hadd, by decide⟩

end XmlBinding.Tree
