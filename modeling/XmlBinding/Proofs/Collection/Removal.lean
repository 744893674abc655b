import XmlBinding.Proofs.Collection.FirstFit

/-! # Removing from the first slot that holds an element -/
namespace XmlBinding.Tree

/-- Whether an element is held, by its number. -/
def Slot.holds (id : Nat) (s : Slot) : Bool := s.held.any (·.id == id)

/-- The slot without the first occurrence of an element. -/
def Slot.withdraw (id : Nat) (s : Slot) : Slot := { s with held := s.held.eraseP (·.id == id) }

@[simp] theorem Slot.withdraw_name (id : Nat) (s : Slot) : (s.withdraw id).name = s.name := rfl
@[simp] theorem Slot.withdraw_maximum (id : Nat) (s : Slot) :
    (s.withdraw id).maximum = s.maximum := rfl
@[simp] theorem Slot.emptied_withdraw (id : Nat) (s : Slot) :
    (s.withdraw id).emptied = s.emptied := rfl

mutual

theorem Collection.take_eq (id : Nat) : ∀ c : Collection,
    c.take id = (c.slots.findIdx? (·.holds id)).map fun i =>
      c.refill (c.slots.modify i (·.withdraw id))
  | ⟨_, _, _, entries⟩ => by
    simp only [Collection.take, Collection.slots, Collection.refill, takeFirst_eq id entries,
      Option.map_map]
    rfl

theorem Entry.take_eq (id : Nat) : ∀ e : Entry,
    e.take id = (e.slots.findIdx? (·.holds id)).map fun i =>
      e.refill (e.slots.modify i (·.withdraw id))
  | .slot s => by
    cases h : s.holds id <;> rw [Slot.holds] at h <;>
      simp [Entry.take, Entry.slots, Entry.refill, Slot.holds, Slot.withdraw, h]
  | .nested c => by
    simp only [Entry.take, Entry.slots, Entry.refill, c.take_eq id, Option.map_map]
    rfl

theorem takeFirst_eq (id : Nat) : ∀ es : List Entry,
    takeFirst id es = ((slotsOfEntries es).findIdx? (·.holds id)).map fun i =>
      refillEntries ((slotsOfEntries es).modify i (·.withdraw id)) es
  | [] => rfl
  | e :: es => by
    rw [takeFirst, e.take_eq id, takeFirst_eq id es]
    conv => rhs; rw [slotsOfEntries, List.findIdx?_append]
    cases he : e.slots.findIdx? (·.holds id) with
    | some i =>
      have hi : i < e.slots.length := (List.findIdx?_eq_some_iff_getElem.mp he).1
      simp only [Option.map_some, Option.some_or]
      rw [← refillEntries_modify_left _ hi, slotsOfEntries]
    | none =>
      cases (slotsOfEntries es).findIdx? (·.holds id) with
      | none => rfl
      | some j =>
        simp only [Option.map_some, Option.map_none, Option.none_or]
        rw [Nat.add_comm, ← refillEntries_modify_right, slotsOfEntries]

end

/-- A removal takes the element out of the first slot that holds it. -/
theorem Collection.remove_eq_ok_iff {c c' : Collection} {x : Child} : c.remove x = .ok c' ↔
    ∃ i, c.slots.findIdx? (·.holds x.id) = some i ∧
      c' = c.refill (c.slots.modify i (·.withdraw x.id)) := by
  rw [remove, c.take_eq]
  cases c.slots.findIdx? (·.holds x.id) with
  | none => simp
  | some i => simp [eq_comm]

end XmlBinding.Tree
