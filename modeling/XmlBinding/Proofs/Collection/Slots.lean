import XmlBinding.Binding.Module

/-! # The slots of a collection in declaration order

A collection is its outline, which has the same slots without anything held, filled with the
contents of its slots. What an operation on a collection does is told by the list of slots.
-/
namespace XmlBinding.Tree

/-- The slot with one more element at its end. -/
def Slot.push (x : Child) (s : Slot) : Slot := { s with held := s.held ++ [x] }

def Slot.emptied (s : Slot) : Slot := { s with held := [] }

@[simp] theorem Slot.push_name (x : Child) (s : Slot) : (s.push x).name = s.name := rfl
@[simp] theorem Slot.push_maximum (x : Child) (s : Slot) : (s.push x).maximum = s.maximum := rfl
@[simp] theorem Slot.push_held (x : Child) (s : Slot) : (s.push x).held = s.held ++ [x] := rfl
@[simp] theorem Slot.emptied_push (x : Child) (s : Slot) : (s.push x).emptied = s.emptied := rfl

mutual

def Collection.slots : Collection → List Slot
  | ⟨_, _, _, entries⟩ => slotsOfEntries entries

def Entry.slots : Entry → List Slot
  | .slot s => [s]
  | .nested c => c.slots

def slotsOfEntries : List Entry → List Slot
  | [] => []
  | e :: es => e.slots ++ slotsOfEntries es

end

mutual

/-- The same collection with other slots, in declaration order. -/
def Collection.refill (slots : List Slot) : Collection → Collection
  | ⟨compositor, minimum, maximum, entries⟩ =>
    ⟨compositor, minimum, maximum, refillEntries slots entries⟩

def Entry.refill (slots : List Slot) : Entry → Entry
  | .slot s => .slot (slots.headD s)
  | .nested c => .nested (c.refill slots)

def refillEntries (slots : List Slot) : List Entry → List Entry
  | [] => []
  | e :: es =>
    e.refill (slots.take e.slots.length) :: refillEntries (slots.drop e.slots.length) es

end

/-- The collection with nothing held. -/
def Collection.emptied (c : Collection) : Collection := c.refill (c.slots.map Slot.emptied)

mutual

theorem Collection.refill_slots : ∀ c : Collection, c.refill c.slots = c
  | ⟨_, _, _, entries⟩ => by
    simp only [Collection.slots, Collection.refill, refillEntries_slots entries]

theorem Entry.refill_slots : ∀ e : Entry, e.refill e.slots = e
  | .slot _ => rfl
  | .nested c => by simp only [Entry.slots, Entry.refill, c.refill_slots]

theorem refillEntries_slots : ∀ es : List Entry, refillEntries (slotsOfEntries es) es = es
  | [] => rfl
  | e :: es => by
    simp only [slotsOfEntries, refillEntries, List.take_left, List.drop_left, e.refill_slots,
      refillEntries_slots es]

end

mutual

theorem Collection.slots_refill (slots : List Slot) :
    ∀ c : Collection, slots.length = c.slots.length → (c.refill slots).slots = slots
  | ⟨_, _, _, entries⟩, h => slotsOfEntries_refill slots entries h

theorem Entry.slots_refill (slots : List Slot) :
    ∀ e : Entry, slots.length = e.slots.length → (e.refill slots).slots = slots
  | .slot _, h => by
    obtain ⟨s, rfl⟩ := List.length_eq_one_iff.mp h
    rfl
  | .nested c, h => c.slots_refill slots h

theorem slotsOfEntries_refill (slots : List Slot) :
    ∀ es : List Entry, slots.length = (slotsOfEntries es).length →
      slotsOfEntries (refillEntries slots es) = slots
  | [], h => (List.length_eq_zero_iff.mp h).symm
  | e :: es, h => by
    simp only [slotsOfEntries, List.length_append] at h
    rw [refillEntries, slotsOfEntries, e.slots_refill _ (by simp; omega),
      slotsOfEntries_refill _ es (by simp; omega), List.take_append_drop]

end

mutual

theorem Collection.refill_refill (s t : List Slot) :
    ∀ c : Collection, s.length = c.slots.length → t.length = c.slots.length →
      (c.refill s).refill t = c.refill t
  | ⟨_, _, _, entries⟩, hs, ht => by
    simp only [Collection.refill, refillEntries_refill s t entries hs ht]

theorem Entry.refill_refill (s t : List Slot) :
    ∀ e : Entry, s.length = e.slots.length → t.length = e.slots.length →
      (e.refill s).refill t = e.refill t
  | .slot _, _, ht => by
    obtain ⟨u, rfl⟩ := List.length_eq_one_iff.mp ht
    rfl
  | .nested c, hs, ht => by simp only [Entry.refill, c.refill_refill s t hs ht]

theorem refillEntries_refill (s t : List Slot) :
    ∀ es : List Entry, s.length = (slotsOfEntries es).length →
      t.length = (slotsOfEntries es).length →
      refillEntries t (refillEntries s es) = refillEntries t es
  | [], _, _ => rfl
  | e :: es, hs, ht => by
    simp only [slotsOfEntries, List.length_append] at hs ht
    have hlen : (e.refill (s.take e.slots.length)).slots.length = e.slots.length := by
      rw [e.slots_refill _ (by simp; omega)]
      simp
      omega
    simp only [refillEntries, hlen]
    rw [e.refill_refill _ _ (by simp; omega) (by simp; omega),
      refillEntries_refill _ _ es (by simp; omega) (by simp; omega)]

end

theorem refillEntries_modify_left {e : Entry} {es : List Entry} {i : Nat} (f : Slot → Slot)
    (h : i < e.slots.length) :
    refillEntries ((slotsOfEntries (e :: es)).modify i f) (e :: es) =
      e.refill (e.slots.modify i f) :: es := by
  rw [refillEntries, slotsOfEntries, List.take_modify, List.drop_modify_of_lt _ _ _ _ h]
  simp [refillEntries_slots]

theorem refillEntries_modify_right {e : Entry} {es : List Entry} (f : Slot → Slot) (j : Nat) :
    refillEntries ((slotsOfEntries (e :: es)).modify (e.slots.length + j) f) (e :: es) =
      e :: refillEntries ((slotsOfEntries es).modify j f) es := by
  rw [refillEntries, slotsOfEntries, List.take_modify, List.drop_modify_of_ge _ _ _ _ (by omega)]
  simp [e.refill_slots, List.modify_eq_self]

theorem Collection.slots_emptied (c : Collection) :
    c.emptied.slots = c.slots.map Slot.emptied :=
  c.slots_refill _ (List.length_map _)

theorem Collection.emptied_eq_self {c : Collection} (h : ∀ s ∈ c.slots, s.held = []) :
    c.emptied = c := by
  have hslots : c.slots.map Slot.emptied = c.slots := by
    refine (List.map_congr_left fun s hs => ?_).trans (List.map_id _)
    rw [Slot.emptied, ← h s hs]
    rfl
  rw [emptied, hslots, c.refill_slots]

/-- Filling slots that keep their names and maxima keeps the outline. -/
theorem Collection.emptied_refill {c : Collection} {slots : List Slot}
    (h : slots.map Slot.emptied = c.slots.map Slot.emptied) :
    (c.refill slots).emptied = c.emptied := by
  have hlen : slots.length = c.slots.length := by simpa using congrArg List.length h
  rw [emptied, c.slots_refill _ hlen, h, c.refill_refill _ _ hlen (by simp), emptied]

theorem Collection.map_emptied_of_emptied {c d : Collection} (h : c.emptied = d.emptied) :
    c.slots.map Slot.emptied = d.slots.map Slot.emptied := by
  rw [← c.slots_emptied, h, d.slots_emptied]

/-- Slots at the same place of the same outline. -/
theorem exists_getElem?_of_emptied {ss ts : List Slot} {i : Nat} {s : Slot}
    (h : ss.map Slot.emptied = ts.map Slot.emptied) (hi : ss[i]? = some s) :
    ∃ t, ts[i]? = some t ∧ t.name = s.name ∧ t.maximum = s.maximum := by
  have hmap : ts[i]?.map Slot.emptied = some s.emptied := by
    rw [← List.getElem?_map, ← h, List.getElem?_map, hi, Option.map_some]
  obtain ⟨t, ht, hts⟩ := Option.map_eq_some_iff.mp hmap
  simp only [Slot.emptied, Slot.mk.injEq] at hts
  exact ⟨t, ht, hts.1, hts.2.1⟩

/-- A collection is determined by its outline and its slots. -/
theorem Collection.eq_of_emptied_of_slots {c d : Collection} (h : c.emptied = d.emptied)
    (hs : c.slots = d.slots) : c = d := by
  calc c = c.emptied.refill c.slots := by
        rw [emptied, c.refill_refill _ _ (by simp) rfl, c.refill_slots]
    _ = d.emptied.refill d.slots := by rw [h, hs]
    _ = d := by rw [emptied, d.refill_refill _ _ (by simp) rfl, d.refill_slots]

mutual

/-- Children come out slot by slot. -/
theorem Collection.children_eq_flatMap :
    ∀ c : Collection, c.children = c.slots.flatMap Slot.held
  | ⟨_, _, _, entries⟩ => childrenOfEntries_eq_flatMap entries

theorem Entry.children_eq_flatMap : ∀ e : Entry, e.children = e.slots.flatMap Slot.held
  | .slot _ => by simp [Entry.children, Entry.slots]
  | .nested c => c.children_eq_flatMap

theorem childrenOfEntries_eq_flatMap :
    ∀ es : List Entry, childrenOfEntries es = (slotsOfEntries es).flatMap Slot.held
  | [] => rfl
  | e :: es => by
    simp only [childrenOfEntries, slotsOfEntries, List.flatMap_append, e.children_eq_flatMap,
      childrenOfEntries_eq_flatMap es]

end

mutual

theorem Collection.accepts_eq_any (name : String) :
    ∀ c : Collection, c.accepts name = c.slots.any (·.accepts name)
  | ⟨_, _, _, entries⟩ => acceptsAny_eq_any name entries

theorem Entry.accepts_eq_any (name : String) :
    ∀ e : Entry, e.accepts name = e.slots.any (·.accepts name)
  | .slot _ => by simp [Entry.accepts, Entry.slots]
  | .nested c => c.accepts_eq_any name

theorem acceptsAny_eq_any (name : String) :
    ∀ es : List Entry, acceptsAny name es = (slotsOfEntries es).any (·.accepts name)
  | [] => rfl
  | e :: es => by
    simp only [acceptsAny, slotsOfEntries, List.any_append, e.accepts_eq_any name,
      acceptsAny_eq_any name es]

end

/-- An entry is empty if all its slots are. -/
theorem Entry.isEmpty_eq_all (e : Entry) : e.isEmpty = e.slots.all (·.held.isEmpty) := by
  rw [Entry.isEmpty, e.children_eq_flatMap]
  induction e.slots with
  | nil => rfl
  | cons s ss ih =>
    rw [List.flatMap_cons, List.all_cons, ← ih]
    cases s.held <;> rfl

end XmlBinding.Tree

namespace XmlBinding.Binding
open XmlBinding.Tree

mutual

/-- The collection of a class starts out with nothing held. -/
theorem Membership.held_eq_nil : ∀ (ms : Membership), ∀ s ∈ ms.collection.slots, s.held = []
  | ⟨_, _, _, slots⟩ => slotEntries_held_eq_nil slots

theorem MemberSlot.held_eq_nil : ∀ (slot : MemberSlot), ∀ s ∈ slot.entry.slots, s.held = []
  | .element _ _ _ => by simp [MemberSlot.entry, Entry.slots]
  | .wildcard _ => by simp [MemberSlot.entry, Entry.slots]
  | .group ms => ms.held_eq_nil

theorem slotEntries_held_eq_nil :
    ∀ (ss : List MemberSlot), ∀ s ∈ slotsOfEntries (slotEntries ss), s.held = []
  | [] => by simp [slotEntries, slotsOfEntries]
  | slot :: ss => by
    intro s hs
    rcases List.mem_append.mp hs with hs | hs
    · exact slot.held_eq_nil s hs
    · exact slotEntries_held_eq_nil ss s hs

end

end XmlBinding.Binding
