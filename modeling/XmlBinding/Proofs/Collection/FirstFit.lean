import XmlBinding.Proofs.Collection.Slots

/-! # Adding is first fit over the slots

Flattening a collection gives its slots in declaration order, each with its rivals: the entries
beside it in every exclusive choice around it. An element goes to the first slot that accepts it,
has room, and has only empty rivals. The collection descends level by level; the flat rule below
looks at all slots at once.
-/
namespace XmlBinding.Tree

/-- A slot with, for every exclusive choice around it, the other entries of that choice. -/
structure Position where
  slot : Slot
  rivals : List (List Entry)

namespace Position

/-- The position seen from outside a collection in which it stands beside `others`. -/
def within (exclusive : Bool) (others : List Entry) (p : Position) : Position :=
  if exclusive then { p with rivals := others :: p.rivals } else p

/-- Whether a rival is in use. -/
def isBlocked (p : Position) : Bool :=
  p.rivals.any fun others => others.any (!·.isEmpty)

/-- Whether `x` may go here. -/
def isOpen (x : Child) (p : Position) : Bool :=
  p.slot.accepts x.name && !p.slot.isFull && !p.isBlocked

@[simp] theorem within_slot (exclusive : Bool) (others : List Entry) (p : Position) :
    (p.within exclusive others).slot = p.slot := by
  unfold within
  split <;> rfl

theorem isBlocked_within (exclusive : Bool) (others : List Entry) (p : Position) :
    (p.within exclusive others).isBlocked =
      (exclusive && others.any (!·.isEmpty) || p.isBlocked) := by
  unfold within
  cases exclusive <;> simp [isBlocked]

end Position

mutual

def Collection.positions : Collection → List Position
  | ⟨compositor, minimum, maximum, entries⟩ =>
    positionsOfEntries (Collection.isExclusive ⟨compositor, minimum, maximum, entries⟩) [] entries

def Entry.positions : Entry → List Position
  | .slot s => [⟨s, []⟩]
  | .nested c => c.positions

/-- `before` are the entries that stand before these in the same collection. -/
def positionsOfEntries (exclusive : Bool) (before : List Entry) : List Entry → List Position
  | [] => []
  | e :: es =>
    e.positions.map (·.within exclusive (before ++ es)) ++
      positionsOfEntries exclusive (before ++ [e]) es

end

/-- Why no position takes `x`. -/
def refusalAt (x : Child) (ps : List Position) : Refusal :=
  if !ps.any (·.slot.accepts x.name) then .notAccepted
  else if ps.any fun p => p.slot.accepts x.name && p.isBlocked then .choiceOccupied
  else .full

/-- The place of the first open position, or why there is none. -/
def firstOpen (x : Child) (ps : List Position) : Except Refusal Nat :=
  match ps.findIdx? (·.isOpen x) with
  | some i => .ok i
  | none => .error (refusalAt x ps)

mutual

theorem Collection.map_slot_positions : ∀ c : Collection, c.positions.map (·.slot) = c.slots
  | ⟨_, _, _, entries⟩ => map_slot_positionsOfEntries _ [] entries

theorem Entry.map_slot_positions : ∀ e : Entry, e.positions.map (·.slot) = e.slots
  | .slot _ => rfl
  | .nested c => c.map_slot_positions

theorem map_slot_positionsOfEntries (exclusive : Bool) (before : List Entry) :
    ∀ es : List Entry, (positionsOfEntries exclusive before es).map (·.slot) = slotsOfEntries es
  | [] => rfl
  | e :: es => by
    simp only [positionsOfEntries, slotsOfEntries, List.map_append, List.map_map,
      map_slot_positionsOfEntries exclusive _ es, ← e.map_slot_positions]
    congr 2
    funext p
    simp

end

theorem Entry.length_positions (e : Entry) : e.positions.length = e.slots.length := by
  rw [← e.map_slot_positions, List.length_map]

theorem Entry.accepts_eq_any_positions (name : String) (e : Entry) :
    e.accepts name = e.positions.any (·.slot.accepts name) := by
  rw [e.accepts_eq_any, ← e.map_slot_positions, List.any_map]
  rfl

/-- The reason of a part is the strongest reason of its parts. -/
theorem refusalAt_append (x : Child) (ps qs : List Position) :
    refusalAt x (ps ++ qs) = (refusalAt x ps).max (refusalAt x qs) := by
  have haccepts (rs : List Position) (h : rs.any (·.slot.accepts x.name) = false) :
      (rs.any fun p => p.slot.accepts x.name && p.isBlocked) = false := by
    simp only [List.any_eq_false, Bool.and_eq_true, not_and] at h ⊢
    intro p hp ha
    exact absurd ha (h p hp)
  unfold refusalAt
  rw [List.any_append, List.any_append]
  cases hp : ps.any (·.slot.accepts x.name) with
  | false =>
    rw [haccepts ps hp]
    cases hq : qs.any (·.slot.accepts x.name) with
    | false => rfl
    | true => cases qs.any fun p => p.slot.accepts x.name && p.isBlocked <;> rfl
  | true =>
    cases hq : qs.any (·.slot.accepts x.name) with
    | false =>
      rw [haccepts qs hq]
      cases ps.any fun p => p.slot.accepts x.name && p.isBlocked <;> rfl
    | true =>
      cases ps.any fun p => p.slot.accepts x.name && p.isBlocked <;>
        cases qs.any fun p => p.slot.accepts x.name && p.isBlocked <;> rfl

theorem firstOpen_append (x : Child) (ps qs : List Position) :
    firstOpen x (ps ++ qs) = match firstOpen x ps with
      | .ok i => .ok i
      | .error r => match firstOpen x qs with
        | .ok j => .ok (ps.length + j)
        | .error r' => .error (r.max r') := by
  unfold firstOpen
  rw [List.findIdx?_append, refusalAt_append]
  cases ps.findIdx? (·.isOpen x) with
  | some i => rfl
  | none => cases qs.findIdx? (·.isOpen x) <;> simp [Nat.add_comm]

/-- Positions none of which is open, for one reason or another. -/
theorem firstOpen_eq_error {x : Child} {ps : List Position}
    (h : ∀ p ∈ ps, p.isOpen x = false) : firstOpen x ps = .error (refusalAt x ps) := by
  unfold firstOpen
  rw [List.findIdx?_eq_none_iff.mpr h]

theorem firstOpen_of_not_accepts {x : Child} {e : Entry} (exclusive : Bool) (others : List Entry)
    (h : e.accepts x.name = false) :
    firstOpen x (e.positions.map (·.within exclusive others)) = .error .notAccepted := by
  rw [e.accepts_eq_any_positions, List.any_eq_false] at h
  rw [firstOpen_eq_error]
  · simp only [refusalAt, List.any_map]
    rw [List.any_eq_false.mpr (by simpa using h)]
    rfl
  · simp only [List.mem_map, forall_exists_index, and_imp, forall_apply_eq_imp_iff₂]
    intro p hp
    simp [Position.isOpen, h p hp]

theorem firstOpen_of_occupied {x : Child} {e : Entry} {others : List Entry}
    (h : e.accepts x.name = true) (ho : others.any (!·.isEmpty) = true) :
    firstOpen x (e.positions.map (·.within true others)) = .error .choiceOccupied := by
  rw [e.accepts_eq_any_positions] at h
  rw [firstOpen_eq_error]
  · simp only [refusalAt, List.any_map, Function.comp_def, Position.within_slot,
      Position.isBlocked_within, ho, Bool.and_self, Bool.true_or, Bool.and_true, h]
    rfl
  · simp only [List.mem_map, forall_exists_index, and_imp, forall_apply_eq_imp_iff₂]
    intro p _
    simp [Position.isOpen, Position.isBlocked_within, ho]

/-- Where no rival is in use a choice makes no difference. -/
theorem firstOpen_within (x : Child) {exclusive : Bool} {others : List Entry}
    (h : (exclusive && others.any (!·.isEmpty)) = false) (ps : List Position) :
    firstOpen x (ps.map (·.within exclusive others)) = firstOpen x ps := by
  simp only [firstOpen, refusalAt, List.findIdx?_map, List.any_map, Function.comp_def,
    Position.within_slot, Position.isOpen, Position.isBlocked_within, h, Bool.false_or]

theorem lt_length_of_firstOpen {x : Child} {ps : List Position} {i : Nat}
    (h : firstOpen x ps = .ok i) : i < ps.length := by
  unfold firstOpen at h
  split at h
  · cases h
    exact (List.findIdx?_eq_some_iff_getElem.mp ‹_›).1
  · cases h

mutual

theorem Collection.place_eq (x : Child) : ∀ c : Collection,
    c.place x = (firstOpen x c.positions).map fun i => c.refill (c.slots.modify i (·.push x))
  | ⟨compositor, minimum, maximum, entries⟩ => by
    have h := placeFirst_eq x
      (Collection.isExclusive ⟨compositor, minimum, maximum, entries⟩) [] entries
    simp only [List.any_nil] at h
    simp only [Collection.place, Collection.positions, Collection.slots, Collection.refill, h]
    cases firstOpen x (positionsOfEntries _ [] entries) <;> rfl

theorem Entry.place_eq (x : Child) : ∀ e : Entry, e.accepts x.name = true →
    e.place x = (firstOpen x e.positions).map fun i => e.refill (e.slots.modify i (·.push x))
  | .slot s, h => by
    simp only [Entry.accepts] at h
    cases hf : s.isFull <;>
      simp [Entry.place, Entry.positions, Entry.slots, Entry.refill, firstOpen, refusalAt,
        Position.isOpen, Position.isBlocked, hf, h, Except.map, Slot.push]
  | .nested c, _ => by
    simp only [Entry.place, Entry.positions, Entry.slots, Entry.refill, c.place_eq x]
    cases firstOpen x c.positions <;> rfl

/-- The entries before these only matter for being in use. -/
theorem placeFirst_eq (x : Child) (exclusive : Bool) (before : List Entry) : ∀ es : List Entry,
    placeFirst x exclusive (before.any (!·.isEmpty)) es =
      (firstOpen x (positionsOfEntries exclusive before es)).map fun i =>
        refillEntries ((slotsOfEntries es).modify i (·.push x)) es
  | [] => rfl
  | e :: es => by
    have ih := placeFirst_eq x exclusive (before ++ [e]) es
    simp only [List.any_append, List.any_cons, List.any_nil, Bool.or_false] at ih
    have hlater (r : Refusal) : (match placeFirst x exclusive
          (before.any (!·.isEmpty) || !e.isEmpty) es with
        | .ok es => .ok (e :: es)
        | .error r' => .error (r.max r') : Except Refusal (List Entry)) =
        (match firstOpen x (positionsOfEntries exclusive (before ++ [e]) es) with
        | .ok j => .ok (e.slots.length + j)
        | .error r' => .error (r.max r') : Except Refusal Nat).map fun i =>
          refillEntries ((slotsOfEntries (e :: es)).modify i (·.push x)) (e :: es) := by
      rw [ih]
      cases firstOpen x (positionsOfEntries exclusive (before ++ [e]) es) with
      | error r' => rfl
      | ok j => simp [Except.map, refillEntries_modify_right]
    simp only [placeFirst, positionsOfEntries, firstOpen_append, List.length_map,
      e.length_positions]
    cases ha : e.accepts x.name with
    | false =>
      rw [firstOpen_of_not_accepts _ _ ha]
      exact hlater _
    | true =>
      cases hb : exclusive && (before ++ es).any (!·.isEmpty) with
      | true =>
        obtain ⟨rfl, ho⟩ := Bool.and_eq_true_iff.mp hb
        rw [firstOpen_of_occupied ha ho]
        rw [List.any_append] at ho
        simp only [ho, Bool.and_self, Bool.not_true, Bool.false_eq_true, if_false, if_true]
        exact hlater _
      | false =>
        rw [firstOpen_within x hb, e.place_eq x ha]
        rw [List.any_append] at hb
        simp only [hb, Bool.not_true, Bool.false_eq_true, if_false]
        cases ho : firstOpen x e.positions with
        | error r => exact hlater r
        | ok i =>
          have hi : i < e.slots.length := e.length_positions ▸ lt_length_of_firstOpen ho
          simp [Except.map, refillEntries_modify_left _ hi]

end

theorem Collection.add_eq (c : Collection) (x : Child) :
    c.add x = match c.positions.findIdx? (·.isOpen x) with
      | some i => .ok (c.refill (c.slots.modify i (·.push x)))
      | none => .error ((refusalAt x c.positions).error x.name) := by
  rw [add, place_eq, firstOpen]
  cases c.positions.findIdx? (·.isOpen x) <;> rfl

theorem Collection.map_emptied_modify_push (c : Collection) (x : Child) (i : Nat) :
    (c.slots.modify i (·.push x)).map Slot.emptied = c.slots.map Slot.emptied := by
  apply List.ext_getElem?
  intro j
  simp only [List.getElem?_map, List.getElem?_modify]
  cases c.slots[j]? with
  | none => rfl
  | some s =>
    by_cases hij : i = j <;> simp [hij]

/-- A collection takes an element iff a position is open. The element then goes to the end of the
first open slot, and nothing else changes. The error tells a name that no slot accepts, an accepting
slot beside whose branch another one is in use, and, in all remaining cases, full slots. -/
theorem Collection.add_first_fit (c : Collection) (x : Child) :
    c.positions.map (·.slot) = c.slots ∧
    (∀ c', c.add x = .ok c' ↔ ∃ i, c.positions.findIdx? (·.isOpen x) = some i ∧
      c'.slots = c.slots.modify i (·.push x) ∧ c'.emptied = c.emptied) ∧
    (∀ e, c.add x = .error e ↔ c.positions.any (·.isOpen x) = false ∧
      e = if c.positions.any (·.slot.accepts x.name) = false then .invalidChildName "" x.name
        else if c.positions.any (fun p => p.slot.accepts x.name && p.isBlocked) then
          .choiceViolation x.name
        else .maxOccursExceeded x.name) := by
  have hlen (i : Nat) : (c.slots.modify i (·.push x)).length = c.slots.length := by simp
  refine ⟨c.map_slot_positions, fun c' => ?_, fun e => ?_⟩
  · rw [c.add_eq]
    cases hi : c.positions.findIdx? (·.isOpen x) with
    | none => simp
    | some i =>
      simp only [Except.ok.injEq, Option.some.injEq, exists_eq_left']
      constructor
      · rintro rfl
        exact ⟨c.slots_refill _ (hlen i), emptied_refill (c.map_emptied_modify_push x i)⟩
      · rintro ⟨hs, he⟩
        apply eq_of_emptied_of_slots
        · rw [he, emptied_refill (c.map_emptied_modify_push x i)]
        · rw [hs, c.slots_refill _ (hlen i)]
  · rw [c.add_eq]
    cases hi : c.positions.findIdx? (·.isOpen x) with
    | some i =>
      obtain ⟨hlt, hopen, -⟩ := List.findIdx?_eq_some_iff_getElem.mp hi
      have hany : c.positions.any (·.isOpen x) = true :=
        List.any_eq_true.mpr ⟨_, List.getElem_mem hlt, hopen⟩
      simp [hany]
    | none =>
      have hany : c.positions.any (·.isOpen x) = false := by
        simpa using List.findIdx?_eq_none_iff.mp hi
      simp only [Except.error.injEq, hany, true_and, refusalAt]
      rw [eq_comm]
      cases c.positions.any (·.slot.accepts x.name) with
      | false => rfl
      | true => cases c.positions.any fun p => p.slot.accepts x.name && p.isBlocked <;> rfl

end XmlBinding.Tree
