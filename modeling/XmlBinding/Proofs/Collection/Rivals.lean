import XmlBinding.Proofs.Collection.FirstFit

/-! # Rival slots

Two slots, told by their places in declaration order, are rivals if they stand in different entries
of one exclusive choice. Who rivals whom is a matter of the outline alone, and a position is blocked
iff one of its rivals holds something.
-/
namespace XmlBinding.Tree

mutual

def Collection.Rival : Collection → Nat → Nat → Prop
  | ⟨compositor, minimum, maximum, entries⟩ =>
    entriesRival (Collection.isExclusive ⟨compositor, minimum, maximum, entries⟩) entries

def Entry.Rival : Entry → Nat → Nat → Prop
  | .slot _ => fun _ _ => False
  | .nested c => c.Rival

def entriesRival (exclusive : Bool) : List Entry → Nat → Nat → Prop
  | [] => fun _ _ => False
  | e :: es => fun i j =>
    let n := e.slots.length
    let m := (slotsOfEntries es).length
    (i < n ∧ j < n ∧ e.Rival i j) ∨
    (exclusive = true ∧ i < n ∧ n ≤ j ∧ j < n + m) ∨
    (exclusive = true ∧ j < n ∧ n ≤ i ∧ i < n + m) ∨
    (n ≤ i ∧ n ≤ j ∧ entriesRival exclusive es (i - n) (j - n))

end

mutual

theorem Collection.Rival.symm : ∀ {c : Collection} {i j : Nat}, c.Rival i j → c.Rival j i
  | ⟨_, _, _, _⟩, _, _, h => entriesRival_symm h

theorem Entry.Rival.symm : ∀ {e : Entry} {i j : Nat}, e.Rival i j → e.Rival j i
  | .nested _, _, _, h => Collection.Rival.symm h

theorem entriesRival_symm {exclusive : Bool} : ∀ {es : List Entry} {i j : Nat},
    entriesRival exclusive es i j → entriesRival exclusive es j i
  | e :: es, i, j, h => by
    rcases h with ⟨hi, hj, h⟩ | h | h | ⟨hi, hj, h⟩
    · exact .inl ⟨hj, hi, h.symm⟩
    · exact .inr (.inr (.inl h))
    · exact .inr (.inl h)
    · exact .inr (.inr (.inr ⟨hj, hi, entriesRival_symm h⟩))

end

mutual

theorem Collection.Rival.ne : ∀ {c : Collection} {i j : Nat}, c.Rival i j → i ≠ j
  | ⟨_, _, _, _⟩, _, _, h => entriesRival_ne h

theorem Entry.Rival.ne : ∀ {e : Entry} {i j : Nat}, e.Rival i j → i ≠ j
  | .nested _, _, _, h => Collection.Rival.ne h

theorem entriesRival_ne {exclusive : Bool} : ∀ {es : List Entry} {i j : Nat},
    entriesRival exclusive es i j → i ≠ j
  | e :: es, i, j, h => by
    rcases h with ⟨-, -, h⟩ | ⟨-, hi, hj, -⟩ | ⟨-, hj, hi, -⟩ | ⟨hi, hj, h⟩
    · exact h.ne
    · omega
    · omega
    · have := entriesRival_ne h
      omega

end

mutual

/-- The slots of an exclusive choice stand together: what lies between two rivals is a rival of
one of them. -/
theorem Collection.Rival.between : ∀ {c : Collection} {i j k : Nat}, c.Rival i k → i < j → j < k →
    c.Rival i j ∨ c.Rival j k
  | ⟨_, _, _, _⟩, _, _, _, h, hij, hjk => entriesRival_between h hij hjk

theorem Entry.Rival.between : ∀ {e : Entry} {i j k : Nat}, e.Rival i k → i < j → j < k →
    e.Rival i j ∨ e.Rival j k
  | .nested _, _, _, _, h, hij, hjk => Collection.Rival.between h hij hjk

theorem entriesRival_between {exclusive : Bool} : ∀ {es : List Entry} {i j k : Nat},
    entriesRival exclusive es i k → i < j → j < k →
      entriesRival exclusive es i j ∨ entriesRival exclusive es j k
  | e :: es, i, j, k, h, hij, hjk => by
    rcases h with ⟨hi, hk, h⟩ | ⟨hx, hi, hk, hkm⟩ | ⟨-, hk, hi, -⟩ | ⟨hi, hk, h⟩
    · have hj : j < e.slots.length := by omega
      exact (h.between hij hjk).imp (fun h => .inl ⟨hi, hj, h⟩) fun h => .inl ⟨hj, hk, h⟩
    · by_cases hj : j < e.slots.length
      · exact .inr (.inr (.inl ⟨hx, hj, hk, hkm⟩))
      · exact .inl (.inr (.inl ⟨hx, hi, by omega, by omega⟩))
    · omega
    · exact (entriesRival_between h (by omega) (by omega)).imp
        (fun h => .inr (.inr (.inr ⟨hi, by omega, h⟩)))
        fun h => .inr (.inr (.inr ⟨by omega, hk, h⟩))

end

mutual

theorem Collection.rival_refill (slots : List Slot) :
    ∀ c : Collection, slots.length = c.slots.length → (c.refill slots).Rival = c.Rival
  | ⟨_, _, _, entries⟩, h => entriesRival_refill slots _ entries h

theorem Entry.rival_refill (slots : List Slot) :
    ∀ e : Entry, slots.length = e.slots.length → (e.refill slots).Rival = e.Rival
  | .slot _, _ => rfl
  | .nested c, h => c.rival_refill slots h

theorem entriesRival_refill (slots : List Slot) (exclusive : Bool) :
    ∀ es : List Entry, slots.length = (slotsOfEntries es).length →
      entriesRival exclusive (refillEntries slots es) = entriesRival exclusive es
  | [], _ => rfl
  | e :: es, h => by
    rw [slotsOfEntries, List.length_append] at h
    have htake : (slots.take e.slots.length).length = e.slots.length := by simp; omega
    have hdrop : (slots.drop e.slots.length).length = (slotsOfEntries es).length := by simp; omega
    funext i j
    simp only [refillEntries, entriesRival, e.slots_refill _ htake, htake,
      slotsOfEntries_refill _ es hdrop, hdrop, e.rival_refill _ htake,
      entriesRival_refill _ exclusive es hdrop]

end

/-- Who rivals whom depends on the outline only. -/
theorem Collection.rival_of_emptied {c d : Collection} (h : c.emptied = d.emptied) :
    c.Rival = d.Rival := by
  rw [← c.rival_refill _ (List.length_map Slot.emptied), ← d.rival_refill _
    (List.length_map Slot.emptied)]
  exact congrArg Collection.Rival h

/-- No name goes to both of two rivals. -/
def Collection.Separated (c : Collection) : Prop :=
  ∀ i j s t name, c.Rival i j → c.slots[i]? = some s → c.slots[j]? = some t →
    s.accepts name = true → t.accepts name = false

/-- Whether the slot at a place holds something. -/
def Occupied (slots : List Slot) (i : Nat) : Prop :=
  ∃ s, slots[i]? = some s ∧ s.held ≠ []

theorem Occupied.lt {slots : List Slot} {i : Nat} (h : Occupied slots i) : i < slots.length := by
  obtain ⟨s, hs, -⟩ := h
  exact (List.getElem?_eq_some_iff.mp hs).1

theorem occupied_append {ss ts : List Slot} {i : Nat} :
    Occupied (ss ++ ts) i ↔
      (i < ss.length ∧ Occupied ss i) ∨ (ss.length ≤ i ∧ Occupied ts (i - ss.length)) := by
  by_cases hi : i < ss.length
  · simp [Occupied, List.getElem?_append_left hi, hi, Nat.not_le.mpr hi]
  · simp [Occupied, List.getElem?_append_right (Nat.le_of_not_lt hi), hi, Nat.le_of_not_lt hi]

theorem Entry.isEmpty_eq_false_iff (e : Entry) :
    e.isEmpty = false ↔ ∃ i, Occupied e.slots i := by
  rw [e.isEmpty_eq_all, List.all_eq_false]
  constructor
  · rintro ⟨s, hs, hne⟩
    obtain ⟨i, hi⟩ := List.mem_iff_getElem?.mp hs
    exact ⟨i, s, hi, by simpa using hne⟩
  · rintro ⟨i, s, hi, hne⟩
    exact ⟨s, List.mem_of_getElem? hi, by simpa using hne⟩

theorem any_not_isEmpty_iff (es : List Entry) :
    es.any (!·.isEmpty) = true ↔ ∃ i, Occupied (slotsOfEntries es) i := by
  induction es with
  | nil => simp [Occupied, slotsOfEntries]
  | cons e es ih =>
    rw [List.any_cons, Bool.or_eq_true, ih, Bool.not_eq_true', e.isEmpty_eq_false_iff,
      slotsOfEntries]
    constructor
    · rintro (⟨i, h⟩ | ⟨i, h⟩)
      · exact ⟨i, occupied_append.mpr (.inl ⟨h.lt, h⟩)⟩
      · exact ⟨e.slots.length + i, occupied_append.mpr (.inr ⟨by omega, by simpa using h⟩)⟩
    · rintro ⟨i, h⟩
      exact (occupied_append.mp h).imp (fun h => ⟨i, h.2⟩) fun h => ⟨_, h.2⟩

section
variable {exclusive : Bool} {e : Entry} {es : List Entry} {i : Nat}

/-- Within the first entry the rivals are those of the entry itself, and all others of a choice. -/
theorem exists_rival_head (hi : i < e.slots.length) :
    (∃ j, entriesRival exclusive (e :: es) i j ∧ Occupied (slotsOfEntries (e :: es)) j) ↔
      (exclusive = true ∧ ∃ j, Occupied (slotsOfEntries es) j) ∨
        ∃ j, e.Rival i j ∧ Occupied e.slots j := by
  constructor
  · rintro ⟨j, hr, hj⟩
    rcases hr with ⟨-, hjn, hr⟩ | ⟨hx, -, hnj, -⟩ | ⟨-, -, hni, -⟩ | ⟨hni, -, -⟩
    · rcases occupied_append.mp hj with h | h
      · exact .inr ⟨j, hr, h.2⟩
      · omega
    · rcases occupied_append.mp hj with h | h
      · omega
      · exact .inl ⟨hx, _, h.2⟩
    · omega
    · omega
  · rintro (⟨hx, j, hj⟩ | ⟨j, hr, hj⟩)
    · have hlt := hj.lt
      exact ⟨e.slots.length + j, .inr (.inl ⟨hx, hi, by omega, by omega⟩),
        occupied_append.mpr (.inr ⟨by omega, by simpa using hj⟩)⟩
    · exact ⟨j, .inl ⟨hi, hj.lt, hr⟩, occupied_append.mpr (.inl ⟨hj.lt, hj⟩)⟩

/-- Behind the first entry they are those behind it, and the first entry of a choice. -/
theorem exists_rival_tail (hi : ¬ i < e.slots.length)
    (hlt : i - e.slots.length < (slotsOfEntries es).length) :
    (∃ j, entriesRival exclusive (e :: es) i j ∧ Occupied (slotsOfEntries (e :: es)) j) ↔
      (exclusive = true ∧ ∃ j, Occupied e.slots j) ∨
        ∃ j, entriesRival exclusive es (i - e.slots.length) j ∧
          Occupied (slotsOfEntries es) j := by
  constructor
  · rintro ⟨j, hr, hj⟩
    rcases hr with ⟨hin, -, -⟩ | ⟨-, hin, -, -⟩ | ⟨hx, hjn, -, -⟩ | ⟨-, hnj, hr⟩
    · omega
    · omega
    · rcases occupied_append.mp hj with h | h
      · exact .inl ⟨hx, j, h.2⟩
      · omega
    · rcases occupied_append.mp hj with h | h
      · omega
      · exact .inr ⟨_, hr, h.2⟩
  · rintro (⟨hx, j, hj⟩ | ⟨j, hr, hj⟩)
    · exact ⟨j, .inr (.inr (.inl ⟨hx, hj.lt, by omega, by omega⟩)),
        occupied_append.mpr (.inl ⟨hj.lt, hj⟩)⟩
    · exact ⟨e.slots.length + j, .inr (.inr (.inr ⟨by omega, by omega, by simpa using hr⟩)),
        occupied_append.mpr (.inr ⟨by omega, by simpa using hj⟩)⟩

end

mutual

/-- A position is blocked iff a rival is in use. -/
theorem Collection.isBlocked_iff : ∀ {c : Collection} {i : Nat} {p : Position},
    c.positions[i]? = some p → (p.isBlocked = true ↔ ∃ j, c.Rival i j ∧ Occupied c.slots j)
  | ⟨_, _, _, entries⟩, _, _, h => by
    have hb := isBlocked_entries_iff h
    simpa [Collection.Rival, Collection.slots] using hb

theorem Entry.isBlocked_iff : ∀ {e : Entry} {i : Nat} {p : Position},
    e.positions[i]? = some p → (p.isBlocked = true ↔ ∃ j, e.Rival i j ∧ Occupied e.slots j)
  | .slot s, 0, p, h => by
    cases h
    simp [Position.isBlocked, Entry.Rival]
  | .nested _, _, _, h => Collection.isBlocked_iff h

theorem isBlocked_entries_iff {exclusive : Bool} : ∀ {before es : List Entry} {i : Nat}
    {p : Position}, (positionsOfEntries exclusive before es)[i]? = some p →
      (p.isBlocked = true ↔ (exclusive && before.any (!·.isEmpty)) = true ∨
        ∃ j, entriesRival exclusive es i j ∧ Occupied (slotsOfEntries es) j)
  | before, e :: es, i, p, h => by
    rw [positionsOfEntries] at h
    by_cases hi : i < e.slots.length
    · rw [List.getElem?_append_left (by simpa [e.length_positions] using hi), List.getElem?_map,
        Option.map_eq_some_iff] at h
      obtain ⟨q, hq, rfl⟩ := h
      rw [Position.isBlocked_within, Bool.or_eq_true, Entry.isBlocked_iff hq, List.any_append,
        Bool.and_or_distrib_left, Bool.or_eq_true, or_assoc, exists_rival_head hi]
      refine or_congr_right ?_
      rw [Bool.and_eq_true, any_not_isEmpty_iff]
    · rw [List.getElem?_append_right (by simpa [e.length_positions] using hi), List.length_map,
        e.length_positions] at h
      have hlt : i - e.slots.length < (slotsOfEntries es).length := by
        rw [← map_slot_positionsOfEntries exclusive (before ++ [e]) es, List.length_map]
        exact (List.getElem?_eq_some_iff.mp h).1
      rw [isBlocked_entries_iff h, List.any_append, List.any_cons, List.any_nil, Bool.or_false,
        Bool.and_or_distrib_left, Bool.or_eq_true, or_assoc, exists_rival_tail hi hlt]
      refine or_congr_right ?_
      rw [Bool.and_eq_true, Bool.not_eq_true', e.isEmpty_eq_false_iff]

end

/-- A slot takes no more elements: it is full, or a rival is in use. -/
def Collection.Closed (c : Collection) (i : Nat) : Prop :=
  ∃ s, c.slots[i]? = some s ∧ (s.isFull = true ∨ ∃ j, c.Rival i j ∧ Occupied c.slots j)

theorem Collection.getElem?_slot_positions (c : Collection) (i : Nat) :
    c.positions[i]?.map (·.slot) = c.slots[i]? := by
  rw [← c.map_slot_positions, List.getElem?_map]

/-- A position is open iff its slot accepts the name and is not closed. -/
theorem Collection.isOpen_iff {c : Collection} {i : Nat} {p : Position} {x : Child}
    (hi : c.positions[i]? = some p) :
    p.isOpen x = true ↔ p.slot.accepts x.name = true ∧ ¬ c.Closed i := by
  have hs : c.slots[i]? = some p.slot := by
    rw [← c.getElem?_slot_positions, hi, Option.map_some]
  have hclosed : c.Closed i ↔ p.slot.isFull = true ∨ p.isBlocked = true := by
    simp [Closed, hs, isBlocked_iff hi]
  rw [Position.isOpen, hclosed]
  simp [and_assoc]

end XmlBinding.Tree
