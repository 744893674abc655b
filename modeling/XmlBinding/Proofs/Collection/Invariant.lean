import XmlBinding.Proofs.Collection.Removal
import XmlBinding.Proofs.Collection.Rivals

/-! # What every run of additions and removals keeps

Slots stay within their maxima and hold elements of their own name only, and an exclusive choice
has at most one entry in use. The last is shown on the slots: no two rivals are in use. An addition
keeps it because the slot it fills has no rival in use, a removal because slots only shrink.
-/
namespace XmlBinding.Tree

inductive Change where
  | add (x : Child)
  | remove (x : Child)

/-- A change that fails leaves the collection as it is. -/
def Collection.change (c : Collection) : Change → Collection
  | .add x => match c.add x with
    | .ok c' => c'
    | .error _ => c
  | .remove x => match c.remove x with
    | .ok c' => c'
    | .error _ => c

def Collection.run (c : Collection) (changes : List Change) : Collection :=
  changes.foldl Collection.change c

mutual

/-- The collection itself and all collections in it, at any depth. -/
def Collection.collections : Collection → List Collection
  | ⟨compositor, minimum, maximum, entries⟩ =>
    ⟨compositor, minimum, maximum, entries⟩ :: collectionsOfEntries entries

def Entry.collections : Entry → List Collection
  | .slot _ => []
  | .nested c => c.collections

def collectionsOfEntries : List Entry → List Collection
  | [] => []
  | e :: es => e.collections ++ collectionsOfEntries es

end

/-- Of two entries of one exclusive choice one is empty. -/
def Collection.OneBranch (c : Collection) : Prop :=
  c.isExclusive = true → c.entries.Pairwise fun a b => a.isEmpty = true ∨ b.isEmpty = true

/-- Slots hold what they may. -/
structure Slot.Sound (s : Slot) : Prop where
  maximum_le : ∀ m, s.maximum = some m → s.held.length ≤ m
  named : ∀ n, s.name = some n → ∀ x ∈ s.held, x.name = n

structure Collection.Sound (c : Collection) : Prop where
  slots : ∀ s ∈ c.slots, s.Sound
  oneBranch : ∀ d ∈ c.collections, d.OneBranch

/-- No two rivals are in use. -/
def Collection.Apart (c : Collection) : Prop :=
  ∀ i j, c.Rival i j → Occupied c.slots i → ¬ Occupied c.slots j

theorem Slot.Sound.push {s : Slot} {x : Child} (h : s.Sound) (ha : s.accepts x.name = true)
    (hf : s.isFull = false) : (s.push x).Sound where
  maximum_le m hm := by
    have hmax : s.maximum = some m := hm
    have hlt : s.held.length < m := by simpa [Slot.isFull, hmax] using hf
    simpa [Nat.succ_le_iff] using hlt
  named n hn y hy := by
    rw [Slot.push_held, List.mem_append, List.mem_singleton] at hy
    rcases hy with hy | rfl
    · exact h.named n hn y hy
    · have hname : s.name = some n := hn
      have hyn : n = y.name := by simpa [Slot.accepts, hname] using ha
      exact hyn.symm

theorem Slot.Sound.withdraw {s : Slot} (id : Nat) (h : s.Sound) : (s.withdraw id).Sound where
  maximum_le m hm := Nat.le_trans List.eraseP_sublist.length_le (h.maximum_le m hm)
  named n hn x hx := h.named n hn x (List.eraseP_sublist.subset hx)

theorem getElem?_modify_eq_some {slots : List Slot} {f : Slot → Slot} {i j : Nat} {s : Slot} :
    (slots.modify i f)[j]? = some s ↔
      ∃ t, slots[j]? = some t ∧ (if i = j then f t else t) = s := by
  rw [List.getElem?_modify, Option.map_eq_map, Option.map_eq_some_iff]

theorem sound_modify {slots : List Slot} {f : Slot → Slot} {i : Nat}
    (h : ∀ s ∈ slots, s.Sound) (hf : ∀ s, slots[i]? = some s → (f s).Sound) :
    ∀ s ∈ slots.modify i f, s.Sound := by
  intro s hs
  obtain ⟨j, hj⟩ := List.mem_iff_getElem?.mp hs
  obtain ⟨t, ht, rfl⟩ := getElem?_modify_eq_some.mp hj
  split
  · next hij => exact hf t (hij ▸ ht)
  · exact h t (List.mem_of_getElem? ht)

theorem occupied_modify_push {slots : List Slot} {x : Child} {i j : Nat}
    (h : Occupied (slots.modify i (·.push x)) j) : j = i ∨ Occupied slots j := by
  obtain ⟨s, hs, hne⟩ := h
  obtain ⟨t, ht, rfl⟩ := getElem?_modify_eq_some.mp hs
  by_cases hij : i = j
  · exact .inl hij.symm
  · rw [if_neg hij] at hne
    exact .inr ⟨t, ht, hne⟩

theorem occupied_modify_withdraw {slots : List Slot} {id i j : Nat}
    (h : Occupied (slots.modify i (·.withdraw id)) j) : Occupied slots j := by
  obtain ⟨s, hs, hne⟩ := h
  obtain ⟨t, ht, rfl⟩ := getElem?_modify_eq_some.mp hs
  refine ⟨t, ht, fun hnil => hne ?_⟩
  split <;> simp [Slot.withdraw, hnil]

/-- An addition puts the element into the first slot that accepts it and is not closed. -/
theorem Collection.add_eq_ok_iff {c c' : Collection} {x : Child} :
    c.add x = .ok c' ↔ ∃ i s, c.slots[i]? = some s ∧ s.accepts x.name = true ∧ ¬ c.Closed i ∧
      (∀ k < i, ∀ t, c.slots[k]? = some t → t.accepts x.name = true → c.Closed k) ∧
      c' = c.refill (c.slots.modify i (·.push x)) := by
  have hslot {i : Nat} {p : Position} (hi : c.positions[i]? = some p) :
      c.slots[i]? = some p.slot := by
    rw [← c.getElem?_slot_positions, hi, Option.map_some]
  rw [c.add_eq]
  constructor
  · intro h
    split at h
    · next i hi =>
      cases h
      obtain ⟨hlt, hopen, hfirst⟩ := List.findIdx?_eq_some_iff_getElem.mp hi
      have hp : c.positions[i]? = some c.positions[i] := List.getElem?_eq_getElem hlt
      obtain ⟨haccepts, hclosed⟩ := (isOpen_iff hp).mp hopen
      refine ⟨i, _, hslot hp, haccepts, hclosed, fun k hk t ht hat => ?_, rfl⟩
      have hq : c.positions[k]? = some c.positions[k] := List.getElem?_eq_getElem (by omega)
      obtain rfl := Option.some.inj ((hslot hq).symm.trans ht)
      cases Classical.em (c.Closed k) with
      | inl h => exact h
      | inr h => exact absurd ((isOpen_iff hq).mpr ⟨hat, h⟩) (hfirst k hk)
    · cases h
  · rintro ⟨i, s, hs, haccepts, hclosed, hfirst, rfl⟩
    have hlt : i < c.positions.length := by
      rw [← List.length_map (·.slot), c.map_slot_positions]
      exact (List.getElem?_eq_some_iff.mp hs).1
    have hp : c.positions[i]? = some c.positions[i] := List.getElem?_eq_getElem hlt
    obtain rfl := Option.some.inj ((hslot hp).symm.trans hs)
    have hfind : c.positions.findIdx? (·.isOpen x) = some i := by
      refine List.findIdx?_eq_some_iff_getElem.mpr
        ⟨hlt, (isOpen_iff hp).mpr ⟨haccepts, hclosed⟩, fun k hk hopen => ?_⟩
      have hq : c.positions[k]? = some c.positions[k] := List.getElem?_eq_getElem (by omega)
      obtain ⟨hat, hopen⟩ := (isOpen_iff hq).mp hopen
      exact hopen (hfirst k hk _ (hslot hq) hat)
    rw [hfind]

theorem Collection.apart_add {c c' : Collection} {x : Child} (h : c.Apart)
    (ha : c.add x = .ok c') : c'.Apart := by
  obtain ⟨i, s, hs, -, hclosed, -, rfl⟩ := add_eq_ok_iff.mp ha
  have hfree (j : Nat) (hr : c.Rival i j) (hj : Occupied c.slots j) : False :=
    hclosed ⟨s, hs, .inr ⟨j, hr, hj⟩⟩
  intro j k hr hj hk
  rw [c.rival_refill _ (by simp)] at hr
  rw [c.slots_refill _ (by simp)] at hj hk
  rcases occupied_modify_push hj with rfl | hj'
  · rcases occupied_modify_push hk with rfl | hk'
    · exact hr.ne rfl
    · exact hfree k hr hk'
  · rcases occupied_modify_push hk with rfl | hk'
    · exact hfree j hr.symm hj'
    · exact h j k hr hj' hk'

theorem Collection.sound_slots_add {c c' : Collection} {x : Child} (h : ∀ s ∈ c.slots, s.Sound)
    (ha : c.add x = .ok c') : ∀ s ∈ c'.slots, s.Sound := by
  obtain ⟨i, s, hs, haccepts, hclosed, -, rfl⟩ := add_eq_ok_iff.mp ha
  have hroom : s.isFull = false := Bool.eq_false_iff.mpr fun hf => hclosed ⟨s, hs, .inl hf⟩
  rw [c.slots_refill _ (by simp)]
  refine sound_modify h fun t ht => ?_
  obtain rfl : s = t := Option.some.inj (hs.symm.trans ht)
  exact (h s (List.mem_of_getElem? hs)).push haccepts hroom

theorem Collection.apart_remove {c c' : Collection} {x : Child} (h : c.Apart)
    (hr : c.remove x = .ok c') : c'.Apart := by
  obtain ⟨i, -, rfl⟩ := remove_eq_ok_iff.mp hr
  intro j k hjk hj hk
  rw [c.rival_refill _ (by simp)] at hjk
  rw [c.slots_refill _ (by simp)] at hj hk
  exact h j k hjk (occupied_modify_withdraw hj) (occupied_modify_withdraw hk)

theorem Collection.sound_slots_remove {c c' : Collection} {x : Child}
    (h : ∀ s ∈ c.slots, s.Sound) (hr : c.remove x = .ok c') : ∀ s ∈ c'.slots, s.Sound := by
  obtain ⟨i, -, rfl⟩ := remove_eq_ok_iff.mp hr
  rw [c.slots_refill _ (by simp)]
  exact sound_modify h fun t ht => (h t (List.mem_of_getElem? ht)).withdraw x.id

/-- One change keeps both parts of the invariant. -/
theorem Collection.apart_change {c : Collection} (change : Change) (h : c.Apart)
    (hs : ∀ s ∈ c.slots, s.Sound) :
    (c.change change).Apart ∧ ∀ s ∈ (c.change change).slots, s.Sound := by
  cases change with
  | add x =>
    rw [Collection.change]
    cases ha : c.add x with
    | ok c' => exact ⟨apart_add h ha, sound_slots_add hs ha⟩
    | error e => exact ⟨h, hs⟩
  | remove x =>
    rw [Collection.change]
    cases hr : c.remove x with
    | ok c' => exact ⟨apart_remove h hr, sound_slots_remove hs hr⟩
    | error e => exact ⟨h, hs⟩

theorem Collection.apart_run {c : Collection} (changes : List Change) (h : c.Apart)
    (hs : ∀ s ∈ c.slots, s.Sound) :
    (c.run changes).Apart ∧ ∀ s ∈ (c.run changes).slots, s.Sound := by
  induction changes generalizing c with
  | nil => exact ⟨h, hs⟩
  | cons change changes ih =>
    obtain ⟨h', hs'⟩ := apart_change change h hs
    exact ih h' hs'

mutual

/-- Where no rivals are in use, an exclusive choice at any depth uses one branch. -/
theorem Collection.oneBranch_of_apart : ∀ {c : Collection}, c.Apart →
    ∀ d ∈ c.collections, d.OneBranch
  | ⟨compositor, minimum, maximum, entries⟩, h => by
    obtain ⟨hpair, hrest⟩ := @oneBranch_entries _ entries fun i j => h i j
    intro d hd
    rw [Collection.collections, List.mem_cons] at hd
    rcases hd with rfl | hd
    · exact hpair
    · exact hrest d hd

theorem Entry.oneBranch_of_apart : ∀ {e : Entry},
    (∀ i j, e.Rival i j → Occupied e.slots i → ¬ Occupied e.slots j) →
      ∀ d ∈ e.collections, d.OneBranch
  | .slot _, _, _, hd => by cases hd
  | .nested _, h, d, hd => Collection.oneBranch_of_apart h d hd

theorem oneBranch_entries {exclusive : Bool} : ∀ {es : List Entry},
    (∀ i j, entriesRival exclusive es i j →
      Occupied (slotsOfEntries es) i → ¬ Occupied (slotsOfEntries es) j) →
      (exclusive = true → es.Pairwise fun a b => a.isEmpty = true ∨ b.isEmpty = true) ∧
        ∀ d ∈ collectionsOfEntries es, d.OneBranch
  | [], _ => ⟨fun _ => .nil, fun _ hd => by cases hd⟩
  | e :: es, h => by
    have hright {i : Nat} (hi : Occupied (slotsOfEntries es) i) :
        Occupied (slotsOfEntries (e :: es)) (e.slots.length + i) :=
      occupied_append.mpr (.inr ⟨by omega, by simpa using hi⟩)
    have hleft {i : Nat} (hi : Occupied e.slots i) : Occupied (slotsOfEntries (e :: es)) i :=
      occupied_append.mpr (.inl ⟨hi.lt, hi⟩)
    have hhead := e.oneBranch_of_apart fun i j hr hi hj =>
      h i j (.inl ⟨hi.lt, hj.lt, hr⟩) (hleft hi) (hleft hj)
    obtain ⟨hpair, htail⟩ := @oneBranch_entries _ es fun i j hr hi hj =>
      h _ _ (.inr (.inr (.inr ⟨by omega, by omega, by simpa using hr⟩))) (hright hi) (hright hj)
    constructor
    · intro hx
      refine List.pairwise_cons.mpr ⟨fun b hb => ?_, hpair hx⟩
      cases hhe : e.isEmpty with
      | true => exact .inl rfl
      | false =>
        cases hbe : b.isEmpty with
        | true => exact .inr rfl
        | false =>
          -- the head and a later entry in use would be rivals in use
          obtain ⟨i, hi⟩ := e.isEmpty_eq_false_iff.mp hhe
          obtain ⟨j, hj⟩ := (any_not_isEmpty_iff es).mp
            (List.any_eq_true.mpr ⟨b, hb, by simp [hbe]⟩)
          have hilt := hi.lt
          have hjlt := hj.lt
          exact absurd (hright hj) (h i (e.slots.length + j)
            (.inr (.inl ⟨hx, hilt, by omega, by omega⟩)) (hleft hi))
    · intro d hd
      rw [collectionsOfEntries, List.mem_append] at hd
      exact hd.elim (hhead d) (htail d)

end

theorem occupied_of_mem_children {c : Collection} {i : Nat} (h : Occupied c.slots i) :
    c.children ≠ [] := by
  obtain ⟨s, hs, hne⟩ := h
  rw [c.children_eq_flatMap]
  intro hnil
  exact hne (List.flatMap_eq_nil_iff.mp hnil s (List.mem_of_getElem? hs))

/-- After any additions and removals, failing ones included, to a collection that starts out empty,
slots hold no more than they may and only elements of their name, and of every exclusive choice at
any depth at most one entry is in use. -/
theorem Collection.sound_run {c : Collection} (h : c.children = []) (changes : List Change) :
    (c.run changes).Sound := by
  have hempty : ∀ s ∈ c.slots, s.held = [] :=
    List.flatMap_eq_nil_iff.mp (c.children_eq_flatMap ▸ h)
  have hslots : ∀ s ∈ c.slots, s.Sound := fun s hs =>
    ⟨fun m _ => by simp [hempty s hs], fun n _ x hx => by simp [hempty s hs] at hx⟩
  obtain ⟨hapart, hsound⟩ := apart_run changes
    (fun i _ _ hi => absurd h (occupied_of_mem_children hi)) hslots
  exact ⟨hsound, oneBranch_of_apart hapart⟩

theorem Collection.sound_run_of_branches :
    let c : Collection := ⟨.choice, 1, some 1, [.slot ⟨some "a", some 1, []⟩,
      .nested ⟨.sequence, 1, some 1, [.slot ⟨some "b", none, []⟩, .slot ⟨none, some 2, []⟩]⟩]⟩
    c.children = [] ∧
      (c.run [.add ⟨0, "b"⟩, .add ⟨1, "a"⟩, .remove ⟨0, "b"⟩, .add ⟨2, "a"⟩]).Sound :=
  ⟨rfl, Collection.sound_run rfl _⟩

end XmlBinding.Tree
