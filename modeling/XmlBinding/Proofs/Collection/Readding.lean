import XmlBinding.Proofs.Collection.Invariant

/-! # Adding the children of a collection again

Additions leave every element in the first slot that could take it, and later ones only close more
slots. So the children of a collection, added to an empty one slot by slot, find their slots again,
provided that no two branches of an exclusive choice take a common name: else a branch that was in
use already would take what went to a later one.
-/
namespace XmlBinding.Tree

/-- Adds elements in order. -/
def Collection.addAll (c : Collection) (xs : List Child) : Except TreeError Collection :=
  xs.foldlM Collection.add c

/-- Elements stand behind slots only that would not take them. -/
def Collection.Settled (c : Collection) : Prop :=
  ∀ i j s t, i < j → c.slots[i]? = some s → c.slots[j]? = some t →
    ∀ y ∈ t.held, s.accepts y.name = true → c.Closed i

/-- What holds of a collection after additions only. -/
structure Collection.Grown (c : Collection) : Prop where
  slots : ∀ s ∈ c.slots, s.Sound
  apart : c.Apart
  settled : c.Settled

theorem Slot.isFull_push {s : Slot} {x : Child} (h : s.isFull = true) :
    (s.push x).isFull = true := by
  obtain ⟨m, hm, hle⟩ : ∃ m, s.maximum = some m ∧ m ≤ s.held.length := by
    simpa [isFull, Option.any_eq_true] using h
  simp [isFull, hm, Nat.le_succ_of_le hle]

theorem Occupied.push {slots : List Slot} {j : Nat} (h : Occupied slots j) (x : Child) (g : Nat) :
    Occupied (slots.modify g (·.push x)) j := by
  obtain ⟨s, hs, hne⟩ := h
  refine ⟨_, getElem?_modify_eq_some.mpr ⟨s, hs, rfl⟩, ?_⟩
  split <;> simp [hne]

/-- What is closed stays closed. -/
theorem Collection.Closed.push {c : Collection} {i : Nat} (h : c.Closed i) (x : Child) (g : Nat) :
    (c.refill (c.slots.modify g (·.push x))).Closed i := by
  obtain ⟨s, hs, h⟩ := h
  rw [Closed, c.slots_refill _ (by simp), c.rival_refill _ (by simp)]
  refine ⟨_, getElem?_modify_eq_some.mpr ⟨s, hs, rfl⟩, ?_⟩
  rcases h with hfull | ⟨j, hr, hj⟩
  · left
    split
    · exact Slot.isFull_push hfull
    · exact hfull
  · exact .inr ⟨j, hr, hj.push x g⟩

theorem Collection.settled_add {c c' : Collection} {x : Child} (h : c.Settled)
    (ha : c.add x = .ok c') : c'.Settled := by
  obtain ⟨g, u, hu, -, -, hfirst, rfl⟩ := add_eq_ok_iff.mp ha
  intro i j s t hij hi hj y hy haccepts
  rw [c.slots_refill _ (by simp)] at hi hj
  obtain ⟨s, hs, rfl⟩ := getElem?_modify_eq_some.mp hi
  obtain ⟨t, ht, rfl⟩ := getElem?_modify_eq_some.mp hj
  replace haccepts : s.accepts y.name = true := by
    split at haccepts <;> exact haccepts
  refine Closed.push ?_ x g
  split at hy
  · next hgj =>
    rw [Slot.push_held, List.mem_append, List.mem_singleton] at hy
    rcases hy with hy | rfl
    · exact h i j s t hij hs ht y hy haccepts
    · exact hfirst i (by omega) s hs haccepts
  · exact h i j s t hij hs ht y hy haccepts

theorem Collection.grown_add {c c' : Collection} {x : Child} (h : c.Grown)
    (ha : c.add x = .ok c') : c'.Grown :=
  ⟨sound_slots_add h.slots ha, apart_add h.apart ha, settled_add h.settled ha⟩

theorem Collection.grown_of_held_eq_nil {c : Collection} (h : ∀ s ∈ c.slots, s.held = []) :
    c.Grown where
  slots s hs := ⟨fun m _ => by simp [h s hs], fun n _ x hx => by simp [h s hs] at hx⟩
  apart i j _ hi := by
    obtain ⟨s, hs, hne⟩ := hi
    exact absurd (h s (List.mem_of_getElem? hs)) hne
  settled i j s t _ _ hj y hy := by simp [h t (List.mem_of_getElem? hj)] at hy

/-- Deals elements out to slots in order, to each slot as many as it holds while there are any. -/
def deal : List Slot → List Child → List Slot
  | [], _ => []
  | s :: ss, xs => { s with held := xs.take s.held.length } :: deal ss (xs.drop s.held.length)

@[simp] theorem length_deal (ss : List Slot) (xs : List Child) :
    (deal ss xs).length = ss.length := by
  induction ss generalizing xs with
  | nil => rfl
  | cons s ss ih => simp [deal, ih]

theorem deal_nil (ss : List Slot) : deal ss [] = ss.map Slot.emptied := by
  induction ss with
  | nil => rfl
  | cons s ss ih => simp [deal, Slot.emptied, ih]

theorem flatMap_held_deal {ss : List Slot} {xs : List Child}
    (h : xs.length ≤ (ss.flatMap Slot.held).length) : (deal ss xs).flatMap Slot.held = xs := by
  induction ss generalizing xs with
  | nil =>
    obtain rfl : xs = [] := List.length_eq_zero_iff.mp (Nat.le_zero.mp h)
    rfl
  | cons s ss ih =>
    rw [List.flatMap_cons, List.length_append] at h
    rw [deal, List.flatMap_cons, ih (by rw [List.length_drop]; omega), List.take_append_drop]

/-- Slots in their order get as many elements as they hold. -/
theorem map_length_held_deal {ss : List Slot} {xs : List Child}
    (h : xs.length = (ss.flatMap Slot.held).length) :
    (deal ss xs).map (·.held.length) = ss.map (·.held.length) := by
  induction ss generalizing xs with
  | nil => rfl
  | cons s ss ih =>
    rw [List.flatMap_cons, List.length_append] at h
    rw [deal, List.map_cons, List.map_cons, ih (by rw [List.length_drop]; omega), List.length_take,
      Nat.min_eq_left (by omega)]

/-- Only what the slots hold differs. -/
theorem map_emptied_deal (ss : List Slot) (xs : List Child) :
    (deal ss xs).map Slot.emptied = ss.map Slot.emptied := by
  induction ss generalizing xs with
  | nil => rfl
  | cons s ss ih => rw [deal, List.map_cons, List.map_cons, ih, Slot.emptied, Slot.emptied]

section
variable {c : Collection} {xs : List Child}

theorem Collection.emptied_refill_deal : (c.refill (deal c.slots xs)).emptied = c.emptied :=
  emptied_refill (map_emptied_deal c.slots xs)

theorem Collection.children_refill_deal (h : xs.length ≤ c.children.length) :
    (c.refill (deal c.slots xs)).children = xs := by
  rw [c.children_eq_flatMap] at h
  rw [children_eq_flatMap, c.slots_refill _ (length_deal _ _), flatMap_held_deal h]

end

theorem getElem?_deal {ss : List Slot} {xs : List Child} {i : Nat} {u : Slot}
    (h : (deal ss xs)[i]? = some u) :
    ∃ s, ss[i]? = some s ∧ u.name = s.name ∧ u.maximum = s.maximum ∧
      u.held.length ≤ s.held.length := by
  induction ss generalizing xs i with
  | nil => simp [deal] at h
  | cons s ss ih =>
    cases i with
    | zero =>
      cases h
      exact ⟨s, rfl, rfl, rfl, List.length_take_le _ _⟩
    | succ i => exact ih h

theorem Occupied.of_deal {ss : List Slot} {xs : List Child} {j : Nat}
    (h : Occupied (deal ss xs) j) : Occupied ss j := by
  obtain ⟨u, hu, hne⟩ := h
  obtain ⟨s, hs, -, -, hle⟩ := getElem?_deal hu
  have := List.length_pos_iff.mpr hne
  exact ⟨s, hs, List.length_pos_iff.mp (by omega)⟩

/-- A slot that is dealt out holds as much as before. -/
def Complete (ss : List Slot) (xs : List Child) (i : Nat) : Prop :=
  ∃ s v, ss[i]? = some s ∧ (deal ss xs)[i]? = some v ∧ v.name = s.name ∧
    v.maximum = s.maximum ∧ v.held.length = s.held.length

theorem Complete.occupied {ss : List Slot} {xs : List Child} {i : Nat} (h : Complete ss xs i)
    (ho : Occupied ss i) : Occupied (deal ss xs) i := by
  obtain ⟨s, v, hs, hv, -, -, hlen⟩ := h
  obtain ⟨s', hs', hne⟩ := ho
  obtain rfl := Option.some.inj (hs.symm.trans hs')
  refine ⟨v, hv, List.length_pos_iff.mp ?_⟩
  rw [hlen]
  exact List.length_pos_iff.mpr hne

/-- The next element goes to a slot that lacks one of its name, behind slots that are complete. -/
theorem deal_append_singleton {ss : List Slot} {xs : List Child} {x : Child}
    (h : (xs ++ [x]).map Child.name <+: (ss.flatMap Slot.held).map Child.name) :
    ∃ j t u, ss[j]? = some t ∧ (∃ y ∈ t.held, y.name = x.name) ∧ (deal ss xs)[j]? = some u ∧
      u.held.length < t.held.length ∧
      (∀ i < j, Complete ss xs i) ∧ deal ss (xs ++ [x]) = (deal ss xs).modify j (·.push x) := by
  induction ss generalizing xs with
  | nil => simp at h
  | cons s ss ih =>
    obtain ⟨rest, h⟩ := h
    rw [List.flatMap_cons] at h
    by_cases hlt : xs.length < s.held.length
    · refine ⟨0, s, _, rfl, ?_, rfl, ?_, by simp, ?_⟩
      · have hleft : ((xs ++ [x]).map Child.name ++ rest)[xs.length]? = some x.name := by simp
        rw [h, List.map_append, List.getElem?_append_left (by simpa using hlt), List.getElem?_map,
          List.getElem?_eq_getElem hlt] at hleft
        exact ⟨s.held[xs.length], List.getElem_mem hlt, Option.some.inj hleft⟩
      · rw [List.length_take]
        omega
      · have hall : xs.take s.held.length = xs := List.take_of_length_le (by omega)
        have hall' : (xs ++ [x]).take s.held.length = xs ++ [x] :=
          List.take_of_length_le (by simp; omega)
        have hnone : xs.drop s.held.length = [] := List.drop_eq_nil_of_le (by omega)
        have hnone' : (xs ++ [x]).drop s.held.length = [] := List.drop_eq_nil_of_le (by simp; omega)
        simp [deal, hall, hall', hnone, hnone', Slot.push]
    · have hprefix : (xs.drop s.held.length ++ [x]).map Child.name <+:
          (ss.flatMap Slot.held).map Child.name := by
        refine ⟨rest, ?_⟩
        have hdrop := congrArg (List.drop s.held.length) h
        rwa [List.drop_append_of_le_length (by simp; omega), ← List.map_drop, ← List.map_drop,
          List.drop_left, List.drop_append_of_le_length (by omega)] at hdrop
      obtain ⟨j, t, u, ht, hy, hu, hult, hbefore, hsucc⟩ := ih hprefix
      refine ⟨j + 1, t, u, ht, hy, hu, hult, fun i hi => ?_, ?_⟩
      · cases i with
        | zero =>
          refine ⟨s, _, rfl, rfl, rfl, rfl, ?_⟩
          rw [List.length_take]
          omega
        | succ i => exact hbefore i (by omega)
      · rw [deal, deal, List.modify_succ_cons, List.drop_append_of_le_length (by omega), hsucc,
          List.take_append_of_le_length (by omega)]

theorem Slot.Sound.accepts {s : Slot} {x : Child} (h : s.Sound) (hx : x ∈ s.held) :
    s.accepts x.name = true := by
  cases hn : s.name with
  | none => simp [Slot.accepts, hn]
  | some n => simp [Slot.accepts, hn, h.named n hn x hx]

theorem Slot.accepts_congr {s t : Slot} (h : t.name = s.name) : t.accepts = s.accepts := by
  funext name
  rw [Slot.accepts, Slot.accepts, h]

section
variable {c : Collection} {xs : List Child} {j : Nat} {t u : Slot}

theorem Collection.slots_deal (c : Collection) (xs : List Child) :
    (c.refill (deal c.slots xs)).slots = deal c.slots xs :=
  c.slots_refill _ (length_deal _ _)

theorem Collection.rival_deal (c : Collection) (xs : List Child) :
    (c.refill (deal c.slots xs)).Rival = c.Rival :=
  c.rival_refill _ (length_deal _ _)

/-- A slot that has held more before takes another element. -/
theorem Collection.Grown.not_closed_deal (h : c.Grown) (ht : c.slots[j]? = some t)
    (hu : (deal c.slots xs)[j]? = some u) (hlt : u.held.length < t.held.length) :
    ¬ (c.refill (deal c.slots xs)).Closed j := by
  obtain ⟨t', ht', -, hmax, -⟩ := getElem?_deal hu
  obtain rfl := Option.some.inj (ht.symm.trans ht')
  rintro ⟨u', hu', hfull | ⟨r, hr, hro⟩⟩
  · rw [c.slots_deal, hu] at hu'
    obtain rfl := Option.some.inj hu'
    obtain ⟨m, hm, hle⟩ : ∃ m, u.maximum = some m ∧ m ≤ u.held.length := by
      simpa [Slot.isFull, Option.any_eq_true] using hfull
    have hbound := (h.slots t (List.mem_of_getElem? ht)).maximum_le m (hmax ▸ hm)
    omega
  · rw [c.slots_deal] at hro
    rw [c.rival_deal] at hr
    exact h.apart j r hr ⟨t, ht, List.ne_nil_of_length_pos (by omega)⟩ hro.of_deal

/-- Before a slot in use the others that accept its elements are complete, so what closed them once
closes them again. -/
theorem Collection.Grown.closed_deal (h : c.Grown) (hs : c.Separated) (ht : c.slots[j]? = some t)
    {y : Child} (hy : y ∈ t.held) (hbefore : ∀ i < j, Complete c.slots xs i) {i : Nat} (hi : i < j)
    {v : Slot} (hv : (deal c.slots xs)[i]? = some v) (haccepts : v.accepts y.name = true) :
    (c.refill (deal c.slots xs)).Closed i := by
  have hjo : Occupied c.slots j := ⟨t, ht, List.ne_nil_of_mem hy⟩
  obtain ⟨s, v', hsi, hv', hname, hmax, hlen⟩ := hbefore i hi
  obtain rfl := Option.some.inj (hv'.symm.trans hv)
  rw [Slot.accepts_congr hname] at haccepts
  have hnot : ¬ c.Rival i j := fun hr => by
    have hother := hs i j s t y.name hr hsi ht haccepts
    rw [(h.slots t (List.mem_of_getElem? ht)).accepts hy] at hother
    cases hother
  obtain ⟨s', hs', hclosed⟩ := h.settled i j s t hi hsi ht y hy haccepts
  obtain rfl := Option.some.inj (hsi.symm.trans hs')
  rw [Closed, c.slots_deal, c.rival_deal]
  refine ⟨v', hv', ?_⟩
  rcases hclosed with hfull | ⟨r, hr, hro⟩
  · left
    rwa [Slot.isFull, hmax, hlen]
  · right
    rcases Nat.lt_trichotomy r j with hrj | rfl | hjr
    · exact ⟨r, hr, (hbefore r hrj).occupied hro⟩
    · exact absurd hr hnot
    · rcases hr.between hi hjr with hij | hjr
      · exact absurd hij hnot
      · exact (h.apart j r hjr hjo hro).elim

/-- One step of adding the children again, or others of the same names. -/
theorem Collection.add_deal (h : c.Grown) (hs : c.Separated) {x : Child}
    (hx : (xs ++ [x]).map Child.name <+: c.children.map Child.name) :
    (c.refill (deal c.slots xs)).add x = .ok (c.refill (deal c.slots (xs ++ [x]))) := by
  rw [c.children_eq_flatMap] at hx
  obtain ⟨j, t, u, ht, ⟨y, hy, hyx⟩, hu, hlt, hbefore, hsucc⟩ := deal_append_singleton hx
  obtain ⟨t', ht', hname, -, -⟩ := getElem?_deal hu
  obtain rfl := Option.some.inj (ht.symm.trans ht')
  rw [add_eq_ok_iff, c.slots_deal]
  refine ⟨j, u, hu, ?_, h.not_closed_deal ht hu hlt, fun i hi v hv haccepts => ?_, ?_⟩
  · rw [Slot.accepts_congr hname, ← hyx]
    exact (h.slots t (List.mem_of_getElem? ht)).accepts hy
  · exact h.closed_deal hs ht hy hbefore hi hv (hyx ▸ haccepts)
  · rw [hsucc, c.refill_refill _ _ (by simp) (by simp)]

end

/-- No name goes to two entries of an exclusive choice. -/
def Collection.BranchesDisjoint (c : Collection) : Prop :=
  c.isExclusive = true →
    c.entries.Pairwise fun a b => ∀ name, a.accepts name = true → b.accepts name = false

theorem exists_accepts_of_mem {es : List Entry} {s : Slot} {name : String}
    (h : s ∈ slotsOfEntries es) (hs : s.accepts name = true) :
    ∃ e ∈ es, e.accepts name = true := by
  induction es with
  | nil => cases h
  | cons e es ih =>
    rcases List.mem_append.mp h with h | h
    · exact ⟨e, List.mem_cons_self, by
        rw [e.accepts_eq_any]
        exact List.any_eq_true.mpr ⟨s, h, hs⟩⟩
    · obtain ⟨f, hf, hfs⟩ := ih h
      exact ⟨f, List.mem_cons_of_mem _ hf, hfs⟩

mutual

/-- Where all exclusive choices have disjoint branches no rivals take a common name. -/
theorem Collection.separated_of_branchesDisjoint : ∀ {c : Collection},
    (∀ d ∈ c.collections, d.BranchesDisjoint) → c.Separated
  | ⟨_, _, _, entries⟩, h =>
    separated_entries (h _ (by simp [Collection.collections])) fun d hd =>
      h d (by simp [Collection.collections, hd])

theorem Entry.separated_of_branchesDisjoint : ∀ {e : Entry},
    (∀ d ∈ e.collections, d.BranchesDisjoint) →
      ∀ i j s t name, e.Rival i j → e.slots[i]? = some s → e.slots[j]? = some t →
        s.accepts name = true → t.accepts name = false
  | .slot _, _, _, _, _, _, _, hr => by cases hr
  | .nested _, h, i, j, s, t, name, hr => Collection.separated_of_branchesDisjoint h i j s t name hr

theorem separated_entries {exclusive : Bool} : ∀ {es : List Entry},
    (exclusive = true → es.Pairwise fun a b =>
      ∀ name, a.accepts name = true → b.accepts name = false) →
    (∀ d ∈ collectionsOfEntries es, d.BranchesDisjoint) →
      ∀ i j s t name, entriesRival exclusive es i j → (slotsOfEntries es)[i]? = some s →
        (slotsOfEntries es)[j]? = some t → s.accepts name = true → t.accepts name = false
  | e :: es, hpair, h, i, j, s, t, name, hr, hi, hj, hs => by
    simp only [collectionsOfEntries, List.mem_append] at h
    have hcross {i j : Nat} {s t : Slot} (hx : exclusive = true) (hi : e.slots[i]? = some s)
        (hj : (slotsOfEntries es)[j]? = some t) (hs : s.accepts name = true) :
        t.accepts name = false := by
      have hse : e.accepts name = true := by
        rw [e.accepts_eq_any]
        exact List.any_eq_true.mpr ⟨s, List.mem_of_getElem? hi, hs⟩
      refine Bool.eq_false_iff.mpr fun ht => ?_
      obtain ⟨f, hf, htf⟩ := exists_accepts_of_mem (List.mem_of_getElem? hj) ht
      rw [(List.pairwise_cons.mp (hpair hx)).1 f hf name hse] at htf
      cases htf
    rw [slotsOfEntries] at hi hj
    rcases hr with ⟨hin, hjn, hr⟩ | ⟨hx, hin, hjn, -⟩ | ⟨hx, hjn, hin, -⟩ | ⟨hin, hjn, hr⟩
    · rw [List.getElem?_append_left hin] at hi
      rw [List.getElem?_append_left hjn] at hj
      exact e.separated_of_branchesDisjoint (fun d hd => h d (.inl hd)) i j s t name hr hi hj hs
    · rw [List.getElem?_append_left hin] at hi
      rw [List.getElem?_append_right hjn] at hj
      exact hcross hx hi hj hs
    · rw [List.getElem?_append_right hin] at hi
      rw [List.getElem?_append_left hjn] at hj
      refine Bool.eq_false_iff.mpr fun ht => ?_
      rw [hcross hx hj hi ht] at hs
      cases hs
    · rw [List.getElem?_append_right hin] at hi
      rw [List.getElem?_append_right hjn] at hj
      exact separated_entries (fun hx => (List.pairwise_cons.mp (hpair hx)).2)
        (fun d hd => h d (.inr hd)) _ _ s t name hr hi hj hs

end

/-- Whether names go to two branches does not depend on what is held. -/
theorem Collection.separated_of_emptied {c : Collection} (h : c.emptied.Separated) :
    c.Separated := by
  intro i j s t name hr hi hj hs
  have hrival : c.emptied.Rival = c.Rival := c.rival_refill _ (List.length_map Slot.emptied)
  refine h i j s.emptied t.emptied name (hrival ▸ hr) ?_ ?_ hs
  · rw [c.slots_emptied, List.getElem?_map, hi, Option.map_some]
  · rw [c.slots_emptied, List.getElem?_map, hj, Option.map_some]

/-- Slots that get their own elements again are the same. -/
theorem deal_self (ss : List Slot) : deal ss (ss.flatMap Slot.held) = ss := by
  induction ss with
  | nil => rfl
  | cons s ss ih => simp [deal, ih]

section
variable {c : Collection}

/-- What additions keep holds after a run of them, those that fail included. -/
theorem Collection.Grown.run (h : c.Grown) (xs : List Child) :
    (c.run (xs.map .add)).Grown ∧ (c.run (xs.map .add)).emptied = c.emptied := by
  induction xs generalizing c with
  | nil => exact ⟨h, rfl⟩
  | cons x xs ih =>
    have hstep : (c.change (.add x)).Grown ∧ (c.change (.add x)).emptied = c.emptied := by
      rw [Collection.change]
      cases ha : c.add x with
      | error e => exact ⟨h, rfl⟩
      | ok c' =>
        obtain ⟨i, s, -, -, -, -, rfl⟩ := add_eq_ok_iff.mp ha
        exact ⟨grown_add h ha, emptied_refill (c.map_emptied_modify_push x i)⟩
    obtain ⟨hgrown, hshape⟩ := ih hstep.1
    exact ⟨hgrown, hshape.trans hstep.2⟩

/-- From any point on, the rest of the children goes where it has been. -/
theorem Collection.addAll_deal (h : c.Grown) (hs : c.Separated) {done rest : List Child}
    (hx : (done ++ rest).map Child.name <+: c.children.map Child.name) :
    (c.refill (deal c.slots done)).addAll rest = .ok (c.refill (deal c.slots (done ++ rest))) := by
  induction rest generalizing done with
  | nil => rw [List.append_nil]; rfl
  | cons x rest ih =>
    rw [← List.singleton_append, ← List.append_assoc] at hx ⊢
    have hfirst : (done ++ [x]).map Child.name <+: c.children.map Child.name := by
      refine List.IsPrefix.trans ?_ hx
      simp
    rw [addAll, List.singleton_append, List.foldlM_cons, add_deal h hs hfirst]
    exact ih hx

end

/-- Whatever has been added to an empty collection, in which no two branches of an exclusive choice
take a common name, its children make the same collection once more when they are added to an empty
one of its shape in the order in which they come out. -/
theorem Collection.addAll_children {c : Collection} (h : c.children = [])
    (hbranches : ∀ d ∈ c.collections, d.BranchesDisjoint) (xs : List Child) :
    (c.run (xs.map .add)).emptied = c ∧
      c.addAll (c.run (xs.map .add)).children = .ok (c.run (xs.map .add)) := by
  have hempty : ∀ s ∈ c.slots, s.held = [] :=
    List.flatMap_eq_nil_iff.mp (c.children_eq_flatMap ▸ h)
  obtain ⟨hgrown, hshape⟩ := (grown_of_held_eq_nil hempty).run xs
  rw [emptied_eq_self hempty] at hshape
  generalize c.run (xs.map .add) = filled at hgrown hshape ⊢
  have hseparated : filled.Separated :=
    separated_of_emptied (hshape ▸ separated_of_branchesDisjoint hbranches)
  have hadd := @addAll_deal filled hgrown hseparated [] filled.children (List.prefix_refl _)
  refine ⟨hshape, ?_⟩
  rwa [List.nil_append, deal_nil, filled.children_eq_flatMap, deal_self, filled.refill_slots,
    ← Collection.emptied, hshape, ← filled.children_eq_flatMap] at hadd

/-- A choice between `b` and `c`, then anything twice. The second `a` and the `b`, which comes late,
overflow, and the last element finds no room. -/
def overflowing : Collection :=
  ⟨.sequence, 1, some 1, [.slot ⟨some "a", some 1, []⟩,
    .nested ⟨.choice, 0, some 1, [.slot ⟨some "b", none, []⟩,
      .nested ⟨.sequence, 1, none, [.slot ⟨some "c", none, []⟩]⟩]⟩,
    .slot ⟨none, some 2, []⟩]⟩

theorem Collection.addAll_children_overflowing :
    overflowing.children = [] ∧ (∀ d ∈ overflowing.collections, d.BranchesDisjoint) ∧
      let filled := overflowing.run ([⟨0, "c"⟩, ⟨1, "a"⟩, ⟨2, "b"⟩, ⟨3, "a"⟩, ⟨4, "c"⟩,
        ⟨5, "b"⟩].map .add)
      filled.children = [⟨1, "a"⟩, ⟨0, "c"⟩, ⟨4, "c"⟩, ⟨2, "b"⟩, ⟨3, "a"⟩] ∧
        filled.emptied = overflowing ∧ overflowing.addAll filled.children = .ok filled := by
  have hbranches : ∀ d ∈ overflowing.collections, d.BranchesDisjoint := by
    simp [overflowing, collections, collectionsOfEntries, Entry.collections, BranchesDisjoint,
      isExclusive, Entry.accepts, accepts, acceptsAny, Slot.accepts]
  exact ⟨rfl, hbranches, by decide +kernel, Collection.addAll_children rfl hbranches _⟩

end XmlBinding.Tree
