import XmlBinding.Proofs.Collection.Readding
import XmlBinding.Proofs.Content.Opening
import Mathlib.Algebra.Ring.Nat

/-! # Allowed content is admitted

Adding elements one by one fills first slots first, whatever particle a derivation takes a name
from. The additions stay ahead of every derivation: up to each slot they have placed at least as
many elements of a name. A slot that is closed by a rival does not count, because a derivation that
uses it has left the choice for good: where a name stands in two branches and the derivation has
opened the later one, so have the additions.
-/
namespace XmlBinding.Tree
open Schema Binding

/-- How many elements of a name the slots before `p` hold. -/
def heldBelow (slots : List Slot) (name : String) (p : Nat) : Nat :=
  ((slots.take p).map fun s => if s.name = some name then s.held.length else 0).sum

/-- How many elements of a name a placement puts into slots before `p`. -/
def usedBelow (slots : List Slot) (d : List Nat) (name : String) (p : Nat) : Nat :=
  d.countP fun i => i < p && slotName slots i = some name

/-- The slots have taken what a placement has placed so far, and no later. -/
structure Ahead (slots : List Slot) (d : List Nat) : Prop where
  below : ∀ name p, p ≤ slots.length → usedBelow slots d name p ≤ heldBelow slots name p
  total : ∀ name, heldBelow slots name slots.length = usedBelow slots d name slots.length

section
variable {slots : List Slot} {d : List Nat} {name : String} {p : Nat}

theorem heldBelow_succ {s : Slot} (hs : slots[p]? = some s) :
    heldBelow slots name (p + 1) =
      heldBelow slots name p + if s.name = some name then s.held.length else 0 := by
  rw [heldBelow, List.take_add_one, hs]
  simp [heldBelow]

theorem usedBelow_succ : usedBelow slots d name (p + 1) =
    usedBelow slots d name p + if slotName slots p = some name then d.count p else 0 := by
  induction d with
  | nil => simp [usedBelow]
  | cons i d ih =>
    simp only [usedBelow, List.countP_cons, List.count_cons] at ih ⊢
    by_cases hip : i = p
    · subst hip
      by_cases hn : slotName slots i = some name <;> simp [hn] at ih ⊢ <;> omega
    · have hlt : i < p + 1 ↔ i < p := by omega
      have hne : ¬ p = i := fun h => hip h.symm
      simp only [hlt, beq_iff_eq, hip, if_false, Nat.add_zero]
      omega

theorem heldBelow_mono {q : Nat} (h : p ≤ q) : heldBelow slots name p ≤ heldBelow slots name q := by
  induction q with
  | zero => simp [Nat.le_zero.mp h]
  | succ q ih =>
    rcases Nat.lt_or_ge q p with hqp | hpq
    · exact Nat.le_of_eq (by rw [Nat.le_antisymm h hqp])
    · refine Nat.le_trans (ih hpq) ?_
      cases hs : slots[q]? with
      | none =>
        rw [heldBelow, heldBelow, List.take_add_one, hs]
        simp
      | some s =>
        rw [heldBelow_succ hs]
        omega

theorem slotName_modify_push (x : Child) (i j : Nat) :
    slotName (slots.modify i (·.push x)) j = slotName slots j := by
  rw [slotName, slotName, List.getElem?_modify]
  cases slots[j]? with
  | none => rfl
  | some s => by_cases hij : i = j <;> simp [hij]

theorem usedBelow_modify_push (x : Child) (i : Nat) :
    usedBelow (slots.modify i (·.push x)) d name p = usedBelow slots d name p := by
  simp only [usedBelow, slotName_modify_push]

/-- An element more is held from its slot on. -/
theorem heldBelow_modify_push (x : Child) {i : Nat} {n : String} (hi : slotName slots i = some n) :
    heldBelow (slots.modify i (·.push x)) name p =
      heldBelow slots name p + if i < p ∧ n = name then 1 else 0 := by
  induction p with
  | zero => simp [heldBelow]
  | succ p ih =>
    cases hs : slots[p]? with
    | none =>
      have hip : i ≠ p := by
        rintro rfl
        simp [slotName, hs] at hi
      have hlt : i < p + 1 ↔ i < p := by omega
      have hs' : (slots.modify i (·.push x))[p]? = none := by simp [List.getElem?_modify, hs]
      simp only [hlt]
      rw [heldBelow, heldBelow, List.take_add_one, List.take_add_one, hs, hs']
      simpa [heldBelow] using ih
    | some s =>
      have hs' : (slots.modify i (·.push x))[p]? = some (if i = p then s.push x else s) :=
        getElem?_modify_eq_some.mpr ⟨s, hs, rfl⟩
      rw [heldBelow_succ hs, heldBelow_succ hs', ih]
      by_cases hip : i = p
      · subst hip
        have hsn : s.name = some n := by simpa [slotName, hs] using hi
        by_cases hn : n = name
        · simp [hsn, hn]
          omega
        · simp [hsn, hn]
      · have hlt : i < p + 1 ↔ i < p := by omega
        simp only [if_neg hip, hlt]
        omega

theorem usedBelow_append (c : List Nat) :
    usedBelow slots (c ++ d) name p = usedBelow slots c name p + usedBelow slots d name p :=
  List.countP_append

/-- An element more counts from its slot on. -/
theorem usedBelow_singleton (q : Nat) : usedBelow slots [q] name p =
    if q < p ∧ slotName slots q = some name then 1 else 0 := by
  simp [usedBelow, List.countP_cons]

/-- Where a slot is in use, a placement that is not ahead has used it or a later one of its name. -/
theorem Ahead.exists_later {j : Nat} (h : Ahead slots d) (hj : Occupied slots j)
    (hn : slotName slots j = some name) : ∃ t ∈ d, j ≤ t ∧ slotName slots t = some name := by
  obtain ⟨s, hs, hne⟩ := hj
  have hlt := (List.getElem?_eq_some_iff.mp hs).1
  have hsn : s.name = some name := by simpa [slotName, hs] using hn
  have hlen : 0 < s.held.length := List.length_pos_iff.mpr hne
  have hless : usedBelow slots d name j < usedBelow slots d name slots.length := by
    calc usedBelow slots d name j ≤ heldBelow slots name j := h.below name j (Nat.le_of_lt hlt)
      _ < heldBelow slots name (j + 1) := by
        rw [heldBelow_succ hs, if_pos hsn]
        omega
      _ ≤ heldBelow slots name slots.length := heldBelow_mono hlt
      _ = usedBelow slots d name slots.length := h.total name
  by_contra hcon
  have hle : usedBelow slots d name slots.length ≤ usedBelow slots d name j := by
    refine List.countP_mono_left fun t ht hnt => ?_
    simp only [Bool.and_eq_true, decide_eq_true_eq] at hnt ⊢
    exact ⟨Nat.lt_of_not_le fun hjt => hcon ⟨t, ht, hjt, hnt.2⟩, hnt.2⟩
  omega

end

/-- What holds of a collection that is filled along with a placement: all slots are named, the
placement fits, and it opens branches with names that are new there. -/
structure Collection.Filling (c : Collection) (w : List String) (d : List Nat) : Prop where
  named : ∀ s ∈ c.slots, s.name ≠ none
  fits : Fits c.slots c.Rival .one w d
  opens : Opens c.slots c.Rival (fun _ => False) d
  length_le : w.length ≤ countLimit

/-- Where a placement `d` has so far used a rival of a contested slot, the elements hold such a
rival too, and not the contested slot. -/
def Collection.Committed (c : Collection) (d done : List Nat) : Prop :=
  ∀ j, Contested c.slots c.Rival d j → (∃ t ∈ done, c.Rival j t) →
    ¬ Occupied c.slots j ∧ ∃ o, c.Rival j o ∧ Occupied c.slots o

namespace Collection

variable {c : Collection} {w : List String} {done rest : List Nat} {q : Nat} {name : String}

/-- A placement has no more elements for a full slot than it holds. -/
theorem Filling.count_le_of_isFull (h : c.Filling w (done ++ rest)) {p : Nat} {s : Slot}
    (hs : c.slots[p]? = some s) (hfull : s.isFull = true) : done.count p ≤ s.held.length := by
  obtain ⟨m, hm, hle⟩ : ∃ m, s.maximum = some m ∧ m ≤ s.held.length := by
    simpa [Slot.isFull, Option.any_eq_true] using hfull
  have hcount : done.count p ≤ (done ++ rest).count p := by
    rw [List.count_append]
    omega
  have hroom := h.fits.room 1 (.inl (Nat.le_refl 1)) p s m hs hm
  have hlen := h.fits.names.length_eq
  have hbound : (done ++ rest).count p ≤ (done ++ rest).length := List.count_le_length
  have := h.length_le
  omega

theorem mem_append_cons {p : Nat} (h : p ∈ done ++ [q]) : p ∈ done ++ q :: rest := by
  rw [List.append_cons]
  exact List.mem_append_left rest h

/-- A placement that still uses a slot with a rival in use has left it behind. -/
theorem Filling.lt_of_rival (h : c.Filling w (done ++ q :: rest)) (ha : Ahead c.slots done)
    (hs : c.Committed (done ++ q :: rest) done) {p j : Nat} (hp : p ∈ done ++ q :: rest)
    (hr : c.Rival p j) (hj : Occupied c.slots j) :
    p < q := by
  obtain ⟨s, hslot, -⟩ := id hj
  obtain ⟨f, hf⟩ := Option.ne_none_iff_exists'.mp (h.named s (List.mem_of_getElem? hslot))
  have hjn : slotName c.slots j = some f := by simp [slotName, hslot, hf]
  obtain ⟨t, htd, hjt, htn⟩ := ha.exists_later hj hjn
  have hpt : ¬ c.Rival p t := h.fits.apart p hp t (List.mem_append_left _ htd)
  have hne : j ≠ t := fun heq => hpt (heq ▸ hr)
  -- a later rival of the same name would contest the slot in use
  have hjt' : ¬ c.Rival j t := fun hr' =>
    (hs j ⟨t, List.mem_append_left _ htd, by omega, hr', hjn.trans htn.symm⟩ ⟨t, htd, hr'⟩).1 hj
  exact (List.pairwise_append.mp h.fits.passed).2.2 t htd q List.mem_cons_self p j hr hpt hjt'
    (Nat.lt_of_le_of_ne hjt hne)

/-- Up to closed slots only, the additions are ahead of the next element too. -/
theorem Filling.usedBelow_le (h : c.Filling w (done ++ q :: rest)) (ha : Ahead c.slots done)
    (hset : c.Committed (done ++ q :: rest) done) {p : Nat} (hp : p ≤ c.slots.length)
    (hclosed : ∀ i < p, slotName c.slots i = some name → c.Closed i) :
    usedBelow c.slots (done ++ [q]) name p ≤ heldBelow c.slots name p := by
  induction p with
  | zero => simp [usedBelow]
  | succ p ih =>
    have ih := ih (by omega) fun i hi => hclosed i (by omega)
    have hs : c.slots[p]? = some c.slots[p] := List.getElem?_eq_getElem hp
    have hsn : slotName c.slots p = c.slots[p].name := by simp [slotName, hs]
    have h' : c.Filling w (done ++ [q] ++ rest) := by simpa using h
    by_cases hn : c.slots[p].name = some name
    · obtain ⟨s, hs', hfull | ⟨j, hr, hj⟩⟩ := hclosed p (by omega) (hsn.trans hn)
      · -- a full slot holds all that the placement may put there
        obtain rfl := Option.some.inj (hs.symm.trans hs')
        have hcount := h'.count_le_of_isFull hs hfull
        rw [usedBelow_succ, heldBelow_succ hs, hsn, if_pos hn, if_pos hn]
        omega
      · by_cases hmem : p ∈ done ++ [q]
        · -- the next element comes later, so that what is said of the earlier ones suffices
          have hlt := h.lt_of_rival ha hset (mem_append_cons hmem) hr hj
          have hnot : ¬ (q < p + 1 ∧ slotName c.slots q = some name) := by omega
          rw [usedBelow_append, usedBelow_singleton, if_neg hnot]
          exact ha.below name (p + 1) hp
        · rw [usedBelow_succ, heldBelow_succ hs, List.count_eq_zero.mpr hmem, hsn, if_pos hn,
            if_pos hn]
          omega
    · rw [usedBelow_succ, heldBelow_succ hs, hsn, if_neg hn, if_neg hn]
      exact ih

/-- Where the first slot of its name that is not closed takes the next element, the additions stay
ahead. -/
theorem Filling.ahead_push (h : c.Filling w (done ++ q :: rest)) (ha : Ahead c.slots done)
    (hset : c.Committed (done ++ q :: rest) done) {x : Child}
    (hq : slotName c.slots q = some x.name) {g : Nat}
    (hg : slotName c.slots g = some x.name)
    (hbefore : ∀ i < g, slotName c.slots i = some x.name → c.Closed i) :
    Ahead (c.slots.modify g (·.push x)) (done ++ [q]) where
  below name p hp := by
    rw [List.length_modify] at hp
    rw [usedBelow_modify_push, heldBelow_modify_push x hg]
    by_cases hn : x.name = name
    · subst hn
      by_cases hgp : g < p
      · have hbelow := ha.below x.name p hp
        rw [if_pos ⟨hgp, rfl⟩, usedBelow_append, usedBelow_singleton]
        split
        · exact Nat.succ_le_succ hbelow
        · exact Nat.le_succ_of_le hbelow
      · exact Nat.le_add_right_of_le (h.usedBelow_le ha hset hp fun i hi => hbefore i (by omega))
    · have hother : ¬ (q < p ∧ slotName c.slots q = some name) := fun hqn =>
        hn (Option.some.inj (hq.symm.trans hqn.2))
      rw [usedBelow_append, usedBelow_singleton, if_neg hother]
      exact Nat.le_add_right_of_le (ha.below name p hp)
  total name := by
    have hqlt := h.fits.lt q (by simp)
    obtain ⟨s, hs, -⟩ := Option.bind_eq_some_iff.mp hg
    have hglt := (List.getElem?_eq_some_iff.mp hs).1
    rw [List.length_modify, usedBelow_modify_push, heldBelow_modify_push x hg, ha.total,
      usedBelow_append, usedBelow_singleton, hq]
    simp [hglt, hqlt]

theorem occupied_modify_push_self {slots : List Slot} {g : Nat} (x : Child)
    (hg : g < slots.length) : Occupied (slots.modify g (·.push x)) g :=
  ⟨slots[g].push x, by simp [hg], by simp⟩

theorem occupied_modify_push_of {slots : List Slot} {o : Nat} (g : Nat) (x : Child)
    (ho : Occupied slots o) : Occupied (slots.modify g (·.push x)) o := by
  obtain ⟨s, hs, hne⟩ := ho
  refine ⟨_, getElem?_modify_eq_some.mpr ⟨s, hs, rfl⟩, ?_⟩
  split <;> simp [hne]

/-- The next slot of the placement is open, or it is in use. -/
theorem Filling.occupied_of_closed (h : c.Filling w (done ++ q :: rest)) (ha : Ahead c.slots done)
    (hset : c.Committed (done ++ q :: rest) done) (hq : c.Closed q) : Occupied c.slots q := by
  obtain ⟨s, hs, hfull | ⟨j, hr, hj⟩⟩ := hq
  · refine ⟨s, hs, fun hnil => ?_⟩
    obtain ⟨m, hm, hle⟩ : ∃ m, s.maximum = some m ∧ m ≤ s.held.length := by
      simpa [Slot.isFull, Option.any_eq_true] using hfull
    have hroom := h.fits.room 1 (.inl (Nat.le_refl 1)) q s m hs hm
    have hcount : 0 < (done ++ q :: rest).count q := List.count_pos_iff.mpr (by simp)
    rw [hnil, List.length_nil] at hle
    unfold countLimit at hroom
    omega
  · exact absurd (h.lt_of_rival ha hset (by simp) hr hj) (Nat.lt_irrefl q)

/-- The additions stay committed: an element that opens a branch for the placement goes to that
branch or finds it in use. -/
theorem Filling.committed_push (h : c.Filling w (done ++ q :: rest)) (ha : Ahead c.slots done)
    (hset : c.Committed (done ++ q :: rest) done) {x : Child}
    (hq : slotName c.slots q = some x.name) {g : Nat} (hg : slotName c.slots g = some x.name)
    (hopen : ¬ c.Closed g)
    (hbefore : ∀ i < g, slotName c.slots i = some x.name → c.Closed i) {j : Nat}
    (hj : Contested c.slots c.Rival (done ++ q :: rest) j)
    (ht : ∃ t ∈ done ++ [q], c.Rival j t) :
    ¬ Occupied (c.slots.modify g (·.push x)) j ∧
      ∃ o, c.Rival j o ∧ Occupied (c.slots.modify g (·.push x)) o := by
  obtain ⟨s, hs, -⟩ := Option.bind_eq_some_iff.mp hg
  have hglt := (List.getElem?_eq_some_iff.mp hs).1
  -- with a rival of `j` in use nothing is put into `j`
  have hkeep {o : Nat} (hnot : ¬ Occupied c.slots j) (hr : c.Rival j o) (ho : Occupied c.slots o) :
      ¬ Occupied (c.slots.modify g (·.push x)) j ∧
        ∃ o, c.Rival j o ∧ Occupied (c.slots.modify g (·.push x)) o := by
    refine ⟨fun hocc => ?_, o, hr, occupied_modify_push_of g x ho⟩
    rcases occupied_modify_push hocc with rfl | hocc
    · exact hopen ⟨s, hs, .inr ⟨o, hr, ho⟩⟩
    · exact hnot hocc
  by_cases hold : ∃ t ∈ done, c.Rival j t
  · obtain ⟨hnot, o, hr, ho⟩ := hset j hj hold
    exact hkeep hnot hr ho
  · have hr : c.Rival j q := by
      obtain ⟨t, ht, hr⟩ := ht
      rcases List.mem_append.mp ht with ht | ht
      · exact absurd ⟨t, ht, hr⟩ hold
      · exact List.mem_singleton.mp ht ▸ hr
    have hnot : ¬ Occupied c.slots j := fun hocc =>
      absurd (h.lt_of_rival ha hset (by simp) hr.symm hocc) (Nat.lt_irrefl q)
    by_cases hclosed : c.Closed q
    · exact hkeep hnot hr (h.occupied_of_closed ha hset hclosed)
    · have hgq : g ≤ q := Nat.le_of_not_lt fun hlt => hclosed (hbefore q hlt hq)
      obtain ⟨-, hrivals⟩ := h.opens done q rest rfl j hj hr
        (fun t ht hr => hold ⟨t, ht, hr⟩) x.name hq
      have hrg := hrivals g hgq hg
      refine ⟨fun hocc => ?_, g, hrg, occupied_modify_push_self x hglt⟩
      rcases occupied_modify_push hocc with rfl | hocc
      · exact hrg.ne rfl
      · exact hnot hocc

/-- A slot of the name that is not open is closed. -/
theorem closed_of_isOpen_eq_false {i : Nat} {p : Position} {x : Child}
    (hi : c.positions[i]? = some p) (hopen : p.isOpen x = false)
    (hn : slotName c.slots i = some x.name) : c.Closed i := by
  have hs : c.slots[i]? = some p.slot := by
    rw [← c.getElem?_slot_positions, hi, Option.map_some]
  have hname : p.slot.name = some x.name := by simpa [slotName, hs] using hn
  by_contra hc
  rw [(isOpen_iff hi).mpr ⟨by simp [Slot.accepts, hname], hc⟩] at hopen
  cases hopen

/-- An element that the placement puts somewhere is taken, and the additions stay ahead. -/
theorem Filling.add_eq_ok (h : c.Filling w (done ++ q :: rest)) (ha : Ahead c.slots done)
    (hset : c.Committed (done ++ q :: rest) done) {x : Child}
    (hq : slotName c.slots q = some x.name) :
    ∃ c', c.add x = .ok c' ∧ c'.emptied = c.emptied ∧ Ahead c'.slots (done ++ [q]) ∧
      c'.Committed (done ++ q :: rest) (done ++ [q]) := by
  have hlen : c.positions.length = c.slots.length := by
    rw [← c.map_slot_positions, List.length_map]
  rw [c.add_eq]
  cases hg : c.positions.findIdx? (·.isOpen x) with
  | none =>
    -- all slots of the name would be closed, and still one element more would have been placed
    have hall := h.usedBelow_le ha hset (Nat.le_refl _) fun i hi hn =>
      closed_of_isOpen_eq_false (List.getElem?_eq_getElem (by omega))
        (List.findIdx?_eq_none_iff.mp hg _ (List.getElem_mem _)) hn
    have hqlt := h.fits.lt q (by simp)
    rw [usedBelow_append, usedBelow_singleton, if_pos ⟨hqlt, hq⟩, ha.total] at hall
    omega
  | some g =>
    obtain ⟨hglt, hopen, hfirst⟩ := List.findIdx?_eq_some_iff_getElem.mp hg
    have hpos : c.positions[g]? = some c.positions[g] := List.getElem?_eq_getElem hglt
    have hg' : c.slots[g]? = some c.positions[g].slot := by
      rw [← c.map_slot_positions, List.getElem?_map, hpos, Option.map_some]
    obtain ⟨haccepts, hclosed⟩ := (isOpen_iff hpos).mp hopen
    have hgn : slotName c.slots g = some x.name := by
      obtain ⟨n, hn⟩ := Option.ne_none_iff_exists'.mp (h.named _ (List.mem_of_getElem? hg'))
      rw [Slot.accepts, hn, Option.all_some, beq_iff_eq] at haccepts
      rw [slotName, hg', Option.bind_some, hn, haccepts]
    have hbefore : ∀ i < g, slotName c.slots i = some x.name → c.Closed i := fun i hi hn =>
      closed_of_isOpen_eq_false (List.getElem?_eq_getElem (by omega))
        (Bool.eq_false_iff.mpr (hfirst i hi)) hn
    refine ⟨_, rfl, emptied_refill (c.map_emptied_modify_push x g), ?_, fun j hj ht => ?_⟩
    · rw [c.slots_refill _ (by simp)]
      exact h.ahead_push ha hset hq hgn hbefore
    · rw [Contested, c.rival_refill _ (by simp), c.slots_refill _ (by simp)] at hj
      rw [c.rival_refill _ (by simp)] at ht
      rw [c.rival_refill _ (by simp), c.slots_refill _ (by simp)]
      simp only [slotName_modify_push] at hj
      exact h.committed_push ha hset hq hgn hclosed hbefore hj ht

theorem slotName_of_emptied {c' : Collection} (he : c'.emptied = c.emptied) (i : Nat) :
    slotName c'.slots i = slotName c.slots i := by
  have hmap := map_emptied_of_emptied he
  cases hi : c'.slots[i]? with
  | none =>
    have hlen : c.slots.length = c'.slots.length := by simpa using (congrArg List.length hmap).symm
    rw [slotName, slotName, hi, List.getElem?_eq_none (by simpa [hlen] using hi)]
  | some s =>
    obtain ⟨t, ht, hname, -⟩ := exists_getElem?_of_emptied hmap hi
    rw [slotName, slotName, hi, ht, Option.bind_some, Option.bind_some, hname]

/-- What a collection holds does not matter. -/
theorem Filling.of_emptied {c' : Collection} (h : c.Filling w done) (he : c'.emptied = c.emptied) :
    c'.Filling w done where
  named s hs := by
    obtain ⟨i, hi⟩ := List.mem_iff_getElem?.mp hs
    obtain ⟨t, ht, hname, -⟩ := exists_getElem?_of_emptied (map_emptied_of_emptied he) hi
    exact hname ▸ h.named t (List.mem_of_getElem? ht)
  fits := by
    rw [rival_of_emptied he]
    exact h.fits.congr (map_emptied_of_emptied he)
  opens := by
    have hopens := h.opens
    simp only [Opens, Contested, rival_of_emptied he, slotName_of_emptied he] at hopens ⊢
    exact hopens
  length_le := h.length_le

/-- Along a placement all elements are taken. -/
theorem Filling.exists_addAll_of_committed {xs : List Child} (h : c.Filling w (done ++ rest))
    (ha : Ahead c.slots done) (hset : c.Committed (done ++ rest) done)
    (hxs : List.Forall₂ (fun x q => slotName c.slots q = some x.name) xs rest) :
    ∃ full, c.addAll xs = .ok full := by
  induction xs generalizing c done rest with
  | nil => exact ⟨c, rfl⟩
  | cons x xs ih =>
    cases hxs with
    | @cons _ q _ rest hq hxs =>
      obtain ⟨c', hadd, he, ha', hset'⟩ := h.add_eq_ok ha hset hq
      have h' := h.of_emptied he
      rw [List.append_cons] at h' hset'
      obtain ⟨full, hfull⟩ := ih h' ha' hset'
        (hxs.imp fun x q hxq => (slotName_of_emptied he q).trans hxq)
      exact ⟨full, by rw [addAll, List.foldlM_cons, hadd]; exact hfull⟩

/-- So they are from the start. -/
theorem Filling.exists_addAll {xs : List Child} (h : c.Filling w ([] ++ rest))
    (ha : Ahead c.slots [])
    (hxs : List.Forall₂ (fun x q => slotName c.slots q = some x.name) xs rest) :
    ∃ full, c.addAll xs = .ok full :=
  h.exists_addAll_of_committed ha (fun _ _ ⟨_, ht, _⟩ => absurd ht List.not_mem_nil) hxs

end Collection

end XmlBinding.Tree

namespace XmlBinding.Binding
open Schema XmlBinding.Tree

theorem ahead_nil {slots : List Slot} (h : ∀ s ∈ slots, s.held = []) : Ahead slots [] where
  below name p _ := Nat.zero_le _
  total name := by
    have hzero : slots.map (fun s => if s.name = some name then s.held.length else 0) =
        slots.map fun _ => 0 := List.map_congr_left fun s hs => by simp [h s hs]
    rw [usedBelow, List.countP_nil, heldBelow, List.take_length, hzero]
    simp

variable {model : Model}

/-- Allowed words have placements to follow where branches are announced. -/
theorem ContentMembership.filling_of_announced {ps : List Particle} {ms : Membership}
    {w : List String} (h : ContentMembership model ps (some ms))
    (hwild : ∀ p ∈ ps, ¬ Occurs model .wildcard p) (hb : BranchesAnnounced model .one [] ps)
    (hw : SequenceAllows model ps w) (hlen : w.length < 2 ^ 64) :
    ∃ d, ms.collection.Filling w d := by
  obtain ⟨d, hd⟩ := h.fits hb hw
  refine ⟨d, fun s hs hn => ?_, hd.fits, hd.opens.mono fun _ h => h.elim, ?_⟩
  · obtain ⟨p, hp, t, ht, -, hts⟩ := h.standsFor s hs
    exact hwild p hp (hts hn ▸ ht)
  · rw [countLimit]
    omega

theorem ContentMembership.filling {ps : List Particle} {ms : Membership} {w : List String}
    (h : ContentMembership model ps (some ms)) (hwild : ∀ p ∈ ps, ¬ Occurs model .wildcard p)
    (hb : BranchesDisjoint model .one ps) (hw : SequenceAllows model ps w)
    (hlen : w.length < 2 ^ 64) : ∃ d, ms.collection.Filling w d :=
  h.filling_of_announced hwild hb.announced hw hlen

/-- Elements that a content model allows are all taken, in any order it allows them in, by the
collection that a class with this content starts out with. -/
theorem addAll_of_sequenceAllows {bound : Nat} {groups : List String} {owner : String}
    {particles : List DeclaredParticle} {catalog catalog' : Catalog} {ms : Membership}
    (hbuild : (buildMembership (localElementWithin model bound groups)
      (referredGroupWithin model bound groups) owner particles).run catalog =
        .ok (some ms, catalog'))
    (hwild : ∀ p ∈ particles.map (·.particle), ¬ Occurs model .wildcard p)
    (hdisjoint : BranchesDisjoint model .one (particles.map (·.particle))) {xs : List Child}
    (hw : SequenceAllows model (particles.map (·.particle)) (xs.map (·.name)))
    (hlen : xs.length < 2 ^ 64) : ∃ full, ms.collection.addAll xs = .ok full := by
  have hms := buildMembership_contentMembership (fun declaredIn owner =>
    referredGroupWithin_keeps bound groups declaredIn owner) owner particles _ _ _ trivial hbuild
  obtain ⟨d, hd⟩ := hms.filling hwild hdisjoint hw (by rwa [List.length_map])
  have hnames := List.forall₂_map_left_iff.mp hd.fits.names
  rw [← List.nil_append d] at hd
  refine hd.exists_addAll (ahead_nil ms.held_eq_nil) (hnames.imp fun x q ⟨s, hs, hn⟩ => ?_)
  rw [slotName, hs, Option.bind_some, hn]

theorem occurs_elementRef {minimum : Nat} {maximum : MaxOccurs} {name : String} {t : Term}
    (h : Occurs model t ⟨minimum, maximum, .elementRef name⟩) : t = .elementRef name := by
  cases h
  rfl

theorem not_reaches_of_elementRef {ps : List Particle}
    (h : ∀ p ∈ ps, ∃ name, p.term = .elementRef name) {outer m : MaxOccurs} {g : ModelGroup} :
    ¬ Reaches model outer ps g m := by
  intro hr
  induction hr with
  | group hp =>
    obtain ⟨name, hname⟩ := h _ hp
    cases hname
  | groupRef hp =>
    obtain ⟨name, hname⟩ := h _ hp
    cases hname
  | inside _ _ ih _ => exact ih h

/-- Either an `a` or some `b`, and then an `a`. -/
def branchingContent : List Particle :=
  [⟨1, .one, .group ⟨.choice, [⟨1, .one, .elementRef "a"⟩, ⟨0, .unbounded, .elementRef "b"⟩]⟩⟩,
    ⟨1, .one, .elementRef "a"⟩]

def branchingMembership : Membership :=
  ⟨.sequence, 1, .one,
    [.group ⟨.choice, 1, .one, [.element "a" "A" .one, .element "b" "B" .unbounded]⟩,
      .element "a" "A" .one]⟩

theorem not_occurs_wildcard_branchingContent :
    ∀ p ∈ branchingContent, ¬ Occurs {} .wildcard p := by
  intro p hp h
  simp only [branchingContent, List.mem_cons, List.not_mem_nil, or_false] at hp
  rcases hp with rfl | rfl
  · obtain - | ⟨-, hq, h⟩ := h
    simp only [List.mem_cons, List.not_mem_nil, or_false] at hq
    rcases hq with rfl | rfl <;> cases (occurs_elementRef h)
  · cases (occurs_elementRef h)

theorem particles_of_reaches_branchingContent {outer m : MaxOccurs} {g : ModelGroup}
    (hr : Reaches {} outer branchingContent g m) :
    g.particles = [⟨1, .one, .elementRef "a"⟩, ⟨0, .unbounded, .elementRef "b"⟩] := by
  generalize hps : branchingContent = ps at hr
  induction hr with
  | group hp =>
    subst hps
    simp only [branchingContent, List.mem_cons, Particle.mk.injEq, Term.group.injEq,
      reduceCtorEq, and_false, List.not_mem_nil, or_false] at hp
    rw [hp.2.2]
  | groupRef _ _ hd => cases hd
  | inside _ h' ih _ =>
    rw [ih hps] at h'
    exact absurd h' (not_reaches_of_elementRef (by simp))

theorem branchesDisjoint_branchingContent : BranchesDisjoint {} .one branchingContent := by
  intro g m hr _ _
  have hab : Particle.DisjointFrom {} ⟨1, .one, .elementRef "a"⟩
      ⟨0, .unbounded, .elementRef "b"⟩ := by
    rintro name ⟨t, ht, htn⟩ ⟨u, hu, hun⟩
    rw [occurs_elementRef ht] at htn
    rw [occurs_elementRef hu] at hun
    exact absurd (htn.trans hun.symm) (by decide)
  rw [particles_of_reaches_branchingContent hr]
  simpa using hab

theorem sequenceAllows_branchingContent : SequenceAllows {} branchingContent ["b", "b", "a"] := by
  have ha : ParticleAllows {} ⟨1, .one, .elementRef "a"⟩ ["a"] :=
    @ParticleAllows.repeated _ 1 .one _ [["a"]] (Nat.le_refl 1) (Nat.le_refl 1) fun w hw =>
      List.mem_singleton.mp hw ▸ .elementRef "a"
  have hb : ParticleAllows {} ⟨0, .unbounded, .elementRef "b"⟩ ["b", "b"] :=
    @ParticleAllows.repeated _ 0 .unbounded _ [["b"], ["b"]] (Nat.zero_le 2) trivial fun w hw => by
      obtain rfl : w = ["b"] := by simpa using hw
      exact .elementRef "b"
  have hchoice := GroupAllows.choice (.tail ⟨1, .one, .elementRef "a"⟩ (.head [])) hb
  have hfirst := @ParticleAllows.repeated {} 1 .one _ [["b", "b"]] (Nat.le_refl 1)
    (Nat.le_refl 1) fun w hw => List.mem_singleton.mp hw ▸ TermAllows.group hchoice
  exact .cons hfirst (.cons ha .nil)

/-- Two `b` are taken, and then an `a`. -/
theorem addAll_of_branchingContent :
    ∃ full, branchingMembership.collection.addAll [⟨0, "b"⟩, ⟨1, "b"⟩, ⟨2, "a"⟩] = .ok full :=
  @addAll_of_sequenceAllows {} 0 [] "C" (branchingContent.map (⟨·, none⟩))
    { elements := [("a", "A"), ("b", "B")] } _ branchingMembership rfl
    not_occurs_wildcard_branchingContent branchesDisjoint_branchingContent
    [⟨0, "b"⟩, ⟨1, "b"⟩, ⟨2, "a"⟩] sequenceAllows_branchingContent (by decide)

end XmlBinding.Binding
