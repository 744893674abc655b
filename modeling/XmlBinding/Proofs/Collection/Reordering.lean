import Mathlib.Data.List.Induction
import XmlBinding.Proofs.Collection.Readding

/-! # Elements added in another order

Where every slot has a name of its own, a batch of elements is dealt out by names: each slot gathers
those of its name, in the order in which they come. Whether the batch fits is told by what the slots
gather, and neither depends on how elements of different names are mixed.
-/
namespace XmlBinding.Tree

/-- Every slot has a name, and no other slot has it. -/
structure Collection.NamesDistinct (c : Collection) : Prop where
  named : ∀ s ∈ c.slots, s.name ≠ none
  nodup : (c.slots.map (·.name)).Nodup

/-- The slot with those elements of a batch that it accepts. -/
def Slot.gather (xs : List Child) (s : Slot) : Slot :=
  { s with held := xs.filter fun x => s.accepts x.name }

@[simp] theorem Slot.gather_name (xs : List Child) (s : Slot) : (s.gather xs).name = s.name := rfl
@[simp] theorem Slot.gather_held (xs : List Child) (s : Slot) :
    (s.gather xs).held = xs.filter fun x => s.accepts x.name := rfl
@[simp] theorem Slot.emptied_gather (xs : List Child) (s : Slot) :
    (s.gather xs).emptied = s.emptied := rfl

/-- All slots gather what they accept. -/
def Collection.gather (c : Collection) (xs : List Child) : Collection :=
  c.refill (c.slots.map (·.gather xs))

/-- A batch has a slot for each element, room in every slot, and no elements for two rivals. -/
structure Collection.Admits (c : Collection) (xs : List Child) : Prop where
  accepted : ∀ x ∈ xs, ∃ s ∈ c.slots, s.accepts x.name = true
  slots : ∀ s ∈ (c.gather xs).slots, s.Sound
  apart : (c.gather xs).Apart

section
variable {c d : Collection} {xs ys : List Child} {x : Child}

theorem Collection.slots_gather (c : Collection) (xs : List Child) :
    (c.gather xs).slots = c.slots.map (·.gather xs) :=
  c.slots_refill _ (List.length_map _)

theorem Collection.rival_gather (c : Collection) (xs : List Child) :
    (c.gather xs).Rival = c.Rival :=
  c.rival_refill _ (List.length_map _)

theorem Collection.emptied_gather (c : Collection) (xs : List Child) :
    (c.gather xs).emptied = c.emptied := by
  apply emptied_refill
  simp [Function.comp_def]

theorem Collection.children_gather (c : Collection) (xs : List Child) :
    (c.gather xs).children = c.slots.flatMap fun s => xs.filter fun x => s.accepts x.name := by
  rw [children_eq_flatMap, slots_gather, List.flatMap_map]
  rfl

theorem Collection.gather_nil (h : ∀ s ∈ c.slots, s.held = []) : c.gather [] = c :=
  emptied_eq_self h

theorem Slot.accepts_iff {s : Slot} {n name : String} (hs : s.name = some n) :
    s.accepts name = true ↔ n = name := by
  simp [accepts, hs]

/-- An element has one slot at most. -/
theorem Collection.NamesDistinct.unique (h : c.NamesDistinct) {i j : Nat} {s t : Slot}
    {name : String} (hi : c.slots[i]? = some s) (hj : c.slots[j]? = some t)
    (hs : s.accepts name = true) (ht : t.accepts name = true) : i = j := by
  obtain ⟨m, hm⟩ := Option.ne_none_iff_exists'.mp (h.named s (List.mem_of_getElem? hi))
  obtain ⟨n, hn⟩ := Option.ne_none_iff_exists'.mp (h.named t (List.mem_of_getElem? hj))
  rw [Slot.accepts_iff hm] at hs
  rw [Slot.accepts_iff hn] at ht
  have hlt : i < (c.slots.map (·.name)).length := by
    simpa using (List.getElem?_eq_some_iff.mp hi).1
  apply (List.getElem?_inj hlt h.nodup).mp
  simp [hi, hj, hm, hn, hs, ht]

/-- One more element goes to the end of the slot that accepts it. -/
theorem Collection.NamesDistinct.modify_gather (h : c.NamesDistinct) {i : Nat} {s : Slot}
    (hi : c.slots[i]? = some s) (hs : s.accepts x.name = true) (xs : List Child) :
    (c.slots.map (·.gather xs)).modify i (·.push x) = c.slots.map (·.gather (xs ++ [x])) := by
  apply List.ext_getElem?
  intro j
  rw [List.getElem?_modify, List.getElem?_map, List.getElem?_map]
  cases hj : c.slots[j]? with
  | none => rfl
  | some t =>
    by_cases hij : i = j
    · subst hij
      obtain rfl := Option.some.inj (hi.symm.trans hj)
      simp [Slot.gather, Slot.push, hs]
    · have ht : t.accepts x.name = false := by
        apply Bool.eq_false_iff.mpr
        intro ht
        exact hij (h.unique hi hj hs ht)
      simp [Slot.gather, hij, ht]

/-- A batch that fits does so without its last element. -/
theorem Collection.Admits.of_append (h : c.Admits (xs ++ [x])) : c.Admits xs where
  accepted y hy := h.accepted y (List.mem_append_left _ hy)
  slots s hs := by
    rw [c.slots_gather] at hs
    obtain ⟨t, ht, rfl⟩ := List.mem_map.mp hs
    have hsound : (t.gather (xs ++ [x])).Sound := by
      apply h.slots
      rw [c.slots_gather]
      exact List.mem_map_of_mem ht
    have hsub : (t.gather xs).held.Sublist (t.gather (xs ++ [x])).held :=
      (List.sublist_append_left xs [x]).filter _
    exact ⟨fun m hm => Nat.le_trans hsub.length_le (hsound.maximum_le m hm),
      fun n hn y hy => hsound.named n hn y (hsub.subset hy)⟩
  apart i j hr hi hj := by
    have hgrow {k : Nat} (hk : Occupied (c.gather xs).slots k) :
        Occupied (c.gather (xs ++ [x])).slots k := by
      rw [c.slots_gather] at hk ⊢
      obtain ⟨s, hs, hne⟩ := hk
      rw [List.getElem?_map, Option.map_eq_some_iff] at hs
      obtain ⟨t, ht, rfl⟩ := hs
      refine ⟨t.gather (xs ++ [x]), by rw [List.getElem?_map, ht, Option.map_some], ?_⟩
      simp at hne ⊢
      grind
    rw [c.rival_gather] at hr
    exact h.apart i j (c.rival_gather _ ▸ hr) (hgrow hi) (hgrow hj)

theorem Collection.NamesDistinct.admits_of_add (h : c.NamesDistinct) (hxs : c.Admits xs)
    (ha : (c.gather xs).add x = .ok d) : c.Admits (xs ++ [x]) ∧ d = c.gather (xs ++ [x]) := by
  have hslots := sound_slots_add hxs.slots ha
  have hapart := apart_add hxs.apart ha
  obtain ⟨i, u, hu, hux, -, -, rfl⟩ := add_eq_ok_iff.mp ha
  rw [c.slots_gather, List.getElem?_map, Option.map_eq_some_iff] at hu
  obtain ⟨s, hs, rfl⟩ := hu
  have heq : (c.gather xs).refill ((c.gather xs).slots.modify i (·.push x)) =
      c.gather (xs ++ [x]) := by
    rw [c.slots_gather, h.modify_gather hs hux, gather, c.refill_refill _ _ (by simp) (by simp),
      gather]
  rw [heq] at hslots hapart ⊢
  refine ⟨⟨fun y hy => ?_, hslots, hapart⟩, rfl⟩
  rcases List.mem_append.mp hy with hy | hy
  · exact hxs.accepted y hy
  · rw [List.mem_singleton.mp hy]
    exact ⟨s, List.mem_of_getElem? hs, hux⟩

theorem Collection.NamesDistinct.add_of_admits (h : c.NamesDistinct)
    (hxs : c.Admits (xs ++ [x])) : (c.gather xs).add x = .ok (c.gather (xs ++ [x])) := by
  obtain ⟨s, hmem, hsx⟩ := hxs.accepted x (by simp)
  obtain ⟨i, hs⟩ := List.mem_iff_getElem?.mp hmem
  have hbefore : (c.gather xs).slots[i]? = some (s.gather xs) := by
    rw [c.slots_gather, List.getElem?_map, hs, Option.map_some]
  have hafter : (c.gather (xs ++ [x])).slots =
      (c.gather xs).slots.modify i (·.push x) := by
    rw [c.slots_gather, c.slots_gather, h.modify_gather hs hsx]
  have hpushed : (c.gather (xs ++ [x])).slots[i]? = some ((s.gather xs).push x) := by
    rw [hafter, List.getElem?_modify, hbefore]
    simp
  apply add_eq_ok_iff.mpr
  refine ⟨i, s.gather xs, hbefore, hsx, ?_, fun k hk t ht htx => ?_, ?_⟩
  · -- a slot that is full, or has a rival in use, would not be sound, or apart, with one more
    rintro ⟨u, hu, hfull | ⟨j, hr, hj⟩⟩
    · obtain rfl := Option.some.inj (hbefore.symm.trans hu)
      obtain ⟨m, hm, hle⟩ : ∃ m, (s.gather xs).maximum = some m ∧ m ≤ (s.gather xs).held.length := by
        simpa only [Slot.isFull, Option.any_eq_true, decide_eq_true_eq] using hfull
      have hbound := (hxs.slots _ (List.mem_of_getElem? hpushed)).maximum_le m hm
      simp at hbound hle
      omega
    · rw [c.rival_gather] at hr
      apply hxs.apart i j (c.rival_gather _ ▸ hr) ⟨_, hpushed, by simp⟩
      rw [hafter]
      exact hj.push x i
  · rw [c.slots_gather, List.getElem?_map, Option.map_eq_some_iff] at ht
    obtain ⟨u, hu, rfl⟩ := ht
    have := h.unique hu hs htx hsx
    omega
  · rw [← hafter, gather, c.slots_refill _ (by simp), gather, c.refill_refill _ _ (by simp) (by simp)]

/-- Additions succeed exactly if the batch fits, and then each slot has gathered its elements. -/
theorem Collection.addAll_eq_ok_iff (h : c.NamesDistinct) (hempty : ∀ s ∈ c.slots, s.held = []) :
    c.addAll xs = .ok d ↔ c.Admits xs ∧ d = c.gather xs := by
  induction xs using List.reverseRecOn generalizing d with
  | nil =>
    have hgrown := grown_of_held_eq_nil hempty
    have hnil := gather_nil hempty
    have hadmits : c.Admits [] := ⟨by simp, hnil.symm ▸ hgrown.slots, hnil.symm ▸ hgrown.apart⟩
    simp [addAll, hadmits, hnil, pure, Except.pure, eq_comm]
  | append_singleton xs x ih =>
    have hsplit : c.addAll (xs ++ [x]) = .ok d ↔
        ∃ e, c.addAll xs = .ok e ∧ e.add x = .ok d := by
      simp only [addAll, List.foldlM_append, List.foldlM_cons, List.foldlM_nil]
      cases xs.foldlM Collection.add c with
      | error e => simp [bind, Except.bind]
      | ok e => simp [bind, Except.bind, pure, Except.pure]; cases e.add x <;> simp
    rw [hsplit]
    constructor
    · rintro ⟨e, he, ha⟩
      obtain ⟨hxs, rfl⟩ := ih.mp he
      exact h.admits_of_add hxs ha
    · rintro ⟨hxs, rfl⟩
      exact ⟨_, ih.mpr ⟨hxs.of_append, rfl⟩, h.add_of_admits hxs⟩

theorem Collection.NamesDistinct.gather_eq (h : c.NamesDistinct)
    (hsame : ∀ name, xs.filter (·.name == name) = ys.filter (·.name == name)) :
    c.gather xs = c.gather ys := by
  unfold gather
  congr 1
  apply List.map_congr_left
  intro s hs
  obtain ⟨n, hn⟩ := Option.ne_none_iff_exists'.mp (h.named s hs)
  have hcomm : (fun x : Child => s.accepts x.name) = fun x => x.name == n := by
    ext x
    simp [Slot.accepts, hn, eq_comm]
  rw [Slot.gather, Slot.gather, hcomm, hsame n]

theorem Collection.NamesDistinct.admits_of_perm (h : c.NamesDistinct) (hperm : xs.Perm ys)
    (hsame : ∀ name, xs.filter (·.name == name) = ys.filter (·.name == name))
    (hxs : c.Admits xs) : c.Admits ys where
  accepted x hx := hxs.accepted x (hperm.mem_iff.mpr hx)
  slots := h.gather_eq hsame ▸ hxs.slots
  apart := h.gather_eq hsame ▸ hxs.apart

end

/-- Children come out in the order of the slots, whatever the order they were added in: of two
batches with the same elements, those of one name in the same order, either both can be added to an
empty collection, with the same collection in the end, or neither can. -/
theorem Collection.addAll_reordered {c : Collection} (h : c.children = [])
    (hnames : c.NamesDistinct) {xs ys : List Child} (hperm : xs.Perm ys)
    (hsame : ∀ name, xs.filter (·.name == name) = ys.filter (·.name == name)) :
    (∃ filled, c.addAll xs = .ok filled ∧ c.addAll ys = .ok filled ∧ filled.emptied = c ∧
      filled.children = c.slots.flatMap fun s => xs.filter fun x => s.accepts x.name) ∨
    ((∃ e, c.addAll xs = .error e) ∧ ∃ e, c.addAll ys = .error e) := by
  have hempty : ∀ s ∈ c.slots, s.held = [] :=
    List.flatMap_eq_nil_iff.mp (c.children_eq_flatMap ▸ h)
  by_cases hxs : c.Admits xs
  · left
    refine ⟨c.gather xs, (addAll_eq_ok_iff hnames hempty).mpr ⟨hxs, rfl⟩, ?_, ?_,
      c.children_gather xs⟩
    · rw [hnames.gather_eq hsame]
      exact (addAll_eq_ok_iff hnames hempty).mpr ⟨hnames.admits_of_perm hperm hsame hxs, rfl⟩
    · rw [c.emptied_gather, emptied_eq_self hempty]
  · right
    have hfails {zs : List Child} (hzs : ¬ c.Admits zs) : ∃ e, c.addAll zs = .error e := by
      cases hadd : c.addAll zs with
      | error e => exact ⟨e, rfl⟩
      | ok d => exact absurd ((addAll_eq_ok_iff hnames hempty).mp hadd).1 hzs
    refine ⟨hfails hxs, hfails fun hys => hxs ?_⟩
    exact hnames.admits_of_perm hperm.symm (fun name => (hsame name).symm) hys

/-- `a` twice at most, then either `b` or any number of `c` with one `d`. -/
def assorted : Collection :=
  ⟨.sequence, 1, some 1, [.slot ⟨some "a", some 2, []⟩,
    .nested ⟨.choice, 0, some 1, [.slot ⟨some "b", none, []⟩,
      .nested ⟨.sequence, 1, none, [.slot ⟨some "c", none, []⟩, .slot ⟨some "d", some 1, []⟩]⟩]⟩]⟩

theorem Collection.addAll_reordered_assorted :
    let xs : List Child := [⟨0, "d"⟩, ⟨1, "c"⟩, ⟨2, "a"⟩, ⟨3, "c"⟩, ⟨4, "a"⟩]
    let ys : List Child := [⟨2, "a"⟩, ⟨1, "c"⟩, ⟨3, "c"⟩, ⟨4, "a"⟩, ⟨0, "d"⟩]
    assorted.children = [] ∧ assorted.NamesDistinct ∧ xs.Perm ys ∧
      (∀ name, xs.filter (·.name == name) = ys.filter (·.name == name)) ∧
      (assorted.run (xs.map .add)).children =
        [⟨2, "a"⟩, ⟨4, "a"⟩, ⟨1, "c"⟩, ⟨3, "c"⟩, ⟨0, "d"⟩] ∧
      ((∃ filled, assorted.addAll xs = .ok filled ∧ assorted.addAll ys = .ok filled ∧
        filled.emptied = assorted ∧
        filled.children = assorted.slots.flatMap fun s => xs.filter fun x => s.accepts x.name) ∨
      ((∃ e, assorted.addAll xs = .error e) ∧ ∃ e, assorted.addAll ys = .error e)) := by
  intro xs ys
  have hnames : assorted.NamesDistinct := ⟨by decide, by decide⟩
  have hperm : xs.Perm ys := by decide
  have hsame (name : String) : xs.filter (·.name == name) = ys.filter (·.name == name) := by
    by_cases ha : "a" = name
    · subst ha
      rfl
    by_cases hc : "c" = name
    · subst hc
      rfl
    by_cases hd : "d" = name
    · subst hd
      rfl
    simp [xs, ys, ha, hc, hd]
  exact ⟨rfl, hnames, hperm, hsame, by decide +kernel,
    Collection.addAll_reordered rfl hnames hperm hsame⟩

end XmlBinding.Tree
