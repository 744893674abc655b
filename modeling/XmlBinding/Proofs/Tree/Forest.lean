import Mathlib.Logic.Relation
import XmlBinding.Proofs.Tree.Building
import XmlBinding.Proofs.Tree.Writing

/-! # Who holds whom

An addition records the parent of what it adds without asking for the parent before, so children
and parents agree only as long as what is added has none. A store is a forest as long as, besides,
nothing is added to an element below it.
-/
namespace XmlBinding.Tree

/-- The children before, in and after a slot that is changed. -/
theorem Collection.children_refill_modify (c : Collection) (f : Slot → Slot) {i : Nat}
    (hi : i < c.slots.length) :
    (c.refill (c.slots.modify i f)).children = (c.slots.take i).flatMap Slot.held ++
      ((f c.slots[i]).held ++ (c.slots.drop (i + 1)).flatMap Slot.held) := by
  rw [children_eq_flatMap, c.slots_refill _ (by simp), List.modify_eq_take_cons_drop hi,
    List.flatMap_append, List.flatMap_cons]

theorem Collection.children_eq_around (c : Collection) {i : Nat} (hi : i < c.slots.length) :
    c.children = (c.slots.take i).flatMap Slot.held ++
      (c.slots[i].held ++ (c.slots.drop (i + 1)).flatMap Slot.held) := by
  have h := c.children_refill_modify id hi
  rwa [List.modify_id, c.refill_slots] at h

theorem Collection.perm_children_add {c c' : Collection} {x : Child} (h : c.add x = .ok c') :
    c'.children.Perm (x :: c.children) := by
  obtain ⟨i, s, hs, -, -, -, rfl⟩ := add_eq_ok_iff.mp h
  obtain ⟨hi, rfl⟩ := List.getElem?_eq_some_iff.mp hs
  rw [c.children_refill_modify _ hi, c.children_eq_around hi, Slot.push_held, List.append_assoc,
    List.singleton_append, ← List.append_assoc, ← List.append_assoc]
  exact List.perm_middle

/-- What is removed has been a child. -/
theorem Collection.perm_children_remove {c c' : Collection} {x : Child}
    (h : c.remove x = .ok c') : ∃ y, y.id = x.id ∧ c.children.Perm (y :: c'.children) := by
  rw [remove, c.take_eq] at h
  cases hfind : c.slots.findIdx? (·.holds x.id) with
  | none => simp [hfind] at h
  | some i =>
    obtain ⟨hi, hholds, -⟩ := List.findIdx?_eq_some_iff_getElem.mp hfind
    obtain ⟨z, hz, hzid⟩ := List.any_eq_true.mp hholds
    obtain ⟨y, before, after, -, hy, hheld, herase⟩ :=
      List.exists_of_eraseP (p := fun y : Child => y.id == x.id) hz hzid
    obtain rfl : c.refill (c.slots.modify i (·.withdraw x.id)) = c' := by simpa [hfind] using h
    refine ⟨y, by simpa using hy, ?_⟩
    have hwithdrawn : (c.slots[i].withdraw x.id).held = before ++ after := herase
    rw [c.children_refill_modify _ hi, c.children_eq_around hi, hwithdrawn, hheld,
      List.append_assoc, List.append_assoc, List.cons_append]
    simp only [← List.append_assoc _ before]
    exact List.perm_middle

/-- A call on two of `n` elements. -/
inductive Call (n : Nat) where
  | add (parent child : Fin n)
  | remove (parent child : Fin n)

namespace Store
variable {s s' : Store} {parent child : Nat} {p : Node} {d : Collection} {o : Option Nat} {n : Nat}

/-- A call that fails leaves the elements as they are. -/
def call (s : Store) : Call n → Store
  | .add parent child => match s.addChild parent child with
    | .ok s' => s'
    | .error _ => s
  | .remove parent child => match s.removeChild parent child with
    | .ok s' => s'
    | .error _ => s

def calls (s : Store) (calls : List (Call n)) : Store :=
  calls.foldl call s

/-- The numbers of the children, in their order. -/
def held (s : Store) (id : Nat) : List Nat := (s.children id).map (·.id)

/-- Nothing is held, and nobody refers to a parent. -/
def Fresh (s : Store) : Prop := ∀ n ∈ s, n.parent = none ∧ n.children = []

/-- The first element is the second or below it, as parents tell. -/
def Below (s : Store) : Nat → Nat → Prop :=
  Relation.ReflTransGen fun a b => s.parentOf a = some b

/-- The second element is an ancestor of the first. -/
def Ancestor (s : Store) : Nat → Nat → Prop :=
  Relation.TransGen fun a b => s.parentOf a = some b

/-- An addition that goes through adds an element that has no parent, to one not below it. -/
def Allows (s : Store) : Call n → Prop
  | .add parent child => (∃ s', s.addChild parent child = .ok s') →
    s.parentOf child = none ∧ ¬ s.Below parent child
  | .remove _ _ => True

/-- Every call is allowed where it is made. -/
def Orderly (s : Store) : List (Call n) → Prop
  | [] => True
  | call :: calls => s.Allows call ∧ (s.call call).Orderly calls

/-- Children and parents agree, in the one direction that no call breaks. -/
def Accounted (s : Store) : Prop := ∀ p c, s.parentOf c = some p → c ∈ s.held p

/-- Every element is a child of its parent and of nobody else, once, and not below itself. -/
structure Forest (s : Store) : Prop where
  mem_held_iff : ∀ p c, c ∈ s.held p ↔ s.parentOf c = some p
  unique : ∀ p q c, c ∈ s.held p → c ∈ s.held q → p = q
  nodup : ∀ p, (s.held p).Nodup
  acyclic : ∀ c, ¬ s.Ancestor c c

/-! ### What a call changes -/

/-- One element gets a collection, and another one a parent or none. -/
def relink (s : Store) (parent child : Nat) (d : Collection) (o : Option Nat) : Store :=
  (s.update parent fun n => { n with collection := some d }).update child
    fun n => { n with parent := o }

theorem getElem?_relink (j : Nat) :
    (s.relink parent child d o)[j]? = (s[j]?).map fun n : Node =>
      { n with collection := if parent = j then some d else n.collection,
               parent := if child = j then o else n.parent } := by
  rw [relink, getElem?_update, getElem?_update, Option.map_map]
  congr 1
  funext n
  by_cases hparent : parent = j <;> by_cases hchild : child = j <;> simp [hparent, hchild]

@[simp] theorem length_relink : (s.relink parent child d o).length = s.length := by
  simp [relink, update]

theorem parentOf_relink (h : child < s.length) (j : Nat) :
    (s.relink parent child d o).parentOf j = if child = j then o else s.parentOf j := by
  rw [parentOf, getElem?_relink]
  by_cases hj : child = j
  · subst hj
    simp [List.getElem?_eq_getElem h]
  · cases hn : s[j]? <;> simp [parentOf, hn, hj]

theorem held_relink (hp : s[parent]? = some p) (j : Nat) :
    (s.relink parent child d o).held j =
      if parent = j then d.children.map (·.id) else s.held j := by
  rw [held, children, children?, getElem?_relink]
  by_cases hj : parent = j
  · subst hj
    simp [hp]
  · cases hn : s[j]? <;> simp [held, children, children?, hn, hj]

theorem held_of_collection (hp : s[parent]? = some p) (hd : p.collection = some d) :
    s.held parent = d.children.map (·.id) := by
  simp [held, children, children?, hp, hd]

theorem addChild_eq_relink (h : s.addChild parent child = .ok s') :
    ∃ p d', s[parent]? = some p ∧ (d'.children.map (·.id)).Perm (child :: s.held parent) ∧
      s' = s.relink parent child d' (some parent) := by
  rw [addChild] at h
  split at h
  · cases h
  · next p hp =>
    split at h
    · cases h
    · next d hd =>
      split at h
      · cases h
      · next d' hadd =>
        refine ⟨p, d', hp, ?_, (Except.ok.inj h).symm⟩
        rw [held_of_collection hp hd]
        exact (Collection.perm_children_add hadd).map _

theorem removeChild_eq_relink (h : s.removeChild parent child = .ok s') :
    ∃ p d', s[parent]? = some p ∧ (s.held parent).Perm (child :: d'.children.map (·.id)) ∧
      s' = s.relink parent child d' none := by
  rw [removeChild] at h
  split at h
  · cases h
  · next p hp =>
    split at h
    · cases h
    · next d hd =>
      split at h
      · cases h
      · next d' hremove =>
        obtain ⟨y, hy, hperm⟩ := Collection.perm_children_remove hremove
        have hy : y.id = child := hy
        refine ⟨p, d', hp, ?_, (Except.ok.inj h).symm⟩
        rw [held_of_collection hp hd, ← hy]
        exact hperm.map _

/-- A call changes nothing, or links or unlinks two elements. -/
theorem call_cases (s : Store) (call : Call n) :
    s.call call = s ∨
    (∃ parent child p d', call = .add parent child ∧ s[parent.val]? = some p ∧
      (∃ s', s.addChild parent child = .ok s') ∧
      (d'.children.map (·.id)).Perm (child.val :: s.held parent) ∧
      s.call call = s.relink parent child d' (some parent.val)) ∨
    (∃ parent child p d', call = .remove parent child ∧ s[parent.val]? = some p ∧
      (s.held parent).Perm (child.val :: d'.children.map (·.id)) ∧
      s.call call = s.relink parent child d' none) := by
  cases call with
  | add parent child =>
    rw [Store.call]
    cases h : s.addChild parent child with
    | error e => exact .inl rfl
    | ok s' =>
      obtain ⟨p, d', hp, hperm, rfl⟩ := addChild_eq_relink h
      exact .inr (.inl ⟨parent, child, p, d', rfl, hp, ⟨_, h⟩, hperm, rfl⟩)
  | remove parent child =>
    rw [Store.call]
    cases h : s.removeChild parent child with
    | error e => exact .inl rfl
    | ok s' =>
      obtain ⟨p, d', hp, hperm, rfl⟩ := removeChild_eq_relink h
      exact .inr (.inr ⟨parent, child, p, d', rfl, hp, hperm, rfl⟩)

theorem length_call (s : Store) (call : Call n) : (s.call call).length = s.length := by
  obtain h | ⟨_, _, _, _, _, _, _, _, h⟩ | ⟨_, _, _, _, _, _, _, h⟩ := s.call_cases call <;>
    simp [h]

/-! ### What every call keeps -/

theorem Accounted.add (h : s.Accounted) (hc : child < s.length) (hp : s[parent]? = some p)
    (hperm : (d.children.map (·.id)).Perm (child :: s.held parent)) :
    (s.relink parent child d (some parent)).Accounted := by
  intro q c hq
  rw [parentOf_relink hc] at hq
  rw [held_relink hp]
  split at hq
  · next hchild =>
    obtain rfl := Option.some.inj hq
    rw [if_pos rfl, hperm.mem_iff]
    exact hchild ▸ List.mem_cons_self
  · have hmem := h q c hq
    split
    · next hparent =>
      subst hparent
      exact hperm.mem_iff.mpr (List.mem_cons_of_mem _ hmem)
    · exact hmem

theorem Accounted.remove (h : s.Accounted) (hc : child < s.length) (hp : s[parent]? = some p)
    (hperm : (s.held parent).Perm (child :: d.children.map (·.id))) :
    (s.relink parent child d none).Accounted := by
  intro q c hq
  rw [parentOf_relink hc] at hq
  rw [held_relink hp]
  split at hq
  · cases hq
  · next hne =>
    have hmem := h q c hq
    split
    · next hparent =>
      subst hparent
      -- a child other than the one removed stays
      exact (List.mem_cons.mp (hperm.mem_iff.mp hmem)).resolve_left (Ne.symm hne)
    · exact hmem

theorem Accounted.call (h : s.Accounted) (call : Call n) (hn : s.length = n) :
    (s.call call).Accounted := by
  obtain heq | ⟨parent, child, p, d, -, hp, -, hperm, heq⟩ |
    ⟨parent, child, p, d, -, hp, hperm, heq⟩ := s.call_cases call
  · rwa [heq]
  · rw [heq]
    exact h.add (hn ▸ child.isLt) hp hperm
  · rw [heq]
    exact h.remove (hn ▸ child.isLt) hp hperm

/-! ### What an allowed call keeps -/

theorem Ancestor.below {a b : Nat} (h : s.Ancestor a b) : s.Below a b :=
  Relation.TransGen.to_reflTransGen h

/-- The way up to an element without a parent is as before once it gets one. -/
theorem below_of_relink (hc : child < s.length) {a : Nat}
    (h : (s.relink parent child d (some parent)).Below a child) : s.Below a child := by
  induction h using Relation.ReflTransGen.head_induction_on with
  | refl => exact .refl
  | @head a b hab _ ih =>
    rw [parentOf_relink hc] at hab
    split at hab
    · next ha => exact ha ▸ .refl
    · exact .head hab ih

/-- A way up after a link leads through the link, or it was there before. -/
theorem ancestor_of_relink (hc : child < s.length) {a b : Nat}
    (h : (s.relink parent child d (some parent)).Ancestor a b) :
    s.Ancestor a b ∨ (s.relink parent child d (some parent)).Below a child ∧
      (s.relink parent child d (some parent)).Below parent b := by
  have hstep {a b : Nat} (hab : (s.relink parent child d (some parent)).parentOf a = some b) :
      s.parentOf a = some b ∨ a = child ∧ b = parent := by
    rw [parentOf_relink hc] at hab
    split at hab
    · next ha => exact .inr ⟨ha.symm, (Option.some.inj hab).symm⟩
    · exact .inl hab
  induction h with
  | @single b hab =>
    rcases hstep hab with hab | ⟨rfl, rfl⟩
    · exact .inl (.single hab)
    · exact .inr ⟨.refl, .refl⟩
  | @tail b c hab hbc ih =>
    rcases hstep hbc with hold | ⟨rfl, rfl⟩
    · exact ih.imp (·.tail hold) fun ⟨hchild, hparent⟩ => ⟨hchild, hparent.tail hbc⟩
    · exact .inr ⟨Ancestor.below hab, .refl⟩

theorem not_below_of_root {a b : Nat} (ha : s.parentOf a = none) (hne : a ≠ b) :
    ¬ s.Below a b := by
  intro h
  obtain rfl | ⟨q, hq, -⟩ := Relation.ReflTransGen.cases_head h
  · exact hne rfl
  · rw [ha] at hq
    cases hq

theorem not_below_of_parent {a b q : Nat} (ha : s.parentOf a = some q) (hne : a ≠ b)
    (hq : ¬ s.Below q b) : ¬ s.Below a b := by
  intro h
  obtain rfl | ⟨q', hq', h⟩ := Relation.ReflTransGen.cases_head h
  · exact hne rfl
  · obtain rfl := Option.some.inj (ha.symm.trans hq')
    exact hq h

theorem forest_of_mem_held_iff (h : ∀ p c, c ∈ s.held p ↔ s.parentOf c = some p)
    (hnodup : ∀ p, (s.held p).Nodup) (hacyclic : ∀ c, ¬ s.Ancestor c c) : s.Forest where
  mem_held_iff := h
  unique p q c hp hq := Option.some.inj (((h p c).mp hp).symm.trans ((h q c).mp hq))
  nodup := hnodup
  acyclic := hacyclic

theorem Forest.add (h : s.Forest) (hc : child < s.length) (hp : s[parent]? = some p)
    (hperm : (d.children.map (·.id)).Perm (child :: s.held parent))
    (hfree : s.parentOf child = none) (hbelow : ¬ s.Below parent child) :
    (s.relink parent child d (some parent)).Forest := by
  have hnot (q : Nat) : child ∉ s.held q := fun hq => by
    have := (h.mem_held_iff q child).mp hq
    rw [hfree] at this
    cases this
  refine forest_of_mem_held_iff (fun q c => ?_) (fun q => ?_) fun c hcycle => ?_
  · rw [parentOf_relink hc, held_relink hp]
    by_cases hchild : child = c
    · subst hchild
      by_cases hparent : parent = q
      · simp [hparent, hperm.mem_iff]
      · simp [hparent, hnot q]
    · by_cases hparent : parent = q
      · subst hparent
        simp [hchild, Ne.symm hchild, hperm.mem_iff, h.mem_held_iff]
      · simp [hchild, hparent, h.mem_held_iff]
  · rw [held_relink hp]
    split
    · exact hperm.nodup_iff.mpr (List.nodup_cons.mpr ⟨hnot parent, h.nodup parent⟩)
    · exact h.nodup q
  · rcases ancestor_of_relink hc hcycle with hold | ⟨hdown, hup⟩
    · exact h.acyclic c hold
    · exact hbelow (below_of_relink hc (hup.trans hdown))

theorem Forest.remove (h : s.Forest) (hc : child < s.length) (hp : s[parent]? = some p)
    (hperm : (s.held parent).Perm (child :: d.children.map (·.id))) :
    (s.relink parent child d none).Forest := by
  have hparentOf : s.parentOf child = some parent :=
    (h.mem_held_iff parent child).mp (hperm.mem_iff.mpr List.mem_cons_self)
  obtain ⟨hnot, hnodup⟩ := List.nodup_cons.mp (hperm.nodup_iff.mp (h.nodup parent))
  refine forest_of_mem_held_iff (fun q c => ?_) (fun q => ?_) fun c hcycle => h.acyclic c ?_
  · rw [parentOf_relink hc, held_relink hp]
    by_cases hchild : child = c
    · subst hchild
      by_cases hparent : parent = q
      · simpa [hparent] using hnot
      · simp [hparent, h.mem_held_iff, hparentOf]
    · by_cases hparent : parent = q
      · subst hparent
        have hmem : c ∈ s.held parent ↔ c ∈ d.children.map (·.id) := by
          rw [hperm.mem_iff, List.mem_cons, or_iff_right (Ne.symm hchild)]
        rw [if_pos rfl, if_neg hchild, ← hmem, h.mem_held_iff]
      · simp [hchild, hparent, h.mem_held_iff]
  · rw [held_relink hp]
    split
    · exact hnodup
    · exact h.nodup q
  · refine Relation.TransGen.mono (fun a b hab => ?_) c c hcycle
    rw [parentOf_relink hc] at hab
    split at hab
    · cases hab
    · exact hab

theorem Forest.call (h : s.Forest) {call : Call n} (hn : s.length = n) (ha : s.Allows call) :
    (s.call call).Forest := by
  obtain heq | ⟨parent, child, p, d, rfl, hp, hok, hperm, heq⟩ |
    ⟨parent, child, p, d, -, hp, hperm, heq⟩ := s.call_cases call
  · rwa [heq]
  · rw [heq]
    exact h.add (hn ▸ child.isLt) hp hperm (ha hok).1 (ha hok).2
  · rw [heq]
    exact h.remove (hn ▸ child.isLt) hp hperm

/-! ### Runs -/

theorem Accounted.calls (h : s.Accounted) (hn : s.length = n) (calls : List (Call n)) :
    (s.calls calls).Accounted := by
  induction calls generalizing s with
  | nil => exact h
  | cons call calls ih => exact ih (h.call call hn) ((s.length_call call).trans hn)

theorem Forest.calls (h : s.Forest) (hn : s.length = n) {calls : List (Call n)}
    (ho : s.Orderly calls) : (s.calls calls).Forest := by
  induction calls generalizing s with
  | nil => exact h
  | cons call calls ih => exact ih (h.call hn ho.1) ((s.length_call call).trans hn) ho.2

theorem Fresh.parentOf (h : s.Fresh) (c : Nat) : s.parentOf c = none := by
  rw [Store.parentOf]
  cases hn : s[c]? with
  | none => rfl
  | some n => exact (h n (List.mem_of_getElem? hn)).1

theorem Fresh.held (h : s.Fresh) (p : Nat) : s.held p = [] := by
  cases hn : s[p]? with
  | none => simp [Store.held, children, children?, hn]
  | some n =>
    rw [Store.held, children_of_getElem? hn, (h n (List.mem_of_getElem? hn)).2, List.map_nil]

theorem Fresh.accounted (h : s.Fresh) : s.Accounted := fun p c hc => by
  rw [h.parentOf] at hc
  cases hc

theorem Fresh.forest (h : s.Fresh) : s.Forest := by
  refine forest_of_mem_held_iff (fun p c => by simp [h.held, h.parentOf])
    (fun p => by simp [h.held]) fun c hcycle => ?_
  obtain ⟨_, hparent, -⟩ := Relation.TransGen.head'_iff.mp hcycle
  rw [h.parentOf] at hparent
  cases hparent

/-- Elements of the classes of a module start out fresh. -/
theorem fresh_of_moduleBlueprints {group : String} {m : Binding.Module} {bs : List Blueprint}
    (h : ∀ b ∈ bs, b ∈ (moduleBlueprints group m).map (·.2)) : Fresh (bs.map Blueprint.node) := by
  intro n hn
  obtain ⟨b, hb, rfl⟩ := List.mem_map.mp hn
  obtain ⟨q, hq, rfl⟩ := List.mem_map.mp (h b hb)
  obtain ⟨c, -, rfl⟩ := List.mem_map.mp hq
  refine ⟨rfl, ?_⟩
  cases hm : c.membership with
  | none => simp [Node.children, Blueprint.node]
  | some ms =>
    have hnil := Collection.children_of_held_eq_nil ms.held_eq_nil
    simp [Node.children, Blueprint.node, hnil]

/-- Elements that hold any number of their own kind. -/
def nests : Store :=
  List.replicate 3
    { typeName := "nests.Nest"
      elementName := "nest"
      uri := none
      collection := some ⟨.sequence, 1, some 1, [.slot ⟨some "nest", none, []⟩]⟩
      creatable := some [("nest", ⟨"nests", "Nest"⟩)]
      attributes := .typed [] : Blueprint }.node

theorem fresh_nests : nests.Fresh := by
  intro n hn
  obtain rfl := List.eq_of_mem_replicate hn
  exact ⟨rfl, rfl⟩

/-- An element refers to no parent that does not hold it, whatever has been called on elements that
were fresh. If what was added had no parent, and was not added below itself, they form a forest. -/
theorem forest_of_orderly (h : s.Fresh) (calls : List (Call s.length)) :
    (s.calls calls).Accounted ∧ (s.Orderly calls → (s.calls calls).Forest) :=
  ⟨h.accounted.calls rfl calls, h.forest.calls rfl⟩

/-- A nest moves from the second one to the first. -/
theorem forest_of_nests :
    let calls : List (Call 3) := [.add 0 1, .add 1 2, .remove 0 2, .remove 1 2, .add 0 2]
    nests.Fresh ∧ nests.Orderly calls ∧
      (nests.calls calls).Accounted ∧ (nests.calls calls).Forest := by
  intro calls
  have horderly : nests.Orderly calls :=
    ⟨fun _ => ⟨rfl, not_below_of_root rfl (by decide)⟩,
      fun _ => ⟨rfl, not_below_of_parent rfl (by decide) (not_below_of_root rfl (by decide))⟩,
      trivial, trivial, fun _ => ⟨rfl, not_below_of_root rfl (by decide)⟩, trivial⟩
  have hforest := forest_of_orderly fresh_nests calls
  exact ⟨fresh_nests, horderly, hforest.1, hforest.2 horderly⟩

/-- What is added to a second parent stays with the first one too. -/
theorem not_forest_of_second_parent :
    nests.Fresh ∧ ¬ (nests.calls [Call.add (n := 3) 0 2, .add 1 2]).Forest :=
  ⟨fresh_nests, fun h => absurd (h.unique 0 1 2 (by decide) (by decide)) (by decide)⟩

end Store

end XmlBinding.Tree
