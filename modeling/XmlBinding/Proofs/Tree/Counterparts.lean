import Mathlib.Data.List.Induction
import Mathlib.Data.List.Nodup
import XmlBinding.Proofs.Content.Loading
import XmlBinding.Proofs.Tree.Forest
import XmlBinding.Proofs.Xml.Paths

/-! # Counterparts of the elements of a document

Elements are made in document order, each one before those in it, so the rank of the way to an
element tells the number of its counterpart. While content is loaded, an element gains the
counterparts of the elements read so far, and what was made before stands as it is.
-/
namespace XmlBinding.Tree
open Schema Binding Xml

def Node.slots (n : Node) : List Slot := n.collection.elim [] Collection.slots

/-- A slot has taken some of these elements, in their order. -/
def Slot.Gains (ids : List Nat) (s s' : Slot) : Prop :=
  ∃ taken, taken.Sublist ids ∧ s'.held.map (·.id) = s.held.map (·.id) ++ taken

/-- An element of the same class and parent holds these elements besides. -/
structure Node.Gains (n : Node) (ids : List Nat) (n' : Node) : Prop where
  blueprint : n'.blueprint = n.blueprint
  parent : n'.parent = n.parent
  held : (n'.children.map (·.id)).Perm (n.children.map (·.id) ++ ids)
  slots : ∀ slot' ∈ n'.slots, ∃ slot ∈ n.slots, slot.Gains ids slot'

section
variable {n n' n'' : Node} {ids ids' : List Nat}

theorem Node.gains_revalued (n : Node) (recorded : List (String × String))
    (values : List (Option Held)) : n.Gains [] { n with recorded, values } :=
  ⟨rfl, rfl, by simp [Node.children], fun slot h => ⟨slot, h, [], List.Sublist.refl _, by simp⟩⟩

theorem Node.Gains.trans (h : n.Gains ids n') (h' : n'.Gains ids' n'') :
    n.Gains (ids ++ ids') n'' where
  blueprint := h'.blueprint.trans h.blueprint
  parent := h'.parent.trans h.parent
  held := by
    rw [← List.append_assoc]
    exact h'.held.trans (h.held.append_right ids')
  slots slot'' h'' := by
    obtain ⟨slot', hslot', taken', hsub', heq'⟩ := h'.slots slot'' h''
    obtain ⟨slot, hslot, taken, hsub, heq⟩ := h.slots slot' hslot'
    exact ⟨slot, hslot, taken ++ taken', hsub.append hsub', by rw [heq', heq, List.append_assoc]⟩

/-- One slot gets what is added, at its end. -/
theorem Node.gains_add {c c' : Collection} {x : Child} (hc : n.collection = some c)
    (h : c.add x = .ok c') : n.Gains [x.id] { n with collection := some c' } where
  blueprint := rfl
  parent := rfl
  held := by
    have hperm := (Collection.perm_children_add h).map (·.id)
    simp only [Node.children, hc, Option.elim_some]
    exact hperm.trans (List.perm_append_singleton _ _).symm
  slots slot' hslot' := by
    obtain ⟨i, s, -, -, -, -, rfl⟩ := Collection.add_eq_ok_iff.mp h
    simp only [Node.slots, hc, Option.elim_some] at hslot' ⊢
    rw [c.slots_refill _ (by simp)] at hslot'
    obtain ⟨j, hj⟩ := List.mem_iff_getElem?.mp hslot'
    obtain ⟨t, ht, rfl⟩ := getElem?_modify_eq_some.mp hj
    refine ⟨t, List.mem_of_getElem? ht, ?_⟩
    split
    · exact ⟨[x.id], List.Sublist.refl _, by simp⟩
    · exact ⟨[], List.nil_sublist _, by simp⟩

theorem Node.slots_held_of_children (h : n.children = []) : ∀ slot ∈ n.slots, slot.held = [] := by
  intro slot hslot
  cases hc : n.collection with
  | none => simp [Node.slots, hc] at hslot
  | some c =>
    rw [Node.children, hc, Option.elim_some, c.children_eq_flatMap, List.flatMap_eq_nil_iff] at h
    rw [Node.slots, hc, Option.elim_some] at hslot
    exact h slot hslot

end

namespace Loader
variable {l : Loader} {s s' s'' : Store}

/-- An element refers to this parent, of this class, and is what the loader makes there for a tag. -/
def MadeFor (l : Loader) (s : Store) (parent : Nat) (b : Blueprint) (tag : String) (id : Nat) :
    Prop :=
  ∃ k, s[id]? = some k ∧ k.parent = some parent ∧ ∀ p : Node, p.blueprint = b → ∀ s₀,
    l.createChild p tag s₀ = .ok (s₀.create k.blueprint)

/-- An element holds the counterparts of child elements, each slot in document order. -/
structure Mirrors (l : Loader) (s : Store) (e : Element) (id : Nat) (n : Node) : Prop where
  node : s[id]? = some n
  held : (n.children.map (·.id)).Perm (siblingNumbers (id + 1) e.elements)
  slots : ∀ slot ∈ n.slots, (slot.held.map (·.id)).Sublist (siblingNumbers (id + 1) e.elements)
  made : ∀ i c, e.elements[i]? = some c →
    l.MadeFor s id n.blueprint c.tag (id + 1 + totalSize (e.elements.take i))

/-- Elements from here on are the counterparts of an element and of what is in it. -/
def Stands (l : Loader) (s : Store) (e : Element) (id : Nat) : Prop :=
  ∀ p d, e.at? p = some d → ∃ n, l.Mirrors s d (id + e.rank p) n

/-- An element has taken the counterparts of these elements, which stand. -/
structure Gains (l : Loader) (s : Store) (id : Nat) (n : Node) (es : List Element) (s' : Store)
    (n' : Node) : Prop where
  changes : s.Changes id n' s'
  length : s'.length = s.length + totalSize es
  node : n.Gains (siblingNumbers s.length es) n'
  made : ∀ i c, es[i]? = some c →
    l.MadeFor s' id n.blueprint c.tag (s.length + totalSize (es.take i))
  stands : ∀ i c, es[i]? = some c → l.Stands s' c (s.length + totalSize (es.take i))

section
variable {e d : Element} {es : List Element} {id parent x : Nat} {n n' n'' : Node} {b : Blueprint}
  {tag : String}

theorem MadeFor.frame (h : l.MadeFor s parent b tag id) (hs : s.Changes x n' s') (hne : id ≠ x) :
    l.MadeFor s' parent b tag id := by
  obtain ⟨k, hk, hparent, hmade⟩ := h
  exact ⟨k, hs.others id k hne hk, hparent, hmade⟩

theorem Mirrors.frame (h : l.Mirrors s e id n) (hs : s.Changes x n' s') (hlt : x < id) :
    l.Mirrors s' e id n where
  node := hs.others id n (by omega) h.node
  held := h.held
  slots := h.slots
  made i c hc := (h.made i c hc).frame hs (by omega)

/-- What changes before the counterparts does not touch them. -/
theorem Stands.frame (h : l.Stands s e id) (hs : s.Changes x n' s') (hlt : x < id) :
    l.Stands s' e id := by
  intro p d hd
  obtain ⟨n, hn⟩ := h p d hd
  exact ⟨n, hn.frame hs (by omega)⟩

theorem Gains.nil (hs : s.Changes id n' s') (hlength : s'.length = s.length)
    (hn : n.Gains [] n') : l.Gains s id n [] s' n' :=
  ⟨hs, hlength, hn, fun _ _ hc => by simp at hc, fun _ _ hc => by simp at hc⟩

/-- One element after the other. -/
theorem Gains.cons (hid : id < s.length) (h : l.Gains s id n [e] s' n')
    (h' : l.Gains s' id n' es s'' n'') : l.Gains s id n (e :: es) s'' n'' := by
  have hlength : s'.length = s.length + e.size := by simpa using h.length
  refine ⟨h.changes.trans h'.changes, ?_, ?_, fun i c hc => ?_, fun i c hc => ?_⟩
  · rw [h'.length, hlength, totalSize_cons, Nat.add_assoc]
  · have hnode := h.node.trans h'.node
    rwa [hlength] at hnode
  · cases i with
    | zero => exact (h.made 0 c hc).frame h'.changes (by simp; omega)
    | succ i =>
      have hmade := h'.made i c hc
      rw [h.node.blueprint, hlength, Nat.add_assoc] at hmade
      simpa using hmade
  · cases i with
    | zero => exact (h.stands 0 c hc).frame h'.changes (by simpa using hid)
    | succ i =>
      have hstands := h'.stands i c hc
      rw [hlength, Nat.add_assoc] at hstands
      simpa using hstands

/-- Values that are set afterwards make no difference. -/
theorem Gains.revalued (h : l.Gains s id n es s' n') {recorded : List (String × String)}
    {values : List (Option Held)} (hs : s'.Changes id { n' with recorded, values } s'')
    (hid : id < s.length) (hlength : s''.length = s'.length) :
    l.Gains s id n es s'' { n' with recorded, values } where
  changes := h.changes.trans hs
  length := hlength.trans h.length
  node := by
    have hnode := h.node.trans (n'.gains_revalued recorded values)
    rwa [List.append_nil] at hnode
  made i c hc := (h.made i c hc).frame hs (by omega)
  stands i c hc := (h.stands i c hc).frame hs (by omega)

/-- A child that has been added and stands. -/
theorem Adds.gains {c : Collection} (h : l.Adds s id n e.tag b c s') (hid : id < s.length)
    (hs : s'.Changes s.length n' s'') (hb : n'.blueprint = b) (hparent : n'.parent = some id)
    (hlength : s''.length = s.length + e.size) (hstands : l.Stands s'' e s.length) :
    l.Gains s id n [e] s'' { n with collection := some c } := by
  obtain ⟨c₀, hc₀, hc⟩ := h.added
  refine ⟨h.changes.beneath hid hs (Nat.le_refl _), by simp [hlength], Node.gains_add hc₀ hc,
    fun i d hd => ?_, fun i d hd => ?_⟩
  all_goals
    obtain ⟨hi, rfl⟩ := List.getElem?_eq_some_iff.mp hd
    obtain rfl : i = 0 := by simpa using hi
  · refine ⟨n', hs.node, hparent, fun p hp s₀ => ?_⟩
    rw [hb]
    exact createChild_of_ok hp h.made s₀
  · exact hstands

/-- An element that had nothing and has taken the counterparts of what is in another stands for it. -/
theorem Gains.stands_of_empty (h : l.Gains s id n e.elements s' n') (hid : id + 1 = s.length)
    (hempty : n.children = []) : l.Stands s' e id := by
  have hmirrors : l.Mirrors s' e id n' := by
    refine ⟨h.changes.node, ?_, fun slot hslot => ?_, fun i c hc => ?_⟩
    · simpa [hempty, hid] using h.node.held
    · obtain ⟨slot₀, hslot₀, taken, hsub, heq⟩ := h.node.slots slot hslot
      rw [Node.slots_held_of_children hempty slot₀ hslot₀] at heq
      rw [heq, hid]
      exact hsub
    · rw [hid, h.node.blueprint]
      exact h.made i c hc
  intro p d hd
  cases p with
  | nil =>
    obtain rfl := Option.some.inj (Element.at?_nil.symm.trans hd)
    exact ⟨n', by simpa using hmirrors⟩
  | cons i p =>
    obtain ⟨c, hc, hd⟩ := Element.at?_cons_eq_some.mp hd
    obtain ⟨k, hk⟩ := h.stands i c hc p d hd
    have hnumber : id + e.rank (i :: p) =
        s.length + totalSize (e.elements.take i) + c.rank p := by
      rw [Element.rank_cons hc]
      omega
    exact ⟨k, hnumber ▸ hk⟩

end

/-- New elements hold nothing. -/
def MakesEmpty (l : Loader) : Prop := ∀ q ∈ l.blueprints, q.2.node.children = []

mutual

/-- The element made last stands for the element it is filled from. -/
theorem stands_of_fill (hl : l.MakesEmpty) :
    ∀ (e : Element) {s s' : Store} {id : Nat} {n : Node}, s[id]? = some n → id + 1 = s.length →
      n.children = [] → l.fill id e s = .ok s' → ∃ n', s.Changes id n' s' ∧
        n'.blueprint = n.blueprint ∧ n'.parent = n.parent ∧ s'.length = id + e.size ∧
          l.Stands s' e id
  | ⟨_, _, _, content⟩, s, s', id, n, hn, hid, hempty, h => by
    obtain ⟨_, _, s₁, s₂, h₁, hlength₁, hfill, hlast⟩ := stages_of_fill hn h
    obtain ⟨n₂, h₂⟩ := gains_of_fillContent hl content h₁.node hfill
    obtain ⟨_, _, h₃, hlength₃⟩ := hlast n₂ h₂.changes.node
    have hgains := h₂.revalued h₃ (by omega) hlength₃
    have hlength : s'.length = s₁.length + contentSize content := by
      rw [hgains.length, contentSize_eq]
    refine ⟨_, h₁.trans hgains.changes, hgains.node.blueprint, hgains.node.parent, ?_, ?_⟩
    · rw [Element.size]
      omega
    · exact Gains.stands_of_empty (e := ⟨_, _, _, content⟩) hgains (hlength₁ ▸ hid) hempty

theorem gains_of_fillContent (hl : l.MakesEmpty) :
    ∀ (cs : List Content) {s s' : Store} {id : Nat} {n : Node}, s[id]? = some n →
      l.fillContent id cs s = .ok s' → ∃ n', l.Gains s id n (cs.filterMap Content.element?) s' n'
  | [], s, s', id, n, hn, h => by
    obtain rfl := Except.ok.inj h
    exact ⟨n, .nil ⟨Nat.le_refl _, hn, fun _ _ _ hk => hk⟩ rfl (n.gains_revalued _ _)⟩
  | c :: cs, s, s', id, n, hn, h => by
    rw [Loader.fillContent] at h
    obtain ⟨s₁, hitem, hrest⟩ := ok_of_bind h
    cases c with
    | element e =>
      obtain ⟨n₁, h₁⟩ := gains_of_fillItem hl e hn hitem
      obtain ⟨n₂, h₂⟩ := gains_of_fillContent hl cs h₁.changes.node hrest
      exact ⟨n₂, h₁.cons (List.getElem?_eq_some_iff.mp hn).1 h₂⟩
    | _ =>
      obtain rfl := Except.ok.inj hitem
      exact gains_of_fillContent hl cs hn hrest

theorem gains_of_fillItem (hl : l.MakesEmpty) :
    ∀ (e : Element) {s s' : Store} {id : Nat} {n : Node}, s[id]? = some n →
      l.fillItem id (.element e) s = .ok s' → ∃ n', l.Gains s id n [e] s' n'
  | e, s, s', id, n, hn, h => by
    obtain ⟨b, c, s₁, hadds, hfill⟩ := exists_adds_of_fillItem hn h
    obtain ⟨kind, hb⟩ := hadds.known
    obtain ⟨k, hchanges, hkb, hkp, hlength, hstands⟩ :=
      stands_of_fill hl e hadds.child hadds.length.symm (hl _ hb) hfill
    exact ⟨_, hadds.gains (List.getElem?_eq_some_iff.mp hn).1 hchanges hkb hkp hlength hstands⟩

end

end Loader

/-- An element is the root or below it, as elements hold each other. -/
def Store.Within (s : Store) (root : Nat) : Nat → Prop :=
  Relation.ReflTransGen (fun a b => b ∈ s.held a) root

/-- The elements of a document and those of a loaded tree correspond: a way into the document leads
to the element whose counterpart has the number `number` tells. -/
structure Loader.Corresponds (l : Loader) (s : Store) (root : Nat) (e : Element)
    (number : List Nat → Nat) : Prop where
  start : number [] = root
  parentless : s.parentOf root = none
  injective : ∀ p q, (e.at? p).isSome → (e.at? q).isSome → number p = number q → p = q
  onto : ∀ j, s.Within root j ↔ ∃ p, (e.at? p).isSome ∧ number p = j
  parent : ∀ p i, (e.at? (p ++ [i])).isSome → s.parentOf (number (p ++ [i])) = some (number p)
  heldOnce : ∀ p q i, (e.at? q).isSome → (e.at? (p ++ [i])).isSome →
    (s.held (number q)).count (number (p ++ [i])) = if q = p then 1 else 0
  ordered : ∀ p d n, e.at? p = some d → s[number p]? = some n → ∀ slot ∈ n.slots,
    (slot.held.map (·.id)).Sublist ((List.range d.elements.length).map fun i => number (p ++ [i]))
  made : ∀ p d n, e.at? p = some d → s[number p]? = some n → ∀ i c, d.elements[i]? = some c →
    ∃ k, s[number (p ++ [i])]? = some k ∧
      ∀ s₀, l.createChild n c.tag s₀ = .ok (s₀.create k.blueprint)

namespace Loader
variable {l : Loader} {s : Store} {e d c : Element} {id i : Nat} {p q : List Nat}

theorem Mirrors.perm_held {n : Node} (h : l.Mirrors s d id n) :
    (s.held id).Perm ((List.range d.elements.length).map fun i => id + d.rank [i]) := by
  rw [Store.held, Store.children_of_getElem? h.node, ← siblingNumbers_elements]
  exact h.held

theorem Stands.perm_held (h : l.Stands s e id) (hp : e.at? p = some d) :
    (s.held (id + e.rank p)).Perm
      ((List.range d.elements.length).map fun i => id + e.rank (p ++ [i])) := by
  obtain ⟨n, hn⟩ := h p d hp
  have hperm := hn.perm_held
  simp only [Element.rank_append hp]
  simpa only [Nat.add_assoc] using hperm

/-- The last step on a way leads to a child element. -/
theorem exists_child_of_at? (h : e.at? (p ++ [i]) = some c) :
    ∃ d, e.at? p = some d ∧ d.elements[i]? = some c := by
  obtain ⟨d, hd, hc⟩ := Element.exists_at?_of_append h
  obtain ⟨c', hc', hnil⟩ := Element.at?_cons_eq_some.mp hc
  obtain rfl := Option.some.inj (Element.at?_nil.symm.trans hnil)
  exact ⟨d, hd, hc'⟩

theorem Stands.mem_held_iff (h : l.Stands s e id) (hp : e.at? p = some d) (j : Nat) :
    j ∈ s.held (id + e.rank p) ↔ ∃ i, (e.at? (p ++ [i])).isSome ∧ id + e.rank (p ++ [i]) = j := by
  rw [(h.perm_held hp).mem_iff, List.mem_map]
  refine exists_congr fun i => and_congr_left fun _ => ?_
  rw [List.mem_range, Element.isSome_at?_append hp]

theorem Stands.within_iff (h : l.Stands s e id) (j : Nat) :
    s.Within id j ↔ ∃ p, (e.at? p).isSome ∧ id + e.rank p = j := by
  constructor
  · intro hj
    induction hj with
    | refl => exact ⟨[], by simp, by simp⟩
    | @tail j k _ hk ih =>
      obtain ⟨p, hp, rfl⟩ := ih
      obtain ⟨d, hd⟩ := Option.isSome_iff_exists.mp hp
      obtain ⟨i, hi⟩ := (h.mem_held_iff hd k).mp hk
      exact ⟨p ++ [i], hi⟩
  · rintro ⟨p, hp, rfl⟩
    induction p using List.reverseRecOn with
    | nil => exact .refl
    | append_singleton p i ih =>
      obtain ⟨c, hc⟩ := Option.isSome_iff_exists.mp hp
      obtain ⟨d, hd, -⟩ := exists_child_of_at? hc
      exact (ih (Option.isSome_iff_exists.mpr ⟨d, hd⟩)).tail
        ((h.mem_held_iff hd _).mpr ⟨i, hp, rfl⟩)

theorem Stands.exists_made (h : l.Stands s e id) {n : Node} (hp : e.at? p = some d)
    (hn : s[id + e.rank p]? = some n) (hc : d.elements[i]? = some c) :
    l.MadeFor s (id + e.rank p) n.blueprint c.tag (id + e.rank (p ++ [i])) := by
  obtain ⟨n', hmirrors⟩ := h p d hp
  obtain rfl := Option.some.inj (hmirrors.node.symm.trans hn)
  have hmade := hmirrors.made i c hc
  rwa [show id + e.rank p + 1 + totalSize (d.elements.take i) = id + e.rank (p ++ [i]) by
    rw [Element.rank_append hp, Element.rank_cons hc, Element.rank_nil]
    omega] at hmade

theorem Stands.corresponds (h : l.Stands s e id) (hroot : s.parentOf id = none) :
    l.Corresponds s id e fun p => id + e.rank p := by
  have hinjective (p q : List Nat) (hp : (e.at? p).isSome) (hq : (e.at? q).isSome)
      (heq : id + e.rank p = id + e.rank q) : p = q := by
    obtain ⟨d, hd⟩ := Option.isSome_iff_exists.mp hp
    obtain ⟨c, hc⟩ := Option.isSome_iff_exists.mp hq
    exact Element.rank_injective hd hc (Nat.add_left_cancel heq)
  refine ⟨by simp, hroot, hinjective, h.within_iff, fun p i hp => ?_, fun p q i hq hp => ?_,
    fun p d n hd hn slot hslot => ?_, fun p d n hd hn i c hc => ?_⟩
  · obtain ⟨c, hc⟩ := Option.isSome_iff_exists.mp hp
    obtain ⟨d, hd, hc⟩ := exists_child_of_at? hc
    obtain ⟨n, hn⟩ := h p d hd
    obtain ⟨k, hk, hparent, -⟩ := h.exists_made hd hn.node hc
    simp [Store.parentOf, hk, hparent]
  · obtain ⟨d, hd⟩ := Option.isSome_iff_exists.mp hq
    have hnodup : (s.held (id + e.rank q)).Nodup := by
      refine (h.perm_held hd).nodup_iff.mpr (List.Nodup.map_on (fun i hi j hj heq => ?_)
        List.nodup_range)
      have hsome {i : Nat} (hi : i ∈ List.range d.elements.length) : (e.at? (q ++ [i])).isSome :=
        (Element.isSome_at?_append hd).mpr (List.mem_range.mp hi)
      simpa using hinjective _ _ (hsome hi) (hsome hj) heq
    have hmem : id + e.rank (p ++ [i]) ∈ s.held (id + e.rank q) ↔ q = p := by
      rw [h.mem_held_iff hd]
      constructor
      · rintro ⟨j, hj, heq⟩
        exact (List.append_inj' (hinjective _ _ hj hp heq) rfl).1
      · rintro rfl
        exact ⟨i, hp, rfl⟩
    rw [hnodup.count]
    exact if_congr hmem rfl rfl
  · obtain ⟨n', hmirrors⟩ := h p d hd
    obtain rfl := Option.some.inj (hmirrors.node.symm.trans hn)
    have hsub := hmirrors.slots slot hslot
    rw [siblingNumbers_elements] at hsub
    simp only [Element.rank_append hd]
    simpa only [Nat.add_assoc] using hsub
  · obtain ⟨k, hk, -, hmade⟩ := h.exists_made hd hn hc
    exact ⟨k, hk, hmade n rfl⟩

end Loader

/-- A document that is loaded corresponds to the tree that comes of it, which has no elements
besides; elements from before stay as they are. -/
theorem exists_corresponds_of_load {l : Loader} (hl : l.MakesEmpty) {text : String} {s s' : Store}
    {root : Nat} (h : l.load text s = .ok (s', root)) :
    ∃ e, readDocument l.allowDoctype text = .ok e ∧
      (∃ n, s'[root]? = some n ∧ ∀ s₀, l.create e.tag s₀ = .ok (s₀.create n.blueprint)) ∧
      l.Corresponds s' root e (fun p => root + e.rank p) ∧
      s'.length = s.length + e.size ∧ ∀ j < s.length, s'[j]? = s[j]? := by
  obtain ⟨e, hread⟩ := exists_readDocument_of_load h
  rw [load_of_readDocument hread] at h
  cases hcreate : l.create e.tag s with
  | error err => simp [hcreate, Except.bind] at h
  | ok r =>
    obtain ⟨q, hq, rfl⟩ := exists_create_of_create hcreate
    have hfill : (l.fill s.length e (s.create q.2).1).map (·, s.length) = .ok (s', root) := by
      rwa [hcreate] at h
    cases hs₂ : l.fill s.length e (s.create q.2).1 with
    | error err => simp [hs₂, Except.map] at hfill
    | ok s₂ =>
      rw [hs₂] at hfill
      obtain ⟨rfl, rfl⟩ := Prod.mk.inj (Except.ok.inj hfill)
      have hnew : (s.create q.2).1[s.length]? = some q.2.node := by simp [Store.create]
      obtain ⟨n, hchanges, hb, hparent, hlength, hstands⟩ :=
        Loader.stands_of_fill hl e hnew (by simp [Store.create]) (hl q hq) hs₂
      refine ⟨e, hread, ⟨n, hchanges.node, fun s₀ => ?_⟩, hstands.corresponds ?_, hlength,
        fun j hj => ?_⟩
      · rw [hb]
        exact create_of_ok hcreate s₀
      · simp [Store.parentOf, hchanges.node, hparent, Blueprint.node]
      · have hold : (s.create q.2).1[j]? = some s[j] :=
          (List.getElem?_append_left hj).trans (List.getElem?_eq_getElem hj)
        rw [hchanges.others j _ (by omega) hold, List.getElem?_eq_getElem hj]

/-- Nests are declared by nests, and eggs are left to the registry, which knows birds' eggs. -/
def nestLoader : Loader where
  blueprints :=
    [(⟨"nests", "Nest"⟩,
      { typeName := "nests.Nest"
        elementName := "nest"
        uri := none
        collection := some ⟨.sequence, 1, some 1,
          [.slot ⟨some "nest", none, []⟩, .slot ⟨some "bird-egg", none, []⟩]⟩
        creatable := some [("nest", ⟨"nests", "Nest"⟩)]
        attributes := .typed [] }),
      (⟨"birds", "Egg"⟩,
        { typeName := "birds.Egg"
          elementName := "bird-egg"
          uri := none
          collection := none
          creatable := none
          attributes := .typed [] })]
  registries := [[⟨"nest", "Nest", ⟨"nests", "Nest"⟩⟩, ⟨"bird-egg", "Egg", ⟨"birds", "Egg"⟩⟩]]

theorem makesEmpty_nestLoader : nestLoader.MakesEmpty := by
  intro q hq
  simp only [nestLoader, List.mem_cons, List.not_mem_nil, or_false] at hq
  rcases hq with rfl | rfl <;> rfl

/-- The slots put the eggs last, under another name than that of their tags. -/
theorem exists_corresponds_of_nests :
    ∃ s' root e, nestLoader.load "<nest><egg/><nest><egg/></nest></nest>" [] = .ok (s', root) ∧
      nestLoader.Corresponds s' root e (fun p => root + e.rank p) := by
  have hok : (nestLoader.load "<nest><egg/><nest><egg/></nest></nest>" []).isOk = true := by
    decide +kernel
  cases h : nestLoader.load "<nest><egg/><nest><egg/></nest></nest>" [] with
  | error err =>
    rw [h] at hok
    cases hok
  | ok r =>
    obtain ⟨e, -, -, hcorresponds, -⟩ := exists_corresponds_of_load makesEmpty_nestLoader h
    exact ⟨r.1, r.2, e, rfl, hcorresponds⟩

end XmlBinding.Tree
