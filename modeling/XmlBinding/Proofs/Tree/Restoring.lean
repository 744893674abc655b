import XmlBinding.Proofs.Tree.Building
import XmlBinding.Proofs.Tree.Writing

/-! # Values that are written are set again

A name leads to the rule whose value was written under it, and the text is read as that value. While
an element is filled, its values are right but for those whose names are still awaited.
-/
namespace XmlBinding.Tree
open Schema Binding Xml

/-- The values are those of the rules. -/
structure ElementTree.Typed (t : ElementTree) : Prop where
  length : t.values.length = t.blueprint.rules.length
  takes : ∀ p ∈ t.held, ∀ v ∈ p.2, p.1.kind.Takes v

/-- What a document can say: text is not empty, and beside children not blank either. -/
structure ElementTree.Sayable (t : ElementTree) : Prop where
  values : ∀ p ∈ t.held, ∀ v ∈ p.2, p.1.kind.Sayable v
  text : ∀ text ∈ t.text, text ≠ "" ∧ (t.children ≠ [] → Text.allBlank text = false)

/-- No name goes to two branches of a choice among the children of such an element. -/
def Blueprint.Separate (b : Blueprint) : Prop :=
  ∀ c ∈ b.collection, ∀ d ∈ c.collections, d.BranchesDisjoint

structure ElementTree.Restorable (t : ElementTree) : Prop where
  proper : t.blueprint.Proper
  separate : t.blueprint.Separate
  typed : t.Typed
  sayable : t.Sayable

/-- All values have texts that they are read from, whatever a document makes of the texts. -/
structure ElementTree.Settable (t : ElementTree) : Prop where
  proper : t.blueprint.Proper
  typed : t.Typed
  reads : ∀ r v, (r, some v) ∈ t.held →
    ∃ text, r.kind.text? v = some text ∧ r.kind.read text = .ok v
  text : ∀ text ∈ t.text, text ≠ "" ∧ (t.children ≠ [] → Text.allBlank text = false)

theorem ElementTree.text_eq_none {t : ElementTree} :
    t.text = none ↔ saidValues true t.held = [] := by
  simp [ElementTree.text]

theorem ElementTree.text_eq_some {t : ElementTree} (h : ProperRules t.blueprint.rules)
    {text : String} : t.text = some text ↔ saidValues true t.held = [(contentName, text)] := by
  rw [ElementTree.text]
  rcases saidValues_text h t.values with hnil | ⟨text', htext⟩
  · have hnil : saidValues true t.held = [] := hnil
    simp [hnil]
  · have htext : saidValues true t.held = [(contentName, text')] := htext
    simp [htext]

/-- What is said is read as the value it was said for. -/
theorem ElementTree.Settable.of_mem_saidValues {t : ElementTree} (h : t.Settable) {isText : Bool}
    {a : String × String} (ha : a ∈ saidValues isText t.held) :
    ∃ r v, (r, some v) ∈ t.held ∧ r.name = a.1 ∧ r.kind.read a.2 = .ok v := by
  obtain ⟨⟨r, held⟩, hp, hsaid⟩ := mem_saidValues.mp ha
  obtain ⟨-, v, rfl, hv, hname⟩ := said_eq_some.mp hsaid
  obtain ⟨text, hv', hread⟩ := h.reads r v hp
  obtain rfl := Option.some.inj (hv.symm.trans hv')
  exact ⟨r, v, hp, hname, hread⟩

namespace ElementTree.Restorable

variable {t : ElementTree} (h : t.Restorable)
include h

theorem exists_text {r : ValueRule} {v : Held} (hp : (r, some v) ∈ t.held) :
    ∃ text, r.kind.text? v = some text ∧ isPlainText text = true ∧ r.kind.read text = .ok v :=
  ValueKind.exists_text (h.typed.takes _ hp v rfl) (h.sayable.values _ hp v rfl)
    (h.proper.rules.distinct r (List.of_mem_zip hp).1)

/-- What is said is plain, and is read as the value it was said for. -/
theorem of_mem_saidValues {isText : Bool} {a : String × String}
    (ha : a ∈ saidValues isText t.held) :
    isPlainText a.2 = true ∧ ∃ r v, (r, some v) ∈ t.held ∧ r.isText = isText ∧ r.name = a.1 ∧
      r.kind.read a.2 = .ok v := by
  obtain ⟨⟨r, held⟩, hp, hsaid⟩ := mem_saidValues.mp ha
  obtain ⟨htext, v, rfl, hv, hname⟩ := said_eq_some.mp hsaid
  obtain ⟨text, hv', hplain, hread⟩ := h.exists_text hp
  obtain rfl := Option.some.inj (hv.symm.trans hv')
  exact ⟨hplain, r, v, hp, htext, hname, hread⟩

theorem settable : t.Settable where
  proper := h.proper
  typed := h.typed
  reads r v hp := by
    obtain ⟨text, htext, -, hread⟩ := h.exists_text hp
    exact ⟨text, htext, hread⟩
  text := h.sayable.text

/-- An outline says nothing that a reader could take for something else. -/
theorem faithful : t.outline.Faithful := by
  have hattribute {a : String × String} (ha : a ∈ t.attributes) :
      isPlainText a.2 = true ∧ IsAttributeName a.1 := by
    obtain ⟨hplain, r, v, hp, htext, hname, -⟩ := h.of_mem_saidValues ha
    exact ⟨hplain, hname ▸ h.proper.rules.attributeName r (List.of_mem_zip hp).1 htext⟩
  have htext {text : String} (ht : text ∈ t.text) : isPlainText text = true := by
    have hsaid : (contentName, text) ∈ saidValues true t.held := by
      rw [(ElementTree.text_eq_some h.proper.rules).mp ht]
      exact List.mem_cons_self
    exact (h.of_mem_saidValues hsaid).1
  have hparts {s : String} (hs : isPlainText s = true) :
      isXmlText s = true ∧ s.toList.all isKept = true := by
    simpa [isPlainText] using hs
  rw [t.outline_eq]
  refine { name := h.proper.name, uri := fun u hu => (hparts (h.proper.uri u hu).1).1,
           attributes := fun a ha => ⟨(hattribute ha).2.1, (hparts (hattribute ha).1).1⟩,
           text := fun s hs => (hparts (htext hs)).1,
           nodup := (sublist_saidValues false _ _).nodup h.proper.rules.nodup,
           undeclared := fun a ha => (hattribute ha).2.2.2,
           kept := fun a ha => (hparts (hattribute ha).1).2,
           uriKept := fun u hu => ⟨(hparts (h.proper.uri u hu).1).2, (h.proper.uri u hu).2⟩,
           textKept := fun s hs hmem => ?_ }
  have hkept := List.all_eq_true.mp (hparts (htext hs)).2 _ hmem
  exact absurd hkept (by decide)

end ElementTree.Restorable

mutual

theorem ElementTree.exists_of_mem_outlines : ∀ {t : ElementTree} {o : Outline},
    o ∈ t.outline.outlines → ∃ u ∈ t.subtrees, o = u.outline
  | ⟨blueprint, values, counts, children⟩, o, ho => by
    rw [Outline.outlines_eq] at ho
    rcases List.mem_cons.mp ho with rfl | ho
    · exact ⟨_, List.mem_cons_self, rfl⟩
    · obtain ⟨u, hu, heq⟩ := exists_of_mem_outlinesFor ho
      exact ⟨u, List.mem_cons_of_mem _ hu, heq⟩

theorem exists_of_mem_outlinesFor : ∀ {ts : List ElementTree} {o : Outline},
    o ∈ outlinesIn (outlinesFor ts) → ∃ u ∈ subtreesIn ts, o = u.outline
  | t :: ts, o, ho => by
    rcases List.mem_append.mp ho with ho | ho
    · obtain ⟨u, hu, heq⟩ := ElementTree.exists_of_mem_outlines ho
      exact ⟨u, List.mem_append_left _ hu, heq⟩
    · obtain ⟨u, hu, heq⟩ := exists_of_mem_outlinesFor ho
      exact ⟨u, List.mem_append_right _ hu, heq⟩

end

/-- The values of an element are those of the tree, save for the names still awaited. -/
structure Node.Awaits (n : Node) (t : ElementTree) (names : List String) : Prop where
  length : n.values.length = t.values.length
  settled : ∀ (i : Nat) (r : ValueRule), t.blueprint.rules[i]? = some r → r.name ∉ names →
    n.values[i]? = t.values[i]?

/-- Once nothing is awaited the values are those of the tree. -/
theorem Node.Awaits.values_eq {n : Node} {t : ElementTree} (h : n.Awaits t []) (ht : t.Typed) :
    n.values = t.values := by
  refine List.ext_getElem? fun i => ?_
  by_cases hi : i < t.blueprint.rules.length
  · exact h.settled i _ (List.getElem?_eq_getElem hi) (by simp)
  · rw [List.getElem?_eq_none (by rw [h.length, ht.length]; omega),
      List.getElem?_eq_none (by rw [ht.length]; omega)]

/-- A new element awaits all values that are said. -/
theorem ElementTree.Settable.awaits_node {t : ElementTree} (h : t.Settable) {n : Node}
    (hn : n.values = t.blueprint.node.values) :
    n.Awaits t (t.attributes.map (·.1) ++ (saidValues true t.held).map (·.1)) := by
  have hlength : n.values.length = t.blueprint.rules.length := hn ▸ t.blueprint.length_values_node
  refine ⟨hlength.trans h.typed.length.symm, fun i r hr hnot => ?_⟩
  have hi : i < t.blueprint.rules.length := (List.getElem?_eq_some_iff.mp hr).1
  have hnew : n.values[i]? = some none := by
    obtain ⟨held, hheld⟩ : ∃ held, n.values[i]? = some held :=
      ⟨_, List.getElem?_eq_getElem (hlength.symm ▸ hi)⟩
    obtain rfl := Blueprint.mem_values_node (hn ▸ List.mem_of_getElem? hheld)
    exact hheld
  obtain ⟨held, hheld⟩ : ∃ held, t.values[i]? = some held :=
    ⟨_, List.getElem?_eq_getElem (h.typed.length.symm ▸ hi)⟩
  cases held with
  | none => rw [hnew, hheld]
  | some v =>
    -- what is set would be said
    have hp : (r, some v) ∈ t.held :=
      List.mem_of_getElem? (List.getElem?_zip_eq_some.mpr ⟨hr, hheld⟩)
    obtain ⟨text, htext, -⟩ := h.reads r v hp
    have hsaid : (r.name, text) ∈ saidValues r.isText t.held :=
      mem_saidValues.mpr ⟨_, hp, said_eq_some.mpr ⟨rfl, v, rfl, htext, rfl⟩⟩
    have hname := List.mem_map_of_mem (f := Prod.fst) hsaid
    refine absurd (List.mem_append.mpr ?_) hnot
    cases htext : r.isText with
    | true => exact .inr (by rwa [htext] at hname)
    | false => exact .inl (by rwa [htext] at hname)

theorem findIdx?_name {rules : List ValueRule} (h : (rules.map (·.name)).Nodup) {i : Nat}
    {r : ValueRule} (hr : rules[i]? = some r) : rules.findIdx? (·.name = r.name) = some i := by
  obtain ⟨hi, rfl⟩ := List.getElem?_eq_some_iff.mp hr
  refine List.findIdx?_eq_some_iff_getElem.mpr ⟨hi, by simp, fun j hj => ?_⟩
  rw [List.Nodup, List.pairwise_map] at h
  have hne := List.pairwise_iff_getElem.mp h j i (by omega) hi hj
  simpa using hne

/-- A value that is set under its name is awaited no longer. -/
theorem ElementTree.Settable.setValue_eq {t : ElementTree} (h : t.Settable) {n : Node}
    (hb : n.blueprint = t.blueprint) {isText : Bool} {a : String × String}
    (ha : a ∈ saidValues isText t.held) {names : List String} (hn : n.Awaits t (a.1 :: names)) :
    ∃ values, n.setValue a.1 a.2 = .ok { n with values } ∧
      ({ n with values } : Node).Awaits t names := by
  obtain ⟨r, v, hp, hname, hread⟩ := h.of_mem_saidValues ha
  obtain ⟨i, hi⟩ := List.mem_iff_getElem?.mp hp
  obtain ⟨hr, hv⟩ := List.getElem?_zip_eq_some.mp hi
  have hfind := findIdx?_name h.proper.rules.nodup hr
  rw [hname] at hfind
  refine ⟨n.values.set i (some v), ?_, ?_, fun j q hq hnot => ?_⟩
  · rw [Node.setValue, hb, h.proper.attributes]
    simp only [hfind, hr, hread]
  · exact (List.length_set ..).trans hn.length
  · change (n.values.set i (some v))[j]? = t.values[j]?
    rw [List.getElem?_set]
    split
    · next hij =>
      subst hij
      rw [if_pos (by rw [hn.length]; exact (List.getElem?_eq_some_iff.mp hv).1), hv]
    · next hij =>
      refine hn.settled j q hq fun hmem => ?_
      rcases List.mem_cons.mp hmem with heq | hmem
      · -- another rule has another name
        have hj := findIdx?_name h.proper.rules.nodup hq
        rw [heq, hfind] at hj
        exact hij (Option.some.inj hj)
      · exact hnot hmem

/-- The store in which an element has changed and all others, but for new ones, are as before. -/
structure Store.Changes (s : Store) (id : Nat) (n : Node) (s' : Store) : Prop where
  length : s.length ≤ s'.length
  node : s'[id]? = some n
  others : ∀ (j : Nat) (k : Node), j ≠ id → s[j]? = some k → s'[j]? = some k

theorem Store.Changes.trans {s s' s'' : Store} {id : Nat} {n n' : Node} (h : s.Changes id n s')
    (h' : s'.Changes id n' s'') : s.Changes id n' s'' :=
  ⟨Nat.le_trans h.length h'.length, h'.node, fun j k hj hk => h'.others j k hj (h.others j k hj hk)⟩

theorem Store.changes_update {s : Store} {id : Nat} {n : Node} (hn : s[id]? = some n) (n' : Node) :
    s.Changes id n' (s.update id fun _ => n') := by
  refine ⟨by simp [update], by simp [getElem?_update, hn], fun j k hj hk => ?_⟩
  rw [getElem?_update, hk, Option.map_some, if_neg (Ne.symm hj)]

section
variable {t : ElementTree} {s : Store} {id : Nat} {n : Node} {names : List String}

/-- What is said can be set again. -/
theorem ElementTree.Settable.store_setValue_eq (h : t.Settable) (hn : s[id]? = some n)
    (hb : n.blueprint = t.blueprint) {isText : Bool} {a : String × String}
    (ha : a ∈ saidValues isText t.held) (hawaits : n.Awaits t (a.1 :: names)) :
    ∃ s' values, s.setValue id a.1 a.2 = .ok s' ∧ s.Changes id { n with values } s' ∧
      ({ n with values } : Node).Awaits t names := by
  obtain ⟨values, hset, hawaits'⟩ := h.setValue_eq hb ha hawaits
  refine ⟨_, values, ?_, Store.changes_update hn _, hawaits'⟩
  rw [Store.setValue, hn]
  simp only [hset]
  rfl

theorem ElementTree.Settable.setAttributes_eq (h : t.Settable) {as : List (String × String)}
    (has : ∀ a ∈ as, a ∈ t.attributes) (hn : s[id]? = some n) (hb : n.blueprint = t.blueprint)
    (hawaits : n.Awaits t (as.map (·.1) ++ names)) :
    ∃ s' values, Loader.setAttributes id (as.map fun a => ⟨⟨none, a.1⟩, a.2⟩) s = .ok s' ∧
      s.Changes id { n with values } s' ∧ ({ n with values } : Node).Awaits t names := by
  induction as generalizing s n with
  | nil => exact ⟨s, n.values, rfl, ⟨Nat.le_refl _, hn, fun _ _ _ hk => hk⟩, hawaits⟩
  | cons a as ih =>
    obtain ⟨ha, has⟩ := List.forall_mem_cons.mp has
    obtain ⟨s', values, hset, hchanges, hawaits'⟩ := h.store_setValue_eq hn hb ha hawaits
    obtain ⟨s'', values', hrest, hchanges', hawaits''⟩ := ih has hchanges.node hb hawaits'
    refine ⟨s'', values', ?_, hchanges.trans hchanges', hawaits''⟩
    rw [List.map_cons, Loader.setAttributes]
    simp only [reduceCtorEq, if_false, hset]
    exact hrest

/-- The text comes last. -/
theorem ElementTree.Settable.setText_eq (h : t.Settable) (hn : s[id]? = some n)
    (hb : n.blueprint = t.blueprint)
    (hawaits : n.Awaits t ((saidValues true t.held).map (·.1))) :
    ∃ s' values, t.text.elim (.ok s) (s.setValue id contentName) = .ok s' ∧
      s.Changes id { n with values } s' ∧ ({ n with values } : Node).Awaits t [] := by
  cases ht : t.text with
  | none =>
    rw [ElementTree.text_eq_none.mp ht] at hawaits
    exact ⟨s, n.values, rfl, ⟨Nat.le_refl _, hn, fun _ _ _ hk => hk⟩, hawaits⟩
  | some text =>
    rw [(ElementTree.text_eq_some h.proper.rules).mp ht] at hawaits
    have ha : (contentName, text) ∈ saidValues true t.held := by
      rw [(ElementTree.text_eq_some h.proper.rules).mp ht]
      exact List.mem_cons_self
    exact h.store_setValue_eq hn hb ha hawaits

end

end XmlBinding.Tree
