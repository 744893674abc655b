import XmlBinding.Proofs.Content.Loading
import XmlBinding.Proofs.Tree.Indentation
import XmlBinding.Proofs.Xml.Paths
import XmlBinding.Proofs.Xml.Reordering

/-! # Loading attributes in another order

Attributes are set by local name, whatever namespace they belong to, and the last one of a name
stays. So documents that differ only in the order of attributes are loaded as trees that differ at
most in values, or neither is loaded. The trees are equal if in all start tags the same attribute of
each local name comes last.
-/
namespace XmlBinding.Tree
open Binding Value Xml

/-- The value that an attribute sets under a name. Attributes for the reader of a document set
none. -/
def valueNamed (name : String) (a : Attribute) : Option String :=
  if a.name.uri ≠ some instanceUri ∧ a.name.localName = name then some a.value else none

/-- The value that is set last under a name. -/
def lastNamed (name : String) (as : List Attribute) : Option String :=
  (as.filterMap (valueNamed name)).getLast?

/-- Whether an attribute can be set: where there is a rule for it the value can be read. -/
def Acceptable (rules : List ValueRule) (a : Attribute) : Prop :=
  ∀ name value, valueNamed name a = some value → ∀ i r, rules.findIdx? (·.name = name) = some i →
    rules[i]? = some r → ∃ held, r.kind.read value = .ok held

/-- What attributes give the value of a rule, if they do. -/
def newValue (rules : List ValueRule) (as : List Attribute) (i : Nat) : Option Held :=
  (rules[i]?).bind fun r => if rules.findIdx? (·.name = r.name) = some i then
    (lastNamed r.name as).bind fun value => (r.kind.read value).toOption else none

/-- The values after attributes have been set. -/
def settled (rules : List ValueRule) (as : List Attribute) (values : List (Option Held)) :
    List (Option Held) :=
  values.mapIdx fun i v => (newValue rules as i).or v

section
variable {rules : List ValueRule} {a : Attribute} {as as' : List Attribute} {name value : String}

theorem lastNamed_cons (name : String) (a : Attribute) (as : List Attribute) :
    lastNamed name (a :: as) = (lastNamed name as).or (valueNamed name a) := by
  rw [lastNamed, lastNamed]
  cases h : valueNamed name a with
  | none => rw [List.filterMap_cons_none h, Option.or_none]
  | some value =>
    rw [List.filterMap_cons_some h, List.getLast?_cons]
    cases List.getLast? (as.filterMap _) <;> rfl

theorem name_of_valueNamed (h : valueNamed name a = some value) :
    a.name.uri ≠ some instanceUri ∧ a.name.localName = name ∧ a.value = value := by
  rw [valueNamed, Option.ite_none_right_eq_some, Option.some.injEq] at h
  exact ⟨h.1.1, h.1.2, h.2⟩

theorem exists_lastNamed_eq (h : lastNamed name as = some value) :
    ∃ a ∈ as, valueNamed name a = some value :=
  List.mem_filterMap.mp (List.mem_of_getLast? h)

theorem name_of_findIdx? {i : Nat} {r : ValueRule}
    (hfirst : rules.findIdx? (·.name = name) = some i) (hr : rules[i]? = some r) :
    r.name = name := by
  obtain ⟨hi, hname, -⟩ := List.findIdx?_eq_some_iff_getElem.mp hfirst
  rw [List.getElem?_eq_getElem hi, Option.some.injEq] at hr
  exact hr ▸ of_decide_eq_true hname

/-- An attribute names a rule, the first one of that name, or it does not matter. -/
theorem exists_rule_of_ne_none (h : ¬ ∀ r ∈ rules, valueNamed r.name a = none) :
    ∃ i r, valueNamed a.name.localName a = some a.value ∧
      rules.findIdx? (·.name = a.name.localName) = some i ∧ rules[i]? = some r := by
  obtain ⟨r, hr, hvalue⟩ : ∃ r ∈ rules, valueNamed r.name a ≠ none := by simpa using h
  obtain ⟨value, hvalue⟩ := Option.ne_none_iff_exists'.mp hvalue
  obtain ⟨huri, hname, -⟩ := name_of_valueNamed hvalue
  have hfound : (rules.findIdx? (·.name = a.name.localName)).isSome := by
    rw [List.findIdx?_isSome]
    exact List.any_eq_true.mpr ⟨r, hr, decide_eq_true hname.symm⟩
  obtain ⟨i, hfirst⟩ := Option.isSome_iff_exists.mp hfound
  have hi := (List.findIdx?_eq_some_iff_getElem.mp hfirst).1
  exact ⟨i, rules[i], if_pos ⟨huri, rfl⟩, hfirst, List.getElem?_eq_getElem hi⟩

theorem acceptable_of_none (h : ∀ r ∈ rules, valueNamed r.name a = none) : Acceptable rules a := by
  intro name value ha i r hfirst hr
  obtain rfl := name_of_findIdx? hfirst hr
  rw [h r (List.mem_of_getElem? hr)] at ha
  cases ha

theorem acceptable_iff {i : Nat} {r : ValueRule} (ha : valueNamed name a = some value)
    (hfirst : rules.findIdx? (·.name = name) = some i) (hr : rules[i]? = some r) :
    Acceptable rules a ↔ ∃ held, r.kind.read value = .ok held := by
  refine ⟨fun h => h name value ha i r hfirst hr, fun hread => ?_⟩
  intro name' value' ha' j q hj hq
  obtain ⟨-, rfl, rfl⟩ := name_of_valueNamed ha
  obtain ⟨-, rfl, rfl⟩ := name_of_valueNamed ha'
  obtain rfl : i = j := Option.some.inj (hfirst.symm.trans hj)
  obtain rfl := Option.some.inj (hr.symm.trans hq)
  exact hread

theorem newValue_cons_of_none {i : Nat} (h : ∀ r, rules.findIdx? (·.name = r.name) = some i →
    rules[i]? = some r → valueNamed r.name a = none) :
    newValue rules (a :: as) i = newValue rules as i := by
  rw [newValue, newValue]
  cases hr : rules[i]? with
  | none => rfl
  | some r =>
    simp only [Option.bind_some]
    split
    · next hfirst => rw [lastNamed_cons, h r hfirst hr, Option.or_none]
    · rfl

/-- An attribute that is read gives a value unless a later one does. -/
theorem newValue_cons {i : Nat} {r : ValueRule} {held : Held} (ha : valueNamed name a = some value)
    (hfirst : rules.findIdx? (·.name = name) = some i) (hr : rules[i]? = some r)
    (hread : r.kind.read value = .ok held) (has : ∀ b ∈ as, Acceptable rules b) (j : Nat) :
    newValue rules (a :: as) j = (newValue rules as j).or (if i = j then some held else none) := by
  obtain ⟨-, rfl, -⟩ := name_of_valueNamed ha
  by_cases hij : i = j
  · subst hij
    have hname := name_of_findIdx? hfirst hr
    simp only [newValue, hr, Option.bind_some, hname, hfirst, if_true, lastNamed_cons, ha]
    cases hlast : lastNamed a.name.localName as with
    | none => simp [hread, Except.toOption]
    | some last =>
      obtain ⟨b, hb, hvalue⟩ := exists_lastNamed_eq hlast
      obtain ⟨held', hheld⟩ := has b hb _ _ hvalue i r hfirst hr
      simp [hheld, Except.toOption]
  · rw [if_neg hij, Option.or_none]
    refine newValue_cons_of_none fun q hq _ => ?_
    cases hvalue : valueNamed q.name a with
    | none => rfl
    | some =>
      obtain ⟨-, hname, -⟩ := name_of_valueNamed hvalue
      rw [← hname, hfirst] at hq
      exact absurd (Option.some.inj hq) hij

theorem settled_cons_of_none (h : ∀ r ∈ rules, valueNamed r.name a = none)
    (values : List (Option Held)) : settled rules (a :: as) values = settled rules as values := by
  refine List.ext_getElem? fun i => ?_
  rw [settled, settled, List.getElem?_mapIdx, List.getElem?_mapIdx,
    newValue_cons_of_none fun r _ hr => h r (List.mem_of_getElem? hr)]

theorem settled_cons {i : Nat} {r : ValueRule} {held : Held} (ha : valueNamed name a = some value)
    (hfirst : rules.findIdx? (·.name = name) = some i) (hr : rules[i]? = some r)
    (hread : r.kind.read value = .ok held) (has : ∀ b ∈ as, Acceptable rules b)
    (values : List (Option Held)) :
    settled rules (a :: as) values = settled rules as (values.set i (some held)) := by
  refine List.ext_getElem? fun j => ?_
  rw [settled, settled, List.getElem?_mapIdx, List.getElem?_mapIdx, List.getElem?_set,
    newValue_cons ha hfirst hr hread has]
  by_cases hij : i = j
  · subst hij
    cases hv : values[i]? with
    | none => simp [List.getElem?_eq_none_iff.mp hv]
    | some v =>
      have hlt : i < values.length := (List.getElem?_eq_some_iff.mp hv).1
      simp [hlt]
  · simp [hij]

@[simp] theorem settled_nil (values : List (Option Held)) : settled rules [] values = values := by
  refine List.ext_getElem? fun i => ?_
  have hnone : newValue rules [] i = none := by simp [newValue, lastNamed]
  simp [settled, hnone]

theorem settled_congr (h : ∀ name, lastNamed name as = lastNamed name as') :
    settled rules as = settled rules as' := by
  funext values
  have hnew : newValue rules as = newValue rules as' := by
    funext i
    simp only [newValue, h]
  rw [settled, settled, hnew]

/-- Sets one attribute. -/
def setAttribute (id : Nat) (a : Attribute) (s : Store) : Except TreeError Store :=
  if a.name.uri = some instanceUri then .ok s else s.setValue id a.name.localName a.value

theorem setAttributes_cons (id : Nat) (a : Attribute) (as : List Attribute) (s : Store) :
    Loader.setAttributes id (a :: as) s =
      (setAttribute id a s).bind (Loader.setAttributes id as) := by
  rw [Loader.setAttributes, setAttribute]
  split <;> rfl

theorem setAttributes_of_none {s : Store} {id : Nat} (hn : s[id]? = none) :
    Loader.setAttributes id as s = .ok s := by
  induction as with
  | nil => rfl
  | cons a as ih =>
    have hset : s.setValue id a.name.localName a.value = .ok s := by rw [Store.setValue, hn]
    rw [setAttributes_cons, setAttribute, hset, ite_self]
    exact ih

section
variable {s s' : Store} {id : Nat} {n : Node} (hn : s[id]? = some n)
include hn

theorem update_same : (s.update id fun _ => n) = s := by
  refine List.ext_getElem? fun j => ?_
  rw [Store.getElem?_update]
  by_cases hj : id = j
  · subst hj
    simp [hn]
  · simp [hj]

variable (hrules : n.blueprint.attributes = .typed rules)
include hrules

theorem setAttribute_of_none (h : ∀ r ∈ rules, valueNamed r.name a = none) :
    setAttribute id a s = .ok s := by
  unfold setAttribute
  by_cases huri : a.name.uri = some instanceUri
  · exact if_pos huri
  · have hnone : rules.findIdx? (·.name = a.name.localName) = none := by
      refine List.findIdx?_eq_none_iff.mpr fun r hr => decide_eq_false fun hname => ?_
      have hvalue : valueNamed r.name a = some a.value := if_pos ⟨huri, hname.symm⟩
      rw [h r hr] at hvalue
      cases hvalue
    rw [if_neg huri, Store.setValue, hn]
    simp only [Node.setValue, hrules, hnone, Except.map, update_same hn]

theorem setAttribute_of_some {i : Nat} {r : ValueRule} (ha : valueNamed name a = some value)
    (hfirst : rules.findIdx? (·.name = name) = some i) (hr : rules[i]? = some r) :
    setAttribute id a s = ((r.kind.read value).mapError (.invalidValue name value)).map fun held =>
      s.update id fun _ => { n with values := n.values.set i (some held) } := by
  obtain ⟨huri, rfl, rfl⟩ := name_of_valueNamed ha
  rw [setAttribute, if_neg huri, Store.setValue, hn]
  simp only [Node.setValue, hrules, hfirst, hr]
  cases r.kind.read a.value <;> rfl

/-- Attributes are set if each can be, and then the last of each name gives the value. -/
theorem setAttributes_eq_ok_iff : Loader.setAttributes id as s = .ok s' ↔
    (∀ a ∈ as, Acceptable rules a) ∧
      s' = s.update id fun _ => { n with values := settled rules as n.values } := by
  induction as generalizing s n with
  | nil =>
    rw [settled_nil, update_same hn, Loader.setAttributes, Except.ok.injEq, eq_comm]
    simp
  | cons a as ih =>
    rw [setAttributes_cons, List.forall_mem_cons]
    by_cases hnone : ∀ r ∈ rules, valueNamed r.name a = none
    · rw [setAttribute_of_none hn hrules hnone, settled_cons_of_none hnone,
        and_iff_right (acceptable_of_none hnone)]
      exact ih hn hrules
    · obtain ⟨i, r, ha, hfirst, hr⟩ := exists_rule_of_ne_none hnone
      rw [setAttribute_of_some hn hrules ha hfirst hr, acceptable_iff ha hfirst hr]
      cases hread : r.kind.read a.value with
      | error fault => simp [Except.mapError, Except.map, Except.bind]
      | ok held =>
        let m : Node := { n with values := n.values.set i (some held) }
        have hset : (s.update id fun _ => m)[id]? = some m := by
          rw [Store.getElem?_update, hn, Option.map_some, if_pos rfl]
        have htwice (f : Node) :
            Store.update (s.update id fun _ => m) id (fun _ => f) = s.update id fun _ => f :=
          List.modify_modify_eq ..
        have hread' : ∃ held', (.ok held : Except ValueFault Held) = .ok held' := ⟨held, rfl⟩
        rw [and_iff_right hread']
        refine (ih hset hrules).trans (and_congr_right fun has => ?_)
        rw [htwice, settled_cons ha hfirst hr hread has]

end

end

/-! ### Stores that differ in values -/

/-- Elements that differ at most in their values, and in nothing if values count. -/
structure NodeAlike (valued : Prop) (n n' : Node) : Prop where
  rest : n' = { n with values := n'.values }
  values : valued → n'.values = n.values

/-- Stores that differ at most in values. From a number on, elements have typed values. -/
structure StoreAlike (valued : Prop) (base : Nat) (s s' : Store) : Prop where
  nodes : ∀ i : Nat, Option.Rel (NodeAlike valued) s[i]? s'[i]?
  length : s'.length = s.length
  old : base ≤ s.length
  typed : ∀ (i : Nat) (n : Node), base ≤ i → s[i]? = some n →
    n.blueprint.attributes = .typed n.blueprint.rules

section
variable {valued : Prop} {base : Nat} {s s' : Store} {n n' : Node}

theorem NodeAlike.refl (valued : Prop) (n : Node) : NodeAlike valued n n := ⟨rfl, fun _ => rfl⟩

theorem NodeAlike.eq (h : NodeAlike valued n n') (hv : valued) : n = n' := by
  rw [h.rest, h.values hv]

theorem NodeAlike.blueprint (h : NodeAlike valued n n') : n'.blueprint = n.blueprint := by
  rw [h.rest]

theorem NodeAlike.collection (h : NodeAlike valued n n') : n'.collection = n.collection := by
  rw [h.rest]

namespace StoreAlike

theorem refl (valued : Prop) (s : Store) : StoreAlike valued s.length s s :=
  ⟨fun _ => optionRel_self _ fun n _ => .refl valued n, rfl, Nat.le_refl _, fun _ _ hi hn =>
    absurd (List.getElem?_eq_some_iff.mp hn).1 (Nat.not_lt_of_le hi)⟩

/-- An element is in both stores or in neither. -/
theorem none_or_some (h : StoreAlike valued base s s') (i : Nat) :
    (s[i]? = none ∧ s'[i]? = none) ∨
      ∃ n n', s[i]? = some n ∧ s'[i]? = some n' ∧ NodeAlike valued n n' := by
  have hnode := h.nodes i
  generalize s[i]? = o at hnode
  generalize s'[i]? = o' at hnode
  cases hnode with
  | none => exact .inl ⟨rfl, rfl⟩
  | some hn => exact .inr ⟨_, _, rfl, rfl, hn⟩

theorem eq (h : StoreAlike valued base s s') (hv : valued) : s = s' := by
  refine List.ext_getElem? fun i => ?_
  rcases h.none_or_some i with ⟨hn, hn'⟩ | ⟨n, n', hn, hn', halike⟩
  · rw [hn, hn']
  · rw [hn, hn', halike.eq hv]

/-- The same element is changed alike in both stores. -/
theorem update (h : StoreAlike valued base s s') {id : Nat} {f f' : Node → Node}
    (hf : ∀ n n', s[id]? = some n → NodeAlike valued n n' →
      NodeAlike valued (f n) (f' n') ∧ (f n).blueprint = n.blueprint) :
    StoreAlike valued base (s.update id f) (s'.update id f') := by
  refine ⟨fun i => ?_, by simpa [Store.update] using h.length, by simpa [Store.update] using h.old,
    fun i k hi hk => ?_⟩
  · rw [Store.getElem?_update, Store.getElem?_update]
    rcases h.none_or_some i with ⟨hn, hn'⟩ | ⟨n, n', hn, hn', halike⟩
    · rw [hn, hn']
      exact .none
    · rw [hn, hn', Option.map_some, Option.map_some]
      split
      · next heq => exact .some (hf n n' (heq ▸ hn) halike).1
      · exact .some halike
  · rw [Store.getElem?_update, Option.map_eq_some_iff] at hk
    obtain ⟨n, hn, rfl⟩ := hk
    split
    · next heq =>
      obtain ⟨-, hblueprint⟩ := hf n n (heq ▸ hn) (.refl valued n)
      rw [hblueprint]
      exact h.typed i n hi hn
    · exact h.typed i n hi hn

theorem create (h : StoreAlike valued base s s') {b : Blueprint}
    (hb : b.attributes = .typed b.rules) :
    StoreAlike valued base (s.create b).1 (s'.create b).1 := by
  refine ⟨fun i => ?_, ?_, ?_, fun i n hi hn => ?_⟩
  · simp only [Store.create, List.getElem?_append, h.length]
    split
    · exact h.nodes i
    · exact optionRel_self _ fun n _ => .refl _ n
  · simpa [Store.create] using h.length
  · exact h.old.trans (by simp [Store.create])
  · simp only [Store.create, List.getElem?_append] at hn
    split at hn
    · exact h.typed i n hi hn
    · obtain rfl : b.node = n := by
        have hmem := List.mem_of_getElem? hn
        exact (List.mem_singleton.mp hmem).symm
      exact hb

theorem childOf (h : StoreAlike valued base s s') (id : Nat) : s'.childOf id = s.childOf id := by
  rw [Store.childOf, Store.childOf]
  rcases h.none_or_some id with ⟨hn, hn'⟩ | ⟨n, n', hn, hn', halike⟩
  · rw [hn, hn']
  · rw [hn, hn', Option.elim_some, Option.elim_some, Node.name, Node.name, halike.blueprint]

/-- Children are added alike, or refused. -/
theorem addChild (h : StoreAlike valued base s s') (parent child : Nat) :
    Option.Rel (StoreAlike valued base) (s.addChild parent child).toOption
      (s'.addChild parent child).toOption := by
  rw [Store.addChild, Store.addChild, h.childOf]
  rcases h.none_or_some parent with ⟨hn, hn'⟩ | ⟨n, n', hn, hn', halike⟩
  · rw [hn, hn']
    exact .none
  · rw [hn, hn']
    simp only [halike.collection]
    cases n.collection with
    | none => exact .none
    | some c =>
      cases hadd : c.add (s.childOf child) with
      | error e =>
        simp only [hadd]
        exact .none
      | ok c' =>
        simp only [hadd]
        refine .some (StoreAlike.update (h.update ?_) ?_)
        · exact fun n n' _ hn => ⟨⟨by rw [hn.rest], hn.values⟩, rfl⟩
        · exact fun n n' _ hn => ⟨⟨by rw [hn.rest], hn.values⟩, rfl⟩

/-- Attributes are set alike in any order, but for the values of names that several have. -/
theorem setAttributes (h : StoreAlike valued base s s') {id : Nat} (hid : base ≤ id)
    {as as' : List Attribute} (hperm : as.Perm as')
    (hlast : valued → ∀ name, lastNamed name as = lastNamed name as') :
    Option.Rel (StoreAlike valued base) (Loader.setAttributes id as s).toOption
      (Loader.setAttributes id as' s').toOption := by
  rcases h.none_or_some id with ⟨hn, hn'⟩ | ⟨n, n', hn, hn', halike⟩
  · rw [setAttributes_of_none hn, setAttributes_of_none hn']
    exact .some h
  · have hrules := h.typed id n hid hn
    have hrules' : n'.blueprint.attributes = .typed n.blueprint.rules := by
      rw [halike.blueprint, hrules]
    have hset (s₁ : Store) : Loader.setAttributes id as s = .ok s₁ ↔ _ :=
      setAttributes_eq_ok_iff hn hrules
    have hset' (s₁ : Store) : Loader.setAttributes id as' s' = .ok s₁ ↔ _ :=
      setAttributes_eq_ok_iff hn' hrules'
    by_cases hacceptable : ∀ a ∈ as, Acceptable n.blueprint.rules a
    · rw [(hset _).mpr ⟨hacceptable, rfl⟩,
        (hset' _).mpr ⟨fun a ha => hacceptable a (hperm.mem_iff.mpr ha), rfl⟩]
      refine .some (h.update fun k _ hk _ => ⟨⟨by rw [halike.rest], fun hv => ?_⟩, ?_⟩)
      · rw [settled_congr (hlast hv), halike.values hv]
      · rw [Option.some.inj (hn.symm.trans hk)]
    · have hnone : (Loader.setAttributes id as s).toOption = none := by
        cases hs : Loader.setAttributes id as s with
        | error e => rfl
        | ok s₁ => exact absurd ((hset s₁).mp hs).1 hacceptable
      have hnone' : (Loader.setAttributes id as' s').toOption = none := by
        cases hs : Loader.setAttributes id as' s' with
        | error e => rfl
        | ok s₁ =>
          exact absurd (fun a ha => ((hset' s₁).mp hs).1 a (hperm.mem_iff.mp ha)) hacceptable
      rw [hnone, hnone']
      exact .none

/-- Text is set as an attribute is. -/
theorem setText (h : StoreAlike valued base s s') {id : Nat} (hid : base ≤ id)
    (text : Option String) : Option.Rel (StoreAlike valued base)
      (text.elim (.ok s) (s.setValue id contentName)).toOption
      (text.elim (.ok s') (s'.setValue id contentName)).toOption := by
  cases text with
  | none => exact .some h
  | some text =>
    have hsingle (s : Store) : Loader.setAttributes id [⟨⟨none, contentName⟩, text⟩] s =
        s.setValue id contentName text := by
      rw [setAttributes_cons, setAttribute, if_neg (by simp)]
      cases s.setValue id contentName text <;> rfl
    have hset := h.setAttributes hid (.refl [⟨⟨none, contentName⟩, text⟩]) fun _ _ => rfl
    rwa [hsingle, hsingle] at hset

end StoreAlike

end

/-! ### Loading -/

/-- All kinds are classes of modules. -/
def Loader.Generated (l : Loader) : Prop :=
  ∀ q ∈ l.blueprints, ∃ group m, q ∈ moduleBlueprints group m

/-- In elements that have the same place the same value comes last under each name. -/
def LastAlike (e e' : Element) : Prop :=
  ∀ way d d', e.at? way = some d → e'.at? way = some d' → ∀ name,
    lastNamed name d.attributes = lastNamed name d'.attributes

theorem LastAlike.child {e e' : Element} (h : LastAlike e e') {i : Nat} {c c' : Element}
    (hc : e.elements[i]? = some c) (hc' : e'.elements[i]? = some c') : LastAlike c c' := by
  intro way d d' hd hd'
  refine h (i :: way) d d' ?_ ?_
  · rw [Element.at?, hc]
    exact hd
  · rw [Element.at?, hc']
    exact hd'

section
variable {ε α α' : Type} {R : α → α' → Prop} {x : Except ε α} {x' : Except ε α'}

/-- Steps that fail together and else give related results. -/
theorem toOption_rel_bind {β β' : Type} {f : α → Except ε β} {f' : α' → Except ε β'}
    {S : β → β' → Prop} (hx : Option.Rel R x.toOption x'.toOption)
    (hf : ∀ a a', R a a' → Option.Rel S (f a).toOption (f' a').toOption) :
    Option.Rel S (x >>= f).toOption (x' >>= f').toOption := by
  cases x with
  | error e =>
    cases x' with
    | error e' => exact .none
    | ok a' => cases hx
  | ok a =>
    cases x' with
    | error e' => cases hx
    | ok a' =>
      cases hx with
      | some h => exact hf a a' h

theorem isOk_eq_of_rel (h : Option.Rel R x.toOption x'.toOption) : x.isOk = x'.isOk := by
  cases x <;> cases x' <;> first | rfl | cases h

theorem toOption_eq_of_rel {R : α → α → Prop} {x x' : Except ε α}
    (h : Option.Rel R x.toOption x'.toOption) (hR : ∀ a a', R a a' → a = a') :
    x.toOption = x'.toOption := by
  generalize x.toOption = o at h
  generalize x'.toOption = o' at h
  cases h with
  | none => rfl
  | some h => exact congrArg some (hR _ _ h)

end

theorem name_of_reordered {e e' : Element} : e.Reordered e' → e.name = e'.name
  | .intro hname _ _ => hname

theorem contentText_reordered {content content' : List Content}
    (h : ContentReordered content content') :
    Loader.contentText content = Loader.contentText content' := by
  have hparts : content.filterMap Content.text? = content'.filterMap Content.text? ∧
      (content.filterMap Content.element?).length =
        (content'.filterMap Content.element?).length := by
    induction content generalizing content' with
    | nil =>
      cases h
      exact ⟨rfl, rfl⟩
    | cons c content ih =>
      cases h with
      | element he hcs =>
        obtain ⟨htexts, hlength⟩ := ih hcs
        exact ⟨htexts, congrArg (· + 1) hlength⟩
      | other hc hcs =>
        obtain ⟨htexts, hlength⟩ := ih hcs
        rw [List.filterMap_cons, List.filterMap_cons, htexts, List.filterMap_cons_none hc,
          List.filterMap_cons_none hc]
        exact ⟨rfl, hlength⟩
  rw [Loader.contentText, Loader.contentText, hparts.1, hparts.2]

section
variable {valued : Prop} {base : Nat} {s s' : Store} {l : Loader}

/-- The same elements are made in both stores. -/
theorem made_alike (hl : l.Generated) (h : StoreAlike valued base s s')
    {x x' : Except TreeError (Store × Nat)}
    (hx : ∀ r, x = .ok r → ∃ q ∈ l.blueprints, r = s.create q.2)
    (hx' : ∀ r, x' = .ok r → ∃ q ∈ l.blueprints, r = s'.create q.2)
    (hiff : ∀ b, x = .ok (s.create b) ↔ x' = .ok (s'.create b)) :
    Option.Rel (fun r r' => r'.2 = r.2 ∧ base ≤ r.2 ∧ StoreAlike valued base r.1 r'.1)
      x.toOption x'.toOption := by
  cases x with
  | ok r =>
    obtain ⟨q, hq, rfl⟩ := hx r rfl
    obtain ⟨group, m, hm⟩ := hl q hq
    rw [(hiff q.2).mp rfl]
    exact .some ⟨h.length, h.old, h.create (oneText_of_mem_moduleBlueprints hm).attributes⟩
  | error e =>
    cases x' with
    | error e' => exact .none
    | ok r' =>
      obtain ⟨q, hq, rfl⟩ := hx' r' rfl
      cases (hiff q.2).mpr rfl

theorem fillItem_reordered (hl : l.Generated) {e e' : Element} (hname : e.name = e'.name)
    (hfill : ∀ {s s' : Store} {child : Nat}, StoreAlike valued base s s' → base ≤ child →
      Option.Rel (StoreAlike valued base) (l.fill child e s).toOption (l.fill child e' s').toOption)
    (h : StoreAlike valued base s s') (id : Nat) : Option.Rel (StoreAlike valued base)
      (l.fillItem id (.element e) s).toOption (l.fillItem id (.element e') s').toOption := by
  have htag : e'.tag = e.tag := congrArg ExpandedName.localName hname.symm
  rw [Loader.fillItem, Loader.fillItem, htag]
  rcases h.none_or_some id with ⟨hn, hn'⟩ | ⟨n, n', hn, hn', halike⟩
  · rw [hn, hn']
    exact .some h
  · rw [hn, hn']
    have hmade := made_alike hl h
      (fun r (hr : l.createChild n e.tag s = .ok r) => exists_create_of_createChild hr)
      (fun r (hr : l.createChild n' e.tag s' = .ok r) => exists_create_of_createChild hr)
      (fun b => ⟨fun hb => createChild_of_ok halike.blueprint hb s',
        fun hb => createChild_of_ok halike.blueprint.symm hb s⟩)
    refine toOption_rel_bind hmade fun r r' hr => ?_
    obtain ⟨s, child⟩ := r
    obtain ⟨s', child'⟩ := r'
    obtain ⟨rfl, hbase, hs⟩ := hr
    exact toOption_rel_bind (hs.addChild id _) fun _ _ hs => hfill hs hbase

mutual

theorem fill_reordered (hl : l.Generated) : ∀ {e e' : Element}, e.Reordered e' →
    ∀ {s s' : Store} {id : Nat}, (valued → LastAlike e e') → StoreAlike valued base s s' →
      base ≤ id → Option.Rel (StoreAlike valued base) (l.fill id e s).toOption
        (l.fill id e' s').toOption
  | e, e', .intro _ hattributes hcontent, s, s', id, hlast, h, hid => by
    rw [Loader.fill_eq, Loader.fill_eq, ← contentText_reordered hcontent]
    have hset := h.setAttributes hid hattributes fun hv => hlast hv [] e e' rfl rfl
    refine toOption_rel_bind hset fun s s' h => ?_
    refine toOption_rel_bind (fillContent_reordered hl hcontent ?_ h hid) fun s s' h => ?_
    · exact fun hv i c c' hc hc' => (hlast hv).child hc hc'
    · have htext := h.setText hid (Loader.contentText e.content)
      cases hcontent : Loader.contentText e.content <;> rwa [hcontent] at htext

theorem fillContent_reordered (hl : l.Generated) : ∀ {cs cs' : List Content},
    ContentReordered cs cs' →
    ∀ {s s' : Store} {id : Nat}, (valued → ∀ (i : Nat) (c c' : Element),
      (cs.filterMap Content.element?)[i]? = some c →
        (cs'.filterMap Content.element?)[i]? = some c' → LastAlike c c') →
      StoreAlike valued base s s' → base ≤ id → Option.Rel (StoreAlike valued base)
        (l.fillContent id cs s).toOption (l.fillContent id cs' s').toOption
  | _, _, .nil, s, s', id, _, h, _ => .some h
  | _, _, @ContentReordered.element e e' cs cs' he hcs, s, s', id, hlast, h, hid => by
    have hitem := fillItem_reordered hl (name_of_reordered he)
      (fun hs hchild => fill_reordered hl he (fun hv => hlast hv 0 e e' rfl rfl) hs hchild) h id
    rw [Loader.fillContent, Loader.fillContent]
    exact toOption_rel_bind hitem fun s s' h =>
      fillContent_reordered hl hcs (fun hv i c c' hc hc' => hlast hv (i + 1) c c' hc hc') h hid
  | _, _, @ContentReordered.other c cs cs' hc hcs, s, s', id, hlast, h, hid => by
    have hskip (s : Store) (cs : List Content) :
        l.fillContent id (c :: cs) s = l.fillContent id cs s := by
      cases c with
      | element => cases hc
      | _ => rfl
    rw [hskip, hskip]
    refine fillContent_reordered hl hcs (fun hv i d d' hd hd' => hlast hv i d d' ?_ ?_) h hid
    · rwa [List.filterMap_cons_none hc]
    · rwa [List.filterMap_cons_none hc]

end

/-- Documents that differ only in the order of attributes are both loaded or both refused. They are
loaded as equal trees if in all start tags the same attribute of each local name comes last. -/
theorem load_reordered (hl : l.Generated) {text text' : String} (h : DocumentReordered text text')
    (s : Store) :
    (l.load text s).isOk = (l.load text' s).isOk ∧
      ((∀ e e', readDocument l.allowDoctype text = .ok e →
          readDocument l.allowDoctype text' = .ok e' → LastAlike e e') →
        (l.load text s).toOption = (l.load text' s).toOption) := by
  rcases readDocument_reordered l.allowDoctype h with
    ⟨err, hread, hread'⟩ | ⟨e, e', hread, hread', he⟩
  · rw [load_of_malformed hread, load_of_malformed hread']
    exact ⟨rfl, fun _ => rfl⟩
  · have htag : e'.tag = e.tag := congrArg ExpandedName.localName (name_of_reordered he).symm
    have hload (valued : Prop) (hlast : valued → LastAlike e e') : Option.Rel
        (fun r r' => r'.2 = r.2 ∧ StoreAlike valued s.length r.1 r'.1)
        (l.load text s).toOption (l.load text' s).toOption := by
      have hmade := made_alike hl (.refl valued s) (fun r (hr : l.create e.tag s = .ok r) =>
        exists_create_of_create hr) (fun r hr => exists_create_of_create hr) fun b => Iff.rfl
      rw [load_of_readDocument hread, load_of_readDocument hread', htag]
      refine toOption_rel_bind hmade fun r r' hr => ?_
      obtain ⟨s, root⟩ := r
      obtain ⟨s', root'⟩ := r'
      obtain ⟨rfl, hbase, hs⟩ := hr
      have hfill := fill_reordered hl he hlast hs hbase
      have hmap (x : Except TreeError Store) (root : Nat) :
          (x.map (·, root)).toOption = x.toOption.map (·, root) := by cases x <;> rfl
      rw [hmap, hmap]
      exact optionRel_map hfill fun _ _ hs => ⟨rfl, hs⟩
    refine ⟨isOk_eq_of_rel (hload False False.elim), fun hlast => ?_⟩
    refine toOption_eq_of_rel (hload True fun _ => hlast e e' hread hread') fun r r' hr => ?_
    exact Prod.ext (hr.2.eq trivial) hr.1.symm

end

/-- Names that no two attributes share come last wherever they stand. -/
theorem lastNamed_perm {as as' : List Attribute} (hperm : as.Perm as')
    (hnodup : (as.map (·.name.localName)).Nodup) (name : String) :
    lastNamed name as = lastNamed name as' := by
  have hfew : (as.filterMap (valueNamed name)).length ≤ 1 := by
    have hcount := List.nodup_iff_count_le_one.mp hnodup name
    refine Nat.le_trans ?_ hcount
    rw [List.length_filterMap_eq_countP, List.count_eq_countP, List.countP_map]
    refine List.countP_mono_left fun a _ ha => ?_
    obtain ⟨value, hvalue⟩ := Option.isSome_iff_exists.mp ha
    obtain ⟨-, hname, -⟩ := name_of_valueNamed hvalue
    simp [hname]
  have hvalues : (as.filterMap (valueNamed name)).Perm (as'.filterMap (valueNamed name)) :=
    hperm.filterMap _
  rw [lastNamed, lastNamed]
  generalize as.filterMap (valueNamed name) = values at hfew hvalues
  match values, hfew with
  | [], _ => rw [hvalues.nil_eq]
  | [value], _ => rw [List.singleton_perm.mp hvalues]

/-- Elements that have the same place in such documents differ at most in the same way. -/
theorem reordered_of_at? {e e' d d' : Element} (h : e.Reordered e') {way : List Nat}
    (hd : e.at? way = some d) (hd' : e'.at? way = some d') : d.Reordered d' := by
  induction way generalizing e e' with
  | nil =>
    obtain rfl : e = d := Option.some.inj hd
    obtain rfl : e' = d' := Option.some.inj hd'
    exact h
  | cons i way ih =>
    obtain ⟨c, hc, hd⟩ := Option.bind_eq_some_iff.mp hd
    obtain ⟨c', hc', hd'⟩ := Option.bind_eq_some_iff.mp hd'
    refine ih ?_ hd hd'
    obtain ⟨-, -, hcontent⟩ := h
    obtain ⟨hi, rfl⟩ := List.getElem?_eq_some_iff.mp hc
    obtain ⟨hi', rfl⟩ := List.getElem?_eq_some_iff.mp hc'
    exact hcontent.elements.get hi hi'

/-- If no two attributes of a start tag share a local name, their order makes no difference. -/
theorem lastAlike_of_nodup {e e' : Element} (h : e.Reordered e') (hnodup : ∀ way d,
    e.at? way = some d → (d.attributes.map (·.name.localName)).Nodup) : LastAlike e e' := by
  intro way d d' hd hd' name
  obtain ⟨-, hattributes, -⟩ := reordered_of_at? h hd hd'
  exact lastNamed_perm hattributes (hnodup way d hd) name

def attributeText (name value : String) : AttributeText :=
  ⟨name.toList, [], [], '"', value.toList⟩

theorem proper_attributeText {name value : String} (hne : name.toList ≠ [])
    (hname : name.toList.all isNameChar = true) (hvalue : '"' ∉ value.toList) :
    (attributeText name value).Proper :=
  ⟨hne, List.all_eq_true.mp hname, by simp [attributeText], by simp [attributeText], .inl rfl,
    hvalue⟩

/-- An empty order with two attributes. -/
def orderTag (first second : AttributeText) : StartTag :=
  ⟨"Order".toList, [attributeText "xmlns:p" "urn:p", first, second].map ([' '], ·), [], true⟩

def orderText (first second : AttributeText) : String := String.ofList (orderTag first second).chars

theorem orderText_reordered {a b : AttributeText} (ha : a.Proper) (hb : b.Proper) :
    DocumentReordered (orderText a b) (orderText b a) := by
  have hproper {a b : AttributeText} (ha : a.Proper) (hb : b.Proper) : (orderTag a b).Proper := by
    have hdeclaration : (attributeText "xmlns:p" "urn:p").Proper :=
      proper_attributeText (by decide) (by decide) (by decide)
    have hname : "Order".toList ≠ [] ∧ "Order".toList.all isNameChar = true := by decide
    refine ⟨hname.1, List.all_eq_true.mp hname.2, fun p hp => ?_, by simp [orderTag]⟩
    obtain ⟨a', ha', rfl⟩ := List.mem_map.mp hp
    refine ⟨by simp, by simp [isSpace], ?_⟩
    simp only [List.mem_cons, List.not_mem_nil, or_false] at ha'
    rcases ha' with rfl | rfl | rfl
    · exact hdeclaration
    · exact ha
    · exact hb
  have htag : (orderTag a b).Reordered (orderTag b a) :=
    ⟨hproper ha hb, hproper hb ha, rfl, .cons _ (.swap _ _ _), rfl⟩
  have htext := TextReordered.tag htag (.same [])
  rwa [List.append_nil, List.append_nil, ← String.toList_ofList (l := (orderTag a b).chars),
    ← String.toList_ofList (l := (orderTag b a).chars)] at htext

theorem proper_number : (attributeText "Number" "1").Proper :=
  proper_attributeText (by decide) (by decide) (by decide)

/-- A label from elsewhere may stand before or after the number of an order. -/
theorem load_reordered_order : ∃ r,
    ((moduleLoader "shop" orderModule).load (orderText (attributeText "Number" "1")
      (attributeText "p:Label" "2")) []).toOption = some r ∧
    ((moduleLoader "shop" orderModule).load (orderText (attributeText "p:Label" "2")
      (attributeText "Number" "1")) []).toOption = some r := by
  have hlabel : (attributeText "p:Label" "2").Proper :=
    proper_attributeText (by decide) (by decide) (by decide)
  have hreordered := orderText_reordered proper_number hlabel
  have hattributes : (readDocument false (orderText (attributeText "Number" "1")
      (attributeText "p:Label" "2"))).toOption.map
        (fun e => (e.attributes.map (·.name.localName), e.elements.length)) =
          some (["Number", "Label"], 0) := by decide +kernel
  have hload : ((moduleLoader "shop" orderModule).load (orderText (attributeText "Number" "1")
      (attributeText "p:Label" "2")) []).toOption.isSome = true := by decide +kernel
  obtain ⟨r, hr⟩ := Option.isSome_iff_exists.mp hload
  refine ⟨r, hr, ?_⟩
  have hgenerated : (moduleLoader "shop" orderModule).Generated :=
    fun q hq => ⟨"shop", orderModule, hq⟩
  rw [← hr]
  refine ((load_reordered hgenerated hreordered []).2 fun e e' he he' => ?_).symm
  have heach : e.Reordered e' := by
    rcases readDocument_reordered false hreordered with ⟨err, herr, -⟩ | ⟨d, d', hd, hd', hdd'⟩
    · cases he.symm.trans herr
    · obtain rfl := Except.ok.inj (he.symm.trans hd)
      obtain rfl := Except.ok.inj (he'.symm.trans hd')
      exact hdd'
  change readDocument false _ = .ok e at he
  rw [he] at hattributes
  obtain ⟨hnames, hchildren⟩ := Prod.mk.inj (Option.some.inj hattributes)
  refine lastAlike_of_nodup heach fun way d hd => ?_
  cases way with
  | nil =>
    obtain rfl : e = d := Option.some.inj hd
    rw [hnames]
    decide
  | cons i way =>
    rw [Element.at?, List.length_eq_zero_iff.mp hchildren] at hd
    cases hd

/-- The number of an order and a number from elsewhere give the same value, so that the last one
stays. -/
theorem not_load_reordered_order : ∃ text text' r r', DocumentReordered text text' ∧
    Module.ofModel orders = .ok orderModule ∧
      (moduleLoader "shop" orderModule).load text [] = .ok r ∧
        (moduleLoader "shop" orderModule).load text' [] = .ok r' ∧
          r.1.map (·.values) ≠ r'.1.map (·.values) := by
  have hother : (attributeText "p:Number" "2").Proper :=
    proper_attributeText (by decide) (by decide) (by decide)
  have hvalues : ((moduleLoader "shop" orderModule).load (orderText (attributeText "Number" "1")
      (attributeText "p:Number" "2")) []).toOption.map (·.1.map (·.values)) =
        some [[some (.datum (.integer 2))]] := by decide +kernel
  have hvalues' : ((moduleLoader "shop" orderModule).load (orderText (attributeText "p:Number" "2")
      (attributeText "Number" "1")) []).toOption.map (·.1.map (·.values)) =
        some [[some (.datum (.integer 1))]] := by decide +kernel
  have hload {x : Except TreeError (Store × Nat)} {values : List (List (Option Held))}
      (h : x.toOption.map (·.1.map (·.values)) = some values) :
      ∃ r, x = .ok r ∧ r.1.map (·.values) = values := by
    cases x with
    | error e => cases h
    | ok r => exact ⟨r, rfl, Option.some.inj h⟩
  obtain ⟨r, hr, hvalue⟩ := hload hvalues
  obtain ⟨r', hr', hvalue'⟩ := hload hvalues'
  refine ⟨_, _, r, r', orderText_reordered proper_number hother, ofModel_orders, hr, hr', ?_⟩
  rw [hvalue, hvalue']
  decide

end XmlBinding.Tree
