import XmlBinding.Tree.Loading
import XmlBinding.Proofs.Tree.Blueprints
import XmlBinding.Proofs.Tree.Trees

/-! # Building trees

Elements are made from the blueprints a loader knows, given values, and added to parents, each
once and each of the class that the loader makes for its name there. In a store that is built so
every element has values of its class and the collection of every element has grown by additions.
-/
namespace XmlBinding.Tree
open Binding Xml

section
variable {l : Loader} {name : String} {s : Store} {b : Blueprint} {kind : Kind}
  {missing : TreeError}

theorem create_injective {b' : Blueprint} (h : s.create b = s.create b') : b = b' := by
  have hnodes : [b.node] = [b'.node] := List.append_cancel_left (congrArg Prod.fst h)
  exact congrArg Node.blueprint (List.cons.inj hnodes).1

theorem make_eq_ok_iff : l.make kind missing s = .ok (s.create b) ↔
    l.blueprints.get? kind = some b := by
  rw [Loader.make]
  cases l.blueprints.get? kind with
  | none => simp
  | some b' =>
    simp only [Except.ok.injEq, Option.some.injEq]
    exact ⟨create_injective, fun h => h ▸ rfl⟩

/-- What is made for a name is made in every store. -/
theorem create_of_ok (h : l.create name s = .ok (s.create b)) (s' : Store) :
    l.create name s' = .ok (s'.create b) := by
  rw [Loader.create] at *
  split at h
  · exact make_eq_ok_iff.mpr (make_eq_ok_iff.mp h)
  · cases h

/-- A document that is read is loaded by making the root and filling it. -/
theorem load_of_readDocument {text : String} {e : Element}
    (h : readDocument l.allowDoctype text = .ok e) (s : Store) :
    l.load text s = (l.create e.tag s).bind fun r => (l.fill r.2 e r.1).map (·, r.2) := by
  unfold Loader.load
  rw [h]
  change (l.create e.tag s).bind _ = _
  refine congrArg _ (funext fun r => ?_)
  change (l.fill r.2 e r.1).bind _ = _
  cases l.fill r.2 e r.1 <;> rfl

theorem load_of_malformed {text : String} {err : ReadError}
    (h : readDocument l.allowDoctype text = .error err) (s : Store) :
    l.load text s = .error .malformedDocument := by
  unfold Loader.load
  rw [h]

theorem exists_readDocument_of_load {text : String} {r : Store × Nat} (h : l.load text s = .ok r) :
    ∃ e, readDocument l.allowDoctype text = .ok e := by
  cases hread : readDocument l.allowDoctype text with
  | error err =>
    rw [load_of_malformed hread] at h
    cases h
  | ok e => exact ⟨e, rfl⟩

/-- What a parent does not make is left to the registries, which is for the parent to say. -/
theorem createChild_of_ok {p p' : Node} (hp : p'.blueprint = p.blueprint)
    (h : l.createChild p name s = .ok (s.create b)) (s' : Store) :
    l.createChild p' name s' = .ok (s'.create b) := by
  simp only [Loader.createChild, Loader.createDeclared, Node.name, hp] at h ⊢
  cases hk : p.blueprint.creatable with
  | none => simp [hk] at h
  | some kinds =>
    cases hf : kinds.find? (·.1 = name) with
    | none =>
      simp only [hk, hf] at h ⊢
      exact create_of_ok h s'
    | some q =>
      simp only [hk, hf, Loader.make] at h ⊢
      cases hb : l.blueprints.get? q.2 with
      | none =>
        simp only [hb] at h ⊢
        exact create_of_ok h s'
      | some b' =>
        simp only [hb, Except.ok.injEq] at h ⊢
        rw [create_injective h]

end

/-- Sets a value as the setter does that belongs to the rule at a place. -/
def Store.assign (s : Store) (id place : Nat) (v : Held) : Store :=
  s.update id fun n => { n with values := n.values.set place (some v) }

/-- Stores of elements that are fresh, set, and added to a parent once. -/
inductive Built (l : Loader) : Store → Prop
  | empty : Built l []
  | create {s : Store} (h : Built l s) {kind : Kind} {b : Blueprint}
      (hb : (kind, b) ∈ l.blueprints) : Built l (s.create b).1
  | assign {s : Store} (h : Built l s) {id place : Nat} {n : Node} {rule : ValueRule} {v : Held}
      (hn : s[id]? = some n) (hr : n.blueprint.rules[place]? = some rule)
      (hv : rule.kind.Takes v) : Built l (s.assign id place v)
  | addChild {s s' : Store} (h : Built l s) {parent child : Nat} {p n : Node}
      (hp : s[parent]? = some p) (hn : s[child]? = some n) (hfree : n.parent = none)
      (hclass : l.createChild p n.name s = .ok (s.create n.blueprint))
      (ha : s.addChild parent child = .ok s') : Built l s'

/-- A child is known to its parent by its name, refers back, and is made by the loader there. -/
structure Store.Fits (l : Loader) (s : Store) (id : Nat) (n : Node) (x : Child) (k : Node) :
    Prop where
  held : s[x.id]? = some k
  name : k.name = x.name
  parent : k.parent = some id
  made : ∀ s', l.createChild n x.name s' = .ok (s'.create k.blueprint)

/-- What holds of every element of a store that is built. -/
structure Store.WellBuilt (l : Loader) (s : Store) (id : Nat) (n : Node) : Prop where
  known : ∃ kind, (kind, n.blueprint) ∈ l.blueprints
  length : n.values.length = n.blueprint.rules.length
  takes : ∀ p ∈ n.blueprint.rules.zip n.values, ∀ v ∈ p.2, p.1.kind.Takes v
  emptied : n.collection.map Collection.emptied = n.blueprint.collection
  grown : ∀ c ∈ n.collection, c.Grown
  children : ∀ x ∈ n.children, ∃ k, s.Fits l id n x k

/-- Elements stay of their class, and stay with a parent they have. -/
def Store.Later (s s' : Store) : Prop :=
  ∀ (j : Nat) (n : Node), s[j]? = some n → ∃ n', s'[j]? = some n' ∧ n'.blueprint = n.blueprint ∧
    ∀ p, n.parent = some p → n'.parent = some p

section
variable {l : Loader} {s s' : Store} {id : Nat} {n n' : Node}

theorem Store.Later.fits (h : s.Later s') (hb : n'.blueprint = n.blueprint) {x : Child}
    (hx : ∃ k, s.Fits l id n x k) : ∃ k, s'.Fits l id n' x k := by
  obtain ⟨k, hk⟩ := hx
  obtain ⟨k', hk', hkb, hparent⟩ := h x.id k hk.held
  refine ⟨k', hk', ?_, hparent id hk.parent, fun s'' => ?_⟩
  · rw [← hk.name, Node.name, Node.name, hkb]
  · rw [hkb]
    exact createChild_of_ok hb (hk.made s) s''

/-- An element that changes neither its values nor its children stays well built. -/
theorem Store.WellBuilt.later (h : s.WellBuilt l id n) (hs : s.Later s')
    (hb : n'.blueprint = n.blueprint) (hv : n'.values = n.values)
    (hc : n'.collection = n.collection) : s'.WellBuilt l id n' where
  known := hb ▸ h.known
  length := by rw [hv, hb, h.length]
  takes := by rw [hv, hb]; exact h.takes
  emptied := by rw [hc, hb]; exact h.emptied
  grown := hc ▸ h.grown
  children x hx := by
    rw [Node.children, hc] at hx
    exact hs.fits hb (h.children x hx)

theorem Blueprint.length_values_node (b : Blueprint) : b.node.values.length = b.rules.length := by
  cases b with
  | mk _ _ _ _ _ attributes => cases attributes <;> simp [node, rules]

theorem Blueprint.mem_values_node {b : Blueprint} {v : Option Held} (h : v ∈ b.node.values) :
    v = none := by
  cases b with
  | mk _ _ _ _ _ attributes => cases attributes <;> simp_all [node]

theorem Collection.children_of_held_eq_nil {c : Collection} (h : ∀ s ∈ c.slots, s.held = []) :
    c.children = [] := by
  rw [c.children_eq_flatMap, List.flatMap_eq_nil_iff]
  exact h

/-- A new element has no values and no children. -/
theorem wellBuilt_node (hl : ∀ p ∈ l.blueprints, p.2.Proper) {kind : Kind} {b : Blueprint}
    (hb : (kind, b) ∈ l.blueprints) : s.WellBuilt l id b.node where
  known := ⟨kind, hb⟩
  length := b.length_values_node
  takes p hp v hv := by
    rw [Blueprint.mem_values_node (List.of_mem_zip hp).2] at hv
    cases hv
  emptied := by
    rw [Blueprint.node]
    cases hc : b.collection with
    | none => rfl
    | some c => exact congrArg some (Collection.emptied_eq_self ((hl _ hb).empty c hc))
  grown c hc := Collection.grown_of_held_eq_nil ((hl _ hb).empty c hc)
  children x hx := by
    cases hc : b.collection with
    | none => simp [Node.children, Blueprint.node, hc] at hx
    | some c =>
      have hnil := Collection.children_of_held_eq_nil ((hl _ hb).empty c hc)
      simp [Node.children, Blueprint.node, hc, hnil] at hx

theorem Store.getElem?_update (s : Store) (id j : Nat) (f : Node → Node) :
    (s.update id f)[j]? = (s[j]?).map fun n => if id = j then f n else n := by
  rw [update, List.getElem?_modify, Option.map_eq_map]

/-- A store after an addition: the parent has a collection, and the child has a parent. -/
structure Store.Adds (s : Store) (parent child : Nat) (c : Collection) (s' : Store) : Prop where
  length : s'.length = s.length
  getElem? : ∀ j, s'[j]? = (s[j]?).map fun n : Node =>
    { n with collection := if parent = j then some c else n.collection,
             parent := if child = j then some parent else n.parent }

theorem Store.addChild_of_add {parent child : Nat} {p : Node} {c c' : Collection}
    (hp : s[parent]? = some p) (hc : p.collection = some c)
    (ha : c.add (s.childOf child) = .ok c') :
    ∃ s', s.addChild parent child = .ok s' ∧ s.Adds parent child c' s' := by
  simp only [addChild, hp, hc, ha]
  refine ⟨_, rfl, by simp [update], fun j => ?_⟩
  rw [getElem?_update, getElem?_update, Option.map_map]
  congr 1
  funext n
  by_cases hparent : parent = j <;> by_cases hchild : child = j <;> simp [hparent, hchild]

/-- An addition that succeeds is one to the collection of the parent. -/
theorem Store.addChild_eq_ok {parent child : Nat} (h : s.addChild parent child = .ok s') :
    ∃ p c c', s[parent]? = some p ∧ p.collection = some c ∧ c.add (s.childOf child) = .ok c' ∧
      s.Adds parent child c' s' := by
  have hadd := h
  rw [addChild] at h
  split at h
  · cases h
  · next p hp =>
    split at h
    · cases h
    · next c hc =>
      split at h
      · cases h
      · next c' ha =>
        obtain ⟨s'', hs'', hadds⟩ := addChild_of_add hp hc ha
        obtain rfl := Except.ok.inj (hs''.symm.trans hadd)
        exact ⟨p, c, c', hp, hc, ha, hadds⟩

theorem Collection.emptied_add {c c' : Collection} {x : Child} (h : c.add x = .ok c') :
    c'.emptied = c.emptied := by
  obtain ⟨i, s, -, -, -, -, rfl⟩ := add_eq_ok_iff.mp h
  exact emptied_refill (c.map_emptied_modify_push x i)

theorem Collection.mem_children_add {c c' : Collection} {x : Child} (h : c.add x = .ok c')
    {y : Child} (hy : y ∈ c'.children) : y ∈ c.children ∨ y = x := by
  obtain ⟨i, s, -, -, -, -, rfl⟩ := add_eq_ok_iff.mp h
  rw [children_eq_flatMap, c.slots_refill _ (by simp), List.mem_flatMap] at hy
  obtain ⟨t, ht, hyt⟩ := hy
  obtain ⟨j, hj⟩ := List.mem_iff_getElem?.mp ht
  obtain ⟨u, hu, rfl⟩ := getElem?_modify_eq_some.mp hj
  have hold (hyu : y ∈ u.held) : y ∈ c.children ∨ y = x := by
    rw [children_eq_flatMap]
    exact .inl (List.mem_flatMap.mpr ⟨u, List.mem_of_getElem? hu, hyu⟩)
  split at hyt
  · rw [Slot.push_held, List.mem_append, List.mem_singleton] at hyt
    exact hyt.elim hold .inr
  · exact hold hyt

theorem Store.later_create (b : Blueprint) : s.Later (s.create b).1 := fun _ n hn =>
  ⟨n, (List.getElem?_append_left (List.getElem?_eq_some_iff.mp hn).1).trans hn, rfl, fun _ h => h⟩

theorem Store.later_update {f : Node → Node} (hb : ∀ n, (f n).blueprint = n.blueprint)
    (hp : ∀ n p, s[id]? = some n → n.parent = some p → (f n).parent = some p) :
    s.Later (s.update id f) := by
  intro j n hn
  rw [getElem?_update, hn]
  refine ⟨_, rfl, ?_⟩
  split
  · next hj => exact ⟨hb n, fun p => hp n p (hj ▸ hn)⟩
  · exact ⟨rfl, fun _ h => h⟩

theorem Store.later_addChild {parent child : Nat} {k : Node} (hk : s[child]? = some k)
    (hfree : k.parent = none) (ha : s.addChild parent child = .ok s') : s.Later s' := by
  obtain ⟨p, c, c', -, -, -, hadds⟩ := addChild_eq_ok ha
  intro j n hn
  rw [hadds.getElem?, hn]
  refine ⟨_, rfl, rfl, fun q hq => ?_⟩
  -- what is added has no parent yet
  have hne : child ≠ j := by
    rintro rfl
    obtain rfl := Option.some.inj (hk.symm.trans hn)
    rw [hfree] at hq
    cases hq
  exact (if_neg hne).trans hq

theorem takes_set {rules : List ValueRule} {values : List (Option Held)}
    (h : ∀ p ∈ rules.zip values, ∀ v ∈ p.2, p.1.kind.Takes v) {place : Nat} {rule : ValueRule}
    {v : Held} (hr : rules[place]? = some rule) (hv : rule.kind.Takes v) :
    ∀ p ∈ rules.zip (values.set place (some v)), ∀ w ∈ p.2, p.1.kind.Takes w := by
  rintro ⟨r, o⟩ hp w hw
  obtain ⟨i, hi⟩ := List.mem_iff_getElem?.mp hp
  obtain ⟨hri, hvi⟩ := List.getElem?_zip_eq_some.mp hi
  rw [List.getElem?_set] at hvi
  split at hvi
  · next hplace =>
    subst hplace
    split at hvi
    · obtain rfl : some v = o := Option.some.inj hvi
      obtain rfl := Option.some.inj hw
      obtain rfl := Option.some.inj (hri.symm.trans hr)
      exact hv
    · cases hvi
  · exact h (r, o) (List.mem_of_getElem? (List.getElem?_zip_eq_some.mpr ⟨hri, hvi⟩)) w hw

theorem wellBuilt_create (hl : ∀ p ∈ l.blueprints, p.2.Proper)
    (h : ∀ id n, s[id]? = some n → s.WellBuilt l id n) {kind : Kind} {b : Blueprint}
    (hb : (kind, b) ∈ l.blueprints) (hn : (s.create b).1[id]? = some n) :
    (s.create b).1.WellBuilt l id n := by
  by_cases hid : id < s.length
  · rw [Store.create, List.getElem?_append_left hid] at hn
    exact (h id n hn).later (Store.later_create b) rfl rfl rfl
  · rw [Store.create, List.getElem?_append_right (Nat.le_of_not_lt hid)] at hn
    obtain rfl := List.mem_singleton.mp (List.mem_of_getElem? hn)
    exact wellBuilt_node hl hb

theorem wellBuilt_assign (h : ∀ id n, s[id]? = some n → s.WellBuilt l id n) {place : Nat}
    {rule : ValueRule} {v : Held} (hn : s[id]? = some n)
    (hr : n.blueprint.rules[place]? = some rule) (hv : rule.kind.Takes v) {j : Nat}
    (hn' : (s.assign id place v)[j]? = some n') : (s.assign id place v).WellBuilt l j n' := by
  have hlater : s.Later (s.assign id place v) :=
    Store.later_update (fun _ => rfl) fun _ _ _ hp => hp
  rw [Store.assign, Store.getElem?_update, Option.map_eq_some_iff] at hn'
  obtain ⟨m, hm, rfl⟩ := hn'
  have hwell := h j m hm
  split
  · next hj =>
    subst hj
    obtain rfl := Option.some.inj (hn.symm.trans hm)
    refine ⟨hwell.known, (List.length_set ..).trans hwell.length, takes_set hwell.takes hr hv,
      hwell.emptied, hwell.grown, fun x hx => hlater.fits ?_ (hwell.children x hx)⟩
    rfl
  · exact hwell.later hlater rfl rfl rfl

theorem wellBuilt_addChild (h : ∀ id n, s[id]? = some n → s.WellBuilt l id n)
    {parent child : Nat} {p k : Node} (hp : s[parent]? = some p) (hk : s[child]? = some k)
    (hfree : k.parent = none) (hclass : l.createChild p k.name s = .ok (s.create k.blueprint))
    (ha : s.addChild parent child = .ok s') {j : Nat} (hn' : s'[j]? = some n') :
    s'.WellBuilt l j n' := by
  have hlater := Store.later_addChild hk hfree ha
  obtain ⟨p', c, c', hp', hc, hadd, hadds⟩ := Store.addChild_eq_ok ha
  obtain rfl := Option.some.inj (hp.symm.trans hp')
  rw [hadds.getElem?, Option.map_eq_some_iff] at hn'
  obtain ⟨n, hn, rfl⟩ := hn'
  have hwell := h j n hn
  by_cases hj : parent = j
  · subst hj
    obtain rfl := Option.some.inj (hp.symm.trans hn)
    refine ⟨hwell.known, hwell.length, hwell.takes, ?_, fun d hd => ?_, fun x hx => ?_⟩
    · rw [← hwell.emptied, if_pos rfl, hc, Option.map_some, Option.map_some,
        Collection.emptied_add hadd]
    · obtain rfl : c' = d := by simpa using hd
      exact Collection.grown_add (hwell.grown c hc) hadd
    · rw [Node.children, if_pos rfl, Option.elim_some] at hx
      rcases Collection.mem_children_add hadd hx with hx | rfl
      · refine hlater.fits ?_ (hwell.children x (by rw [Node.children, hc]; exact hx))
        rfl
      · refine ⟨_, (hadds.getElem? child).trans (by rw [hk]; rfl), ?_, if_pos rfl, fun s'' => ?_⟩
        · simp [Store.childOf, hk, Node.name]
        · have hname : (s.childOf child).name = k.name := by simp [Store.childOf, hk]
          rw [hname]
          exact createChild_of_ok rfl hclass s''
  · exact hwell.later hlater rfl rfl (if_neg hj)

/-- Every element of a store that is built is well built. -/
theorem Built.wellBuilt (hl : ∀ p ∈ l.blueprints, p.2.Proper) (h : Built l s) :
    ∀ id n, s[id]? = some n → s.WellBuilt l id n := by
  induction h with
  | empty => intro id n hn; cases hn
  | create _ hb ih => exact fun id n hn => wellBuilt_create hl ih hb hn
  | assign _ hn hr hv ih => exact fun id n hn' => wellBuilt_assign ih hn hr hv hn'
  | addChild _ hp hk hfree hclass ha ih =>
    exact fun id n hn => wellBuilt_addChild ih hp hk hfree hclass ha hn

theorem Store.exists_holdsEach {parent : Nat} {xs : List Child}
    (h : ∀ x ∈ xs, s.parentOf x.id = some parent ∧
      ∃ t : ElementTree, s.Holds (fun _ => True) x.id t ∧ x.name = t.name) :
    ∃ ts, s.HoldsEach (fun _ => True) parent xs ts := by
  induction xs with
  | nil => exact ⟨[], .nil⟩
  | cons x xs ih =>
    obtain ⟨⟨hp, t, ht, hx⟩, hxs⟩ := List.forall_mem_cons.mp h
    obtain ⟨ts, hts⟩ := ih hxs
    exact ⟨t :: ts, .cons hp hx ht hts⟩

/-- An element that is built is the root of a tree unless children follow below it without end. -/
theorem Built.exists_holds (hl : ∀ p ∈ l.blueprints, p.2.Proper) (h : Built l s)
    (hacc : Acc (fun j k => s.parentOf j = some k) id) (hn : s[id]? = some n) :
    ∃ t : ElementTree, s.Holds (fun _ => True) id t ∧ n.name = t.name := by
  induction hacc generalizing n with
  | intro id _ ih =>
    have hwell := h.wellBuilt hl id n hn
    obtain ⟨ts, hts⟩ : ∃ ts, s.HoldsEach (fun _ => True) id n.children ts := by
      refine Store.exists_holdsEach fun x hx => ?_
      obtain ⟨k, hk⟩ := hwell.children x hx
      have hparent : s.parentOf x.id = some id := by rw [Store.parentOf, hk.held]; exact hk.parent
      obtain ⟨t, ht, hname⟩ := ih x.id hparent hk.held
      exact ⟨hparent, t, ht, hk.name.symm.trans hname⟩
    exact ⟨⟨n.blueprint, n.values, n.collection.map Collection.counts, ts⟩,
      .intro trivial hn ⟨rfl, rfl, hwell.emptied, rfl⟩ hts, rfl⟩

end

end XmlBinding.Tree
