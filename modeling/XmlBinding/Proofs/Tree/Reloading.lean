import XmlBinding.Proofs.Tree.Restoring

/-! # Loading what was written

A document of a tree is loaded as the same tree. The children of an element come in the order of
their slots, so each goes back to where it was. They are made below what is a new element itself,
and what is loaded later changes nothing but the element it is put into.
-/
namespace XmlBinding.Tree
open Schema Binding Xml

theorem Collection.counts_refill_deal {c : Collection} {xs : List Child}
    (h : xs.length = c.children.length) : (c.refill (deal c.slots xs)).counts = c.counts := by
  rw [c.children_eq_flatMap] at h
  rw [counts, c.slots_refill _ (length_deal _ _), map_length_held_deal h, counts]

/-- Children are of the same names as the trees they are roots of. -/
theorem Store.HoldsEach.map_name {s : Store} {among : Nat → Prop} {parent : Nat} {xs : List Child}
    {ts : List ElementTree} (h : s.HoldsEach among parent xs ts) :
    xs.map Child.name = ts.map ElementTree.name := by
  induction ts generalizing xs with
  | nil => cases h; rfl
  | cons t ts ih =>
    cases h with
    | cons _ hx _ hts => rw [List.map_cons, List.map_cons, hx, ih hts]

theorem Store.HoldsEach.exists_child {s : Store} {among : Nat → Prop} {parent : Nat}
    {xs : List Child} {ts : List ElementTree} (h : s.HoldsEach among parent xs ts)
    {t : ElementTree} (ht : t ∈ ts) : ∃ x ∈ xs, x.name = t.name ∧ s.Holds among x.id t := by
  induction ts generalizing xs with
  | nil => cases ht
  | cons u ts ih =>
    cases h with
    | cons _ hx hu hts =>
      rcases List.mem_cons.mp ht with rfl | ht
      · exact ⟨_, List.mem_cons_self, hx, hu⟩
      · obtain ⟨x, hx, hxt⟩ := ih hts ht
        exact ⟨x, List.mem_cons_of_mem _ hx, hxt⟩

/-- Below parents of a class the loader makes elements of these trees for their names. -/
def Makes (l : Loader) (b : Blueprint) (ts : List ElementTree) : Prop :=
  ∀ p : Node, p.blueprint = b → ∀ t ∈ ts, ∀ s,
    l.createChild p t.name s = .ok (s.create t.blueprint)

section
variable {l : Loader} {s : Store} {among : Nat → Prop} {id : Nat} {n : Node}

theorem Store.WellBuilt.makes (h : s.WellBuilt l id n) {ts : List ElementTree}
    (hts : s.HoldsEach among id n.children ts) : Makes l n.blueprint ts := by
  intro p hp t ht s'
  obtain ⟨x, hx, hname, hholds⟩ := hts.exists_child ht
  obtain ⟨k, hk⟩ := h.children x hx
  cases hholds with
  | intro _ hn hshows _ =>
    obtain rfl := Option.some.inj (hk.held.symm.trans hn)
    rw [← hname, ← hshows.blueprint]
    exact createChild_of_ok hp (hk.made s) s'

end

section
variable {text : Option String} {cs : List Content} {s : Store} {id : Nat}

theorem fillContent_text (l : Loader) :
    l.fillContent id (textContent text ++ cs) s = l.fillContent id cs s := by
  cases text with
  | none => rfl
  | some text =>
    rw [textContent]
    split
    · rfl
    · rfl

theorem filterMap_text?_outlineContents (outer : Option String) (scope : Xml.Scope)
    (os : List Outline) : (outlineContents outer scope os).filterMap Content.text? = [] := by
  induction os with
  | nil => rfl
  | cons o os ih => rw [outlineContents, List.filterMap_cons_none rfl, ih]

theorem filterMap_element?_outlineContents (outer : Option String) (scope : Xml.Scope)
    (os : List Outline) : ((outlineContents outer scope os).filterMap Content.element?).length =
      os.length := by
  induction os with
  | nil => rfl
  | cons o os ih =>
    have helement : Content.element? (.element (o.element outer scope)) =
        some (o.element outer scope) := rfl
    rw [outlineContents, List.filterMap_cons_some helement, List.length_cons, ih, List.length_cons]

theorem length_outlinesFor (ts : List ElementTree) : (outlinesFor ts).length = ts.length := by
  induction ts with
  | nil => rfl
  | cons t ts ih => rw [outlinesFor, List.length_cons, ih, List.length_cons]

/-- Text counts unless it is empty, or blank beside elements. -/
theorem contentText_eq {outer : Option String} {scope : Xml.Scope} {ts : List ElementTree}
    (h : ∀ s ∈ text, s ≠ "" ∧ (ts ≠ [] → Text.allBlank s = false)) :
    Loader.contentText (textContent text ++ outlineContents outer scope (outlinesFor ts)) =
      text := by
  rw [Loader.contentText]
  simp only [List.filterMap_append, filterMap_text?_outlineContents, List.append_nil,
    List.length_append, filterMap_element?_outlineContents, length_outlinesFor]
  cases text with
  | none => rfl
  | some text =>
    obtain ⟨hne, hblank⟩ := h text rfl
    have htexts : (textContent (some text)).filterMap Content.text? = [text] := by
      simp [textContent, hne, Content.text?]
    have helements : (textContent (some text)).filterMap Content.element? = [] := by
      simp [textContent, hne, Content.element?]
    rw [htexts, helements]
    cases ts with
    | nil => simp [String.join]
    | cons t ts => simp [String.join, hblank (List.cons_ne_nil _ _)]

end

/-- A new element is put into the collection of its parent. -/
theorem Store.addChild_create {s : Store} {id : Nat} {n : Node} {b : Blueprint} {c c' : Collection}
    (hn : s[id]? = some n) (hc : n.collection = some c)
    (ha : c.add ⟨s.length, b.elementName⟩ = .ok c') :
    ∃ s', (s.create b).1.addChild id s.length = .ok s' ∧ s'.length = s.length + 1 ∧
      s'[s.length]? = some { b.node with parent := some id } ∧
        s.Changes id { n with collection := some c' } s' := by
  have hlt : id < s.length := (List.getElem?_eq_some_iff.mp hn).1
  have hold {j : Nat} {k : Node} (hk : s[j]? = some k) : (s.create b).1[j]? = some k :=
    (List.getElem?_append_left (List.getElem?_eq_some_iff.mp hk).1).trans hk
  have hnew : (s.create b).1[s.length]? = some b.node := by simp [create]
  have hchild : (s.create b).1.childOf s.length = ⟨s.length, b.elementName⟩ := by
    rw [childOf, hnew]
    rfl
  obtain ⟨s', hs', hadds⟩ := addChild_of_add (hold hn) hc (hchild ▸ ha)
  have hlength : s'.length = s.length + 1 := by rw [hadds.length, create, List.length_append]; rfl
  refine ⟨s', hs', hlength, ?_, by omega, ?_, fun j k hj hk => ?_⟩
  · rw [hadds.getElem?, hnew, Option.map_some, if_neg (by omega), if_pos rfl]
  · rw [hadds.getElem?, hold hn, Option.map_some, if_pos rfl, if_neg (by omega)]
  · have hjlt : j < s.length := (List.getElem?_eq_some_iff.mp hk).1
    rw [hadds.getElem?, hold hk, Option.map_some, if_neg (Ne.symm hj), if_neg (by omega)]

theorem tag_element (t : ElementTree) (outer : Option String) (scope : Xml.Scope) :
    (t.outline.element outer scope).tag = t.name := by
  rw [t.outline_eq]
  rfl

/-- An element that has taken the children of a tree holds them in the same slots. -/
structure Store.Receives (s : Store) (id : Nat) (n : Node) (t : ElementTree)
    (d : Option Collection) (s' : Store) : Prop where
  changes : s.Changes id { n with collection := d } s'
  emptied : d.map Collection.emptied = t.blueprint.collection
  counts : d.map Collection.counts = t.counts
  children : s'.HoldsEach (s.length ≤ ·) id (d.elim [] Collection.children) t.children

/-- An element that is filled looks like the root of a tree, below which all is new. -/
structure Store.Restores (s : Store) (id : Nat) (n n' : Node) (t : ElementTree) (s' : Store) :
    Prop where
  changes : s.Changes id n' s'
  parent : n'.parent = n.parent
  looks : n'.Shows t
  children : s'.HoldsEach (s.length ≤ ·) id n'.children t.children

section
variable {l : Loader} {s s' : Store} {id : Nat} {n : Node} {t : ElementTree}

/-- Without a collection there are no children. -/
theorem Store.receives_none (hn : s[id]? = some n) (hc : n.collection = none)
    (hb : t.blueprint.collection = none) (hcounts : t.counts = none) (ht : t.children = []) :
    s.Receives id n t none s where
  changes := by
    refine ⟨Nat.le_refl _, ?_, fun _ _ _ hk => hk⟩
    rw [← hc]
    exact hn
  emptied := hb.symm
  counts := hcounts.symm
  children := ht ▸ .nil

/-- Children that are dealt out to the slots of a collection are counted alike there. -/
theorem Store.receives_deal {c : Collection} {xs : List Child}
    (hb : some c.emptied = t.blueprint.collection) (hcounts : some c.counts = t.counts)
    (hlen : xs.length = c.children.length)
    (hs : s.Changes id { n with collection := some (c.refill (deal c.slots xs)) } s')
    (hheld : s'.HoldsEach (s.length ≤ ·) id xs t.children) :
    s.Receives id n t (some (c.refill (deal c.slots xs))) s' where
  changes := hs
  emptied := by rw [Option.map_some, Collection.emptied_refill_deal, hb]
  counts := by rw [Option.map_some, Collection.counts_refill_deal hlen, hcounts]
  children := by
    rw [Option.elim_some, Collection.children_refill_deal (Nat.le_of_eq hlen)]
    exact hheld

/-- The attributes are set before the children are loaded, and the text after them. -/
theorem ElementTree.Settable.fill_of_receives (h : t.Settable) (outer : Option String)
    (scope : Xml.Scope) (hn : s[id]? = some n) (hb : n.blueprint = t.blueprint)
    (hv : n.values = t.blueprint.node.values)
    (hchildren : ∀ (s₁ : Store) (values : List (Option Held)), s₁[id]? = some { n with values } →
      ∃ s₂ d, l.fillContent id (outlineContents t.blueprint.uri
        ((bindingsOf outer t.blueprint.uri).inner scope) (outlinesFor t.children)) s₁ = .ok s₂ ∧
          s₁.Receives id { n with values } t d s₂) :
    ∃ s' n', l.fill id (t.outline.element outer scope) s = .ok s' ∧ s.Restores id n n' t s' := by
  have hlt : id < s.length := (List.getElem?_eq_some_iff.mp hn).1
  obtain ⟨s₁, values, hset, hchanges₁, hawaits⟩ :=
    h.setAttributes_eq (fun _ ha => ha) hn hb (h.awaits_node hv)
  obtain ⟨s₂, d, hfill, hreceives⟩ := hchildren s₁ values hchanges₁.node
  have hawaits₂ : ({ n with values, collection := d } : Node).Awaits t
      ((saidValues true t.held).map (·.1)) := ⟨hawaits.length, hawaits.settled⟩
  obtain ⟨s₃, values', htext, hchanges₃, hall⟩ := h.setText_eq hreceives.changes.node hb hawaits₂
  refine ⟨s₃, { n with values := values', collection := d }, ?_,
    hchanges₁.trans (hreceives.changes.trans hchanges₃), rfl,
    ⟨hb, hall.values_eq h.typed, hreceives.emptied, hreceives.counts⟩, ?_⟩
  · rw [t.outline_eq, Outline.element, Loader.fill, hset]
    simp only [bind, Except.bind, fillContent_text, hfill, contentText_eq h.text]
    cases hs : t.text with
    | none => rwa [hs] at htext
    | some text => rwa [hs] at htext
  · have hlength := hchanges₁.length
    exact hreceives.children.frame (fun j hj => by omega) fun j m hj hm =>
      hchanges₃.others j m (by omega) hm

end

section
variable {l : Loader} {s₀ : Store} {among : Nat → Prop}

mutual

/-- A new element is filled with what was written of a tree. -/
theorem Store.Holds.fill_eq (hs₀ : ∀ id n, s₀[id]? = some n → s₀.WellBuilt l id n) :
    ∀ {id₀ : Nat} {t : ElementTree}, s₀.Holds among id₀ t → (∀ u ∈ t.subtrees, u.Restorable) →
      ∀ (outer : Option String) (scope : Xml.Scope) {s : Store} {id : Nat} {n : Node},
        s[id]? = some n → n.blueprint = t.blueprint → n.values = t.blueprint.node.values →
        n.collection = t.blueprint.collection →
          ∃ s' n', l.fill id (t.outline.element outer scope) s = .ok s' ∧ s.Restores id n n' t s'
  | id₀, t, .intro (n := n₀) _ hn₀ ht hc, hr, outer, scope, s, id, n, hn, hb, hv, hcollection => by
    have hwell := hs₀ id₀ n₀ hn₀
    have hrt : t.Restorable := hr t (by rw [t.subtrees_eq]; exact List.mem_cons_self)
    have hbelow : ∀ u ∈ subtreesIn t.children, u.Restorable := fun u hu =>
      hr u (by rw [t.subtrees_eq]; exact List.mem_cons_of_mem _ hu)
    have hemptied := ht.emptied
    have hcounts := ht.counts
    refine hrt.settable.fill_of_receives outer scope hn hb hv fun s₁ values hn₁ => ?_
    cases hcol : n₀.collection with
    | none =>
      rw [hcol] at hemptied hcounts
      rw [Node.children, hcol] at hc
      have hnil : t.children = [] := List.map_eq_nil_iff.mp hc.map_name.symm
      refine ⟨s₁, none, by rw [hnil]; rfl, ?_⟩
      exact Store.receives_none hn₁ (hcollection.trans hemptied.symm) hemptied.symm hcounts.symm
        hnil
    | some c =>
      rw [hcol] at hemptied hcounts
      have hchildren : n₀.children = c.children := by rw [Node.children, hcol]; rfl
      have hseparated : c.Separated := Collection.separated_of_emptied
        (Collection.separated_of_branchesDisjoint (hrt.separate _ hemptied.symm))
      have hnew : n.collection = some (c.refill (deal c.slots [])) := by
        rw [deal_nil, hcollection, ← hemptied]
        rfl
      have hnames : ([] : List Child).map Child.name ++ t.children.map ElementTree.name =
          c.children.map Child.name := by rw [← hchildren, hc.map_name]; rfl
      obtain ⟨s₂, xs, hfill, hchanges, hheld⟩ := hc.fillContent_eq hs₀ hbelow t.blueprint.uri
        ((bindingsOf outer t.blueprint.uri).inner scope) hn₁
        (hb.trans ht.blueprint.symm ▸ hwell.makes hc) (hwell.grown c hcol) hseparated hnew hnames
      have hlen : xs.length = c.children.length := by
        have hnames := hheld.map_name.trans hc.map_name.symm
        simpa [hchildren] using congrArg List.length hnames
      exact ⟨s₂, _, hfill, Store.receives_deal hemptied hcounts hlen hchanges hheld⟩

/-- And so are its children, after some that it has already. -/
theorem Store.HoldsEach.fillContent_eq (hs₀ : ∀ id n, s₀[id]? = some n → s₀.WellBuilt l id n) :
    ∀ {parent₀ : Nat} {xs₀ : List Child} {ts : List ElementTree},
      s₀.HoldsEach among parent₀ xs₀ ts → (∀ u ∈ subtreesIn ts, u.Restorable) →
      ∀ (outer : Option String) (scope : Xml.Scope) {s : Store} {id : Nat} {n : Node}
        {c : Collection} {done : List Child}, s[id]? = some n → Makes l n.blueprint ts →
        c.Grown → c.Separated → n.collection = some (c.refill (deal c.slots done)) →
        done.map Child.name ++ ts.map ElementTree.name = c.children.map Child.name →
          ∃ s' xs, l.fillContent id (outlineContents outer scope (outlinesFor ts)) s = .ok s' ∧
            s.Changes id { n with collection := some (c.refill (deal c.slots (done ++ xs))) } s' ∧
              s'.HoldsEach (s.length ≤ ·) id xs ts
  | _, _, [], .nil, _, _, _, s, id, n, c, done, hn, _, _, _, hcollection, _ => by
    refine ⟨s, [], rfl, ⟨Nat.le_refl _, ?_, fun _ _ _ hk => hk⟩, .nil⟩
    rw [List.append_nil, ← hcollection]
    exact hn
  | _, _, t :: ts, .cons _ _ ht hts, hr, outer, scope, s, id, n, c, done, hn, hm, hg, hs,
    hcollection, hnames => by
    have hlt : id < s.length := (List.getElem?_eq_some_iff.mp hn).1
    let x : Child := ⟨s.length, t.name⟩
    have hmake := hm n rfl t List.mem_cons_self s
    have hprefix : (done ++ [x]).map Child.name <+: c.children.map Child.name :=
      ⟨ts.map ElementTree.name, by rw [← hnames]; simp [x]⟩
    obtain ⟨s₁, hadd, hlength, hchild, hchanges₁⟩ :=
      addChild_create (b := t.blueprint) hn hcollection (Collection.add_deal hg hs (x := x) hprefix)
    obtain ⟨s₂, k, hfill, hchanges₂, hparent, hlooks, hheld⟩ :=
      ht.fill_eq hs₀ (fun u hu => hr u (List.mem_append_left _ hu)) outer scope hchild rfl rfl rfl
    have hnext := hchanges₂.others id _ (by omega) hchanges₁.node
    have hnames' : (done ++ [x]).map Child.name ++ ts.map ElementTree.name =
        c.children.map Child.name := by rw [← hnames]; simp [x]
    obtain ⟨s₃, xs, hrest, hchanges₃, hheldrest⟩ :=
      hts.fillContent_eq hs₀ (fun u hu => hr u (List.mem_append_right _ hu)) outer scope hnext
        (fun p hp u hu => hm p hp u (List.mem_cons_of_mem _ hu)) hg hs rfl hnames'
    have hk := hchanges₃.others s.length k (by omega) hchanges₂.node
    refine ⟨s₃, x :: xs, ?_, ⟨?_, ?_, ?_⟩, .cons ?_ rfl ?_ ?_⟩
    · rw [outlinesFor, outlineContents, Loader.fillContent, Loader.fillItem, hn]
      have hadd : (s ++ [t.blueprint.node]).addChild id s.length = .ok s₁ := hadd
      simp only [tag_element, hmake, bind, Except.bind, create, next, hadd, hfill, hrest]
    · have := hchanges₁.length
      have := hchanges₂.length
      have := hchanges₃.length
      omega
    · rw [List.append_cons]
      exact hchanges₃.node
    · intro j m hj hm
      have hjlt : j < s.length := (List.getElem?_eq_some_iff.mp hm).1
      refine hchanges₃.others j m hj (hchanges₂.others j m (by omega) ?_)
      exact hchanges₁.others j m hj hm
    · rw [parentOf, hk, Option.bind_some, hparent]
    · refine .intro (Nat.le_refl _) hk hlooks ?_
      refine hheld.frame (fun j hj => by omega) fun j m hj hm => hchanges₃.others j m (by omega) hm
    · refine hheldrest.frame (fun j hj => ?_) fun _ _ _ hm => hm
      have := hchanges₂.length
      omega

end

end

end XmlBinding.Tree
