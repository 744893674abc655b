import XmlBinding.Proofs.Tree.Reloading

/-! # Trees survive being written and loaded

All elements of a tree that was built over a module are what a document can restore, if only their
values are what a document can say. So the document of the tree is loaded as an equal tree.
-/
namespace XmlBinding.Tree
open Schema Binding Xml

/-- The loader over the registry of a module. -/
def moduleLoader (group : String) (m : Module) : Loader where
  blueprints := moduleBlueprints group m
  registries := [moduleRegistry group m]

section
variable {s : Store} {among : Nat → Prop}

mutual

/-- Every tree in a tree that is held is the tree of some element. -/
theorem Store.Holds.exists_shows : ∀ {id : Nat} {t u : ElementTree}, s.Holds among id t →
    u ∈ t.subtrees → ∃ (j : Nat) (n : Node), s[j]? = some n ∧ n.Shows u
  | _, t, u, .intro _ hn ht hc, hu => by
    rw [t.subtrees_eq] at hu
    rcases List.mem_cons.mp hu with rfl | hu
    · exact ⟨_, _, hn, ht⟩
    · exact hc.exists_shows hu

theorem Store.HoldsEach.exists_shows : ∀ {parent : Nat} {xs : List Child} {ts : List ElementTree}
    {u : ElementTree}, s.HoldsEach among parent xs ts → u ∈ subtreesIn ts →
      ∃ (j : Nat) (n : Node), s[j]? = some n ∧ n.Shows u
  | _, _, _, _, .cons _ _ ht hts, hu => by
    rcases List.mem_append.mp hu with hu | hu
    · exact ht.exists_shows hu
    · exact hts.exists_shows hu

end

end

theorem targetNamespace_of_ofModel {model : Model} {m : Module} (h : Module.ofModel model = .ok m) :
    m.targetNamespace = model.targetNamespace := by
  obtain ⟨_, _, -, rfl⟩ := exists_catalog_of_ofModel h
  rfl

/-- The blueprints of a module are proper if its schema names things properly. -/
theorem proper_moduleBlueprints {group : String} {model : Model} {m : Module} (hn : model.Named)
    (hu : ∀ u ∈ model.targetNamespace, IsOrdinaryUri u) (hm : Module.ofModel model = .ok m) :
    ∀ p ∈ moduleBlueprints group m, p.2.Proper := by
  obtain ⟨he, hc⟩ := Module.conforms_of_ofModel hn hm
  rw [← targetNamespace_of_ofModel hm] at hu
  exact fun p hp => proper_of_mem_moduleBlueprints he hc hu hp

/-- The branches of every choice that may occur once take no name in common. -/
def BranchesDisjointIn (m : Module) : Prop :=
  ∀ c ∈ m.classes, ∀ ms ∈ c.membership, ∀ d ∈ ms.collection.collections, d.BranchesDisjoint

theorem separate_moduleBlueprints {group : String} {m : Module} (h : BranchesDisjointIn m) :
    ∀ p ∈ moduleBlueprints group m, p.2.Separate := by
  intro p hp c hc
  obtain ⟨k, hk, rfl⟩ := List.mem_map.mp hp
  obtain ⟨ms, hms, rfl⟩ := Option.map_eq_some_iff.mp hc
  exact h k hk ms hms

/-- What is built has values of its classes. -/
theorem restorable_of_built {l : Loader} (hp : ∀ p ∈ l.blueprints, p.2.Proper)
    (hs : ∀ p ∈ l.blueprints, p.2.Separate) {s : Store} (hb : Built l s) {among : Nat → Prop}
    {root : Nat} {t : ElementTree} (ht : s.Holds among root t)
    (hsay : ∀ u ∈ t.subtrees, u.Sayable) : ∀ u ∈ t.subtrees, u.Restorable := by
  intro u hu
  obtain ⟨id, n, hn, hshows⟩ := ht.exists_shows hu
  have hwell := hb.wellBuilt hp id n hn
  obtain ⟨kind, hkind⟩ := hwell.known
  rw [hshows.blueprint] at hkind
  refine ⟨hp _ hkind, hs _ hkind, ⟨?_, ?_⟩, hsay u hu⟩
  · rw [← hshows.values, ← hshows.blueprint, hwell.length]
  · rw [ElementTree.held, ← hshows.values, ← hshows.blueprint]
    exact hwell.takes

/-- The document of a tree is loaded as that tree, in any store, of new elements. -/
theorem load_toXml (group : String) {model : Model} {m : Module} (hn : model.Named)
    (hu : ∀ u ∈ model.targetNamespace, IsOrdinaryUri u) (hm : Module.ofModel model = .ok m)
    (hd : BranchesDisjointIn m) {s : Store} (hb : Built (moduleLoader group m) s) {root : Nat}
    {t : ElementTree} (ht : s.Holds (fun _ => True) root t)
    (hroot : (moduleLoader group m).create t.name s = .ok (s.create t.blueprint))
    (hsay : ∀ u ∈ t.subtrees, u.Sayable) :
    ∃ text, s.toXml .plain root = .ok text ∧ ∀ s₀ : Store, ∃ s' root',
      (moduleLoader group m).load text s₀ = .ok (s', root') ∧
        s'.Holds (s₀.length ≤ ·) root' t := by
  have hproper := @proper_moduleBlueprints group _ _ hn hu hm
  have hr := restorable_of_built hproper (separate_moduleBlueprints hd) hb ht hsay
  have hfaithful : ∀ o ∈ t.outline.outlines, o.Faithful := by
    intro o ho
    obtain ⟨u, hu, rfl⟩ := ElementTree.exists_of_mem_outlines ho
    exact (hr u hu).faithful
  refine ⟨_, ht.toXml_eq (fun u hu => (hr u hu).proper.oneText) .plain, fun s₀ => ?_⟩
  have hnew : (s₀.create t.blueprint).1[s₀.length]? = some t.blueprint.node := by
    simp [Store.create]
  obtain ⟨s', n', hfill, hrestores⟩ :=
    ht.fill_eq (hb.wellBuilt hproper) hr none [] hnew rfl rfl rfl
  have hlength : (s₀.create t.blueprint).1.length = s₀.length + 1 := by simp [Store.create]
  refine ⟨s', s₀.length, ?_, .intro (Nat.le_refl _) hrestores.changes.node hrestores.looks ?_⟩
  · have hread : readDocument (moduleLoader group m).allowDoctype
        (Layout.plain.render (.declaration :: t.outline.pieces none)) =
          .ok (t.outline.element none []) := readDocument_eq hfaithful _
    have hcreate := create_of_ok hroot s₀
    rw [load_of_readDocument hread, tag_element, hcreate]
    change ((moduleLoader group m).fill s₀.length _ (s₀.create t.blueprint).1).map
      (·, s₀.length) = _
    rw [hfill]
    rfl
  · exact hrestores.children.frame (fun j hj => by omega) fun _ _ _ hk => hk

/-- Orders have a number, and one item or one note. -/
def orders : Model where
  targetNamespace := some "urn:orders"
  elements := [("Order", ⟨"Order", none, .complex ⟨none, none, false, false,
    .particle ⟨1, .one, .group ⟨.choice,
      [⟨1, .one, .element ⟨"Item", none, .named (.builtin "string"), false⟩⟩,
        ⟨1, .one, .element ⟨"Note", none, .named (.builtin "string"), false⟩⟩]⟩⟩,
    [.declaration ⟨"Number", none, some (.named (.builtin "int")), none, none⟩ false]⟩, false⟩)]

def orderMembers : Membership :=
  ⟨.choice, 1, .one, [.element "Item" "Item" .one, .element "Note" "Note" .one]⟩

def orderModule : Module where
  targetNamespace := some "urn:orders"
  enumerations := []
  markers := []
  classes :=
    [⟨"Item", .localElement, "Item", none, some (.primitive .string), [], none, [], true⟩,
      ⟨"Note", .localElement, "Note", none, some (.primitive .string), [], none, [], true⟩,
      ⟨"Order", .topLevel, "Order", none, none,
        [⟨"Number", "number", .primitive (.integer ⟨true, 32⟩), none⟩], some orderMembers, [],
        true⟩]

theorem ofModel_orders : Module.ofModel orders = .ok orderModule := by
  with_unfolding_all rfl

theorem named_orders : orders.Named where
  complexTypes := by simp [orders]
  elements p hp := by
    obtain rfl := List.mem_singleton.mp hp
    have hnames : isNCName "Order" = true ∧ isNCName "Item" = true ∧ isNCName "Note" = true ∧
        IsAttributeName "Number" := by decide
    simp [ElementDeclaration.Named, ElementType.Named, ComplexType.Named, ComplexContent.Named,
      Particle.Named, Term.Named, ModelGroup.Named, namedParticles, AttributeUse.Named, hnames]
  attributes := by simp [orders]
  attributeGroups := by simp [orders]
  groups := by simp [orders]

theorem isOrdinaryUri_orders : ∀ u ∈ orders.targetNamespace, IsOrdinaryUri u := by
  intro u hu
  obtain rfl := Option.some.inj hu
  exact ⟨by decide, by decide, by decide⟩

theorem branchesDisjointIn_orderModule : BranchesDisjointIn orderModule := by
  intro c hc ms hms d hd _
  simp only [orderModule, List.mem_cons, List.not_mem_nil, or_false] at hc
  rcases hc with rfl | rfl | rfl
  · cases hms
  · cases hms
  · obtain rfl := Option.some.inj hms
    obtain rfl := List.mem_singleton.mp hd
    simp [slotEntries, MemberSlot.entry, Entry.accepts, Slot.accepts]

def orderBlueprint : Blueprint where
  typeName := "shop.Order"
  elementName := "Order"
  uri := some "urn:orders"
  collection := some orderMembers.collection
  creatable := some [("Item", ⟨"shop", "Item"⟩), ("Note", ⟨"shop", "Note"⟩)]
  attributes := .typed [⟨"Number", .primitive (.integer ⟨true, 32⟩), false⟩]

def itemBlueprint : Blueprint where
  typeName := "shop.Item"
  elementName := "Item"
  uri := some "urn:orders"
  collection := none
  creatable := none
  attributes := .typed [⟨"Content", .primitive .string, true⟩]

def itemTree : ElementTree := ⟨itemBlueprint, [some (.datum (.string "a < b"))], none, []⟩

/-- Order 42 of one item. -/
def orderTree : ElementTree :=
  ⟨orderBlueprint, [some (.datum (.integer 42))], some [1, 0], [itemTree]⟩

def orderStore : Store :=
  [{ orderBlueprint.node with
      values := [some (.datum (.integer 42))]
      collection := some ⟨.choice, 1, some 1,
        [.slot ⟨some "Item", some 1, [⟨1, "Item"⟩]⟩, .slot ⟨some "Note", some 1, []⟩]⟩ },
    { itemBlueprint.node with values := [some (.datum (.string "a < b"))], parent := some 0 }]

theorem built_orderStore : Built (moduleLoader "shop" orderModule) orderStore := by
  have horder := Built.create .empty (b := orderBlueprint)
    (l := moduleLoader "shop" orderModule) (List.mem_of_getElem? (i := 2) rfl)
  have hitem := horder.create (b := itemBlueprint) (List.mem_of_getElem? (i := 0) rfl)
  have hnumber := @Built.assign _ _ hitem 0 0 _ _ _ rfl rfl
    (.integer ⟨true, 32⟩ (n := 42) (by decide))
  have htext := @Built.assign _ _ hnumber 1 0 _ _ _ rfl rfl (.string "a < b")
  exact @Built.addChild _ _ _ htext 0 1 _ _ rfl rfl rfl rfl rfl

theorem holds_orderStore : orderStore.Holds (fun _ => True) 0 orderTree := by
  refine .intro trivial rfl ⟨rfl, rfl, rfl, rfl⟩ (.cons rfl rfl ?_ .nil)
  exact .intro trivial rfl ⟨rfl, rfl, rfl, rfl⟩ .nil

theorem sayable_orderTree : ∀ u ∈ orderTree.subtrees, u.Sayable := by
  intro u hu
  have hu : u ∈ [orderTree, itemTree] := hu
  rcases List.mem_cons.mp hu with rfl | hu
  · refine ⟨fun p hp v hv => ?_, fun text ht => by cases ht⟩
    obtain rfl := List.mem_singleton.mp hp
    obtain rfl := Option.some.inj hv
    trivial
  · obtain rfl := List.mem_singleton.mp hu
    constructor
    · intro p hp v hv
      obtain rfl := List.mem_singleton.mp hp
      obtain rfl := Option.some.inj hv
      have hplain : isPlainText "a < b" = true := by decide
      exact hplain
    · intro text ht
      obtain rfl : "a < b" = text := Option.some.inj ht
      exact ⟨by decide, fun h => absurd rfl h⟩

/-- An order is loaded as it was. -/
theorem load_toXml_order : ∃ text, orderStore.toXml .plain 0 = .ok text ∧
    ∀ s₀ : Store, ∃ s' root', (moduleLoader "shop" orderModule).load text s₀ = .ok (s', root') ∧
      s'.Holds (s₀.length ≤ ·) root' orderTree :=
  load_toXml "shop" named_orders isOrdinaryUri_orders ofModel_orders
    branchesDisjointIn_orderModule built_orderStore holds_orderStore rfl sayable_orderTree

end XmlBinding.Tree
