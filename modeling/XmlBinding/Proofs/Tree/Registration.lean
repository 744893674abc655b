import XmlBinding.Proofs.Binding.Documents
import XmlBinding.Proofs.Binding.Turns
import XmlBinding.Proofs.Code.Registry
import XmlBinding.Proofs.Schema.Order

/-! # What a registry makes

The registry of a module lists every class that can be made of a document, top-level elements first.
So the name of such an element leads to its own class, although there may be other classes for
elements of that name, or of names that end with it.
-/
namespace XmlBinding.Binding
open Schema XmlBinding.Tree Code

/-! ## The registered classes -/

theorem Module.registered_perm (m : Module) :
    m.registered.Perm (m.classes.filter (·.registered)) := by
  have hkeys : [Origin.topLevel, .localElement, .complexType].Nodup := by decide
  have hperm := perm_flatMap_filter hkeys (·.origin) (m.classes.filter (·.registered))
    fun k _ => by cases k.origin <;> simp
  simpa [Module.registered, List.filter_filter, Bool.and_comm] using hperm

theorem Module.mem_registered {m : Module} {k : ElementClass} :
    k ∈ m.registered ↔ k ∈ m.classes ∧ k.registered = true := by
  rw [m.registered_perm.mem_iff, List.mem_filter]

section
variable {model : Model} {m : Module}

/-- Top-level classes are for the elements of the schema, in order. -/
theorem InTurn.xmlNames {types : List (String × ComplexType)} {ks : List ElementClass}
    (hm : model.Keyed) (h : InTurn model types model.elements ks) :
    (ks.filter (·.origin = .topLevel)).map (·.xmlName) = model.elements.map (·.1) := by
  have hnamed := (List.forall₂_and_left _ _).mpr ⟨hm.elementName, h.elements⟩
  have hsame : List.Forall₂ (· = ·) (model.elements.map (·.1))
      ((ks.filter (·.origin = .topLevel)).map (·.xmlName)) := by
    rw [List.forall₂_map_left_iff, List.forall₂_map_right_iff]
    exact hnamed.imp fun e k ⟨hname, hk⟩ => (hk.tells.xmlName.trans hname).symm
  rw [List.forall₂_eq_eq_eq] at hsame
  exact hsame.symm

/-- What stands in a list under some name is found there if all names differ. -/
theorem find?_of_nodup {α : Type} {f : α → String} {xs : List α} (h : (xs.map f).Nodup) {x : α}
    (hx : x ∈ xs) : xs.find? (f · = f x) = some x := by
  rw [← List.head?_filter, filter_eq_singleton h hx, List.head?_cons]

section
variable (hm : model.Keyed) (h : InTurn model model.complexTypes model.elements m.classes)
  {e : String × ElementDeclaration} (he : e ∈ model.elements)
include hm h he

/-- An element of the schema has one class of its own. -/
theorem InTurn.existsUnique : ∃! k, k ∈ m.classes ∧ k.BuiltBy (buildElement model e.1 e.2) := by
  have hkeys : ((m.classes.filter (·.origin = .topLevel)).map (·.xmlName)).Nodup := by
    rw [h.xmlNames hm]
    exact hm.elements
  have htop {k : ElementClass} (hk : k ∈ m.classes)
      (hbuilt : k.BuiltBy (buildElement model e.1 e.2)) :
      k ∈ m.classes.filter (·.origin = .topLevel) :=
    List.mem_filter.mpr ⟨hk, decide_eq_true hbuilt.tells.origin⟩
  obtain ⟨k, hk, hbuilt⟩ := exists_of_mem_left h.elements he
  refine ⟨k, ⟨(List.mem_filter.mp hk).1, hbuilt⟩, fun k' hk' => ?_⟩
  have hname : k'.xmlName = k.xmlName := hk'.2.tells.xmlName.trans hbuilt.tells.xmlName.symm
  exact List.inj_on_of_nodup_map hkeys (htop hk'.1 hk'.2) hk hname

/-- Among the registered classes that of an element comes first under its name. -/
theorem InTurn.find?_registered (hconcrete : e.2.isAbstract = false) {k : ElementClass}
    (hk : k ∈ m.classes) (hbuilt : k.BuiltBy (buildElement model e.1 e.2)) :
    m.registered.find? (·.xmlName = e.1) = some k := by
  have htells := hbuilt.tells
  have hname : k.xmlName = e.1 := htells.xmlName.trans (hm.elementName e he)
  have hkeys : ((m.classes.filter fun k => k.registered && k.origin = .topLevel).map
      (·.xmlName)).Nodup := by
    have hsub := (List.filter_sublist (l := m.classes.filter (·.origin = .topLevel))
      (p := (·.registered))).map (·.xmlName)
    rw [List.filter_filter, h.xmlNames hm] at hsub
    exact hm.elements.sublist hsub
  have hmem : k ∈ m.classes.filter fun k => k.registered && k.origin = .topLevel := by
    simp [hk, htells.registered, htells.origin, hconcrete]
  rw [Module.registered, List.append_assoc, List.find?_append, ← hname, find?_of_nodup hkeys hmem,
    Option.some_or]

end

/-! ## What is made -/

theorem typeName_of_get? {group : String} {kind : Tree.Kind} {b : Blueprint}
    (h : (moduleBlueprints group m).get? kind = some b) :
    b.typeName = group ++ "." ++ kind.name := by
  obtain ⟨⟨kind', b'⟩, hfind, rfl⟩ := Option.map_eq_some_iff.mp h
  obtain rfl : kind' = kind := by simpa using List.find?_some hfind
  obtain ⟨k, -, heq⟩ := List.mem_map.mp (List.mem_of_find?_eq_some hfind)
  cases heq
  rfl

/-- A registry makes instances of the first class under a name, and so does a loader that asks it
before others. -/
theorem exists_create {group : String} {l : Loader} (hl : Offers l group m)
    (hnames : (m.classes.map (·.name)).Nodup) {k : ElementClass} {name : String}
    (hfind : m.registered.find? (·.xmlName = name) = some k) :
    ∃ b, l.blueprints.get? ⟨group, k.name⟩ = some b ∧ b.typeName = group ++ "." ++ k.name ∧
      b.elementName = name ∧ ∀ s,
        (moduleRegistry group m).create l.blueprints name s = some (s.create b) ∧
        ∀ others, l.registries = moduleRegistry group m :: others →
          l.create name s = .ok (s.create b) := by
  have hk := (Module.mem_registered.mp (List.mem_of_find?_eq_some hfind)).1
  have hname : k.xmlName = name := by simpa using List.find?_some hfind
  obtain ⟨b, hb, helement, -⟩ := get?_moduleBlueprints (filter_eq_singleton hnames hk) group
  have hexact : (moduleRegistry group m).findExact name =
      some ⟨k.xmlName, k.name, ⟨group, k.name⟩⟩ := by
    rw [Registry.findExact, moduleRegistry, List.find?_map]
    exact congrArg (Option.map _) hfind
  have hget : l.blueprints.get? ⟨group, k.name⟩ = some b := (hl k.name).trans hb
  refine ⟨b, hget, typeName_of_get? hb, helement.trans hname, fun s => ?_⟩
  refine ⟨?_, fun others hothers => ?_⟩
  · simp [Registry.create, Registry.lookup, hexact, hget]
  · simp [Loader.create, lookupAll, hothers, hexact, Loader.make, hget]

end

/-- A module whose registry lists the elements of a schema before anything else. -/
structure Module.ElementsFirst (model : Model) (m : Module) : Prop where
  /-- All classes are registered but those that are built for abstract elements, -/
  listed : ∀ k, k ∈ m.registered ↔
    k ∈ m.classes ∧ ∀ d, k.BuiltFor model d → d.isAbstract = false
  /-- each under a name of its own, however it is written. -/
  once : (m.registered.map fun k => written k.name).Nodup
  /-- Elements of the schema come first, in their order, then those inside of types, and at last
  types. -/
  order : ∃ elements inner types, m.registered = elements ++ inner ++ types ∧
    List.Forall₂ (fun e k => k.BuiltBy (buildElement model e.1 e.2))
      (model.elements.filter fun e => !e.2.isAbstract) elements ∧
    (∀ k ∈ inner, k.Inner model) ∧
    List.Forall₂ (fun e k => k.BuiltBy (buildComplexType model e.1 e.2))
      (model.complexTypes.filter fun e => !e.2.isAbstract) types
  /-- Every element of the schema has one class of its own, -/
  own : ∀ e ∈ model.elements, ∃! k, k ∈ m.classes ∧ k.BuiltBy (buildElement model e.1 e.2)
  /-- which is what the registry makes an instance of for its name, and any loader that asks this
  registry before others, whatever else has that name. -/
  makes : ∀ e ∈ model.elements, e.2.isAbstract = false →
    ∀ k ∈ m.classes, k.BuiltBy (buildElement model e.1 e.2) →
    ∀ (group : String) (l : Loader), Offers l group m →
    ∃ b, l.blueprints.get? ⟨group, k.name⟩ = some b ∧ b.typeName = group ++ "." ++ k.name ∧
      b.elementName = e.1 ∧ ∀ s,
        (moduleRegistry group m).create l.blueprints e.1 s = some (s.create b) ∧
        ∀ others, l.registries = moduleRegistry group m :: others →
          l.create e.1 s = .ok (s.create b)

section
variable {model : Model} {m : Module}

/-- A class is registered unless the element it is built for is abstract. -/
theorem InTurn.registered_iff {types : List (String × ComplexType)}
    {elements : List (String × ElementDeclaration)} {ks : List ElementClass}
    (h : InTurn model types elements ks) {k : ElementClass} (hk : k ∈ ks) :
    k.registered = true ↔ ∀ d, k.BuiltFor model d → d.isAbstract = false := by
  constructor
  · intro hregistered d hd
    obtain ⟨origin, -, htells⟩ := hd.tells
    simpa [hregistered] using htells.registered
  intro hconcrete
  have hlisted {origin : Origin} {d : ElementDeclaration} (hd : k.BuiltFor model d)
      (htells : k.Tells origin d) : k.registered = true := by
    rw [htells.registered, hconcrete d hd, Bool.not_false]
  cases horigin : k.origin with
  | topLevel =>
    obtain ⟨e, -, hbuilt⟩ := exists_of_mem_right h.elements
      (List.mem_filter.mpr ⟨hk, decide_eq_true horigin⟩)
    exact hlisted (.inl ⟨e.1, hbuilt⟩) hbuilt.tells
  | localElement =>
    obtain ⟨d, -, hinner⟩ := h.inner k hk horigin
    exact hlisted (.inr hinner) hinner.tells
  | complexType =>
    obtain ⟨e, he, hbuilt⟩ := exists_of_mem_right h.types
      (List.mem_filter.mpr ⟨hk, decide_eq_true horigin⟩)
    exact (hbuilt.ofType (by simpa using (List.mem_filter.mp he).2)).2.2

/-- Classes of the elements of a schema are registered as far as these are not abstract. -/
theorem InTurn.registered_elements {types : List (String × ComplexType)}
    {elements : List (String × ElementDeclaration)} (h : InTurn model types elements m.classes) :
    List.Forall₂ (fun e k => k.BuiltBy (buildElement model e.1 e.2))
      (elements.filter fun e => !e.2.isAbstract)
      (m.classes.filter fun k => k.registered && k.origin = .topLevel) := by
  rw [← List.filter_filter]
  refine List.rel_filter (fun e k hbuilt => ?_) h.elements
  simp [hbuilt.tells.registered]

theorem InTurn.registered_types {types : List (String × ComplexType)}
    {elements : List (String × ElementDeclaration)} (h : InTurn model types elements m.classes) :
    List.Forall₂ (fun e k => k.BuiltBy (buildComplexType model e.1 e.2))
      (types.filter fun e => !e.2.isAbstract)
      (m.classes.filter fun k => k.registered && k.origin = .complexType) := by
  have hall : (m.classes.filter fun k => k.registered && k.origin = .complexType) =
      m.classes.filter fun k => k.origin = .complexType := by
    refine List.filter_congr fun k hk => ?_
    rw [Bool.and_eq_right_iff_imp]
    intro horigin
    obtain ⟨e, he, hbuilt⟩ := exists_of_mem_right h.types (List.mem_filter.mpr ⟨hk, horigin⟩)
    exact (hbuilt.ofType (by simpa using (List.mem_filter.mp he).2)).2.2
  rw [hall]
  exact h.types

theorem InTurn.elementsFirst (hm : model.Keyed)
    (h : InTurn model model.complexTypes model.elements m.classes)
    (hwritten : ((m.classes.map (·.name)).map written).Nodup) : m.ElementsFirst model where
  listed k := by
    rw [Module.mem_registered]
    exact and_congr_right fun hk => h.registered_iff hk
  once := by
    rw [List.map_map] at hwritten
    exact (m.registered_perm.map _).nodup_iff.mpr (hwritten.sublist (List.filter_sublist.map _))
  order := by
    refine ⟨_, _, _, rfl, h.registered_elements, fun k hk => ?_, h.registered_types⟩
    obtain ⟨hk, hlisted⟩ := List.mem_filter.mp hk
    exact h.inner k hk (by simpa using (Bool.and_eq_true_iff.mp hlisted).2)
  own _ he := h.existsUnique hm he
  makes e he hconcrete k hk hbuilt group l hl :=
    exists_create hl (List.Nodup.of_map _ hwritten) (h.find?_registered hm he hconcrete hk hbuilt)

end

end XmlBinding.Binding

namespace XmlBinding
open Schema Binding Xml Code

/-- The registry of generated code lists the classes of the elements of a schema first, so that it
makes their instances by their names. -/
theorem elementsFirst_of_generate {text source : String} {options : Options}
    (h : generate text options = .ok source) :
    ∃ root model m modules support, readDocument options.allowDoctype text = .ok root ∧
      readModel root = .ok model ∧ ListsElements root.elements model.elements ∧
      Module.ofModel model = .ok m ∧ source = (sourceFile m modules support).text ∧
      (∃ f, (sourceFile m modules support).functions = [f] ∧ f.name = "registry" ∧
        f.listings? = some (m.registered.map listing)) ∧
      m.ElementsFirst model := by
  obtain ⟨m, modules, support, hm, hsource⟩ := exists_of_generate h
  obtain ⟨model, hread, hbound⟩ := bindSchema_eq_ok.mp hm
  obtain ⟨root, hroot, hmodel⟩ := readSchema_eq_ok.mp hread
  have hkeyed := keyed_of_readModel hmodel
  have hclasses : (m.classes.map (·.name)).Sublist m.identifiers :=
    (List.sublist_append_left _ _).trans (List.sublist_append_right _ _)
  have hwritten := (closed_of_bindSchema hm).identifiers.sublist (hclasses.map written)
  exact ⟨root, model, m, modules, support, hroot, hmodel, listsElements_of_readModel hmodel, hbound,
    hsource, functions_sourceFile m modules support,
    (Module.inTurn_of_ofModel hkeyed hbound).elementsFirst hkeyed hwritten⟩

/-- An element among others of its name and one of a name that ends with it. -/
def crowdedOutline : Outline :=
  let word (name : String) (more : List (String × String)) :=
    schemaElement "element" ([("name", name), ("type", "string")] ++ more) []
  schemaElement "schema" [] [
    schemaElement "complexType" [("name", "order")]
      [schemaElement "sequence" [] [word "order" []]],
    word "preorder" [], word "head" [("abstract", "true")], word "order" []]

def crowdedSchema : Model :=
  let word (name : String) (isAbstract : Bool) : ElementDeclaration :=
    ⟨name, none, .named (.builtin "string"), isAbstract⟩
  { complexTypes := [("order", ⟨some "order", none, false, false,
      .particle ⟨1, .one, .group ⟨.sequence, [⟨1, .one, .element (word "order" false)⟩]⟩⟩, []⟩)]
    elements := [("preorder", word "preorder" false), ("head", word "head" true),
      ("order", word "order" false)] }

theorem readModel_crowdedOutline :
    readModel (crowdedOutline.element none []) = .ok crowdedSchema := by
  cbv

theorem elementsFirst_crowdedOutline :
    ∃ source, generate crowdedOutline.document {} = .ok source ∧
      ∃ root model m modules support, readDocument false crowdedOutline.document = .ok root ∧
        readModel root = .ok model ∧ ListsElements root.elements model.elements ∧
        Module.ofModel model = .ok m ∧ source = (sourceFile m modules support).text ∧
        m.registered.map (fun k => (k.xmlName, k.name)) = [("preorder", "Preorder"),
          ("order", "OrderElement"), ("order", "Orderorder"), ("order", "Order")] ∧
        (∃ f, (sourceFile m modules support).functions = [f] ∧ f.name = "registry" ∧
          f.listings? = some (m.registered.map listing)) ∧
        m.ElementsFirst model := by
  obtain ⟨m, hm, hnames⟩ := exists_bindSchema_document (P := fun m =>
      m.registered.map (fun k => (k.xmlName, k.name)) = [("preorder", "Preorder"),
        ("order", "OrderElement"), ("order", "Orderorder"), ("order", "Order")])
    (by decide +kernel) readModel_crowdedOutline (by decide +kernel) false
  obtain ⟨source, hsource⟩ := exists_generate hm
  obtain ⟨root, model, m', modules, support, hroot, hmodel, hlists, hbound, hrest⟩ :=
    elementsFirst_of_generate hsource
  have hread := readSchema_eq_ok.mpr ⟨root, hroot, hmodel⟩
  have hm' := bindSchema_eq_ok.mpr ⟨model, hread, hbound⟩
  obtain rfl : m' = m := Except.ok.inj (hm'.symm.trans hm)
  exact ⟨source, hsource, root, model, m', modules, support, hroot, hmodel, hlists, hbound,
    hrest.1, of_decide_eq_true hnames, hrest.2⟩

end XmlBinding
