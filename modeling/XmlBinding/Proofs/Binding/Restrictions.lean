import XmlBinding.Proofs.Binding.Inheritance

/-! # Restrictions of complex content

A restriction of complex content is read without its base. So nothing is inherited through it: a
class has the attributes that the restriction states itself, whatever the base has, and no marker
of an abstract base.
-/
namespace XmlBinding.Schema
open Xml

/-- The contents of a complex type by which it is derived from another type. -/
def derivedContents (e : Element) : List Element :=
  e.elements.filter fun c => c.tag = "simpleContent" || c.tag = "complexContent"

/-- A complex type that is derived by restriction of the complex content of a base. -/
def Restricts (e : Element) (base : TypeName) : Prop :=
  ∃ c d, derivedContents e = [c] ∧ c.tag = "complexContent" ∧ derivation? c = some d ∧
    d.tag = "restriction" ∧ requiredBase d = .ok base

/-- A content that was read adds to no base. -/
def ContentParts.Baseless (parts : ContentParts) : Prop :=
  ∀ content ∈ parts.content, content.baseName? = none

theorem readContentChild_content (parent : String) (c : Element) (parts : ContentParts) :
    Yields (readContentChild parent c parts) fun p => p.content = parts.content := by
  rw [readContentChild]
  split
  · exact yields_ok rfl
  · exact yields_ok rfl
  · exact yields_bind fun use => yields_ok rfl
  · exact yields_bind fun use => yields_ok rfl
  · split
    · exact yields_bind fun p => yields_ok rfl
    · exact yields_error

theorem baseless_of_content {parts parts' : ContentParts} (h : parts.Baseless)
    (hcontent : parts'.content = parts.content) : parts'.Baseless := by
  rw [ContentParts.Baseless, hcontent]
  exact h

theorem readComplexContent_baseless {c d : Element} (hd : derivation? c = some d)
    (htag : d.tag = "restriction") (parts : ContentParts) :
    Yields (readComplexContent c parts) ContentParts.Baseless := by
  rw [readComplexContent]
  refine yields_bind fun mixed => ?_
  split
  · exact yields_error
  · next d' hd' =>
    obtain rfl := Option.some.inj (hd.symm.trans hd')
    refine yields_bind fun base => yields_bind fun parts => yields_ok fun content hcontent => ?_
    obtain rfl := Option.some.inj hcontent
    rw [if_neg (by simp [htag])]
    cases parts.particle <;> rfl

/-- What is read of a restriction has no base. -/
theorem readComplexType_baseless {e : Element} {base : TypeName} (h : Restricts e base) :
    Yields (readComplexType e) fun t => t.content.baseName? = none := by
  obtain ⟨c, d, hcontents, hc, hd, htag, -⟩ := h
  have honly (c' : Element) (hc' : c' ∈ e.elements)
      (htag' : c'.tag = "simpleContent" ∨ c'.tag = "complexContent") : c' = c := by
    rw [← List.mem_singleton, ← hcontents, derivedContents, List.mem_filter]
    exact ⟨hc', by simpa using htag'⟩
  rw [readComplexType]
  refine yields_bind fun isAbstract => yields_bind fun mixed => ?_
  refine Yields.bind (yields_foldlM (P := ContentParts.Baseless) (fun parts c' hparts => ?_)
    (by simp [ContentParts.Baseless])) fun parts hparts => yields_ok ?_
  · obtain ⟨c', hc'⟩ := c'
    dsimp only
    split
    · exact yields_ok hparts
    · next htag' =>
      obtain rfl := honly c' hc' (.inl htag')
      rw [hc] at htag'
      exact absurd htag' (by decide)
    · next htag' =>
      obtain rfl := honly c' hc' (.inr htag')
      exact readComplexContent_baseless hd htag parts
    · exact yields_error
    · exact yields_error
    · exact fun p hp => baseless_of_content hparts (readContentChild_content e.tag c' parts p hp)
  · cases hcontent : parts.content with
    | none => cases parts.particle <;> rfl
    | some content => exact hparts content hcontent

end XmlBinding.Schema

namespace XmlBinding.Binding
open Schema Xml

section
variable {model : Model} {k : ElementClass} {t : ComplexType}

/-- A type without a base has just the attributes that it states. -/
theorem ElementClass.DraftedOf.ownNames (h : k.DraftedOf model t)
    (hbase : t.content.baseType? model = none) :
    ∃ sources, Expands model t.attributes sources ∧
      k.fields.map (·.xmlName) = firstOf id (sources.map (·.name)) := by
  obtain ⟨names, ⟨ts, sources, hchain, hexpand, rfl⟩, hnames⟩ := h.names
  cases hchain with
  | derived hbase' _ =>
    rw [hbase] at hbase'
    cases hbase'
  | alone _ =>
    cases hexpand with
    | cons hown hnil =>
      cases hnil
      exact ⟨_, hown, by simpa [NamedFirst] using hnames⟩

theorem ElementClass.DraftedOf.markers_eq_nil (h : k.DraftedOf model t)
    (hbase : t.content.baseType? model = none) (ht : t.isAbstract = false) : k.markers = [] := by
  obtain ⟨d, hd, -, hmarkers⟩ := h
  rw [hmarkers, hd.markers (.alone hbase) (by simpa using ht)]

end

/-- Nothing is inherited through restrictions of complex content. -/
structure Module.RestrictionsAlone (root : Element) (model : Model) (m : Module) : Prop where
  /-- The uses of a restriction are those that its own element states. -/
  uses : ∀ e base t, root.Contains e → Restricts e base → readComplexType e = .ok t →
    ReadFrom (statedUses e) t.attributes
  /-- A class of it has fields for what these uses stand for and no others, so an attribute of the
  base is kept if and only if it is stated again; -/
  names : ∀ e base t, root.Contains e → Restricts e base → readComplexType e = .ok t →
    ∀ k ∈ m.classes, k.BuiltOf model t → ∃ sources, Expands model t.attributes sources ∧
      k.fields.map (·.xmlName) = firstOf id (sources.map (·.name))
  /-- and it has no marker, whatever the base is. -/
  markers : ∀ e base t, root.Contains e → Restricts e base → readComplexType e = .ok t →
    t.isAbstract = false → ∀ k ∈ m.classes, k.BuiltOf model t → k.markers = []
  /-- Every concrete type of the schema has a class. -/
  complexTypes : ∀ e ∈ model.complexTypes, e.2.isAbstract = false →
    ∃ k ∈ m.classes, k.xmlName = e.1 ∧ k.BuiltOf model e.2

theorem Module.restrictionsAlone_of_ofModel {root : Element} {model : Model} {m : Module}
    (hmodel : readModel root = .ok model) (hm : Module.ofModel model = .ok m) :
    m.RestrictionsAlone root model := by
  have hbase {e : Element} {base : TypeName} {t : ComplexType} (h : Restricts e base)
      (ht : readComplexType e = .ok t) : t.content.baseType? model = none := by
    rw [ComplexContent.baseType?, readComplexType_baseless h t ht]
    rfl
  exact {
    uses := fun e _ t _ _ ht => readComplexType_readFrom e t ht
    names := fun _ _ _ _ h ht _ _ hk => hk.drafted.ownNames (hbase h ht)
    markers := fun _ _ _ _ h ht hconcrete _ _ hk => hk.drafted.markers_eq_nil (hbase h ht) hconcrete
    complexTypes := fun _ he hconcrete =>
      (Module.inTurn_of_ofModel (keyed_of_readModel hmodel) hm).exists_ofType he hconcrete }

/-- An element prohibits an attribute in the derivation of a content of it. -/
def Prohibits (e : Element) (name : String) : Prop :=
  ∃ c ∈ derivedContents e, ∃ d ∈ derivation? c, ∃ a ∈ d.elements, a.tag = "attribute" ∧
    a.attribute? "use" = some "prohibited" ∧
    (a.attribute? "name" = some name ∨
      ∃ n, nameAttribute a "ref" = .ok (some n) ∧ n.localName = name)

/-- Restrictions of complex content keep the attributes of their bases but those they prohibit. -/
def Module.RestrictionsKeep (root : Element) (model : Model) (m : Module) : Prop :=
  ∀ e base t s, root.Contains e → Restricts e base → readComplexType e = .ok t →
    model.typeNamed? base = some s → ∀ k ∈ m.classes, k.BuiltOf model t →
    ∀ b ∈ m.classes, b.BuiltOf model s → ∀ f ∈ b.fields, ¬ Prohibits e f.xmlName →
      ∃ g ∈ k.fields, g.xmlName = f.xmlName

end XmlBinding.Binding

namespace XmlBinding
open Schema Binding Xml Code

/-- What is generated for a restriction of complex content has the attributes that the restriction
states and no others, and no marker. -/
theorem restrictionsAlone_of_generate {text source : String} {options : Options}
    (h : generate text options = .ok source) :
    ∃ root model m modules support, readDocument options.allowDoctype text = .ok root ∧
      readModel root = .ok model ∧ Module.ofModel model = .ok m ∧
      source = (sourceFile m modules support).text ∧ m.RestrictionsAlone root model := by
  obtain ⟨m, modules, support, hm, hsource⟩ := exists_of_generate h
  obtain ⟨model, hread, hbound⟩ := bindSchema_eq_ok.mp hm
  obtain ⟨root, hroot, hmodel⟩ := readSchema_eq_ok.mp hread
  exact ⟨root, model, m, modules, support, hroot, hmodel, hbound, hsource,
    Module.restrictionsAlone_of_ofModel hmodel hbound⟩

/-- A restriction without a word about attributes. -/
def narrowOutline : Outline :=
  ⟨"complexType", none, [("name", "Narrow")], none, [⟨"complexContent", none, [], none,
    [⟨"restriction", none, [("base", "Wide")], none, []⟩]⟩]⟩

/-- A type with an attribute, and one that restricts it. -/
def wideOutline (isAbstract : String) : Outline :=
  ⟨"schema", none, [], none, [
    ⟨"complexType", none, [("name", "Wide"), ("abstract", isAbstract)], none,
      [⟨"attribute", none, [("name", "unit")], none, []⟩]⟩,
    narrowOutline]⟩

def wideSchema (isAbstract : Bool) : Model :=
  { complexTypes := [
      ("Wide", ⟨some "Wide", none, isAbstract, false, .empty,
        [.declaration ⟨"unit", none, none, none, none⟩ false]⟩),
      ("Narrow", ⟨some "Narrow", none, false, false, .empty, []⟩)] }

theorem readModel_wideOutline :
    readModel ((wideOutline "false").element none []) = .ok (wideSchema false) ∧
      readModel ((wideOutline "true").element none []) = .ok (wideSchema true) := by
  constructor <;> cbv

theorem restrictionsAlone_wideOutline :
    ∃ source, generate (wideOutline "true").document {} = .ok source ∧
      ∃ root model m modules support, readDocument false (wideOutline "true").document = .ok root ∧
        readModel root = .ok model ∧ Module.ofModel model = .ok m ∧
        source = (sourceFile m modules support).text ∧
        m.markers.map (·.name) = ["Wide"] ∧ m.classes.map (·.xmlName) = ["Narrow"] ∧
        m.RestrictionsAlone root model := by
  obtain ⟨m, hm, hP⟩ := exists_bindSchema_document (P := fun m =>
      m.markers.map (·.name) = ["Wide"] && m.classes.map (·.xmlName) = ["Narrow"])
    (by decide +kernel) readModel_wideOutline.2 (by decide +kernel) false
  rw [Bool.and_eq_true, decide_eq_true_eq, decide_eq_true_eq] at hP
  obtain ⟨source, hsource⟩ := exists_generate hm
  obtain ⟨root, model, m', modules, support, hroot, hmodel, hbound, hrest⟩ :=
    restrictionsAlone_of_generate hsource
  have hread := readSchema_eq_ok.mpr ⟨root, hroot, hmodel⟩
  have hm' := bindSchema_eq_ok.mpr ⟨model, hread, hbound⟩
  obtain rfl : m' = m := Except.ok.inj (hm'.symm.trans hm)
  exact ⟨source, hsource, root, model, m', modules, support, hroot, hmodel, hbound, hrest.1,
    hP.1, hP.2, hrest.2⟩

theorem restricts_narrowOutline : Restricts (narrowOutline.element none []) (.schema "Wide") :=
  ⟨_, _, rfl, rfl, rfl, rfl, by cbv⟩

theorem readComplexType_narrowOutline : readComplexType (narrowOutline.element none []) =
    .ok ⟨some "Narrow", none, false, false, .empty, []⟩ := by
  cbv

theorem not_prohibits_narrowOutline (name : String) :
    ¬ Prohibits (narrowOutline.element none []) name := by
  rintro ⟨c, hc, d, hd, a, ha, -⟩
  obtain rfl := List.mem_singleton.mp hc
  obtain rfl := Option.some.inj hd
  cases ha

/-- The attribute of the base is lost, although the restriction does not prohibit it. -/
theorem not_restrictionsKeep_wideOutline : ∃ root model m,
    readDocument false (wideOutline "false").document = .ok root ∧
      readModel root = .ok model ∧ Module.ofModel model = .ok m ∧
      ¬ m.RestrictionsKeep root model := by
  have hdocument : ∀ p ∈ (wideOutline "false").outlines, p.Proper isPlain := by decide +kernel
  obtain ⟨m, hm, hnames⟩ := exists_of_toOption (wideSchema false)
    (P := fun m => m.attributeNames = [("Wide", ["unit"]), ("Narrow", [])]) (by decide +kernel)
  have hnames := of_decide_eq_true hnames
  have halone := Module.restrictionsAlone_of_ofModel readModel_wideOutline.1 hm
  refine ⟨_, _, m, readDocument_pieces (fun p hp => (hdocument p hp).faithful) false,
    readModel_wideOutline.1, hm, fun hkeep => ?_⟩
  obtain ⟨b, hb, hwide, hbuilt⟩ := halone.complexTypes _ List.mem_cons_self rfl
  obtain ⟨k, hk, hnarrow, hbuilt'⟩ :=
    halone.complexTypes _ (List.mem_cons_of_mem _ List.mem_cons_self) rfl
  have hlisted {c : ElementClass} (hc : c ∈ m.classes) :
      (c.xmlName, c.fields.map (·.xmlName)) ∈ [("Wide", ["unit"]), ("Narrow", [])] :=
    hnames ▸ List.mem_map_of_mem hc
  have hunit : b.fields.map (·.xmlName) = ["unit"] := by simpa [hwide] using hlisted hb
  have hnone : k.fields = [] := by simpa [hnarrow] using hlisted hk
  obtain ⟨f, hf, -⟩ := List.mem_map.mp (hunit ▸ List.mem_singleton_self "unit")
  have hinside : ((wideOutline "false").element none []).Contains (narrowOutline.element none []) :=
    .child .self (List.mem_cons_of_mem _ List.mem_cons_self)
  obtain ⟨g, hg, -⟩ := hkeep _ _ _ _ hinside restricts_narrowOutline readComplexType_narrowOutline
    rfl k hk hbuilt' b hb hbuilt f hf (not_prohibits_narrowOutline _)
  rw [hnone] at hg
  cases hg

end XmlBinding
