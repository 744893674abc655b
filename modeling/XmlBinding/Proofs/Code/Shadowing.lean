import XmlBinding.Proofs.Code.Uses

/-! # Types that shadow what the code uses

The catalog keeps names from the types that it declares, so that they do not hide what the code
finds around it. It keeps all of them but one: the trait by which text is set.
-/
namespace XmlBinding.Binding
open Schema

/-- Only the keyword for the type itself is like the name of a type, and it is not written raw. -/
theorem IsTypeName.written {name : String} (h : IsTypeName name) :
    IsTypeName (written name) ∧ written name ∉ keywords := by
  have hsmall : ∀ word ∈ keywords ++ contextualKeywords, word = "Self" ∨ ¬ IsTypeName word := by
    decide
  by_cases hself : name = "Self"
  · subst hself
    decide
  · have hword : name ∉ keywords ++ contextualKeywords := fun hmem =>
      (hsmall name hmem).elim hself fun hnot => hnot h
    have hpath : name ∉ pathKeywords := by
      have hsub : pathKeywords ⊆ keywords ++ contextualKeywords := by decide
      exact fun hmem => hword (hsub hmem)
    obtain ⟨hkeyword, hcontextual⟩ := not_or.mp (List.mem_append.not.mp hword)
    have hsame : Binding.written name = name := by
      simp [Binding.written, hpath, hkeyword, hcontextual]
    rw [hsame]
    exact ⟨h, hkeyword⟩

/-- The names that are given to something in the schema. -/
def Module.givenNames (m : Module) : List String :=
  m.enumerations.map (·.name) ++ (m.markers.map (·.name) ++ m.classes.map (·.name))

/-- The names of a module are those of types, and a class bears no marker but by one of them. -/
theorem Module.given_of_ofModel {model : Model} (hm : model.Keyed) {m : Module}
    (h : Module.ofModel model = .ok m) : (∀ name ∈ m.identifiers, IsTypeName name) ∧
      ∀ c ∈ m.classes, ∀ name ∈ c.markers,
        name ∈ m.classes.map (·.name) ++ m.markers.map (·.name) := by
  obtain ⟨c, hc, rfl⟩ := coherent_of_ofModel model hm h
  constructor
  · rw [← c.names_nil]
    exact hc.isTypeName_names
  · intro k hk name hname
    obtain ⟨t, ht, rfl⟩ := (hc.covered.classes k hk).markerNames name hname
    have hpromised : t ∈ c.classes.map ElementClass.promise ++ c.markers.map Marker.promise := ht
    rcases List.mem_append.mp hpromised with hclass | hmarker
    · obtain ⟨k', hk', rfl⟩ := List.mem_map.mp hclass
      exact List.mem_append_left _ (List.mem_map_of_mem hk')
    · obtain ⟨k', hk', rfl⟩ := List.mem_map.mp hmarker
      exact List.mem_append_right _ (List.mem_map_of_mem hk')

end XmlBinding.Binding

namespace XmlBinding.Code
open Binding

/-- The type or trait that an item declares for something in the schema. The container, the only
unit, is for none. -/
def Item.givenName? : Item → Option String
  | .unit .. => none
  | item => item.typeName?

/-- The enumerations, traits and records that a file declares. -/
def File.givenNames (f : File) : List String := f.items.filterMap Item.givenName?

/-- Nothing that is declared for the schema hides the container or what the code finds around it. -/
def File.Unshadowed (f : File) : Prop :=
  ∀ name ∈ f.givenNames, name ∉ containerName :: outerNames

theorem givenNames_sourceFile (m : Module) (modules : List String) (support : String) :
    (sourceFile m modules support).givenNames = m.givenNames.map written := by
  have hgiven (item : Item) (hitem : ∀ notes name, item ≠ .unit notes name) :
      item.givenName? = item.typeName? := by
    cases item with
    | unit notes name => exact absurd rfl (hitem notes name)
    | _ => rfl
  have hcontainer : (containerItems (readersOf m none)).filterMap Item.givenName? = [] := by
    rw [containerItems]
    split <;> rfl
  rw [File.givenNames, filterMap_sourceFile hgiven, hcontainer]
  simp [Module.givenNames, Function.comp_def]

/-- The catalog gives out none of the names that it keeps. -/
theorem eq_into_of_given {m : Module} (h : (m.identifiers.map written).Nodup)
    {modules : List String} {support name : String}
    (hgiven : name ∈ (sourceFile m modules support).givenNames)
    (houter : name ∈ containerName :: outerNames) : name = "Into" := by
  have hreserved : reservedTypeNames.map written = reservedTypeNames := by decide
  rcases List.mem_cons.mp (reservedTypeNames_perm.mem_iff.mpr houter) with hinto | hkept
  · exact hinto
  · rw [givenNames_sourceFile] at hgiven
    obtain ⟨given, hmem, rfl⟩ := List.mem_map.mp hgiven
    have hother : given ∈ m.classes.map (·.name) ++
        (m.markers.map (·.name) ++ m.enumerations.map (·.name)) := by
      simp only [Module.givenNames, List.mem_append] at hmem ⊢
      tauto
    rw [Module.identifiers, List.map_append, hreserved] at h
    exact absurd rfl ((List.nodup_append.mp h).2.2 _ hkept _ (List.mem_map_of_mem hother))

theorem unshadowed_iff {m : Module} (h : (m.identifiers.map written).Nodup)
    (modules : List String) (support : String) :
    (sourceFile m modules support).Unshadowed ↔
      "Into" ∉ (sourceFile m modules support).givenNames := by
  constructor
  · exact fun hclear hinto => hclear _ hinto (by decide)
  · intro hinto name hgiven houter
    exact hinto (eq_into_of_given h hgiven houter ▸ hgiven)

/-- What is declared is told from everything else by its name. -/
theorem typeNames_capital {m : Module} (h : ∀ name ∈ m.identifiers, IsTypeName name)
    (modules : List String) (support : String) :
    ∀ name ∈ (sourceFile m modules support).typeNames, IsTypeName name ∧ name ∉ keywords := by
  rw [typeNames_sourceFile, List.forall_mem_map]
  intro name hname
  rcases List.mem_append.mp ((moduleTypeNames_perm m).mem_iff.mp hname) with hmem | hmem
  · exact (h _ (List.mem_append_left _ ((containerNames_sublist m).subset hmem))).written
  · exact (h _ (List.mem_append_right _ hmem)).written

/-- The names around the code of a module, that of the trait only where text is set. -/
def around (m : Module) : List String :=
  outerNames.filter fun name => name = "Into" → m.HasText

theorem mem_around_iff {m : Module} {name : String} :
    name ∈ around m ↔ name ∈ outerNames ∧ (name = "Into" → m.HasText) := by
  rw [around, List.mem_filter, decide_eq_true_iff]

theorem scope_around {m : Module} (h : ∀ name ∈ m.identifiers, IsTypeName name) :
    Scope ((moduleTypeNames m).map written ++ around m) where
  outer := by
    intro name hname
    obtain ⟨hne, hmem⟩ := (List.Nodup.mem_erase_iff (by decide)).mp hname
    exact List.mem_append_right _ (mem_around_iff.mpr ⟨hmem, fun hinto => absurd hinto hne⟩)
  simple := by
    have hcapital := typeNames_capital h [] ""
    have houter : ∀ name ∈ outerNames, ':' ∉ name.toList := by decide
    rw [typeNames_sourceFile] at hcapital
    refine List.forall_mem_append.mpr ⟨fun name hname hcolon => ?_, fun name hname => ?_⟩
    · exact absurd ((hcapital name hname).1.parts ':' hcolon) (by decide)
    · exact houter name (mem_around_iff.mp hname).1

/-- Whatever may be a type is declared, or it is found around the code. -/
theorem mem_of_uses {m : Module} (hm : m.Closed)
    (htypes : ∀ name ∈ m.identifiers, IsTypeName name)
    (hmarkers : ∀ c ∈ m.classes, ∀ name ∈ c.markers,
      name ∈ m.classes.map (·.name) ++ m.markers.map (·.name))
    (modules : List String) (support : String) :
    ∀ name ∈ (sourceFile m modules support).uses, IsTypeName name → name ∉ keywords →
      name ∈ (sourceFile m modules support).typeNames ∨
        name ∈ outerNames ∧ (name = "Into" → m.HasText) := by
  have hmarked : ∀ c ∈ m.classes, ∀ name ∈ c.markers,
      written name ∈ (moduleTypeNames m).map written := by
    intro c hc name hname
    refine List.mem_map_of_mem ((moduleTypeNames_perm m).mem_iff.mpr (List.mem_append_right _ ?_))
    rw [← List.append_assoc]
    exact List.mem_append_left _ (hmarkers c hc name hname)
  have hinto (htext : m.HasText) : "Into" ∈ around m :=
    mem_around_iff.mpr ⟨by decide, fun _ => htext⟩
  have hfound := allFound_sourceFile (scope_around htypes) hm
    (fun c hc name hname => List.mem_append_left _ (hmarked c hc name hname))
    (List.subset_append_left _ _) (fun htext => List.mem_append_right _ (hinto htext))
    modules support
  intro name hname hcapital hword
  obtain ⟨path, hpath, rfl⟩ := List.mem_map.mp hname
  rw [typeNames_sourceFile, ← mem_around_iff]
  exact List.mem_append.mp ((hfound path hpath hcapital).resolve_right hword)

end XmlBinding.Code

namespace XmlBinding
open Schema Binding Xml Code

/-- The types of generated code have names with a capital that are no keywords. Whatever the code
refers to by such a name is declared in it, or it is one of the names around the code. Of these no
type has one, nor that of the container, except for the trait by which text is set. So nothing is
hidden exactly if no type is called like this trait. The code uses it wherever a value is text. -/
theorem unshadowed_iff_of_generate {text source : String} {options : Options}
    (h : generate text options = .ok source) :
    ∃ m support file, bindSchema text options.allowDoctype = .ok m ∧
      file = sourceFile m options.modules support ∧ source = file.text ∧
      (∀ name ∈ file.typeNames, IsTypeName name ∧ name ∉ keywords) ∧
      (∀ name ∈ file.uses, IsTypeName name → name ∉ keywords →
        name ∈ file.typeNames ∨ name ∈ outerNames ∧ (name = "Into" → m.HasText)) ∧
      (∀ name ∈ file.givenNames, name ∈ containerName :: outerNames → name = "Into") ∧
      (file.Unshadowed ↔ "Into" ∉ file.givenNames) ∧
      (m.HasText → "Into" ∈ file.uses) := by
  obtain ⟨m, support, hm, hsource⟩ := exists_sourceFile_of_generate h
  obtain ⟨model, hread, hbound⟩ := bindSchema_eq_ok.mp hm
  obtain ⟨htypes, hmarkers⟩ := Module.given_of_ofModel (keyed_of_readSchema hread) hbound
  have hclosed := closed_of_bindSchema hm
  refine ⟨m, support, _, hm, rfl, hsource, ?_, ?_, ?_, ?_, ?_⟩
  · exact typeNames_capital htypes _ _
  · exact mem_of_uses hclosed htypes hmarkers _ _
  · exact fun name => eq_into_of_given hclosed.identifiers
  · exact unshadowed_iff hclosed.identifiers _ _
  · exact fun htext => into_mem_uses htext _ _

/-- Components that are called like what the code uses. -/
def keptOutline : Outline :=
  schemaElement "schema" [] [
    wordOutline [("name", "string")] "x",
    schemaElement "complexType" [("name", "Option")] [
      schemaElement "attribute" [("name", "some"), ("type", "string")] []],
    schemaElement "element" [("name", "Weak"), ("type", "string")] []]

def keptSchema : Model where
  simpleTypes := [("string", { wordType ["x"] with name := some "string" })]
  complexTypes := [("Option", ⟨some "Option", none, false, false, .empty,
    [.declaration ⟨"some", none, some (.named (.builtin "string")), none, none⟩ false]⟩)]
  elements := [("Weak", ⟨"Weak", none, .named (.builtin "string"), false⟩)]

theorem readModel_keptOutline : readModel (keptOutline.element none []) = .ok keptSchema := by
  cbv

theorem unshadowed_keptOutline :
    ∃ source, generate keptOutline.document {} = .ok source ∧
      ∃ m support file, bindSchema keptOutline.document false = .ok m ∧
        file = sourceFile m [] support ∧ source = file.text ∧
        file.givenNames = ["String2", "Option2", "WeakElement"] ∧ "Into" ∈ file.uses ∧
        file.Unshadowed := by
  obtain ⟨m, hm, hcomputed⟩ := exists_bindSchema_document
    (P := fun m => m.givenNames.map written = ["String2", "Option2", "WeakElement"] ∧ m.HasText)
    (by decide +kernel) readModel_keptOutline (by decide +kernel) false
  obtain ⟨hnames, htext⟩ := of_decide_eq_true hcomputed
  obtain ⟨source, hsource⟩ := exists_generate hm
  obtain ⟨m', support, file, hm', hfile, hwritten, -, -, -, hclear, hinto⟩ :=
    unshadowed_iff_of_generate hsource
  obtain rfl : m' = m := Except.ok.inj (hm'.symm.trans hm)
  have hgiven : file.givenNames = ["String2", "Option2", "WeakElement"] := by
    rw [hfile, givenNames_sourceFile, hnames]
  refine ⟨source, hsource, m', support, file, hm, hfile, hwritten, hgiven, hinto htext, ?_⟩
  exact hclear.mpr (hgiven ▸ by decide)

/-- An element that is called like the trait by which its text is set. -/
def intoOutline : Outline :=
  schemaElement "schema" []
    [schemaElement "element" [("name", "Into"), ("type", "string")] []]

def intoSchema : Model where
  elements := [("Into", ⟨"Into", none, .named (.builtin "string"), false⟩)]

theorem readModel_intoOutline : readModel (intoOutline.element none []) = .ok intoSchema := by
  cbv

/-- Code is generated that declares a type of that name, and refers to the trait by it. -/
theorem not_unshadowed_intoOutline :
    ∃ source, generate intoOutline.document {} = .ok source ∧
      ∃ m support file, bindSchema intoOutline.document false = .ok m ∧
        file = sourceFile m [] support ∧ source = file.text ∧
        file.givenNames = ["Into"] ∧ m.HasText ∧ ¬ file.Unshadowed := by
  obtain ⟨m, hm, hcomputed⟩ := exists_bindSchema_document
    (P := fun m => m.givenNames.map written = ["Into"] ∧ m.HasText)
    (by decide +kernel) readModel_intoOutline (by decide +kernel) false
  obtain ⟨hnames, htext⟩ := of_decide_eq_true hcomputed
  obtain ⟨source, hsource⟩ := exists_generate hm
  obtain ⟨m', support, hm', hwritten⟩ := exists_sourceFile_of_generate hsource
  obtain rfl : m' = m := Except.ok.inj (hm'.symm.trans hm)
  have hgiven : (sourceFile m' [] support).givenNames = ["Into"] := by
    rw [givenNames_sourceFile, hnames]
  refine ⟨source, hsource, m', support, _, hm, rfl, hwritten, hgiven, htext, fun hclear => ?_⟩
  exact hclear "Into" (hgiven ▸ by decide) (by decide)

end XmlBinding
