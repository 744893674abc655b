import XmlBinding.Proofs.Binding.Documents

/-! # Names of the types that are declared

The types and traits of a generated module are its enumerations, the container of functions that
no class holds, its markers and its classes. All names are given out by one catalog, so they differ
from each other and from what the module uses as it is, even in the form they are written in.
-/
namespace XmlBinding.Code
open Binding

/-- The type or trait that an item declares. -/
def Item.typeName? : Item → Option String
  | .enumeration _ name _ | .record _ name _ | .wrapper _ name _ | .unit _ name
  | .trait _ name _ => some name
  | .words _ | .impl .. | .function _ => none

/-- The types and traits that a file declares. -/
def File.typeNames (f : File) : List String := f.items.filterMap Item.typeName?

/-- The container, if it is needed. -/
def containerNames (m : Module) : List String :=
  if (readersOf m none).isEmpty then [] else [containerName]

def moduleTypeNames (m : Module) : List String :=
  m.enumerations.map (·.name) ++
    (containerNames m ++ (m.markers.map (·.name) ++ m.classes.map (·.name)))

section
variable {name? : Item → Option String}
  (h : ∀ item, (∀ notes name, item ≠ .unit notes name) → name? item = item.typeName?)
include h

theorem filterMap_enumerationItems (e : Enumeration) :
    (enumerationItems e).filterMap name? = [written e.name] := by
  unfold enumerationItems
  split
  · simp [plainItems, h, Item.typeName?]
  · simp [flagsItems, h, Item.typeName?]

theorem filterMap_classItems (s : Surroundings) (c : ElementClass) (readers : List Associated) :
    (s.classItems c readers).filterMap name? = [written c.name] := by
  have hparent : (c.membership.elim [] (Surroundings.parentItems c)).filterMap name? = [] := by
    cases c.membership with
    | none => rfl
    | some ms => simp [Surroundings.parentItems, h, Item.typeName?]
  simp [Surroundings.classItems, Surroundings.elementImpl, hparent, h, Item.typeName?]

/-- The names that the items of a file declare, whatever is said of the container. -/
theorem filterMap_sourceFile (m : Module) (modules : List String) (support : String) :
    (sourceFile m modules support).items.filterMap name? =
      m.enumerations.map (fun e => written e.name) ++
        ((containerItems (readersOf m none)).filterMap name? ++
          (m.markers.map (fun k => written k.name) ++ m.classes.map fun c => written c.name)) := by
  have henumerations : (m.enumerations.flatMap enumerationItems).filterMap name? =
      m.enumerations.map fun e => written e.name := by
    rw [List.filterMap_flatMap, List.map_eq_flatMap]
    exact List.flatMap_congr fun e _ => filterMap_enumerationItems h e
  have hmarkers : (m.markers.map markerItem).filterMap name? =
      m.markers.map fun k => written k.name := by
    simp [List.filterMap_map, Function.comp_def, markerItem, h, Item.typeName?]
  have hclasses (s : Surroundings) : (m.classes.flatMap fun c =>
      s.classItems c (readersOf m (some c.name))).filterMap name? =
        m.classes.map fun c => written c.name := by
    rw [List.filterMap_flatMap, List.map_eq_flatMap]
    exact List.flatMap_congr fun c _ => filterMap_classItems h s c _
  have hregistry : [registryItem m].filterMap name? = [] := by
    simp [registryItem, h, Item.typeName?]
  rw [sourceFile, moduleItems]
  simp [henumerations, hmarkers, hclasses, hregistry, h, Item.typeName?]

end

theorem typeNames_containerItems (m : Module) :
    (containerItems (readersOf m none)).filterMap Item.typeName? =
      (containerNames m).map written := by
  rw [containerItems, containerNames]
  split <;> rfl

/-- One name for every part of the module. -/
theorem typeNames_sourceFile (m : Module) (modules : List String) (support : String) :
    (sourceFile m modules support).typeNames = (moduleTypeNames m).map written := by
  rw [File.typeNames, filterMap_sourceFile fun _ _ => rfl, typeNames_containerItems]
  simp [moduleTypeNames, Function.comp_def]

/-- The container takes a reserved name, and everything else is given a name. -/
theorem moduleTypeNames_perm (m : Module) : (moduleTypeNames m).Perm (containerNames m ++
    (m.classes.map (·.name) ++ (m.markers.map (·.name) ++ m.enumerations.map (·.name)))) := by
  rw [List.perm_iff_count]
  intro name
  simp only [moduleTypeNames, List.count_append]
  omega

theorem containerNames_sublist (m : Module) : (containerNames m).Sublist reservedTypeNames := by
  rw [containerNames]
  split
  · exact List.nil_sublist _
  · exact List.singleton_sublist.mpr (by decide)

section
variable {m : Module} (h : (m.identifiers.map written).Nodup)
include h

theorem nodup_moduleTypeNames : ((moduleTypeNames m).map written).Nodup := by
  refine ((moduleTypeNames_perm m).map written).nodup_iff.mpr (h.sublist ?_)
  exact ((containerNames_sublist m).append_right _).map written

/-- Of the reserved names only that of the container is declared. -/
theorem eq_containerName_of_reserved {name : String}
    (hname : name ∈ (moduleTypeNames m).map written) (hreserved : name ∈ reservedTypeNames) :
    name = containerName := by
  have hsame : reservedTypeNames.map written = reservedTypeNames := by decide
  obtain ⟨given, hgiven, rfl⟩ := List.mem_map.mp hname
  rcases List.mem_append.mp ((moduleTypeNames_perm m).mem_iff.mp hgiven) with hmem | hmem
  · rw [containerNames] at hmem
    split at hmem
    · cases hmem
    · obtain rfl := List.mem_singleton.mp hmem
      rfl
  · rw [Module.identifiers, List.map_append, hsame] at h
    exact absurd rfl ((List.nodup_append.mp h).2.2 _ hreserved _ (List.mem_map_of_mem hmem))

end

end XmlBinding.Code

namespace XmlBinding
open Schema Binding Xml Code

/-- The types of the generated code have names of their own, in the form they are written in, and
take none that the code uses as it is. -/
theorem nodup_typeNames_of_generate {text source : String} {options : Options}
    (h : generate text options = .ok source) :
    ∃ m modules support, bindSchema text options.allowDoctype = .ok m ∧
      source = (sourceFile m modules support).text ∧
      (sourceFile m modules support).typeNames.Nodup ∧
      ∀ name ∈ (sourceFile m modules support).typeNames, name ∈ reservedTypeNames →
        name = containerName := by
  obtain ⟨m, modules, support, hm, hsource⟩ := exists_of_generate h
  have hidentifiers := (closed_of_bindSchema hm).identifiers
  refine ⟨m, modules, support, hm, hsource, ?_⟩
  rw [typeNames_sourceFile]
  exact ⟨nodup_moduleTypeNames hidentifiers,
    fun name hname => eq_containerName_of_reserved hidentifiers hname⟩

/-- Names that are alike once they are converted. -/
def alikeOutline : Outline :=
  schemaElement "schema" [] [
    schemaElement "simpleType" [("name", "a")] [
      schemaElement "restriction" [("base", "string")]
        [schemaElement "enumeration" [("value", "x")] []]],
    schemaElement "complexType" [("name", "A")] [],
    schemaElement "element" [("name", "a")] [schemaElement "complexType" [] []]]

def alikeSchema : Model where
  simpleTypes := [("a", ⟨some "a", none,
    .restriction ⟨.named (.builtin "string"), [⟨"x", none⟩], [], []⟩⟩)]
  complexTypes := [("A", ⟨some "A", none, false, false, .empty, []⟩)]
  elements :=
    [("a", ⟨"a", none, .complex ⟨none, none, false, false, .empty, []⟩, false⟩)]

theorem readModel_alikeOutline : readModel (alikeOutline.element none []) = .ok alikeSchema := by
  cbv

theorem nodup_typeNames_alikeOutline :
    ∃ source, generate alikeOutline.document {} = .ok source ∧
      ∃ m modules support, bindSchema alikeOutline.document false = .ok m ∧
        source = (sourceFile m modules support).text ∧
        (sourceFile m modules support).typeNames = ["A", "Enums", "A2", "AElement"] ∧
        (sourceFile m modules support).typeNames.Nodup ∧
        ∀ name ∈ (sourceFile m modules support).typeNames, name ∈ reservedTypeNames →
          name = containerName := by
  obtain ⟨m, hm, hnames⟩ := exists_bindSchema_document (P := fun m =>
      (moduleTypeNames m).map written = ["A", "Enums", "A2", "AElement"])
    (by decide +kernel) readModel_alikeOutline (by decide +kernel) false
  obtain ⟨source, hsource⟩ := exists_generate hm
  obtain ⟨m', modules, support, hm', htext, hapart⟩ := nodup_typeNames_of_generate hsource
  obtain rfl : m' = m := Except.ok.inj (hm'.symm.trans hm)
  exact ⟨source, hsource, m', modules, support, hm, htext,
    (typeNames_sourceFile m' modules support).trans (of_decide_eq_true hnames), hapart⟩

end XmlBinding
