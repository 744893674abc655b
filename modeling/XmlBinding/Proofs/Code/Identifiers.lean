import XmlBinding.Proofs.Code.ReaderNames

/-! # Names in the generated code

The names of a module are made from whatever texts its schema has. They are legal all the same, and
so is every name that is declared in the code.
-/
namespace XmlBinding.Binding
open Schema

/-- The names of an enumeration and its members, and that of the type that holds its functions. -/
def Enumeration.names (m : Module) (e : Enumeration) : List String :=
  e.name :: (m.home? e).getD containerName :: e.members.map (·.name)

/-- The names of a class and its values, and of the classes and markers that it refers to. -/
def ElementClass.names (c : ElementClass) : List String :=
  c.name :: (c.values.map (·.member) ++
    (c.membership.elim [] (fun ms => ms.named.map (·.2)) ++ c.markers))

/-- The names that the code of a module is written with. -/
def Module.names (m : Module) : List String :=
  m.enumerations.flatMap (·.names m) ++
    (m.markers.map (·.name) ++ m.classes.flatMap ElementClass.names)

section
variable {model : Model} {c : Catalog} (h : Coherent model [] c)
include h

theorem Coherent.isTypeName_names : ∀ name ∈ c.names [], IsTypeName name :=
  fun _ hname => h.legal _ (h.taken hname)

theorem Coherent.isTypeName_promise : ∀ t ∈ c.promises [], IsTypeName t.name := fun _ ht =>
  h.isTypeName_names _ (List.mem_append_right _ (List.mem_append_left _ (List.mem_map_of_mem ht)))

theorem Coherent.isName_class : ∀ k ∈ c.classes, IsName k.name := by
  intro k hk
  apply (h.isTypeName_promise k.promise ?_).toIsName
  exact List.mem_append_right _ (List.mem_append_left _ (List.mem_map_of_mem hk))

theorem Coherent.isName_marker : ∀ k ∈ c.markers, IsName k.name := by
  intro k hk
  apply (h.isTypeName_promise k.promise ?_).toIsName
  exact List.mem_append_right _ (List.mem_append_right _ (List.mem_map_of_mem hk))

theorem Coherent.isName_enumeration : ∀ e ∈ c.enumerations, IsName e.name := fun _ he =>
  (h.isTypeName_names _ (List.mem_append_right _
    (List.mem_append_right _ (List.mem_map_of_mem he)))).toIsName

/-- Slots name classes that are there, and whatever else a class names has been given a name. -/
theorem Coherent.isName_names {k : ElementClass} (hk : k ∈ c.classes) :
    ∀ name ∈ k.names, IsName name := by
  have hdescribes := h.covered.classes k hk
  simp only [ElementClass.names, List.forall_mem_cons, List.forall_mem_append,
    List.forall_mem_map]
  refine ⟨h.isName_class k hk, hdescribes.members, ?slots, ?markers⟩
  case slots =>
    cases hms : k.membership with
    | none => simp
    | some ms =>
      rw [Option.elim_some, List.forall_mem_map]
      intro slot hslot
      exact (h.isTypeName_promise _ (hdescribes.slots ms hms slot hslot)).toIsName
  case markers =>
    intro name hname
    obtain ⟨t, ht, rfl⟩ := hdescribes.markerNames name hname
    exact (h.isTypeName_promise t ht).toIsName

end

/-- The names of a module are legal. -/
theorem Module.isName_of_ofModel {model : Model} (hm : model.Keyed) {m : Module}
    (h : Module.ofModel model = .ok m) : ∀ name ∈ m.names, IsName name := by
  obtain ⟨c, hc, rfl⟩ := coherent_of_ofModel model hm h
  simp only [Module.names, List.forall_mem_append, List.forall_mem_flatMap, List.forall_mem_map]
  refine ⟨fun e he => ?_, hc.isName_marker, fun k hk => hc.isName_names hk⟩
  simp only [Enumeration.names, List.forall_mem_cons, List.forall_mem_map]
  refine ⟨hc.isName_enumeration e he, ?_, e.isName_members⟩
  rcases List.mem_cons.mp (Code.home?_mem _ e) with hnone | hsome
  · rw [hnone]
    decide
  · obtain ⟨k, hk, hname⟩ := List.mem_map.mp hsome
    rw [← hname]
    exact hc.isName_class k hk

end XmlBinding.Binding

namespace XmlBinding.Code
open Binding

/-! ## Declarations -/

def Param.name? : Param → Option String
  | .self _ => none
  | .typed name _ => some name

/-- The names that a function declares. -/
def Function.names (f : Function) : List String :=
  f.name :: (f.typeParam.toList.map (·.1) ++ f.params.filterMap Param.name?)

def Associated.names : Associated → List String
  | .constant _ name _ _ | .type name _ => [name]
  | .function f => f.names

/-- The names that an item declares. What is added to a type is declared under its name. -/
def Item.names : Item → List String
  | .words _ => []
  | .enumeration _ name variants => name :: variants.map (·.2.1)
  | .record _ name fields => name :: fields.map (·.1)
  | .wrapper _ name _ | .unit _ name | .trait _ name _ => [name]
  | .impl _ name members => name :: members.flatMap Associated.names
  | .function f => f.names

/-- The names that a file declares. -/
def File.names (f : File) : List String := f.modules ++ f.items.flatMap Item.names

/-- Words that the code declares whatever the module is like. -/
def ownWords : List String :=
  ["Output", "bitor", "bitor_assign", "rhs", "bits", "contains", "other", "xml_value",
   containerName, "value", "registry", "ELEMENT_NAME", "new", "T", "this", "parent", "children",
   "children_of", "element_name", "namespace", "set_parent", "output_xml", "writer", "as_any",
   "as_any_mut", "as_parent", "as_parent_mut", "as_child_factory", "as_set_attributes",
   "add_child", "child", "remove_child", "create_child", "name", "set_attribute"]

theorem isIdentifier_own {name : String} (h : name ∈ ownWords) : IsIdentifier name := by
  have hall : ∀ name ∈ ownWords, IsName name ∧ name ∉ keywords := by decide
  exact .plain (hall name h).1 (hall name h).2

theorem isIdentifier_of_subset (names : List String) (h : names ⊆ ownWords) :
    ∀ name ∈ names, IsIdentifier name :=
  fun _ hname => isIdentifier_own (h hname)

/-! ### Enumerations -/

theorem names_plainItems (e : Enumeration) : (plainItems e).flatMap Item.names =
    [written e.name] ++ (e.members.map fun m => written m.name) ++ [written e.name, "xml_value"] := by
  simp [plainItems, Item.names, Associated.names, Function.names, List.filterMap_cons, Param.name?,
    variantOf, Function.comp_def]

theorem names_flagsItems (e : Enumeration) : (flagsItems e).flatMap Item.names =
    [written e.name, written e.name] ++ (e.members.map fun m => written m.name) ++
      ["bits", "contains", "other", "xml_value"] ++ [written e.name] ++ ["Output", "bitor", "rhs"] ++
        [written e.name] ++ ["bitor_assign", "rhs"] := by
  simp [flagsItems, flagsToText, Item.names, Associated.names, Function.names, List.filterMap_cons,
    Param.name?, List.flatMap_map, flagConstant, ← List.map_eq_flatMap]

theorem names_enumerationReaders (e : Enumeration) :
    (enumerationReaders e).flatMap Associated.names =
      (readerNames e).flatMap fun name => [name, "value"] := by
  unfold enumerationReaders readerNames
  cases e.form <;> rfl

theorem isIdentifier_enumerationItems {e : Enumeration} (he : IsName e.name) :
    ∀ name ∈ (enumerationItems e).flatMap Item.names, IsIdentifier name := by
  have hname := he.isIdentifier_written
  have hmembers : ∀ m ∈ e.members, IsIdentifier (written m.name) :=
    fun m hm => (e.isName_members m hm).isIdentifier_written
  unfold enumerationItems
  split
  · have hown : IsIdentifier "xml_value" := isIdentifier_own (by decide)
    simpa [names_plainItems, hname, hown, or_imp, forall_and] using hmembers
  · have hown := isIdentifier_of_subset ["bits", "contains", "other", "xml_value",
      "Output", "bitor", "rhs", "bitor_assign"] (by decide)
    simp at hown
    simpa [names_flagsItems, hname, hown, or_imp, forall_and] using hmembers

theorem isIdentifier_enumerationReaders (e : Enumeration) :
    ∀ name ∈ (enumerationReaders e).flatMap Associated.names, IsIdentifier name := by
  have htry : IsIdentifier e.tryParseName :=
    isIdentifier_front (isName_memberName e.name) (by decide) (by decide)
  have hparse : IsIdentifier e.parseName :=
    isIdentifier_front (isName_memberName e.name) (by decide) (by decide)
  have hvalue : IsIdentifier "value" := isIdentifier_own (by decide)
  rw [names_enumerationReaders, readerNames]
  split <;> simp [htry, hparse, hvalue]

theorem isIdentifier_readersOf (m : Module) (owner : Option String) :
    ∀ name ∈ (readersOf m owner).flatMap Associated.names, IsIdentifier name := by
  rw [readersOf, List.flatMap_assoc, List.forall_mem_flatMap]
  exact fun e _ => isIdentifier_enumerationReaders e

theorem isIdentifier_containerItems {readers : List Associated}
    (hreaders : ∀ name ∈ readers.flatMap Associated.names, IsIdentifier name) :
    ∀ name ∈ (containerItems readers).flatMap Item.names, IsIdentifier name := by
  have hcontainer : IsIdentifier containerName := isIdentifier_own (by decide)
  rw [containerItems]
  split
  · simp
  · simpa [Item.names, hcontainer] using hreaders

/-! ### Classes -/

section
variable (s : Surroundings) (c : ElementClass)

theorem names_accessors (f : Field) : (s.accessors f).flatMap Associated.names =
    [written f.member, "set_" ++ f.member, "value"] := by
  unfold Surroundings.accessors
  split <;> rfl

theorem names_ownMembers : (ownMembers s c).flatMap Associated.names =
    ["ELEMENT_NAME", "new"] ++ (if c.membership.isSome then ["children_of", "T"] else []) ++
      c.values.flatMap fun f => [written f.member, "set_" ++ f.member, "value"] := by
  have hvalues : (c.values.flatMap s.accessors).flatMap Associated.names =
      c.values.flatMap fun f => [written f.member, "set_" ++ f.member, "value"] := by
    rw [List.flatMap_assoc]
    exact List.flatMap_congr fun f _ => names_accessors s f
  rw [ownMembers, List.flatMap_append, List.flatMap_append, hvalues]
  cases c.membership <;> rfl

theorem names_elementImpl : (s.elementImpl c).names = written c.name ::
    (["element_name", "namespace", "parent", "set_parent", "parent", "output_xml", "writer",
      "as_any", "as_any_mut"] ++
      (if c.membership.isSome then ["as_parent", "as_parent_mut", "as_child_factory"] else []) ++
      ["as_set_attributes"]) := by
  unfold Surroundings.elementImpl
  cases c.membership <;> rfl

theorem names_parentItems (ms : Membership) :
    (Surroundings.parentItems c ms).flatMap Item.names =
      [written c.name] ++ ["children", "add_child", "child", "remove_child", "child"] ++
        [written c.name] ++ ["create_child", "name"] :=
  rfl

end

section
variable {c : ElementClass} (hc : ∀ name ∈ c.names, IsName name)
include hc

theorem isName_member : ∀ f ∈ c.values, IsName f.member := by
  simp only [ElementClass.names, List.forall_mem_cons, List.forall_mem_append,
    List.forall_mem_map] at hc
  exact hc.2.1

theorem isIdentifier_ownMembers (s : Surroundings) :
    ∀ name ∈ (ownMembers s c).flatMap Associated.names, IsIdentifier name := by
  have hvalue : IsIdentifier "value" := isIdentifier_own (by decide)
  rw [names_ownMembers, List.forall_mem_append, List.forall_mem_flatMap]
  constructor
  · split <;> exact isIdentifier_of_subset _ (by decide)
  · intro f hf
    have hname := isName_member hc f hf
    have hset : IsIdentifier ("set_" ++ f.member) :=
      isIdentifier_front hname (by decide) (by decide)
    simp [hname.isIdentifier_written, hset, hvalue]

theorem isIdentifier_classItems (s : Surroundings) {readers : List Associated}
    (hreaders : ∀ name ∈ readers.flatMap Associated.names, IsIdentifier name) :
    ∀ item ∈ s.classItems c readers, ∀ name ∈ item.names, IsIdentifier name := by
  have hname : IsIdentifier (written c.name) := (hc _ List.mem_cons_self).isIdentifier_written
  have hvalues : ∀ f ∈ c.values, IsIdentifier (written f.member) :=
    fun f hf => (isName_member hc f hf).isIdentifier_written
  unfold Surroundings.classItems
  simp only [List.forall_mem_append, List.forall_mem_cons, List.forall_mem_map]
  refine ⟨⟨⟨⟨?record, ?inherent, ?element, nofun⟩, ?parent⟩, ?setting, nofun⟩, ?markers⟩
  case record =>
    rw [Item.names, List.map_append, List.forall_mem_cons, List.forall_mem_append]
    refine ⟨hname, ?_, by simpa using hvalues⟩
    split <;> exact isIdentifier_of_subset _ (by decide)
  case inherent =>
    have hown := isIdentifier_ownMembers hc s
    rw [Item.names, List.forall_mem_cons, List.flatMap_append, List.forall_mem_append]
    exact ⟨hname, hown, hreaders⟩
  case element =>
    rw [names_elementImpl, List.forall_mem_cons]
    refine ⟨hname, ?_⟩
    split <;> exact isIdentifier_of_subset _ (by decide)
  case parent =>
    cases c.membership with
    | none => nofun
    | some ms =>
      rw [← List.forall_mem_flatMap, Option.elim_some, names_parentItems]
      have hown := isIdentifier_of_subset ["children", "add_child", "child",
        "remove_child", "create_child", "name"] (by decide)
      simp_all
  case setting =>
    have hown := isIdentifier_of_subset ["set_attribute", "name", "value"] (by decide)
    exact List.forall_mem_cons.mpr ⟨hname, hown⟩
  case markers =>
    exact fun m _ => List.forall_mem_singleton.mpr hname

end

/-! ### Files -/

theorem isIdentifier_moduleItems {m : Module} (hm : ∀ name ∈ m.names, IsName name) :
    ∀ name ∈ (moduleItems m).flatMap Item.names, IsIdentifier name := by
  simp only [Module.names, List.forall_mem_append, List.forall_mem_flatMap,
    List.forall_mem_map] at hm
  obtain ⟨henumerations, hmarkers, hclasses⟩ := hm
  unfold moduleItems
  simp only [List.flatMap_append, List.flatMap_assoc, List.forall_mem_append]
  refine ⟨⟨⟨⟨?enumerations, ?container⟩, ?markers⟩, ?classes⟩, ?registry⟩
  case enumerations =>
    rw [List.forall_mem_flatMap]
    exact fun e he => isIdentifier_enumerationItems (henumerations e he _ List.mem_cons_self)
  case container => exact isIdentifier_containerItems (isIdentifier_readersOf m none)
  case markers =>
    rw [List.flatMap_map, List.forall_mem_flatMap]
    exact fun k hk => List.forall_mem_singleton.mpr (hmarkers k hk).isIdentifier_written
  case classes =>
    rw [List.forall_mem_flatMap]
    intro c hc
    rw [List.forall_mem_flatMap]
    exact isIdentifier_classItems (hclasses c hc) _ (isIdentifier_readersOf m _)
  case registry =>
    have hnames : [registryItem m].flatMap Item.names = ["registry"] := rfl
    rw [hnames, List.forall_mem_singleton]
    exact isIdentifier_own (by decide)

theorem isIdentifier_sourceFile {m : Module} (hm : ∀ name ∈ m.names, IsName name)
    {modules : List String} (hmodules : ∀ name ∈ modules, IsIdentifier name) (support : String) :
    ∀ name ∈ (sourceFile m modules support).names, IsIdentifier name :=
  List.forall_mem_append.mpr ⟨hmodules, isIdentifier_moduleItems hm⟩

end XmlBinding.Code

namespace XmlBinding
open Schema Binding Xml Code

theorem Options.isIdentifier_modules (options : Options) :
    ∀ name ∈ options.modules, IsIdentifier name := by
  unfold Options.modules
  cases options.modulePath with
  | none => simp
  | some path => exact fun name => isIdentifier_of_mem_modulePath

theorem isName_of_bindSchema {text : String} {allow : Bool} {m : Module}
    (h : bindSchema text allow = .ok m) : ∀ name ∈ m.names, IsName name := by
  obtain ⟨model, hread, hbound⟩ := bindSchema_eq_ok.mp h
  exact Module.isName_of_ofModel (keyed_of_readSchema hread) hbound

/-- A name made from any text is legal, with whatever may stand before and behind it, and it becomes
an identifier when it is written. So all names of a generated module are legal, and whatever its
code declares has an identifier for its name. -/
theorem names_legal :
    (∀ (s : String) (k : Nat), ∀ name ∈ conversions s, ∀ before ∈ fronts, ∀ after ∈ endings k,
      IsName (before ++ name ++ after) ∧ IsIdentifier (written (before ++ name ++ after))) ∧
    ∀ (text source : String) (options : Options), generate text options = .ok source →
      ∃ m support, bindSchema text options.allowDoctype = .ok m ∧
        source = (sourceFile m options.modules support).text ∧
        (∀ name ∈ m.names, IsName name ∧ IsIdentifier (written name)) ∧
        ∀ name ∈ (sourceFile m options.modules support).names, IsIdentifier name := by
  constructor
  · intro s k name hname before hbefore after hafter
    have haround := (isName_of_mem_conversions hname).around hbefore hafter
    exact ⟨haround, haround.isIdentifier_written⟩
  · intro text source options h
    obtain ⟨m, support, hm, hsource⟩ := exists_sourceFile_of_generate h
    have hnames := isName_of_bindSchema hm
    refine ⟨m, support, hm, hsource, fun name hname => ?_, ?_⟩
    · exact ⟨hnames name hname, (hnames name hname).isIdentifier_written⟩
    · exact isIdentifier_sourceFile hnames options.isIdentifier_modules support

/-- Names that begin with a digit, are keywords, or have no letter at all. -/
def oddOutline : Outline :=
  schemaElement "schema" [] [
    wordOutline [("name", "1st")] "+",
    schemaElement "complexType" [("name", "self")] [
      schemaElement "attribute" [("name", "type")] [wordOutline [] ""],
      schemaElement "attribute" [("name", "-"), ("type", "string")] []]]

def oddSchema : Model where
  simpleTypes := [("1st", { wordType ["+"] with name := some "1st" })]
  complexTypes := [("self", ⟨some "self", none, false, false, .empty,
    [.declaration ⟨"type", none, some (.inline (wordType [""])), none, none⟩ false,
      .declaration ⟨"-", none, some (.named (.builtin "string")), none, none⟩ false]⟩)]

theorem readModel_oddOutline : readModel (oddOutline.element none []) = .ok oddSchema := by
  cbv

theorem names_legal_oddOutline :
    typeName "ß" = "Unnamed" ∧ IsIdentifier (written ("set_" ++ memberName "ß" ++ "_attr")) ∧
    ∃ source, generate oddOutline.document {} = .ok source ∧
      ∃ m support, bindSchema oddOutline.document false = .ok m ∧
        source = (sourceFile m [] support).text ∧
        m.names.map written = ["_1st", "Enums", "IllegalValue", "NotSet", "Value", "TypeType",
          "Self_", "IllegalValue", "NotSet", "Empty", "Self_", "r#type", "value"] ∧
        ∀ name ∈ (sourceFile m [] support).names, IsIdentifier name := by
  obtain ⟨m, hm, hcomputed⟩ := exists_bindSchema_document
    (P := fun m => m.names.map written = ["_1st", "Enums", "IllegalValue", "NotSet", "Value",
      "TypeType", "Self_", "IllegalValue", "NotSet", "Empty", "Self_", "r#type", "value"])
    (by decide +kernel) readModel_oddOutline (by decide +kernel) false
  obtain ⟨source, hsource⟩ := exists_generate hm
  have haround := names_legal.1 "ß" 2 (memberName "ß") (by simp [conversions]) "set_" (by decide)
    "_attr" (by simp [endings])
  obtain ⟨m', support, hm', htext, -, hnames⟩ := names_legal.2 _ _ _ hsource
  obtain rfl : m' = m := Except.ok.inj (hm'.symm.trans hm)
  exact ⟨by decide +kernel, haround.2, source, hsource, m', support, hm, htext,
    of_decide_eq_true hcomputed, hnames⟩

end XmlBinding
