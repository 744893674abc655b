import XmlBinding.Proofs.Code.Paths
import XmlBinding.Proofs.Code.TypeNames
import XmlBinding.Proofs.Tree.Registration

/-! # Names that the code uses

The code of a module is written with the names of what the module declares, and with some that it
finds around it. One of these stands only where text is set.
-/
namespace XmlBinding.Binding

/-- A value is text, which is set from whatever turns into text. -/
def Module.HasText (m : Module) : Prop :=
  ∃ c ∈ m.classes, ∃ f ∈ c.values, f.type = .primitive .string

instance (m : Module) : Decidable m.HasText :=
  inferInstanceAs (Decidable (∃ c ∈ m.classes, ∃ f ∈ c.values, f.type = .primitive .string))

end XmlBinding.Binding

namespace XmlBinding.Code
open Binding Schema Text Value

section
variable {known : List String} (h : Scope known)
include h

/-! ### Enumerations -/

section
variable {e : Enumeration} (he : written e.name ∈ known)
include he

theorem allFound_plainItems : AllFound known ((plainItems e).flatMap Item.paths) := by
  have hmember (m : Member) : AllFound known (memberNumber m).paths := by
    unfold memberNumber
    split
    · simp (disch := decide) [h.fixed]
    · split <;> simp
  simp (disch := decide) [plainItems, Item.paths, Associated.paths, Function.paths, Param.paths,
    variantOf, hmember, h.fixed, h.found he, found_self, List.flatMap_map]

theorem allFound_flagsItems : AllFound known ((flagsItems e).flatMap Item.paths) := by
  simp (disch := decide) [flagsItems, Item.paths, Associated.paths, Function.paths, Param.paths,
    flagConstant, flagsToText, h.fixed, h.found he, found_self, List.flatMap_map]

theorem allFound_enumerationItems : AllFound known ((enumerationItems e).flatMap Item.paths) := by
  unfold enumerationItems
  split
  · exact allFound_plainItems h he
  · exact allFound_flagsItems h he

theorem allFound_enumerationReaders :
    AllFound known ((enumerationReaders e).flatMap Associated.paths) := by
  unfold enumerationReaders
  split
  · simp (disch := decide) [plainReaders, Associated.paths, Function.paths, Param.paths, noText,
      resultOf, valueParam, h.fixed, h.found he, h.found_within he, found_self, List.flatMap_map]
  · simp (disch := decide) [flagsReaders, Associated.paths, Function.paths, Param.paths, noText,
      resultOf, valueParam, h.fixed, h.found he, h.found_within he, List.flatMap_map]

end

/-! ### Classes -/

theorem allFound_countExpr (n : Option Nat) : AllFound known (countExpr n).paths := by
  cases n <;> simp (disch := decide) [countExpr, h.fixed]

omit h in
mutual

theorem allFound_collectionExpr (h : Scope known) :
    ∀ ms : Membership, AllFound known (collectionExpr ms).paths
  | ⟨compositor, _, _, slots⟩ => by
    unfold collectionExpr
    refine allFound_withSlots h ?_ slots
    cases compositor <;> simp (disch := decide) [h.fixed, allFound_countExpr h]

theorem allFound_withSlots (h : Scope known) {e : Expr} (he : AllFound known e.paths) :
    ∀ slots : List MemberSlot, AllFound known (withSlots e slots).paths
  | [] => by rwa [withSlots]
  | slot :: slots => by
    rw [withSlots]
    exact allFound_withSlots h (allFound_withSlot h he slot) slots

theorem allFound_withSlot (h : Scope known) {e : Expr} (he : AllFound known e.paths) :
    ∀ slot : MemberSlot, AllFound known (withSlot e slot).paths
  | .element _ _ _ => by simp [withSlot, he, allFound_countExpr h]
  | .wildcard _ => by simp [withSlot, he, allFound_countExpr h]
  | .group m => by simp [withSlot, he, allFound_collectionExpr h m]

end

theorem found_floatTypeName (f : FloatFormat) : Found known (floatTypeName f) := by
  unfold floatTypeName
  split <;> exact h.fixed (by decide)

theorem found_primitiveType (p : Primitive) : Found known (primitiveType p) := by
  cases p with
  | integer t => exact found_integerTypeName t
  | float f => exact found_floatTypeName h f
  | _ => exact h.fixed (by decide)

theorem allFound_formatted (p : Primitive) : AllFound known (formatted p).paths := by
  cases p <;> simp (disch := decide) [formatted, h.fixed]

theorem allFound_parsed (p : Primitive) : AllFound known (parsed p).paths := by
  cases p <;> simp (disch := decide) [parsed, h.fixed, found_floatTypeName h]

section
variable {s : Surroundings} {c : ElementClass}

/-- The types that the code of a class is written with are known. -/
structure Surroundings.Known (s : Surroundings) (known : List String) : Prop where
  enumerations : ∀ e ∈ s.enumerations, written e.name ∈ known
  homes : ∀ e ∈ s.enumerations, s.home e ∈ known

variable (hs : s.Known known)
include hs

theorem allFound_typeOf (t : FieldType) : AllFound known (s.typeOf t).paths := by
  cases t with
  | primitive p => simp [Surroundings.typeOf, found_primitiveType h]
  | enumeration place =>
    cases he : s.enumerations[place]? with
    | none => simp (disch := decide) [Surroundings.typeOf, he, h.fixed]
    | some e =>
      have hname := hs.enumerations e (List.mem_of_getElem? he)
      simp [Surroundings.typeOf, he, h.found hname]

theorem allFound_accessors {f : Field} (hf : f.type = .primitive .string → "Into" ∈ known) :
    AllFound known ((s.accessors f).flatMap Associated.paths) := by
  have hown : AllFound known (Expr.field self (written f.member)).paths := by
    simp (disch := decide) [h.fixed]
  unfold Surroundings.accessors
  split
  · next htext =>
    simp (disch := decide) [Associated.paths, Function.paths, Param.paths, h.fixed,
      h.found (hf htext)]
  · simp (disch := decide) [Associated.paths, Function.paths, Param.paths, h.fixed,
      allFound_typeOf h hs]

theorem allFound_parsedEnumeration {e : Enumeration} (he : e ∈ s.enumerations) :
    AllFound known (s.parsedEnumeration e).paths := by
  have hcall (name : String) : Found known (s.home e ++ "::" ++ name) :=
    h.found_within (hs.homes e he) name
  unfold Surroundings.parsedEnumeration
  split <;> simp (disch := decide) [h.fixed, hcall]

theorem allFound_setArm (f : Field) : AllFound known (s.setArm f).paths := by
  unfold Surroundings.setArm
  cases f.type with
  | primitive p => simp (disch := decide) [h.fixed, allFound_parsed h]
  | enumeration place =>
    cases he : s.enumerations[place]? with
    | none => simp (disch := decide) [he, h.fixed]
    | some e =>
      have hread := allFound_parsedEnumeration h hs (List.mem_of_getElem? he)
      simp (disch := decide) [he, h.fixed, hread]

theorem allFound_output (f : Field) {write : Expr → Expr}
    (hwrite : ∀ e : Expr, AllFound known e.paths → AllFound known (write e).paths) :
    AllFound known (s.output write f).paths := by
  have hword : AllFound known (write (.word "value")).paths :=
    hwrite _ (by simp (disch := decide) [h.fixed])
  unfold Surroundings.output
  split
  · simp (disch := decide) [h.fixed, hword]
  · simp (disch := decide) [h.fixed, hwrite _ (allFound_formatted h _)]
  · next place _ =>
    cases he : s.enumerations[place]? with
    | none => simp (disch := decide) [h.fixed, hword]
    | some e =>
      have hname := hs.enumerations e (List.mem_of_getElem? he)
      have hread : Found known (written e.name ++ "::xml_value") := by
        simpa [String.append_assoc] using h.found_within hname "xml_value"
      simp (disch := decide) [h.fixed, hword, hread]

theorem allFound_elementImpl (hc : written c.name ∈ known) :
    AllFound known (s.elementImpl c).paths := by
  have hattribute (f : Field) :
      AllFound known (s.output (Surroundings.writeAttribute f.xmlName) f).paths :=
    allFound_output h hs f fun e he => by
      simp (disch := decide) [Surroundings.writeAttribute, h.fixed, he]
  have htext (f : Field) : AllFound known (s.output Surroundings.writeText f).paths :=
    allFound_output h hs f fun e he => by
      simp (disch := decide) [Surroundings.writeText, h.fixed, he]
  cases huri : s.uri <;> cases hms : c.membership <;>
    simp (disch := decide) [Surroundings.elementImpl, Item.paths, Associated.paths, Function.paths,
      Param.paths, elementRef, weakRef, unitOrError, ownName, h.fixed, h.found hc, hattribute,
      htext, List.flatMap_map, huri, hms]

end

theorem allFound_construction (c : ElementClass) :
    AllFound known (Surroundings.construction c).paths := by
  unfold Surroundings.construction
  cases c.membership with
  | none => simp (disch := decide) [Associated.paths, Function.paths, h.fixed, List.flatMap_map]
  | some ms =>
    simp (disch := decide) [Associated.paths, Function.paths, weakRef, h.fixed, List.flatMap_map,
      allFound_collectionExpr h]

theorem allFound_childrenOf : AllFound known Surroundings.childrenOf.paths := by
  simp (disch := decide) [Surroundings.childrenOf, Associated.paths, Function.paths, Param.paths,
    elementRef, h.fixed]

theorem allFound_newElement {name : String} (hname : written name ∈ known) :
    AllFound known (Surroundings.newElement name).paths := by
  have hnew : Found known (written name ++ "::new") := by
    simpa [String.append_assoc] using h.found_within hname "new"
  simp (disch := decide) [Surroundings.newElement, h.fixed, hnew]

theorem allFound_parentItems {c : ElementClass} {ms : Membership} (hc : written c.name ∈ known)
    (hms : ∀ slot ∈ ms.creatable, written slot.2 ∈ known) :
    AllFound known ((Surroundings.parentItems c ms).flatMap Item.paths) := by
  have hcreate (name className : String) (hslot : (name, className) ∈ ms.creatable) :
      AllFound known (Surroundings.newElement className).paths :=
    allFound_newElement h (hms _ hslot)
  simpa (disch := decide) [Surroundings.parentItems, Item.paths, Associated.paths, Function.paths,
    Param.paths, elementRef, unitOrError, ownName, done, h.fixed, h.found hc, List.flatMap_map]
    using hcreate

section
variable {s : Surroundings} (hs : s.Known known) {c : ElementClass}
  (htext : ∀ f ∈ c.values, f.type = .primitive .string → "Into" ∈ known)
include hs htext

theorem allFound_ownMembers : AllFound known ((ownMembers s c).flatMap Associated.paths) := by
  rw [ownMembers, List.flatMap_append, List.flatMap_append, allFound_append, allFound_append]
  refine ⟨⟨?_, ?_⟩, ?values⟩
  · simpa (disch := decide) [Associated.paths, h.fixed] using allFound_construction h c
  · split
    · rw [List.flatMap_singleton]
      exact allFound_childrenOf h
    · exact allFound_nil
  case values =>
    rw [List.flatMap_assoc, allFound_flatMap]
    exact fun f hf => allFound_accessors h hs (htext f hf)

theorem allFound_classItems (hc : written c.name ∈ known)
    (hms : ∀ ms ∈ c.membership, ∀ slot ∈ ms.creatable, written slot.2 ∈ known)
    (hmarkers : ∀ name ∈ c.markers, written name ∈ known)
    {readers : List Associated} (hreaders : AllFound known (readers.flatMap Associated.paths)) :
    AllFound known ((s.classItems c readers).flatMap Item.paths) := by
  unfold Surroundings.classItems
  simp only [List.flatMap_append, allFound_append]
  rw [List.flatMap_cons, List.flatMap_cons, List.flatMap_singleton, allFound_append,
    allFound_append]
  refine ⟨⟨⟨⟨?record, ?inherent, ?element⟩, ?parent⟩, ?setting⟩, ?markers⟩
  case record =>
    have htypes :
        AllFound known (c.values.flatMap fun f => (optionOf (s.typeOf f.type)).paths) := by
      simp (disch := decide) [h.fixed, allFound_typeOf h hs]
    rw [Item.paths, List.flatMap_append, allFound_append, List.flatMap_map]
    refine ⟨?_, htypes⟩
    split <;> simp (disch := decide) [weakRef, h.fixed]
  case inherent =>
    have hown := allFound_ownMembers h hs htext
    rw [Item.paths, List.flatMap_append]
    exact allFound_cons.mpr ⟨h.found hc, allFound_append.mpr ⟨hown, hreaders⟩⟩
  case element => exact allFound_elementImpl h hs hc
  case parent =>
    cases hmembership : c.membership with
    | none => exact allFound_nil
    | some ms => exact allFound_parentItems h hc (hms ms hmembership)
  case setting =>
    simp (disch := decide) [Item.paths, Associated.paths, Function.paths, Param.paths, unitOrError,
      done, h.fixed, h.found hc, allFound_setArm h hs, List.flatMap_map]
  case markers =>
    simpa [Item.paths, h.found hc, List.flatMap_map] using
      fun name hname => h.found (hmarkers name hname)

end

/-! ### Files -/

theorem allFound_readersOf {m : Module} (hm : ∀ e ∈ m.enumerations, written e.name ∈ known)
    (owner : Option String) : AllFound known ((readersOf m owner).flatMap Associated.paths) := by
  rw [readersOf, List.flatMap_assoc, allFound_flatMap]
  exact fun e he => allFound_enumerationReaders h (hm e (List.mem_filter.mp he).1)

theorem allFound_containerItems {readers : List Associated}
    (hcontainer : readers ≠ [] → containerName ∈ known)
    (hreaders : AllFound known (readers.flatMap Associated.paths)) :
    AllFound known ((containerItems readers).flatMap Item.paths) := by
  rw [containerItems]
  split
  · exact allFound_nil
  · next hne =>
    have hname := h.found (hcontainer (by simpa using hne))
    simpa [Item.paths, hname] using hreaders

/-- Call by call, a class is named that is known. -/
theorem allFound_foldl {cs : List ElementClass} (hcs : ∀ c ∈ cs, written c.name ∈ known) {e : Expr}
    (he : AllFound known e.paths) :
    AllFound known (cs.foldl (fun e c => methodOf e "with" [stringLiteral c.xmlName,
      stringLiteral c.name, .closure [] (Surroundings.newElement c.name)]) e).paths := by
  induction cs generalizing e with
  | nil => exact he
  | cons c cs ih =>
    obtain ⟨hc, hcs⟩ := List.forall_mem_cons.mp hcs
    refine ih hcs ?_
    simp [he, allFound_newElement h hc]

theorem allFound_registryItem {m : Module} (hm : ∀ c ∈ m.classes, written c.name ∈ known) :
    AllFound known (registryItem m).paths := by
  have hstart : AllFound known (callOf "meta::Registry::new" []).paths := by
    simp (disch := decide) [h.fixed]
  have hcalls := allFound_foldl h (fun c hc => hm c (Module.mem_registered.mp hc).1) hstart
  simp (disch := decide) [registryItem, Item.paths, Function.paths, h.fixed, hcalls]

end

section
variable {m : Module}

theorem written_mem_of_class {c : ElementClass} (hc : c ∈ m.classes) :
    written c.name ∈ (moduleTypeNames m).map written :=
  List.mem_map_of_mem (List.mem_append_right _ (List.mem_append_right _
    (List.mem_append_right _ (List.mem_map_of_mem hc))))

theorem written_mem_of_enumeration {e : Enumeration} (he : e ∈ m.enumerations) :
    written e.name ∈ (moduleTypeNames m).map written :=
  List.mem_map_of_mem (List.mem_append_left _ (List.mem_map_of_mem he))

/-- The container is declared if it holds anything. -/
theorem containerName_mem (hreaders : readersOf m none ≠ []) :
    containerName ∈ (moduleTypeNames m).map written := by
  have hmem : containerName ∈ containerNames m := by
    rw [containerNames, if_neg (by simpa using hreaders)]
    exact List.mem_singleton_self _
  exact List.mem_map_of_mem (f := written)
    (List.mem_append_right _ (List.mem_append_left _ hmem))

theorem homeName_mem {e : Enumeration} (he : e ∈ m.enumerations) :
    homeName m e ∈ (moduleTypeNames m).map written := by
  rw [homeName]
  rcases List.mem_cons.mp (home?_mem m e) with hnone | hsome
  · rw [hnone]
    exact containerName_mem (readersOf_none_ne_nil he hnone)
  · obtain ⟨c, hc, howner⟩ := List.mem_map.mp hsome
    rw [← howner]
    exact written_mem_of_class hc

/-- A class creates elements of classes that are declared. -/
theorem written_mem_of_creatable (hm : m.Closed) {c : ElementClass} (hc : c ∈ m.classes)
    {ms : Membership} (hms : ms ∈ c.membership) {slot : String × String}
    (hslot : slot ∈ ms.creatable) : written slot.2 ∈ (moduleTypeNames m).map written := by
  obtain ⟨k, hk, -⟩ := hm.slots c hc ms hms slot (firstOfEach_subset _ hslot)
  obtain ⟨hk, hname⟩ := List.mem_filter.mp (hk ▸ List.mem_singleton_self k)
  exact of_decide_eq_true hname ▸ written_mem_of_class hk

/-- What the code of a module refers to is declared, or it is one of the names around the code. -/
theorem allFound_sourceFile {known : List String} (h : Scope known) (hm : m.Closed)
    (hmarkers : ∀ c ∈ m.classes, ∀ name ∈ c.markers, written name ∈ known)
    (hdeclared : (moduleTypeNames m).map written ⊆ known) (htext : m.HasText → "Into" ∈ known)
    (modules : List String) (support : String) :
    AllFound known ((sourceFile m modules support).items.flatMap Item.paths) := by
  have henumeration : ∀ e ∈ m.enumerations, written e.name ∈ known :=
    fun e he => hdeclared (written_mem_of_enumeration he)
  have hs : (surroundingsOf m).Known known :=
    ⟨henumeration, fun e he => hdeclared (homeName_mem he)⟩
  have hreaders := allFound_readersOf h henumeration
  rw [sourceFile, moduleItems]
  simp only [List.flatMap_append, List.flatMap_cons, List.flatMap_nil, allFound_append,
    allFound_nil, and_true]
  refine ⟨⟨?imports, ?imports⟩, ⟨⟨⟨?enumerations, ?container⟩, ?markers⟩, ?classes⟩, ?registry⟩
  case imports => exact allFound_nil
  case enumerations =>
    rw [List.flatMap_assoc, allFound_flatMap]
    exact fun e he => allFound_enumerationItems h (henumeration e he)
  case container =>
    exact allFound_containerItems h (fun hne => hdeclared (containerName_mem hne)) (hreaders none)
  case markers =>
    simp (disch := decide) [List.flatMap_map, markerItem, Item.paths, h.fixed]
  case classes =>
    rw [List.flatMap_assoc, allFound_flatMap]
    intro c hc
    exact allFound_classItems h hs (fun f hf ht => htext ⟨c, hc, f, hf, ht⟩)
      (hdeclared (written_mem_of_class hc))
      (fun ms hms slot hslot => hdeclared (written_mem_of_creatable hm hc hms hslot))
      (hmarkers c hc) (hreaders _)
  case registry =>
    exact allFound_registryItem h fun c hc => hdeclared (written_mem_of_class hc)

end

/-- What sets text is there for any value that is text. -/
theorem into_mem_uses {m : Module} (h : m.HasText) (modules : List String) (support : String) :
    "Into" ∈ (sourceFile m modules support).uses := by
  obtain ⟨c, hc, f, hf, htext⟩ := h
  have hsetter : "Into" ∈ ((surroundingsOf m).accessors f).flatMap Associated.paths := by
    simp [Surroundings.accessors, htext, Associated.paths, Function.paths, Param.paths]
  have hown : "Into" ∈ (ownMembers (surroundingsOf m) c).flatMap Associated.paths := by
    rw [ownMembers, List.flatMap_append, List.flatMap_assoc]
    exact List.mem_append_right _ (List.mem_flatMap.mpr ⟨f, hf, hsetter⟩)
  have himpl : "Into" ∈ ((surroundingsOf m).classItems c (readersOf m (some c.name))).flatMap
      Item.paths := by
    refine List.mem_flatMap.mpr ⟨.impl none (written c.name)
      (ownMembers (surroundingsOf m) c ++ readersOf m (some c.name)), ?_, ?_⟩
    · simp [Surroundings.classItems, ownMembers]
    · rw [Item.paths, List.flatMap_append]
      exact List.mem_cons_of_mem _ (List.mem_append_left _ hown)
  refine List.mem_map.mpr ⟨"Into", ?_, by decide⟩
  rw [sourceFile, moduleItems, List.flatMap_append, List.flatMap_append, List.flatMap_append,
    List.flatMap_assoc]
  exact List.mem_append_right _ (List.mem_append_left _ (List.mem_append_right _
    (List.mem_flatMap.mpr ⟨c, hc, himpl⟩)))

end XmlBinding.Code
