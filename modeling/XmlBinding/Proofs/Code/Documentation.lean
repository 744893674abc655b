import XmlBinding.Code.Source
import XmlBinding.Proofs.Binding.Documentation
import XmlBinding.Proofs.Code.Pages
import XmlBinding.Proofs.Xml.Equality

/-! # Documentation in the code

What is documented in a module is an item of its code, a variant or a member of one, and the
documentation is shown where that begins.
-/
namespace XmlBinding.Code
open Binding Text

/-! ## Notes -/

def Associated.notes : Associated → List Note
  | .constant notes _ _ _ => notes
  | .type _ _ => []
  | .function f => f.notes

/-- The notes of an item, and those of all its variants and members. -/
def Item.noteLists : Item → List (List Note)
  | .words _ => []
  | .enumeration notes _ variants => notes :: variants.map (·.1)
  | .record notes _ _ | .wrapper notes _ _ | .unit notes _ | .trait notes _ _ => [notes]
  | .impl _ _ members => members.map Associated.notes
  | .function f => [f.notes]

section
variable {text : String}

/-- What is documented begins with its notes. -/
def Notes (text : String) (notes : List Note) : Prop := ∃ ds, Begins text (notesDocs notes ++ ds)

theorem notes_of_function {f : Function} (h : Begins text f.docs) : Notes text f.notes := by
  rw [Function.docs, List.append_assoc] at h
  exact ⟨_, h⟩

theorem notes_of_associated {a : Associated} (h : Begins text a.docs) : Notes text a.notes := by
  cases a with
  | constant notes name t e => exact ⟨_, h⟩
  | type name t => exact ⟨_, h⟩
  | function f => exact notes_of_function h

theorem notes_of_item {item : Item} (h : Begins text item.docs) {notes : List Note}
    (hnotes : notes ∈ item.noteLists) : Notes text notes := by
  cases item with
  | words s => cases hnotes
  | enumeration own name variants =>
    rw [Item.docs, List.append_assoc] at h
    rcases List.mem_cons.mp hnotes with rfl | hnotes
    · exact ⟨_, h⟩
    · obtain ⟨v, hv, rfl⟩ := List.mem_map.mp hnotes
      have hvariant := begins_of_mem_braced h.behind_notes (List.mem_map_of_mem hv)
      rw [variantDocs, List.append_assoc, List.append_assoc] at hvariant
      exact ⟨_, hvariant⟩
  | record own name fields =>
    obtain rfl := List.mem_singleton.mp hnotes
    rw [Item.docs, List.append_assoc] at h
    exact ⟨_, h⟩
  | wrapper own name t =>
    obtain rfl := List.mem_singleton.mp hnotes
    exact ⟨_, h⟩
  | unit own name =>
    obtain rfl := List.mem_singleton.mp hnotes
    exact ⟨_, h⟩
  | trait own name super =>
    obtain rfl := List.mem_singleton.mp hnotes
    rw [Item.docs, List.append_assoc] at h
    exact ⟨_, h⟩
  | impl implemented name members =>
    obtain ⟨a, ha, rfl⟩ := List.mem_map.mp hnotes
    exact notes_of_associated (begins_of_mem_braced h (List.mem_map_of_mem ha))
  | function f =>
    obtain rfl := List.mem_singleton.mp hnotes
    exact notes_of_function h

end

/-! ## Modules -/

/-- A list of notes that starts with the documentation of something. -/
def Documents (documentation : Option String) (notes : List Note) : Prop :=
  ∃ others, notes = documentationNotes documentation ++ others

/-- Among the notes of some items are those that start with the documentation. -/
def DocumentedIn (documentation : Option String) (items : List Item) : Prop :=
  ∃ item ∈ items, ∃ notes ∈ item.noteLists, Documents documentation notes

section
variable {d : Option String}

theorem DocumentedIn.mono {items items' : List Item} (h : DocumentedIn d items)
    (hsub : items ⊆ items') : DocumentedIn d items' := by
  obtain ⟨item, hitem, h⟩ := h
  exact ⟨item, hsub hitem, h⟩

theorem documentedIn_enumerationItems {e : Enumeration} (h : d ∈ e.documentations) :
    DocumentedIn d (enumerationItems e) := by
  unfold enumerationItems
  split
  · refine ⟨_, List.mem_cons_self, ?_⟩
    rcases List.mem_cons.mp h with rfl | h
    · exact ⟨_, List.mem_cons_self, _, rfl⟩
    · obtain ⟨member, hmember, rfl⟩ := List.mem_map.mp h
      exact ⟨(variantOf member).1,
        List.mem_cons_of_mem _ (List.mem_map_of_mem (List.mem_map_of_mem hmember)), _, rfl⟩
  · rcases List.mem_cons.mp h with rfl | h
    · exact ⟨_, List.mem_cons_self, _, List.mem_cons_self, _, rfl⟩
    · obtain ⟨member, hmember, rfl⟩ := List.mem_map.mp h
      refine ⟨_, List.mem_cons_of_mem _ List.mem_cons_self, (flagConstant member).notes, ?_,
        [], (List.append_nil _).symm⟩
      exact List.mem_map_of_mem (List.mem_append_left _ (List.mem_map_of_mem hmember))

/-- A value is documented where it is read. -/
theorem exists_getter (s : Surroundings) (f : Field) :
    ∃ a ∈ s.accessors f, Documents f.documentation a.notes := by
  unfold Surroundings.accessors
  split <;> exact ⟨_, List.mem_cons_self, [], (List.append_nil _).symm⟩

theorem documentedIn_classItems (s : Surroundings) {c : ElementClass} (readers : List Associated)
    (h : d ∈ c.documentations) : DocumentedIn d (s.classItems c readers) := by
  unfold Surroundings.classItems
  simp only [List.append_assoc, List.cons_append]
  rcases List.mem_cons.mp h with rfl | h
  · exact ⟨_, List.mem_cons_self, _, List.mem_cons_self, _, rfl⟩
  · obtain ⟨f, hf, rfl⟩ := List.mem_map.mp h
    obtain ⟨a, ha, hdocuments⟩ := exists_getter s f
    refine ⟨_, List.mem_cons_of_mem _ List.mem_cons_self, a.notes, List.mem_map_of_mem ?_,
      hdocuments⟩
    simp only [List.mem_append, List.mem_cons, List.mem_flatMap]
    exact .inr (.inr (.inr (.inr (.inl ⟨f, hf, ha⟩))))

/-- What is documented in a module is documented in its code. -/
theorem documentedIn_sourceFile {m : Module} (h : d ∈ m.documentations) (modules : List String)
    (support : String) : DocumentedIn d (sourceFile m modules support).items := by
  have hitems : moduleItems m ⊆ (sourceFile m modules support).items :=
    List.subset_append_right _ _
  refine DocumentedIn.mono ?_ hitems
  unfold moduleItems
  simp only [List.append_assoc]
  rcases List.mem_append.mp h with h | h
  · obtain ⟨e, he, h⟩ := List.mem_flatMap.mp h
    refine (documentedIn_enumerationItems h).mono fun item hitem => List.mem_append_left _ ?_
    exact List.mem_flatMap.mpr ⟨e, he, hitem⟩
  rcases List.mem_append.mp h with h | h
  · obtain ⟨k, hk, rfl⟩ := List.mem_map.mp h
    refine ⟨markerItem k, ?_, _, List.mem_cons_self, [], (List.append_nil _).symm⟩
    simp only [List.mem_append, List.mem_map]
    exact .inr (.inr (.inl ⟨k, hk, rfl⟩))
  · obtain ⟨c, hc, h⟩ := List.mem_flatMap.mp h
    refine (documentedIn_classItems ⟨m.enumerations,
      fun e => written ((m.home? e).getD containerName), m.targetNamespace⟩
      (readersOf m (some c.name)) h).mono fun item hitem => ?_
    simp only [List.mem_append, List.mem_flatMap]
    exact .inr (.inr (.inr (.inl ⟨c, hc, hitem⟩)))

end

/-- Documentation without odd characters at the ends of its lines is shown in the code. -/
theorem shows_of_mem_documentations {m : Module} {d : String} (h : some d ∈ m.documentations)
    (hunbroken : ∀ l ∈ lines d, Unbroken l.toList) (modules : List String) (support : String) :
    Shows (sourceFile m modules support).text d := by
  obtain ⟨item, hitem, notes, hnotes, others, rfl⟩ := documentedIn_sourceFile h modules support
  obtain ⟨ds, hbegins⟩ := notes_of_item (begins_of_mem_items hitem) hnotes
  exact hbegins.shows hunbroken

end XmlBinding.Code

namespace XmlBinding
open Schema Binding Xml Code Text

/-- Normalizing keeps the words of every line from the first that is not blank to the last, and the
blank lines between. What comes out has no blanks but single spaces between words, and stays as it
is. All documentation of a generated module is such a text, and its lines are consecutive lines of
the code, one doc comment each. -/
theorem documentation_normalized :
    (∀ t : String, Normal (normalize t) ∧ '\r' ∉ (normalize t).toList ∧
      (∃ before after, (lines t).map words = List.replicate before [] ++
        ((lines (normalize t)).map words ++ List.replicate after [])) ∧
      normalize (normalize t) = normalize t) ∧
    ∀ (text source : String) (options : Options), generate text options = .ok source →
      ∃ m modules support, bindSchema text options.allowDoctype = .ok m ∧
        source = (sourceFile m modules support).text ∧
        ∀ d, some d ∈ m.documentations → Normal d ∧ Shows source d := by
  constructor
  · intro t
    have hnormal := normal_normalize t
    refine ⟨hnormal, fun hmem => ?_, map_words_lines t, hnormal.normalize_eq_self⟩
    exact absurd (hnormal.eq_of_isBlank hmem (by decide)) (by decide)
  · intro text source options h
    obtain ⟨m, modules, support, hm, rfl⟩ := exists_of_generate h
    obtain ⟨model, hread, hbound⟩ := bindSchema_eq_ok.mp hm
    obtain ⟨root, -, hmodel⟩ := readSchema_eq_ok.mp hread
    refine ⟨m, modules, support, hm, rfl, fun d hd => ?_⟩
    have hnormal : Normal d := Module.documented_of_ofModel (documented_of_readModel hmodel)
      (keyed_of_readModel hmodel) (attributeName_of_readModel hmodel) hbound _ hd d rfl
    exact ⟨hnormal, shows_of_mem_documentations hd hnormal.unbroken modules support⟩

/-- Two paragraphs with odd blanks. -/
def paragraphsText : String := "\n  First\t  line,\n \n  second. \n"

def paragraphsDocument : String :=
  "<schema xmlns=\"http://www.w3.org/2001/XMLSchema\"><element name=\"note\" type=\"string\">" ++
    "<annotation><documentation>" ++ paragraphsText ++ "</documentation></annotation>" ++
    "</element></schema>"

def paragraphsElement : Element :=
  let scope : Xml.Scope := [(none, schemaUri)]
  ⟨⟨some schemaUri, "element"⟩, [⟨⟨none, "name"⟩, "note"⟩, ⟨⟨none, "type"⟩, "string"⟩], scope,
    [.element ⟨⟨some schemaUri, "annotation"⟩, [], scope,
      [.element ⟨⟨some schemaUri, "documentation"⟩, [], scope, [.text paragraphsText]⟩]⟩]⟩

def paragraphsRoot : Element :=
  ⟨⟨some schemaUri, "schema"⟩, [], [(none, schemaUri)], [.element paragraphsElement]⟩

def paragraphsSchema : Model where
  elements := [("note", ⟨"note", some "First line,\n\nsecond.", .named (.builtin "string"), false⟩)]

theorem readModel_paragraphsRoot : readModel paragraphsRoot = .ok paragraphsSchema := by
  have hname : requiredText paragraphsElement "name" = .ok "note" := by decide +kernel
  have habstract : boolAttribute paragraphsElement "abstract" = .ok none := by decide +kernel
  have htype : nameAttribute paragraphsElement "type" = .ok (some ⟨some schemaUri, "string"⟩) := by
    decide +kernel
  have hbuiltin : TypeName.ofExpanded ⟨some schemaUri, "string"⟩ = .builtin "string" := by
    decide +kernel
  have hdocumentation : documentation paragraphsElement = some "First line,\n\nsecond." := by
    decide +kernel
  have helement : readComponent paragraphsRoot paragraphsElement = .ok (some (.element
      ⟨"note", some "First line,\n\nsecond.", .named (.builtin "string"), false⟩)) := by
    change (do return some (Component.element (← readElement paragraphsElement))) = _
    rw [readElement, hname, habstract, htype, hdocumentation]
    simp only [hbuiltin, bind, Except.bind]
    rfl
  have htag : paragraphsRoot.tag = "schema" := rfl
  have hattribute : paragraphsRoot.attribute? "targetNamespace" = none := rfl
  have helements : paragraphsRoot.elements = [paragraphsElement] := rfl
  rw [readModel, helements]
  simp [htag, hattribute, readChild, helement, Model.add, insertNew, Model.sharedTypeName?,
    paragraphsSchema, bind, Except.bind, pure, Except.pure]

theorem documentation_normalized_paragraphs :
    normalize paragraphsText = "First line,\n\nsecond." ∧
    normalize "First line,\n\nsecond." = "First line,\n\nsecond." ∧
    ∃ source, generate paragraphsDocument {} = .ok source ∧
      ∃ indent, commentLines indent ["First line,", "", "second."] <:+: lines source := by
  have hnormalized : normalize paragraphsText = "First line,\n\nsecond." := by decide +kernel
  refine ⟨hnormalized, ?_, ?_⟩
  · rw [← hnormalized]
    exact (documentation_normalized.1 paragraphsText).2.2.2
  · have hread : readDocument false paragraphsDocument = .ok paragraphsRoot := by decide +kernel
    obtain ⟨m, hm, hdocumentations⟩ := exists_of_toOption paragraphsSchema (P := fun m =>
      m.documentations.contains (some "First line,\n\nsecond.")) (by decide +kernel)
    have hbound : bindSchema paragraphsDocument false = .ok m :=
      bindSchema_eq_ok.mpr ⟨_, readSchema_eq_ok.mpr ⟨_, hread, readModel_paragraphsRoot⟩, hm⟩
    obtain ⟨source, hsource⟩ := exists_generate hbound
    obtain ⟨m', modules, support, hm', -, hshown⟩ := documentation_normalized.2 _ _ _ hsource
    obtain rfl : m' = m := Except.ok.inj (hm'.symm.trans hbound)
    obtain ⟨-, indent, hlines⟩ := hshown _ (List.contains_iff_mem.mp hdocumentations)
    have hthree : lines "First line,\n\nsecond." = ["First line,", "", "second."] := by
      decide +kernel
    exact ⟨source, hsource, indent, hthree ▸ hlines⟩

end XmlBinding
