import Mathlib.Data.List.Duplicate
import XmlBinding.Proofs.Binding.Documents

/-! # Tables list what is declared

Each child of a schema that can be read adds an entry to the table of its kind, unless there is one
of its name. So the tables are right as far as the children have been read, and reading stops at the
first name that is declared twice in a table. Simple and complex types are in tables of their own,
although they have their names in common, so these are compared at the end.
-/
namespace XmlBinding.Schema
open Xml

/-- The tags of declarations with names of one kind. -/
def Kind.tags : Kind → List String
  | .type => ["simpleType", "complexType"]
  | .element => ["element"]
  | .attribute => ["attribute"]
  | .attributeGroup => ["attributeGroup"]
  | .group => ["group"]

/-- The names of a kind that children of a schema declare, in order. -/
def declaredNames (cs : List Element) (kind : Kind) : List String :=
  (cs.filter (kind.tags.contains ·.tag)).filterMap (·.attribute? "name")

/-- A table with one entry for each child of this tag, in order: what is read from the child, under
its own name. -/
def ListsEach {α : Type} (tag : String) (read : Element → Result α) (ownName : α → Option String)
    (cs : List Element) (table : List (String × α)) : Prop :=
  List.Forall₂
    (fun c e => c.attribute? "name" = some e.1 ∧ read c = .ok e.2 ∧ ownName e.2 = some e.1)
    (cs.filter (·.tag = tag)) table

/-- The tables list the components that children of a schema declare. -/
structure Model.Lists (cs : List Element) (m : Model) : Prop where
  simpleTypes : ListsEach "simpleType" readSimpleType SimpleType.name cs m.simpleTypes
  complexTypes : ListsEach "complexType" readComplexType ComplexType.name cs m.complexTypes
  elements : ListsEach "element" readElement (some ·.name) cs m.elements
  attributes : ListsEach "attribute" readAttribute (some ·.name) cs m.attributes
  attributeGroups :
    ListsEach "attributeGroup" readAttributeGroup (some ·.name) cs m.attributeGroups
  groups : ListsEach "group" readGroup (some ·.name) cs m.groups

/-! ## Names in tables -/

section
variable {α : Type} {tag : String} {read : Element → Result α} {ownName : α → Option String}
  {cs ds : List Element} {table more : List (String × α)}

theorem ListsEach.append (h : ListsEach tag read ownName cs table)
    (h' : ListsEach tag read ownName ds more) :
    ListsEach tag read ownName (cs ++ ds) (table ++ more) := by
  unfold ListsEach
  rw [List.filter_append]
  exact List.rel_append h h'

/-- The keys of a table are the names that are declared. -/
theorem ListsEach.names (h : ListsEach tag read ownName cs table) :
    (cs.filter (·.tag = tag)).filterMap (·.attribute? "name") = table.map (·.1) := by
  unfold ListsEach at h
  generalize cs.filter (·.tag = tag) = children at h
  induction h with
  | nil => rfl
  | @cons c e cs table he _ ih =>
    have hname : (c :: cs).filterMap (·.attribute? "name") =
        e.1 :: cs.filterMap (·.attribute? "name") := List.filterMap_cons_some he.1
    rw [hname, ih, List.map_cons]

end

theorem declaredNames_append (cs ds : List Element) (kind : Kind) :
    declaredNames (cs ++ ds) kind = declaredNames cs kind ++ declaredNames ds kind := by
  simp [declaredNames]

/-- The names of a kind in the tables. -/
def Model.names (m : Model) : Kind → List String
  | .type => m.simpleTypes.map (·.1) ++ m.complexTypes.map (·.1)
  | .element => m.elements.map (·.1)
  | .attribute => m.attributes.map (·.1)
  | .attributeGroup => m.attributeGroups.map (·.1)
  | .group => m.groups.map (·.1)

/-- Simple types and complex types are declared in any order. -/
theorem declaredNames_type_perm (cs : List Element) :
    (declaredNames cs .type).Perm
      ((cs.filter (·.tag = "simpleType")).filterMap (·.attribute? "name") ++
        (cs.filter (·.tag = "complexType")).filterMap (·.attribute? "name")) := by
  have hsplit := List.filter_append_perm (fun c : Element => decide (c.tag = "simpleType"))
    (cs.filter (Kind.type.tags.contains ·.tag))
  rw [List.filter_filter, List.filter_filter] at hsplit
  have hsimple : cs.filter (fun c => decide (c.tag = "simpleType") && Kind.type.tags.contains c.tag) =
      cs.filter (·.tag = "simpleType") := by
    apply List.filter_congr
    intro c _
    by_cases h : c.tag = "simpleType" <;> simp [h, Kind.tags]
  have hcomplex : cs.filter (fun c => !decide (c.tag = "simpleType") &&
      Kind.type.tags.contains c.tag) = cs.filter (·.tag = "complexType") := by
    apply List.filter_congr
    intro c _
    by_cases h : c.tag = "simpleType" <;> simp [h, Kind.tags]
  rw [hsimple, hcomplex] at hsplit
  rw [← List.filterMap_append]
  exact (hsplit.filterMap _).symm

theorem Model.Lists.names_perm {cs : List Element} {m : Model} (h : m.Lists cs) (kind : Kind) :
    (declaredNames cs kind).Perm (m.names kind) := by
  have hone (tag : String) : cs.filter ([tag].contains ·.tag) = cs.filter (·.tag = tag) := by
    simp
  match kind with
  | .type =>
    rw [names, ← h.simpleTypes.names, ← h.complexTypes.names]
    exact declaredNames_type_perm cs
  | .element => rw [names, ← h.elements.names, declaredNames, Kind.tags, hone]
  | .attribute => rw [names, ← h.attributes.names, declaredNames, Kind.tags, hone]
  | .attributeGroup => rw [names, ← h.attributeGroups.names, declaredNames, Kind.tags, hone]
  | .group => rw [names, ← h.groups.names, declaredNames, Kind.tags, hone]

/-! ## One child -/

def Component.kind : Component → Kind
  | .simpleType .. | .complexType .. => .type
  | .element _ => .element
  | .attribute _ => .attribute
  | .attributeGroup _ => .attributeGroup
  | .group _ => .group

def Component.name : Component → String
  | .simpleType name _ | .complexType name _ => name
  | .element d => d.name
  | .attribute d => d.name
  | .attributeGroup g => g.name
  | .group g => g.name

/-- The names in the table that a component is added to. -/
def Model.namesBeside (m : Model) : Component → List String
  | .simpleType .. => m.simpleTypes.map (·.1)
  | .complexType .. => m.complexTypes.map (·.1)
  | .element _ => m.elements.map (·.1)
  | .attribute _ => m.attributes.map (·.1)
  | .attributeGroup _ => m.attributeGroups.map (·.1)
  | .group _ => m.groups.map (·.1)

/-- Tables with a component and nothing else. -/
def Component.tables : Component → Model
  | .simpleType name t => { simpleTypes := [(name, t)] }
  | .complexType name t => { complexTypes := [(name, t)] }
  | .element d => { elements := [(d.name, d)] }
  | .attribute d => { attributes := [(d.name, d)] }
  | .attributeGroup g => { attributeGroups := [(g.name, g)] }
  | .group g => { groups := [(g.name, g)] }

/-- The tables of one model followed by those of another. -/
def Model.append (m n : Model) : Model where
  targetNamespace := m.targetNamespace
  simpleTypes := m.simpleTypes ++ n.simpleTypes
  complexTypes := m.complexTypes ++ n.complexTypes
  elements := m.elements ++ n.elements
  attributes := m.attributes ++ n.attributes
  attributeGroups := m.attributeGroups ++ n.attributeGroups
  groups := m.groups ++ n.groups

section
variable {cs ds : List Element} {m n : Model}

theorem Model.Lists.append (h : m.Lists cs) (h' : n.Lists ds) :
    (m.append n).Lists (cs ++ ds) where
  simpleTypes := h.simpleTypes.append h'.simpleTypes
  complexTypes := h.complexTypes.append h'.complexTypes
  elements := h.elements.append h'.elements
  attributes := h.attributes.append h'.attributes
  attributeGroups := h.attributeGroups.append h'.attributeGroups
  groups := h.groups.append h'.groups

theorem insertNew_eq {α : Type} (kind : Kind) (table : List (String × α)) (name : String) (a : α) :
    insertNew kind table name a =
      if name ∈ table.map (·.1) then .error (.duplicate kind name)
      else .ok (table ++ [(name, a)]) := by
  have hname : table.any (·.1 == name) = true ↔ name ∈ table.map (·.1) := by simp
  by_cases h : name ∈ table.map (·.1)
  · rw [if_pos h, insertNew, if_pos (hname.mpr h)]
  · rw [if_neg h, insertNew, if_neg (hname.not.mpr h)]

/-- A component whose name its table has is refused, -/
theorem Model.add_of_mem {component : Component}
    (h : component.name ∈ m.namesBeside component) :
    m.add component = .error (.duplicate component.kind component.name) := by
  cases component <;>
  · simp only [Component.name, namesBeside] at h
    simp only [add, insertNew_eq, if_pos h]
    rfl

/-- and any other is added at the end of its table. -/
theorem Model.add_of_notMem {component : Component}
    (h : component.name ∉ m.namesBeside component) :
    m.add component = .ok (m.append component.tables) := by
  cases component <;>
  · simp only [Component.name, namesBeside] at h
    simp only [add, insertNew_eq, if_neg h]
    simp [append, Component.tables, Bind.bind, Except.bind, pure, Except.pure]

theorem Model.mem_names_of_mem_namesBeside {component : Component} {name : String}
    (h : name ∈ m.namesBeside component) : name ∈ m.names component.kind := by
  match component with
  | .simpleType .. => exact List.mem_append_left _ h
  | .complexType .. => exact List.mem_append_right _ h
  | .element _ | .attribute _ | .attributeGroup _ | .group _ => exact h

end

/-! ## Own names -/

section
variable {e : Element}

theorem name_of_readSimpleType {t : SimpleType} (h : readSimpleType e = .ok t) :
    t.name = e.attribute? "name" := by
  rw [readSimpleType] at h
  obtain ⟨variety, -, h⟩ := ok_of_bind h
  split at h
  · cases h
    rfl
  · cases h

theorem name_of_readElement {d : ElementDeclaration} (h : readElement e = .ok d) :
    e.attribute? "name" = some d.name := by
  rw [readElement] at h
  obtain ⟨name, hname, h⟩ := ok_of_bind h
  obtain ⟨isAbstract, -, h⟩ := ok_of_bind h
  obtain ⟨named, -, h⟩ := ok_of_bind h
  cases named <;>
  · obtain ⟨type, -, h⟩ := ok_of_bind h
    cases h
    exact attribute_of_requiredText hname

theorem name_of_readAttribute {d : AttributeDeclaration} (h : readAttribute e = .ok d) :
    e.attribute? "name" = some d.name := by
  rw [readAttribute] at h
  obtain ⟨name, hname, h⟩ := ok_of_bind h
  obtain ⟨type, -, h⟩ := ok_of_bind h
  cases h
  exact attribute_of_requiredText hname

theorem name_of_readAttributeGroup {g : AttributeGroup} (h : readAttributeGroup e = .ok g) :
    e.attribute? "name" = some g.name := by
  rw [readAttributeGroup] at h
  obtain ⟨name, hname, h⟩ := ok_of_bind h
  obtain ⟨uses, -, h⟩ := ok_of_bind h
  cases h
  exact attribute_of_requiredText hname

theorem name_of_readGroup {g : GroupDefinition} (h : readGroup e = .ok g) :
    e.attribute? "name" = some g.name := by
  rw [readGroup] at h
  obtain ⟨name, hname, h⟩ := ok_of_bind h
  split at h
  · cases h
  · obtain ⟨group, -, h⟩ := ok_of_bind h
    cases h
    exact attribute_of_requiredText hname

end

/-! ## All children -/

/-- A child that can be read declares what is read from it, and nothing else. -/
theorem lists_of_readComponent {schema c : Element} {found : Option Component}
    (h : readComponent schema c = .ok found) : (found.elim {} Component.tables).Lists [c] := by
  have h := declaredBy_of_readComponent h
  cases found with
  | none =>
    have htag : c.tag = "annotation" ∨ c.tag = "notation" := h
    rcases htag with htag | htag <;> constructor <;> simp [ListsEach, htag]
  | some component =>
    have h : component.DeclaredBy c := h
    cases h with
    | simpleType htag ht hname =>
      have hown := (name_of_readSimpleType ht).trans hname
      constructor <;> simp [ListsEach, Component.tables, htag, ht, hname, hown]
    | complexType htag ht hname =>
      have hown := (name_of_readComplexType ht).trans hname
      constructor <;> simp [ListsEach, Component.tables, htag, ht, hname, hown]
    | element htag hd =>
      have hname := name_of_readElement hd
      constructor <;> simp [ListsEach, Component.tables, htag, hd, hname]
    | «attribute» htag hd =>
      have hname := name_of_readAttribute hd
      constructor <;> simp [ListsEach, Component.tables, htag, hd, hname]
    | attributeGroup htag hg =>
      have hname := name_of_readAttributeGroup hg
      constructor <;> simp [ListsEach, Component.tables, htag, hg, hname]
    | group htag hg =>
      have hname := name_of_readGroup hg
      constructor <;> simp [ListsEach, Component.tables, htag, hg, hname]

/-- The tables list what children declare, or one of the names is declared twice and reported. -/
def ListsOrReports (cs : List Element) (r : Result Model) : Prop :=
  (∃ m, r = .ok m ∧ m.Lists cs) ∨
    ∃ kind name, r = .error (.duplicate kind name) ∧ 2 ≤ (declaredNames cs kind).count name

section
variable {schema : Element} {m : Model} {before : List Element}

/-- A name that is in its table has been declared before. -/
theorem two_le_count_declaredNames {c : Element} {component : Component} (hm : m.Lists before)
    (hc : component.tables.Lists [c]) (hname : component.name ∈ m.namesBeside component) :
    2 ≤ (declaredNames (before ++ [c]) component.kind).count component.name := by
  have hbefore : component.name ∈ declaredNames before component.kind :=
    (hm.names_perm _).mem_iff.mpr (Model.mem_names_of_mem_namesBeside hname)
  have hown : component.name ∈ component.tables.names component.kind := by
    cases component <;> simp [Component.tables, Component.kind, Component.name, Model.names]
  have hlast : component.name ∈ declaredNames [c] component.kind :=
    (hc.names_perm _).mem_iff.mpr hown
  rw [declaredNames_append, List.count_append]
  have := List.count_pos_iff.mpr hbefore
  have := List.count_pos_iff.mpr hlast
  omega

theorem readChild_listsOrReports {c : Element} (hm : m.Lists before)
    (hc : (readComponent schema c).isOk = true) :
    ListsOrReports (before ++ [c]) (readChild schema m c) := by
  unfold readChild
  cases hread : readComponent schema c with
  | error e =>
    rw [hread] at hc
    cases hc
  | ok found =>
    have hlists := lists_of_readComponent hread
    cases found with
    | none =>
      have hsame : m.append {} = m := by simp [Model.append]
      exact .inl ⟨m, rfl, hsame ▸ hm.append hlists⟩
    | some component =>
      by_cases hname : component.name ∈ m.namesBeside component
      · exact .inr ⟨component.kind, component.name, Model.add_of_mem hname,
          two_le_count_declaredNames hm hlists hname⟩
      · exact .inl ⟨_, Model.add_of_notMem hname, hm.append hlists⟩

/-- The invariant is that the tables list what has been declared before. -/
theorem foldlM_listsOrReports {cs : List Element} (hm : m.Lists before)
    (hcs : ∀ c ∈ cs, (readComponent schema c).isOk = true) :
    ListsOrReports (before ++ cs) (cs.foldlM (readChild schema) m) := by
  induction cs generalizing before m with
  | nil =>
    rw [List.append_nil]
    exact .inl ⟨m, rfl, hm⟩
  | cons c cs ih =>
    obtain ⟨hc, hcs⟩ := List.forall_mem_cons.mp hcs
    have hsplit : before ++ c :: cs = before ++ [c] ++ cs := by simp
    rw [List.foldlM_cons, hsplit]
    rcases readChild_listsOrReports hm hc with ⟨m', hread, hm'⟩ | ⟨kind, name, hread, hcount⟩
    · rw [hread]
      exact ih hm' hcs
    · refine .inr ⟨kind, name, by rw [hread]; rfl, ?_⟩
      rw [declaredNames_append, List.count_append]
      omega

end

/-- A name in both tables of types. -/
theorem Model.mem_of_sharedTypeName? {m : Model} {name : String}
    (h : m.sharedTypeName? = some name) :
    name ∈ m.simpleTypes.map (·.1) ∧ name ∈ m.complexTypes.map (·.1) := by
  obtain ⟨e, hfind, rfl⟩ := Option.map_eq_some_iff.mp h
  have hshared := List.find?_some hfind
  exact ⟨List.mem_map_of_mem (List.mem_of_find?_eq_some hfind), by simpa using hshared⟩

theorem Model.disjoint_of_sharedTypeName? {m : Model} (h : m.sharedTypeName? = none) :
    (m.simpleTypes.map (·.1)).Disjoint (m.complexTypes.map (·.1)) := by
  rw [sharedTypeName?, Option.map_eq_none_iff, List.find?_eq_none] at h
  intro name hsimple hcomplex
  obtain ⟨e, he, rfl⟩ := List.mem_map.mp hsimple
  exact h e he (by simpa using hcomplex)

theorem readModel_listsOrReports {schema : Element} (htag : schema.tag = "schema")
    (h : ∀ c ∈ schema.elements, (readComponent schema c).isOk = true) :
    ListsOrReports schema.elements (readModel schema) := by
  have hstart : ({ targetNamespace := schema.attribute? "targetNamespace" } : Model).Lists [] := by
    constructor <;> exact .nil
  rw [readModel, if_neg (not_not.mpr htag)]
  dsimp only
  rcases foldlM_listsOrReports hstart h with ⟨m, hread, hm⟩ | ⟨kind, name, hread, hcount⟩
  · rw [List.nil_append] at hm
    rw [hread]
    simp only [Bind.bind, Except.bind]
    cases hshared : m.sharedTypeName? with
    | none => exact .inl ⟨m, rfl, hm⟩
    | some name =>
      obtain ⟨hsimple, hcomplex⟩ := Model.mem_of_sharedTypeName? hshared
      refine .inr ⟨.type, name, rfl, ?_⟩
      rw [(hm.names_perm .type).count_eq, Model.names, List.count_append]
      have := List.count_pos_iff.mpr hsimple
      have := List.count_pos_iff.mpr hcomplex
      omega
  · exact .inr ⟨kind, name, by rw [hread]; rfl, hcount⟩

/-- No two entries of a schema that was read have names of one kind in common. -/
theorem nodup_names_of_readModel {schema : Element} {m : Model} (h : readModel schema = .ok m)
    (kind : Kind) : (m.names kind).Nodup := by
  have hkeyed := keyed_of_readModel h
  have hgroups := groupsKeyed_of_readModel h
  match kind with
  | .type =>
    have hshared : m.sharedTypeName? = none := by
      rw [readModel] at h
      split at h
      · cases h
      · obtain ⟨m', -, h⟩ := ok_of_bind h
        split at h
        · cases h
        · cases h
          assumption
    exact hkeyed.simpleTypes.append hkeyed.complexTypes (Model.disjoint_of_sharedTypeName? hshared)
  | .element => exact hkeyed.elements
  | .attribute => exact hgroups.attributes
  | .attributeGroup => exact hgroups.attributeGroups
  | .group => exact hgroups.groups

/-- A schema of children that can be read is read just if no name is declared twice in a kind, where
simple and complex types are of one kind. Then every table lists what is declared of its kind, in
the order of the document and under its own name. Otherwise a name that is declared twice is
reported. -/
theorem lists_of_readSchema {text : String} {allow : Bool} {schema : Element}
    (hread : readDocument allow text = .ok schema) (htag : schema.tag = "schema")
    (h : ∀ c ∈ schema.elements, (readComponent schema c).isOk = true) :
    ((readSchema allow text).isOk = true ↔
        ∀ kind, (declaredNames schema.elements kind).Nodup) ∧
      (∀ m, readSchema allow text = .ok m → m.Lists schema.elements) ∧
      ∀ e, readSchema allow text = .error e → ∃ kind name, e = .duplicate kind name ∧
        2 ≤ (declaredNames schema.elements kind).count name := by
  have hsame : readSchema allow text = readModel schema := by
    unfold readSchema
    rw [hread]
  rw [hsame]
  rcases readModel_listsOrReports htag h with ⟨m, hm, hlists⟩ | ⟨kind, name, herror, hcount⟩
  · have hnodup (kind : Kind) : (declaredNames schema.elements kind).Nodup :=
      (hlists.names_perm kind).nodup_iff.mpr (nodup_names_of_readModel hm kind)
    rw [hm]
    refine ⟨⟨fun _ => hnodup, fun _ => rfl⟩, ?_, nofun⟩
    intro m' hm'
    cases hm'
    exact hlists
  · rw [herror]
    refine ⟨⟨nofun, fun hnodup => ?_⟩, nofun, ?_⟩
    · have := List.nodup_iff_count_le_one.mp (hnodup kind) name
      omega
    · intro e he
      cases he
      exact ⟨kind, name, rfl, hcount⟩

/-- Elements and types in turn. -/
def turnsOutline : Outline :=
  schemaElement "schema" [] [
    schemaElement "element" [("name", "b")] [],
    schemaElement "simpleType" [("name", "T")] [
      schemaElement "restriction" [("base", "string")] []],
    schemaElement "element" [("name", "a")] [],
    schemaElement "complexType" [("name", "U")] [],
    schemaElement "attribute" [("name", "T")] []]

/-- Types of one name in different tables. -/
def twinsOutline : Outline :=
  schemaElement "schema" [] [
    schemaElement "complexType" [("name", "T")] [],
    schemaElement "element" [("name", "a")] [],
    schemaElement "simpleType" [("name", "T")] [
      schemaElement "restriction" [("base", "string")] []]]

theorem readable_turnsOutline : ((turnsOutline.element none []).elements.all fun c =>
    (readComponent (turnsOutline.element none []) c).isOk) = true := by
  cbv

theorem readable_twinsOutline : ((twinsOutline.element none []).elements.all fun c =>
    (readComponent (twinsOutline.element none []) c).isOk) = true := by
  cbv

theorem readDocument_document {o : Outline} (h : ∀ p ∈ o.outlines, p.Proper isPlain)
    (allow : Bool) : readDocument allow o.document = .ok (o.element none []) :=
  readDocument_pieces (fun p hp => (h p hp).faithful) allow

theorem lists_of_readSchema_turns :
    (∃ m, readSchema false turnsOutline.document = .ok m ∧
      m.Lists (turnsOutline.element none []).elements ∧ m.elements.map (·.1) = ["b", "a"]) ∧
    ∃ kind name, readSchema false twinsOutline.document = .error (.duplicate kind name) ∧
      2 ≤ (declaredNames (twinsOutline.element none []).elements kind).count name := by
  obtain ⟨hturns, hlists, -⟩ := lists_of_readSchema
    (readDocument_document (o := turnsOutline) (by decide +kernel) false) (by decide +kernel)
    (List.all_eq_true.mp readable_turnsOutline)
  obtain ⟨htwins, -, hreports⟩ := lists_of_readSchema
    (readDocument_document (o := twinsOutline) (by decide +kernel) false) (by decide +kernel)
    (List.all_eq_true.mp readable_twinsOutline)
  constructor
  · have hok := hturns.mpr fun kind => by cases kind <;> decide +kernel
    cases hread : readSchema false turnsOutline.document with
    | error e =>
      rw [hread] at hok
      cases hok
    | ok m =>
      have hm := hlists m hread
      exact ⟨m, rfl, hm, hm.elements.names.symm.trans (by decide +kernel)⟩
  · have hclash : ¬ (declaredNames (twinsOutline.element none []).elements .type).Nodup := by
      decide +kernel
    cases hread : readSchema false twinsOutline.document with
    | ok m =>
      rw [hread] at htwins
      exact absurd (htwins.mp rfl .type) hclash
    | error e =>
      obtain ⟨kind, name, rfl, hcount⟩ := hreports e hread
      exact ⟨kind, name, rfl, hcount⟩

end XmlBinding.Schema
