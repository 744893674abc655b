import XmlBinding.Proofs.Binding.Values
import XmlBinding.Proofs.Code.Setting
import XmlBinding.Proofs.Tree.Blueprints
import XmlBinding.Tree.Store

/-! # Values set by name

A node holds the values of its class in order, where the record of the class has a member for each.
Setting a value by its name does the same to both, if both read texts alike.
-/
namespace XmlBinding.Tree
open Binding Value Code

/-! ## Nodes and records -/

/-- A node of a class with the values of a record. -/
structure Node.Mirrors (m : Module) (k : ElementClass) (n : Node) (members : Members Held) :
    Prop where
  typed : n.blueprint.attributes = .typed (rulesOf m k)
  values : n.values = k.values.map fun f => members (written f.member)

/-- Texts are read as nodes of the module read them. -/
def ReadsKinds (m : Module) (k : ElementClass) (reads : Reading TreeError Held) : Prop :=
  ∀ f ∈ k.values, ∀ name value, reads ((surroundingsOf m).readExpr f.type)
    (givenVars name value) = ((kindIn m f.type).read value).mapError (.invalidValue name value)

/-- Texts can be read so if what is read by one piece of code is all of one kind. -/
theorem exists_readsKinds {m : Module} {k : ElementClass}
    (h : ∀ f ∈ k.values, ∀ g ∈ k.values, (surroundingsOf m).readExpr f.type =
      (surroundingsOf m).readExpr g.type → kindIn m f.type = kindIn m g.type) :
    ∃ reads, ReadsKinds m k reads := by
  classical
  let given (word : String) (vars : Vars) : String :=
    ((vars.lookup word).bind Object.text?).getD ""
  let readAs (kind : ValueKind) (vars : Vars) : Except TreeError Held :=
    (kind.read (given "value" vars)).mapError
      (.invalidValue (given "name" vars) (given "value" vars))
  refine ⟨fun e vars => if he : ∃ f ∈ k.values, (surroundingsOf m).readExpr f.type = e then
    readAs (kindIn m he.choose.type) vars else .error .malformedDocument, fun f hf name value => ?_⟩
  have he : ∃ g ∈ k.values, (surroundingsOf m).readExpr g.type =
      (surroundingsOf m).readExpr f.type := ⟨f, hf, rfl⟩
  refine (dif_pos he).trans ?_
  rw [h _ he.choose_spec.1 f hf he.choose_spec.2]
  rfl

/-- A function does to the record of a class what is done to its nodes. -/
def Simulates (m : Module) (k : ElementClass) (f : Function) : Prop :=
  ∀ reads, ReadsKinds m k reads → ∀ (n : Node) (members : Members Held), n.Mirrors m k members →
    ∀ name value, ∃ change, f.set? reads [.text name, .text value] members = some change ∧
      n.setValue name value = change.result.map fun _ =>
        { n with values := k.values.map fun x => change.members (written x.member) }

section
variable {m : Module} {k : ElementClass}

theorem map_rulesOf (m : Module) (k : ElementClass) :
    (rulesOf m k).map (fun r => (r.name, r.kind)) =
      k.values.map fun f => (f.xmlName, kindIn m f.type) := by
  rw [rulesOf, ElementClass.values, List.map_append, List.map_append, List.map_map, List.map_map]
  rfl

theorem findIdx?_rulesOf (m : Module) (k : ElementClass) (name : String) :
    (rulesOf m k).findIdx? (·.name = name) = k.values.findIdx? (·.xmlName = name) := by
  have hnames := congrArg (List.findIdx? fun p : String × ValueKind => p.1 = name) (map_rulesOf m k)
  rwa [List.findIdx?_map, List.findIdx?_map] at hnames

theorem kind_of_rulesOf {i : Nat} {f : Field} (hf : k.values[i]? = some f) :
    ∃ r, (rulesOf m k)[i]? = some r ∧ r.kind = kindIn m f.type := by
  have hrule := congrArg (·[i]?) (map_rulesOf m k)
  simp only [List.getElem?_map, hf, Option.map_some, Option.map_eq_some_iff] at hrule
  obtain ⟨r, hr, heq⟩ := hrule
  exact ⟨r, hr, (Prod.mk.inj heq).2⟩

/-- A member that is changed changes the value at its place. -/
theorem set_values (hk : ValuesApart k) (members : Members Held) {i : Nat} {f : Field}
    (hf : k.values[i]? = some f) (held : Held) :
    (k.values.map fun x => members (written x.member)).set i (some held) =
      k.values.map fun x =>
        Function.update members (written f.member) (some held) (written x.member) := by
  refine List.ext_getElem? fun j => ?_
  rw [List.getElem?_set, List.getElem?_map, List.getElem?_map, List.length_map]
  obtain ⟨hi, rfl⟩ := List.getElem?_eq_some_iff.mp hf
  by_cases hij : i = j
  · subst hij
    rw [if_pos rfl, if_pos hi, hf, Option.map_some, Function.update_self]
  · rw [if_neg hij]
    refine Option.map_congr fun x hx => (Function.update_of_ne (fun h => hij ?_) _ _).symm
    -- members of different values are written differently
    have hnodup := hk.nodup
    refine (List.getElem?_inj (by simpa using hi) hnodup).mp ?_
    rw [List.getElem?_map, List.getElem?_map, hf, hx, Option.map_some, Option.map_some, h]

theorem simulates_setter (hk : ValuesApart k) :
    Simulates m k ((surroundingsOf m).setter k) := by
  intro reads hreads n members hn name value
  refine ⟨_, set?_setter reads _ k name value members, ?_⟩
  rw [Node.setValue, hn.typed]
  simp only [findIdx?_rulesOf]
  cases hi : k.values.findIdx? (·.xmlName = name) with
  | none =>
    have hfind : k.values.find? (·.xmlName = name) = none :=
      List.find?_eq_none.mpr (by simpa using List.findIdx?_eq_none_iff.mp hi)
    rw [hfind, Option.elim_none]
    change Except.ok n = .ok { n with values := _ }
    rw [← hn.values]
  | some i =>
    obtain ⟨hlt, hname, hbefore⟩ := List.findIdx?_eq_some_iff_getElem.mp hi
    have hf : k.values[i]? = some k.values[i] := List.getElem?_eq_getElem hlt
    have hfind : k.values.find? (·.xmlName = name) = some k.values[i] :=
      List.find?_eq_some_iff_getElem.mpr ⟨hname, i, hlt, rfl, by simpa using hbefore⟩
    obtain ⟨r, hr, hkind⟩ := kind_of_rulesOf (m := m) hf
    rw [hfind, Option.elim_some, hreads _ (List.getElem_mem hlt)]
    simp only [hr, hkind]
    cases (kindIn m k.values[i].type).read value with
    | error fault => rfl
    | ok held =>
      dsimp only
      rw [hn.values, set_values hk members hf held]
      rfl

end
end XmlBinding.Tree

namespace XmlBinding
open Schema Binding Xml Code XmlBinding.Tree

theorem valuesApart_of_bindSchema {text : String} {allow : Bool} {m : Module}
    (h : bindSchema text allow = .ok m) : ∀ k ∈ m.classes, ValuesApart k := by
  obtain ⟨model, hread, hbound⟩ := bindSchema_eq_ok.mp h
  exact fun k hk => valuesApart_of_valuedFor (Module.valuedFor_of_ofModel
    (keyed_of_readSchema hread) (attributeName_of_readSchema hread) hbound k hk)

/-- Every class of a generated module has one function that sets its values. Called by the name of
an attribute it sets that attribute alone, unless the attribute has the name of the text and there
is text beside it: then the text is set, and the attribute never is. -/
theorem setsNamed_of_generate {text source : String} {options : Options}
    (h : generate text options = .ok source) :
    ∃ m modules support, bindSchema text options.allowDoctype = .ok m ∧
      source = (sourceFile m modules support).text ∧
      List.Forall₂ (fun k p => p.1 = written k.name ∧ SetsNamed (surroundingsOf m) k p.2 ∧
        Simulates m k p.2) m.classes (sourceFile m modules support).setters := by
  obtain ⟨m, modules, support, hm, hsource⟩ := exists_of_generate h
  refine ⟨m, modules, support, hm, hsource, ?_⟩
  rw [setters_sourceFile, List.forall₂_map_right_iff, List.forall₂_same]
  intro k hk
  have hapart := valuesApart_of_bindSchema hm k hk
  exact ⟨rfl, setsNamed_setter hapart, simulates_setter hapart⟩

/-- A type with text and one attribute. -/
def noteOutline (xmlName : String) : Outline :=
  schemaElement "schema" [] [schemaElement "complexType" [("name", "Note"), ("mixed", "true")]
    [schemaElement "attribute" [("name", xmlName), ("type", "string")] []]]

def noteSchema (xmlName : String) : Model :=
  { complexTypes := [("Note", ⟨some "Note", none, false, true, .empty,
      [.declaration ⟨xmlName, none, some (.named (.builtin "string")), none, none⟩ false]⟩)] }

theorem readModel_noteOutline (xmlName : String) :
    readModel ((noteOutline xmlName).element none []) = .ok (noteSchema xmlName) := by
  cbv

theorem setsNamed_noteOutline :
    ∃ source, generate (noteOutline "lang").document {} = .ok source ∧
      ∃ m modules support, bindSchema (noteOutline "lang").document false = .ok m ∧
        source = (sourceFile m modules support).text ∧
        (m.classes.map fun k => k.values.map fun f => (f.xmlName, f.type)) =
          [[("Content", .primitive .string), ("lang", .primitive .string)]] ∧
        (∀ k ∈ m.classes, ∃ reads, ReadsKinds m k reads) ∧
        List.Forall₂ (fun k p => p.1 = written k.name ∧ SetsNamed (surroundingsOf m) k p.2 ∧
          Simulates m k p.2) m.classes (sourceFile m modules support).setters := by
  obtain ⟨m, hm, hP⟩ := exists_bindSchema_document (P := fun m =>
      ((m.classes.map fun k => k.values.map fun f => (f.xmlName, f.type)) =
        [[("Content", .primitive .string), ("lang", .primitive .string)]] : Bool) &&
      m.classes.all fun k => k.values.all (·.type = .primitive .string))
    (by decide +kernel) (readModel_noteOutline "lang") (by decide +kernel) false
  simp only [Bool.and_eq_true, decide_eq_true_eq, List.all_eq_true] at hP
  obtain ⟨hvalues, hstrings⟩ := hP
  obtain ⟨source, hsource⟩ := exists_generate hm
  obtain ⟨m', modules, support, hm', htext, hsets⟩ := setsNamed_of_generate hsource
  obtain rfl : m' = m := Except.ok.inj (hm'.symm.trans hm)
  refine ⟨source, hsource, m', modules, support, hm, htext, hvalues, fun k hk => ?_, hsets⟩
  refine exists_readsKinds fun f hf g hg _ => ?_
  rw [hstrings k hk f hf, hstrings k hk g hg]

/-- A value that is set by the name of an attribute becomes the text. -/
theorem not_stores_noteOutline :
    ∃ source m modules support, generate (noteOutline "Content").document {} = .ok source ∧
      bindSchema (noteOutline "Content").document false = .ok m ∧
      source = (sourceFile m modules support).text ∧
      ∃ k ∈ m.classes, ∃ x ∈ k.fields, x.xmlName = "Content" ∧ ∃ f,
        (written k.name, f) ∈ (sourceFile m modules support).setters ∧
        ∀ value, ∃ after, f.set? (fun _ _ => .ok value : Reading Unit String)
            [.text x.xmlName, .text value] (fun _ => none) = some ⟨.ok (), after⟩ ∧
          after (written x.member) = none ∧ after (written contentMember) = some value := by
  obtain ⟨m, hm, hP⟩ := exists_bindSchema_document (P := fun m => m.classes.any fun k =>
      k.content.isSome && k.fields.any (·.xmlName = contentName))
    (by decide +kernel) (readModel_noteOutline "Content") (by decide +kernel) false
  obtain ⟨source, hsource⟩ := exists_generate hm
  obtain ⟨m', modules, support, hm', htext⟩ := exists_of_generate hsource
  obtain rfl : m' = m := Except.ok.inj (hm'.symm.trans hm)
  obtain ⟨k, hk, hcontent, x, hx, hname⟩ : ∃ k ∈ m'.classes, k.content.isSome = true ∧
      ∃ x ∈ k.fields, x.xmlName = contentName := by
    simpa using hP
  have hsets := setsNamed_setter (s := surroundingsOf m') (valuesApart_of_bindSchema hm k hk)
  obtain ⟨t, ht, hxt, hstores, hmember⟩ := hsets.hidden ⟨hx, hname, hcontent⟩
  have hsetter : (written k.name, (surroundingsOf m').setter k) ∈
      (sourceFile m' modules support).setters := by
    rw [setters_sourceFile]
    exact List.mem_map_of_mem hk
  refine ⟨source, m', modules, support, hsource, hm, htext, k, hk, x, hx, hname, _, hsetter,
    fun value => ⟨_, hxt ▸ hstores.read _ value _ value rfl, ?_, ?_⟩⟩
  · exact Function.update_of_ne hmember _ _
  · obtain ⟨type, -, rfl⟩ := Option.map_eq_some_iff.mp ht
    exact Function.update_self _ _ _

end XmlBinding
