import XmlBinding.Proofs.Binding.Conformity
import XmlBinding.Proofs.Collection.Readding
import XmlBinding.Proofs.Tree.Values
import XmlBinding.Proofs.Xml.Resolving

/-! # What blueprints of modules look like

All values of a class are typed. Its attributes differ from each other, and the one rule for text
has a name that no attribute has, so a name leads to one rule at most.
-/
namespace XmlBinding.Tree
open Schema Binding Value Xml

/-- The rules of typed values. -/
def Blueprint.rules (b : Blueprint) : List ValueRule :=
  match b.attributes with
  | .typed rules => rules
  | _ => []

structure ProperRules (rules : List ValueRule) : Prop where
  nodup : (rules.map (·.name)).Nodup
  textName : ∀ r ∈ rules, r.isText = true → r.name = contentName
  attributeName : ∀ r ∈ rules, r.isText = false → IsAttributeName r.name
  distinct : ∀ r ∈ rules, ∀ e, r.kind = .enumeration e → e.Distinct

/-- A name of a namespace that a document can declare. -/
def IsOrdinaryUri (u : String) : Prop :=
  isPlainText u = true ∧ u ≠ xmlUri ∧ u ≠ xmlnsUri

structure Blueprint.Proper (b : Blueprint) : Prop where
  name : isNCName b.elementName = true
  uri : ∀ u ∈ b.uri, IsOrdinaryUri u
  attributes : b.attributes = .typed b.rules
  rules : ProperRules b.rules
  empty : ∀ c ∈ b.collection, ∀ s ∈ c.slots, s.held = []

/-- Values are typed, and one of them at most is text. -/
structure Blueprint.OneText (b : Blueprint) : Prop where
  attributes : b.attributes = .typed b.rules
  single : b.rules.countP ValueRule.isText ≤ 1

theorem ProperRules.countP_le {rules : List ValueRule} (h : ProperRules rules) :
    rules.countP ValueRule.isText ≤ 1 := by
  have hname : ∀ r ∈ rules, r.isText = true → (r.name == contentName) = true :=
    fun r hr ht => beq_iff_eq.mpr (h.textName r hr ht)
  have hcount : rules.countP (·.name == contentName) ≤ 1 := by
    have hle := List.nodup_iff_count.mp h.nodup contentName
    rwa [List.count, List.countP_map] at hle
  exact Nat.le_trans (List.countP_mono_left hname) hcount

theorem Blueprint.Proper.oneText {b : Blueprint} (h : b.Proper) : b.OneText :=
  ⟨h.attributes, h.rules.countP_le⟩

/-- What the values of a type are read as. -/
def kindIn (m : Module) : FieldType → ValueKind
  | .primitive p => .primitive p
  | .enumeration place => match m.enumerations[place]? with
    | some e => .enumeration e
    | none => .primitive .string

theorem distinct_of_kindIn {m : Module} (he : ∀ e ∈ m.enumerations, e.Distinct) {t : FieldType}
    {e : Enumeration} (h : kindIn m t = .enumeration e) : e.Distinct := by
  cases t with
  | primitive p => cases h
  | enumeration place =>
    cases hp : m.enumerations[place]? with
    | none => simp [kindIn, hp] at h
    | some d =>
      obtain rfl : d = e := by simpa [kindIn, hp] using h
      exact he d (List.mem_of_getElem? hp)

def ruleIn (m : Module) (isText : Bool) (f : Field) : ValueRule :=
  ⟨f.xmlName, kindIn m f.type, isText⟩

/-- The rules of a class, text first. -/
def rulesOf (m : Module) (c : ElementClass) : List ValueRule :=
  c.contentField?.toList.map (ruleIn m true) ++ c.fields.map (ruleIn m false)

theorem mem_rulesOf {m : Module} {c : ElementClass} {r : ValueRule} (h : r ∈ rulesOf m c) :
    (∃ t, ruleIn m true ⟨contentName, contentMember, t, none⟩ = r) ∨
      ∃ f ∈ c.fields, ruleIn m false f = r := by
  rcases List.mem_append.mp h with h | h
  · obtain ⟨f, hf, rfl⟩ := List.mem_map.mp h
    obtain ⟨t, -, rfl⟩ := Option.map_eq_some_iff.mp (Option.mem_toList.mp hf)
    exact .inl ⟨t, rfl⟩
  · exact .inr (List.mem_map.mp h)

theorem properRules_rulesOf {m : Module} (he : ∀ e ∈ m.enumerations, e.Distinct) {c : ElementClass}
    (hc : FieldsConform c.fields) : ProperRules (rulesOf m c) := by
  constructor
  · have hnames : (c.fields.map (ruleIn m false)).map (·.name) = c.fields.map (·.xmlName) := by
      simp [ruleIn]
    rw [rulesOf, List.map_append, hnames, List.nodup_append]
    refine ⟨by cases c.contentField? <;> simp, hc.nodup, fun a ha b hb => ?_⟩
    obtain ⟨r, hr, rfl⟩ := List.mem_map.mp ha
    obtain ⟨f, hf, rfl⟩ := List.mem_map.mp hr
    obtain ⟨t, -, rfl⟩ := Option.map_eq_some_iff.mp (Option.mem_toList.mp hf)
    obtain ⟨g, hg, rfl⟩ := List.mem_map.mp hb
    exact (hc.named g hg).2.1.symm
  · intro r h ht
    rcases mem_rulesOf h with ⟨t, rfl⟩ | ⟨f, -, rfl⟩
    · rfl
    · cases ht
  · intro r h ht
    rcases mem_rulesOf h with ⟨t, rfl⟩ | ⟨f, hf, rfl⟩
    · cases ht
    · exact hc.named f hf
  · intro r h e hk
    rcases mem_rulesOf h with ⟨t, rfl⟩ | ⟨f, -, rfl⟩
    · exact distinct_of_kindIn he hk
    · exact distinct_of_kindIn he hk

/-- No class of a module has more than one text. -/
theorem oneText_of_mem_moduleBlueprints {group : String} {m : Module} {kind : Kind} {b : Blueprint}
    (hb : (kind, b) ∈ moduleBlueprints group m) : b.OneText := by
  obtain ⟨c, -, heq⟩ := List.mem_map.mp hb
  cases heq
  refine ⟨rfl, ?_⟩
  change (rulesOf m c).countP ValueRule.isText ≤ 1
  have hfields : (c.fields.map (ruleIn m false)).countP ValueRule.isText = 0 :=
    List.countP_eq_zero.mpr fun r hr => by
      obtain ⟨f, -, rfl⟩ := List.mem_map.mp hr
      exact Bool.false_ne_true
  rw [rulesOf, List.countP_append, hfields, Nat.add_zero]
  refine Nat.le_trans List.countP_le_length ?_
  cases c.contentField? <;> simp

/-- The blueprints of a module are proper if its classes conform. -/
theorem proper_of_mem_moduleBlueprints {group : String} {m : Module}
    (he : ∀ e ∈ m.enumerations, e.Distinct) (hc : ∀ c ∈ m.classes, c.Conforms)
    (hu : ∀ u ∈ m.targetNamespace, IsOrdinaryUri u) {kind : Kind} {b : Blueprint}
    (hb : (kind, b) ∈ moduleBlueprints group m) : b.Proper := by
  obtain ⟨c, hcm, heq⟩ := List.mem_map.mp hb
  cases heq
  have hclass := hc c hcm
  have hrules : ProperRules (rulesOf m c) := properRules_rulesOf he hclass.fields
  refine ⟨hclass.name, hu, rfl, hrules, fun d hd s hs => ?_⟩
  obtain ⟨ms, -, rfl⟩ := Option.map_eq_some_iff.mp hd
  exact ms.held_eq_nil s hs

end XmlBinding.Tree
