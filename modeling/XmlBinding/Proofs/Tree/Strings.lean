import XmlBinding.Proofs.Tree.RoundTrip

/-! # Strings in documents

Only what has a meaning in markup is escaped. A reader of attributes takes tabs and line ends for
spaces, and a reader of text takes carriage returns for line ends, so an element without children
comes back with its strings as they are read.
-/
namespace XmlBinding.Tree
open Schema Binding Value Xml

/-- What is read where a text was written, between tags or as an attribute. -/
def readAs (isText : Bool) (s : String) : String :=
  if isText then readText s else readAttribute s

/-- The value that is read where a value was written. -/
def ValueRule.readBack (r : ValueRule) : Held → Held
  | .datum (.string s) => .datum (.string (readAs r.isText s))
  | v => v

/-- The values that a document can hold; of strings all that are made of characters of XML. -/
def ValueKind.Writable : ValueKind → Held → Prop
  | _, .datum (.string s) => isXmlText s = true
  | kind, v => kind.Sayable v

theorem textRun_ne_nil {run s : List Char} {asIs : Bool} (h : run ≠ [] ∨ s ≠ []) :
    textRun run asIs s ≠ [] := by
  induction s generalizing run asIs with
  | nil => exact h.resolve_right fun hs => hs rfl
  | cons c s ih =>
    have hpush (atEnd : Bool) : pushText run c atEnd ≠ [] := by
      unfold pushText
      split
      · dsimp only
        split
        · exact List.cons_ne_nil _ _
        · split <;> exact List.cons_ne_nil _ _
      · exact List.cons_ne_nil _ _
    rw [textRun]
    split
    · split
      · exact ih (.inl (List.cons_ne_nil _ _))
      · exact ih (.inl (hpush _))
    · exact ih (.inl (List.cons_ne_nil _ _))

theorem readText_ne_empty {s : String} (h : s ≠ "") : readText s ≠ "" := by
  rw [readText, ne_eq, ← String.toList_eq_nil_iff, String.toList_ofList, List.reverse_eq_nil_iff]
  exact textRun_ne_nil (.inr fun hs => h (String.toList_eq_nil_iff.mp hs))

/-- Plain text is read as it is, wherever it stands. -/
theorem readAs_eq_self {s : String} (h : isPlainText s = true) (isText : Bool) :
    readAs isText s = s := by
  simp only [isPlainText, Bool.and_eq_true] at h
  cases isText with
  | true =>
    refine readText_eq_self fun hmem => ?_
    exact absurd (List.all_eq_true.mp h.2 _ hmem) (by decide)
  | false => exact readAttribute_eq_self_iff.mpr h.2

/-- The text of a value is read as the value that comes back, whose text it then is. -/
theorem ValueKind.exists_text_readBack {r : ValueRule} {v : Held} (ht : r.kind.Takes v)
    (hw : r.kind.Writable v) (hd : ∀ e, r.kind = .enumeration e → e.Distinct) :
    ∃ text, r.kind.text? v = some text ∧ isXmlText text = true ∧
      r.kind.text? (r.readBack v) = some (readAs r.isText text) ∧
        r.kind.read (readAs r.isText text) = .ok (r.readBack v) := by
  have hsayable (hs : r.kind.Sayable v) (hv : r.readBack v = v) :
      ∃ text, r.kind.text? v = some text ∧ isXmlText text = true ∧
        r.kind.text? (r.readBack v) = some (readAs r.isText text) ∧
          r.kind.read (readAs r.isText text) = .ok (r.readBack v) := by
    obtain ⟨text, htext, hplain, hread⟩ := ValueKind.exists_text ht hs hd
    have hxml : isXmlText text = true := ((Bool.and_eq_true _ _).mp hplain).1
    refine ⟨text, htext, hxml, ?_⟩
    rw [hv, readAs_eq_self hplain]
    exact ⟨htext, hread⟩
  obtain ⟨name, kind, isText⟩ := r
  cases ht with
  | string s => exact ⟨s, rfl, hw, rfl, rfl⟩
  | boolean | integer | float | dateTime | date | time | symbol | flags => exact hsayable hw rfl

theorem ValueKind.Takes.readBack {r : ValueRule} {v : Held} (h : r.kind.Takes v) :
    r.kind.Takes (r.readBack v) := by
  have hsame (hv : r.readBack v = v) : r.kind.Takes (r.readBack v) := hv.symm ▸ h
  obtain ⟨name, kind, isText⟩ := r
  cases h with
  | string s => exact .string _
  | boolean | integer | float | dateTime | date | time | symbol | flags => exact hsame rfl

/-- The tree that comes back of one without children. -/
def ElementTree.readBack (t : ElementTree) : ElementTree :=
  { t with values := t.held.map fun p => p.2.map p.1.readBack }

/-- A document can hold the element, and says nothing of children, of which it has none. -/
structure ElementTree.Single (t : ElementTree) : Prop where
  proper : t.blueprint.Proper
  typed : t.Typed
  writable : ∀ p ∈ t.held, ∀ v ∈ p.2, p.1.kind.Writable v
  text : ∀ text ∈ t.text, text ≠ ""
  children : t.children = []
  counts : t.counts = t.blueprint.collection.map Collection.counts

theorem zip_map_zip {α β : Type} (f : α × β → β) (as : List α) (bs : List β) :
    as.zip ((as.zip bs).map f) = (as.zip bs).map fun p => (p.1, f p) := by
  induction as generalizing bs with
  | nil => rfl
  | cons a as ih =>
    cases bs with
    | nil => rfl
    | cons b bs => simp [ih]

theorem ElementTree.held_readBack (t : ElementTree) :
    t.readBack.held = t.held.map fun p => (p.1, p.2.map p.1.readBack) :=
  zip_map_zip (fun p : ValueRule × Option Held => p.2.map p.1.readBack) t.blueprint.rules t.values

namespace ElementTree.Single

variable {t : ElementTree} (h : t.Single)
include h

theorem exists_text {r : ValueRule} {v : Held} (hp : (r, some v) ∈ t.held) :
    ∃ text, r.kind.text? v = some text ∧ isXmlText text = true ∧
      r.kind.text? (r.readBack v) = some (readAs r.isText text) ∧
        r.kind.read (readAs r.isText text) = .ok (r.readBack v) :=
  ValueKind.exists_text_readBack (h.typed.takes _ hp v rfl) (h.writable _ hp v rfl)
    (h.proper.rules.distinct r (List.of_mem_zip hp).1)

/-- What is said of the element that comes back is what is read of the one that was written. -/
theorem saidValues_readBack (isText : Bool) :
    saidValues isText t.readBack.held =
      (saidValues isText t.held).map fun a => (a.1, readAs isText a.2) := by
  have hsaid (p : ValueRule × Option Held) (hp : p ∈ t.held) :
      said isText p.1 (p.2.map p.1.readBack) =
        (said isText p.1 p.2).map fun a => (a.1, readAs isText a.2) := by
    obtain ⟨r, held⟩ := p
    by_cases hr : r.isText = isText
    · cases held with
      | none => simp [said]
      | some v =>
        obtain ⟨text, htext, -, hback, -⟩ := h.exists_text hp
        simp [said, hr, htext, hback]
    · simp [said, hr]
  rw [t.held_readBack]
  generalize t.held = held at hsaid
  induction held with
  | nil => rfl
  | cons p held ih =>
    obtain ⟨hp, hheld⟩ := List.forall_mem_cons.mp hsaid
    rw [List.map_cons, saidValues, saidValues, hp, ih hheld, List.map_append]
    cases said isText p.1 p.2 <;> rfl

theorem text_readBack : t.readBack.text = t.text.map readText := by
  have hsaid := h.saidValues_readBack true
  rw [ElementTree.text, ElementTree.text, hsaid]
  cases saidValues true t.held <;> rfl

theorem outline_read : t.outline.read = t.readBack.outline := by
  have hchildren : t.readBack.children = [] := h.children
  rw [t.outline_eq, t.readBack.outline_eq, Outline.read, h.children, hchildren, h.text_readBack,
    ElementTree.attributes, ElementTree.attributes, h.saidValues_readBack false]
  rfl

theorem readable : t.outline.Readable := by
  have hsaid {isText : Bool} {a : String × String} (ha : a ∈ saidValues isText t.held) :
      ∃ r ∈ t.blueprint.rules, r.isText = isText ∧ r.name = a.1 ∧ isXmlText a.2 = true := by
    obtain ⟨⟨r, held⟩, hp, hsaid⟩ := mem_saidValues.mp ha
    obtain ⟨hr, v, rfl, hv, hname⟩ := said_eq_some.mp hsaid
    obtain ⟨text, htext, hxml, -⟩ := h.exists_text hp
    obtain rfl := Option.some.inj (htext.symm.trans hv)
    exact ⟨r, (List.of_mem_zip hp).1, hr, hname, hxml⟩
  have hattribute {a : String × String} (ha : a ∈ t.attributes) :
      IsAttributeName a.1 ∧ isXmlText a.2 = true := by
    obtain ⟨r, hr, htext, hname, hxml⟩ := hsaid ha
    exact ⟨hname ▸ h.proper.rules.attributeName r hr htext, hxml⟩
  have huri {u : String} (hu : u ∈ t.blueprint.uri) :
      isXmlText u = true ∧ u.toList.all isKept = true ∧ u ≠ xmlUri ∧ u ≠ xmlnsUri := by
    obtain ⟨hplain, hne⟩ := h.proper.uri u hu
    simp only [isPlainText, Bool.and_eq_true] at hplain
    exact ⟨hplain.1, hplain.2, hne⟩
  rw [t.outline_eq]
  refine { name := h.proper.name, uri := fun u hu => (huri hu).1,
           attributes := fun a ha => ⟨(hattribute ha).1.1, (hattribute ha).2⟩,
           text := fun s hs => ?_,
           nodup := (sublist_saidValues false _ _).nodup h.proper.rules.nodup,
           undeclared := fun a ha => (hattribute ha).1.2.2,
           uriKept := fun u hu => (huri hu).2 }
  have hmem : (contentName, s) ∈ saidValues true t.held := by
    rw [(ElementTree.text_eq_some h.proper.rules).mp hs]
    exact List.mem_cons_self
  obtain ⟨-, -, -, -, hxml⟩ := hsaid hmem
  exact hxml

theorem settable_readBack : t.readBack.Settable where
  proper := h.proper
  typed := by
    constructor
    · change (t.held.map _).length = _
      rw [List.length_map, ElementTree.held, List.length_zip, h.typed.length, Nat.min_self]
      rfl
    · rw [t.held_readBack]
      rintro p hp v hv
      obtain ⟨⟨r, held⟩, hq, rfl⟩ := List.mem_map.mp hp
      obtain ⟨w, rfl, rfl⟩ := Option.map_eq_some_iff.mp (Option.mem_def.mp hv)
      exact (h.typed.takes _ hq w rfl).readBack
  reads r v hp := by
    rw [t.held_readBack] at hp
    obtain ⟨⟨r', held⟩, hq, heq⟩ := List.mem_map.mp hp
    obtain ⟨rfl, hv⟩ := Prod.mk.inj heq
    obtain ⟨w, rfl, rfl⟩ := Option.map_eq_some_iff.mp hv
    obtain ⟨text, -, -, hback, hread⟩ := h.exists_text hq
    exact ⟨_, hback, hread⟩
  text text ht := by
    rw [h.text_readBack] at ht
    obtain ⟨s, hs, rfl⟩ := Option.map_eq_some_iff.mp (Option.mem_def.mp ht)
    exact ⟨readText_ne_empty (h.text s hs), fun hne => absurd h.children hne⟩

theorem readable_outlines : ∀ p ∈ t.outline.outlines, p.Readable := by
  intro p hp
  rw [Outline.outlines_eq, t.outline_eq, h.children] at hp
  obtain rfl := List.mem_singleton.mp hp
  have hreadable := h.readable
  rwa [t.outline_eq, h.children] at hreadable

/-- A new element has received its children already. -/
theorem receives {s : Store} {id : Nat} {n : Node} (hn : s[id]? = some n)
    (hc : n.collection = t.blueprint.collection) :
    s.Receives id n t.readBack t.blueprint.collection s where
  changes := by
    refine ⟨Nat.le_refl _, ?_, fun _ _ _ hk => hk⟩
    rw [← hc]
    exact hn
  emptied := by
    change _ = t.blueprint.collection
    cases hcol : t.blueprint.collection with
    | none => rfl
    | some c => exact congrArg some (Collection.emptied_eq_self (h.proper.empty c hcol))
  counts := h.counts.symm
  children := by
    rw [show t.readBack.children = [] from h.children]
    cases hcol : t.blueprint.collection with
    | none => exact .nil
    | some c =>
      rw [Option.elim_some, Collection.children_of_held_eq_nil (h.proper.empty c hcol)]
      exact .nil

/-- The document of the element is loaded as the element that comes back. -/
theorem load_eq {l : Loader} {s : Store} (hroot : l.create t.name s = .ok (s.create t.blueprint))
    (s₀ : Store) :
    ∃ s' n, l.load (Layout.plain.render (.declaration :: t.outline.pieces none)) s₀ =
      .ok (s', s₀.length) ∧ s'[s₀.length]? = some n ∧ n.blueprint = t.blueprint ∧
        n.values = t.readBack.values ∧ n.children = [] := by
  have hread : readDocument l.allowDoctype
      (Layout.plain.render (.declaration :: t.outline.pieces none)) =
        .ok (t.readBack.outline.element none []) := by
    rw [readDocument_read h.readable_outlines, h.outline_read]
  have hchildren : t.readBack.children = [] := h.children
  have hnew : (s₀.create t.blueprint).1[s₀.length]? = some t.blueprint.node := by
    simp [Store.create]
  obtain ⟨s', n, hfill, hrestores⟩ := h.settable_readBack.fill_of_receives (l := l) none [] hnew rfl
    rfl fun s₁ values hn₁ => ⟨s₁, t.blueprint.collection, by rw [hchildren]; rfl,
      h.receives hn₁ rfl⟩
  refine ⟨s', n, ?_, hrestores.changes.node, hrestores.looks.blueprint, hrestores.looks.values, ?_⟩
  · have hcreate := create_of_ok hroot s₀
    have htag : (t.readBack.outline.element none []).tag = t.name := tag_element _ _ _
    rw [load_of_readDocument hread, htag, hcreate]
    change (l.fill s₀.length _ (s₀.create t.blueprint).1).map (·, s₀.length) = _
    rw [hfill]
    rfl
  · have hnames := hrestores.children.map_name
    rw [hchildren] at hnames
    exact List.map_eq_nil_iff.mp hnames

end ElementTree.Single

theorem ElementTree.getElem?_readBack {t : ElementTree} {place : Nat} {r : ValueRule} {str : String}
    (hr : t.blueprint.rules[place]? = some r)
    (hv : t.values[place]? = some (some (.datum (.string str)))) :
    t.readBack.values[place]? = some (some (.datum (.string (readAs r.isText str)))) := by
  have hheld : t.held[place]? = some (r, some (.datum (.string str))) :=
    List.getElem?_zip_eq_some.mpr ⟨hr, hv⟩
  change (t.held.map fun p => p.2.map p.1.readBack)[place]? = _
  rw [List.getElem?_map, hheld]
  rfl

/-- Attributes come back as they were unless there is a tab or a line end in them, and text comes
back as it was if there is no carriage return in it. -/
structure ReadsAs (isText : Bool) (written read : String) : Prop where
  attributeSame : isText = false →
    (read = written ↔ ∀ c ∈ written.toList, c ≠ '\t' ∧ c ≠ '\n' ∧ c ≠ '\r')
  attributeBlanks : isText = false → read = String.ofList (attributeChars written.toList)
  textSame : isText = true → '\r' ∉ written.toList → read = written
  textLines : isText = true → (∀ c ∈ written.toList, escapeChar c = [c]) →
    read = String.ofList (lineEnds written.toList)

theorem readsAs (isText : Bool) (s : String) : ReadsAs isText s (readAs isText s) := by
  refine ⟨?_, ?_, ?_, ?_⟩
  · rintro rfl
    refine readAttribute_eq_self_iff.trans ?_
    simp [List.all_eq_true, isKept, and_assoc]
  · rintro rfl
    rfl
  · rintro rfl h
    exact readText_eq_self h
  · rintro rfl h
    exact readText_eq_lineEnds h

/-- An element of a module that has no children is loaded with the strings that are read where its
strings were written. -/
theorem load_toXml_strings (group : String) {model : Model} {m : Module} (hn : model.Named)
    (hu : ∀ u ∈ model.targetNamespace, IsOrdinaryUri u) (hm : Module.ofModel model = .ok m)
    {s : Store} {among : Nat → Prop} {root : Nat} {t : ElementTree} (ht : s.Holds among root t)
    {kind : Kind} (hkind : (kind, t.blueprint) ∈ moduleBlueprints group m)
    (hroot : (moduleLoader group m).create t.name s = .ok (s.create t.blueprint))
    (hchildren : t.children = []) (htyped : t.Typed)
    (hwritable : ∀ p ∈ t.held, ∀ v ∈ p.2, p.1.kind.Writable v) (htext : ∀ text ∈ t.text, text ≠ "") :
    ∃ text, s.toXml .plain root = .ok text ∧ ∀ s₀ : Store, ∃ s' root' n,
      (moduleLoader group m).load text s₀ = .ok (s', root') ∧ s'[root']? = some n ∧
        n.blueprint = t.blueprint ∧ n.children = [] ∧ n.values = t.readBack.values ∧
          ∀ (place : Nat) (rule : ValueRule) (str : String),
            t.blueprint.rules[place]? = some rule →
            t.values[place]? = some (some (.datum (.string str))) →
              ∃ str', n.values[place]? = some (some (.datum (.string str'))) ∧
                ReadsAs rule.isText str str' := by
  have hproper : t.blueprint.Proper := proper_moduleBlueprints hn hu hm _ hkind
  have hcounts : t.counts = t.blueprint.collection.map Collection.counts := by
    cases ht with
    | @intro _ n _ _ _ hshows hc =>
      have hnames := hc.map_name
      rw [hchildren] at hnames
      rw [← hshows.counts, ← hshows.emptied]
      cases hcol : n.collection with
      | none => rfl
      | some c =>
        have hnil : c.children = [] := by
          simpa [Node.children, hcol] using List.map_eq_nil_iff.mp hnames
        rw [c.children_eq_flatMap, List.flatMap_eq_nil_iff] at hnil
        rw [Option.map_some, Option.map_some, Option.map_some, Collection.emptied_eq_self hnil]
  have hsingle : t.Single := ⟨hproper, htyped, hwritable, htext, hchildren, hcounts⟩
  refine ⟨_, ht.toXml_eq ?_ .plain, fun s₀ => ?_⟩
  · intro u hu
    rw [t.subtrees_eq, hchildren] at hu
    exact List.mem_singleton.mp hu ▸ hproper.oneText
  · obtain ⟨s', n, hload, hnode, hblueprint, hvalues, hempty⟩ := hsingle.load_eq hroot s₀
    refine ⟨s', s₀.length, n, hload, hnode, hblueprint, hempty, hvalues,
      fun place rule str hr hv => ?_⟩
    rw [hvalues]
    exact ⟨_, ElementTree.getElem?_readBack hr hv, readsAs _ _⟩

/-- Labels have a name and a text. -/
def labels : Model where
  elements := [("Label", ⟨"Label", none, .complex ⟨none, none, false, false,
    .simpleExtension (.builtin "string"),
    [.declaration ⟨"Name", none, some (.named (.builtin "string")), none, none⟩ false]⟩, false⟩)]

def labelModule : Module where
  targetNamespace := none
  enumerations := []
  markers := []
  classes := [⟨"Label", .topLevel, "Label", none, some (.primitive .string),
    [⟨"Name", "name", .primitive .string, none⟩], none, [], true⟩]

theorem ofModel_labels : Module.ofModel labels = .ok labelModule := by
  with_unfolding_all rfl

theorem named_labels : labels.Named where
  complexTypes := by simp [labels]
  elements p hp := by
    obtain rfl := List.mem_singleton.mp hp
    have hnames : isNCName "Label" = true ∧ IsAttributeName "Name" := by decide
    simp [ElementDeclaration.Named, ElementType.Named, ComplexType.Named, ComplexContent.Named,
      AttributeUse.Named, hnames]
  attributes := by simp [labels]
  attributeGroups := by simp [labels]
  groups := by simp [labels]

def labelBlueprint : Blueprint where
  typeName := "shop.Label"
  elementName := "Label"
  uri := none
  collection := none
  creatable := none
  attributes :=
    .typed [⟨"Content", .primitive .string, true⟩, ⟨"Name", .primitive .string, false⟩]

theorem mem_labelModule :
    (⟨"shop", "Label"⟩, labelBlueprint) ∈ moduleBlueprints "shop" labelModule :=
  List.mem_singleton.mpr rfl

/-- A label of some text and name. -/
def labelTree (text name : String) : ElementTree :=
  ⟨labelBlueprint, [some (.datum (.string text)), some (.datum (.string name))], none, []⟩

def labelStore (text name : String) : Store :=
  [{ labelBlueprint.node with
      values := [some (.datum (.string text)), some (.datum (.string name))] }]

section
variable (text name : String)

theorem holds_labelStore : (labelStore text name).Holds (fun _ => True) 0 (labelTree text name) :=
  .intro trivial rfl ⟨rfl, rfl, rfl, rfl⟩ .nil

theorem typed_labelTree : (labelTree text name).Typed where
  length := rfl
  takes p hp v hv := by
    simp only [ElementTree.held, labelTree, labelBlueprint, Blueprint.rules, List.zip_cons_cons,
      List.zip_nil_right, List.mem_cons, List.not_mem_nil, or_false] at hp
    rcases hp with rfl | rfl <;> obtain rfl := Option.some.inj hv <;> exact .string _

variable {text name}

theorem writable_labelTree (ht : isXmlText text = true) (hn : isXmlText name = true) :
    ∀ p ∈ (labelTree text name).held, ∀ v ∈ p.2, p.1.kind.Writable v := by
  intro p hp v hv
  simp only [ElementTree.held, labelTree, labelBlueprint, Blueprint.rules, List.zip_cons_cons,
    List.zip_nil_right, List.mem_cons, List.not_mem_nil, or_false] at hp
  rcases hp with rfl | rfl <;> obtain rfl := Option.some.inj hv <;> assumption

theorem text_labelTree {s : String} (h : s ∈ (labelTree text name).text) : s = text :=
  (Option.some.inj h).symm

theorem single_labelTree (ht : isXmlText text = true) (hn : isXmlText name = true)
    (hne : text ≠ "") : (labelTree text name).Single where
  proper := @proper_moduleBlueprints "shop" _ _ named_labels (fun u hu => by cases hu)
    ofModel_labels _ mem_labelModule
  typed := typed_labelTree text name
  writable := writable_labelTree ht hn
  text s hs := text_labelTree hs ▸ hne
  children := rfl
  counts := rfl

end

/-- A label of two words is loaded as it was, and so is a text of two lines. -/
theorem load_toXml_label : ∃ text, (labelStore "a <\n b" "a & b").toXml .plain 0 = .ok text ∧
    ∀ s₀ : Store, ∃ s' root' n, (moduleLoader "shop" labelModule).load text s₀ = .ok (s', root') ∧
      s'[root']? = some n ∧
        n.values = [some (.datum (.string "a <\n b")), some (.datum (.string "a & b"))] := by
  obtain ⟨text, htext, hload⟩ := load_toXml_strings "shop" named_labels (fun u hu => by cases hu)
    ofModel_labels (holds_labelStore "a <\n b" "a & b") mem_labelModule rfl rfl
    (typed_labelTree "a <\n b" "a & b") (writable_labelTree (by decide) (by decide))
    fun s hs => text_labelTree hs ▸ by decide
  refine ⟨text, htext, fun s₀ => ?_⟩
  obtain ⟨s', root', n, hs', hn, -, -, hvalues, -⟩ := hload s₀
  exact ⟨s', root', n, hs', hn, hvalues.trans (by decide)⟩

/-- A label is loaded with a space for a tab in its name, and with a line feed for a carriage return
in its text. -/
theorem not_load_toXml_blanks :
    (¬ ∀ name, isXmlText name = true → ∃ text s' root n,
      (labelStore "a" name).toXml .plain 0 = .ok text ∧
        (moduleLoader "shop" labelModule).load text [] = .ok (s', root) ∧ s'[root]? = some n ∧
          n.values[1]? = some (some (.datum (.string name)))) ∧
    ¬ ∀ content, content ≠ "" → isXmlText content = true → ∃ text s' root n,
      (labelStore content "a").toXml .plain 0 = .ok text ∧
        (moduleLoader "shop" labelModule).load text [] = .ok (s', root) ∧ s'[root]? = some n ∧
          n.values[0]? = some (some (.datum (.string content))) := by
  -- what is loaded of a label has the values that are read
  have hread {content name text : String} {s' : Store} {root : Nat} {n : Node}
      (h : (labelTree content name).Single)
      (htext : (labelStore content name).toXml .plain 0 = .ok text)
      (hload : (moduleLoader "shop" labelModule).load text [] = .ok (s', root))
      (hn : s'[root]? = some n) : n.values = (labelTree content name).readBack.values := by
    have hwritten := (holds_labelStore content name).toXml_eq (fun u hu => by
      obtain rfl := List.mem_singleton.mp hu
      exact h.proper.oneText) .plain
    obtain rfl := Except.ok.inj (hwritten.symm.trans htext)
    obtain ⟨s'', n', hload', hn', -, hvalues, -⟩ :=
      h.load_eq (l := moduleLoader "shop" labelModule) (s := []) rfl []
    obtain ⟨rfl, rfl⟩ := Prod.mk.inj (Except.ok.inj (hload'.symm.trans hload))
    rw [Option.some.inj (hn.symm.trans hn'), hvalues]
  constructor
  · intro h
    obtain ⟨text, s', root, n, htext, hload, hn, hvalue⟩ := h "p\tq" (by decide)
    rw [hread (single_labelTree (by decide) (by decide) (by decide)) htext hload hn] at hvalue
    exact absurd hvalue (by decide)
  · intro h
    obtain ⟨text, s', root, n, htext, hload, hn, hvalue⟩ := h "p\rq" (by decide) (by decide)
    rw [hread (single_labelTree (by decide) (by decide) (by decide)) htext hload hn] at hvalue
    exact absurd hvalue (by decide)

end XmlBinding.Tree
