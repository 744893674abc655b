import XmlBinding.Proofs.Tree.Filling
import XmlBinding.Proofs.Tree.RoundTrip
import XmlBinding.Proofs.Xml.Spacing

/-! # Indentation is no data

A loader does not tell elements apart that differ in blanks beside child elements only. So a tree is
loaded from its indented document as from the one without line breaks, unless there is text beside
children: what is indented then becomes part of the text.
-/
namespace XmlBinding.Tree
open Schema Binding Value Xml

namespace Loader

variable {l : Loader}

theorem allBlank_join {texts : List String} (h : ∀ t ∈ texts, Text.allBlank t = true) :
    Text.allBlank (String.join texts) = true := by
  refine List.all_eq_true.mpr fun c hc => ?_
  rw [String.toList_join, List.mem_flatMap] at hc
  obtain ⟨t, ht, hc⟩ := hc
  exact List.all_eq_true.mp (h t ht) c hc

/-- Blank text beside elements is no content. -/
theorem contentText_of_blank {content : List Content}
    (he : content.filterMap Content.element? ≠ []) (hb : BlankTexts content) :
    contentText content = none := by
  have hblank : Text.allBlank (String.join (content.filterMap Content.text?)) = true := by
    refine allBlank_join fun t ht => hb t ?_
    obtain ⟨c, hc, htext⟩ := List.mem_filterMap.mp ht
    cases c <;> cases htext
    exact hc
  simp [contentText, hblank, he]

theorem contentText_congr {content content' : List Content} (h : TextsAlike content content')
    (he : AlikeEach (content.filterMap Content.element?)
      (content'.filterMap Content.element?)) : contentText content = contentText content' := by
  have hlength : (content.filterMap Content.element?).length =
      (content'.filterMap Content.element?).length := he.forall₂.length_eq
  rcases h with htexts | ⟨hne, hb, hb'⟩
  · simp only [contentText, htexts, hlength]
  · rw [contentText_of_blank hne hb, contentText_of_blank ?_ hb']
    rw [← List.length_pos_iff_ne_nil, ← hlength]
    exact List.length_pos_iff_ne_nil.mpr hne

theorem looksAlike_of_alike : ∀ e e' : Xml.Element, e.Alike e' → LooksAlike Element.Alike e e'
  | _, _, .intro hname hattributes htexts helements =>
    ⟨congrArg ExpandedName.localName hname, hattributes, contentText_congr htexts helements,
      helements.forall₂⟩

/-- Documents that are read alike are loaded alike. -/
theorem load_congr {text text' : String} {e e' : Xml.Element}
    (h : readDocument l.allowDoctype text = .ok e) (h' : readDocument l.allowDoctype text' = .ok e')
    (halike : e.Alike e') (s : Store) : l.load text s = l.load text' s :=
  load_eq_of_looksAlike looksAlike_of_alike h h' halike s

end Loader

/-- Text that stands beside children is blank. -/
def ElementTree.Sparse (t : ElementTree) : Prop :=
  t.children ≠ [] → ∀ text ∈ t.text, Text.allBlank text = true

theorem ElementTree.named_outline {group : String} {m : Module} (hn : m.Named) {t : ElementTree}
    {kind : Kind} (ht : (kind, t.blueprint) ∈ moduleBlueprints group m) : t.outline.Named := by
  obtain ⟨c, hc, heq⟩ := List.mem_map.mp ht
  obtain ⟨hname, hfields⟩ := hn c hc
  have hb := (Prod.mk.inj heq).2
  rw [t.outline_eq]
  refine ⟨?_, fun a ha => ?_⟩
  · rw [ElementTree.name, ← hb]
    exact hname
  · obtain ⟨p, hp, hsaid⟩ := mem_saidValues.mp ha
    obtain ⟨htext, -, -, -, hrule⟩ := said_eq_some.mp hsaid
    have hmem : p.1 ∈ rulesOf m c := by
      have hrules := (List.of_mem_zip hp).1
      rwa [← hb] at hrules
    rcases mem_rulesOf hmem with ⟨type, heq⟩ | ⟨f, hf, heq⟩
    · rw [← heq] at htext
      cases htext
    · rw [← hrule, ← heq]
      exact hfields f hf

/-- If the document of a tree is loaded, the indented document is loaded as the same. -/
theorem load_toXml_indented {group : String} {m : Module} (hn : m.Named) {s : Store}
    {among : Nat → Prop} {root : Nat} {t : ElementTree} (ht : s.Holds among root t)
    (hclasses : ∀ u ∈ t.subtrees, ∃ kind, (kind, u.blueprint) ∈ moduleBlueprints group m)
    (hsparse : ∀ u ∈ t.subtrees, u.Sparse) {l : Loader} {text : String} {s₀ : Store}
    {r : Store × Nat} (htext : s.toXml .plain root = .ok text) (hload : l.load text s₀ = .ok r) :
    ∃ text', s.toXml .indented root = .ok text' ∧ l.load text' s₀ = .ok r := by
  have honeText : ∀ u ∈ t.subtrees, u.blueprint.OneText := fun u hu => by
    obtain ⟨kind, hkind⟩ := hclasses u hu
    exact oneText_of_mem_moduleBlueprints hkind
  have houtlines : ∀ o ∈ t.outline.outlines, o.Named ∧ o.Sparse := by
    intro o ho
    obtain ⟨u, hu, rfl⟩ := ElementTree.exists_of_mem_outlines ho
    obtain ⟨kind, hkind⟩ := hclasses u hu
    refine ⟨u.named_outline hn hkind, ?_⟩
    rw [u.outline_eq]
    intro hchildren
    refine hsparse u hu fun hnil => hchildren ?_
    change outlinesFor u.children = []
    rw [hnil]
    rfl
  obtain rfl := Except.ok.inj ((ht.toXml_eq honeText .plain).symm.trans htext)
  obtain ⟨e, he⟩ := exists_readDocument_of_load hload
  obtain ⟨e', he', halike⟩ := readDocument_alike houtlines he
  exact ⟨_, ht.toXml_eq honeText .indented, (Loader.load_congr he he' halike s₀).symm.trans hload⟩

/-- Notes are text with stressed words in it. -/
def notes : Model where
  elements := [("Note", ⟨"Note", none, .complex ⟨none, none, false, true,
    .particle ⟨1, .one, .group ⟨.sequence,
      [⟨0, .unbounded, .element ⟨"Em", none, .named (.builtin "string"), false⟩⟩]⟩⟩, []⟩, false⟩)]

def noteMembers : Membership := ⟨.sequence, 1, .one, [.element "Em" "Em" .unbounded]⟩

def noteModule : Module where
  targetNamespace := none
  enumerations := []
  markers := []
  classes :=
    [⟨"Em", .localElement, "Em", none, some (.primitive .string), [], none, [], true⟩,
      ⟨"Note", .topLevel, "Note", none, some (.primitive .string), [], some noteMembers, [], true⟩]

theorem ofModel_notes : Module.ofModel notes = .ok noteModule := by
  with_unfolding_all rfl

theorem named_notes : notes.Named where
  complexTypes := by simp [notes]
  elements p hp := by
    obtain rfl := List.mem_singleton.mp hp
    have hnames : isNCName "Note" = true ∧ isNCName "Em" = true := by decide
    simp [ElementDeclaration.Named, ElementType.Named, ComplexType.Named, ComplexContent.Named,
      Particle.Named, Term.Named, ModelGroup.Named, namedParticles, hnames]
  attributes := by simp [notes]
  attributeGroups := by simp [notes]
  groups := by simp [notes]

def noteBlueprint : Blueprint where
  typeName := "notes.Note"
  elementName := "Note"
  uri := none
  collection := some noteMembers.collection
  creatable := some [("Em", ⟨"notes", "Em"⟩)]
  attributes := .typed [⟨"Content", .primitive .string, true⟩]

def emBlueprint : Blueprint where
  typeName := "notes.Em"
  elementName := "Em"
  uri := none
  collection := none
  creatable := none
  attributes := .typed [⟨"Content", .primitive .string, true⟩]

def emTree : ElementTree := ⟨emBlueprint, [some (.datum (.string "now"))], none, []⟩

/-- A note of some text and a stressed word. -/
def noteTree (text : String) : ElementTree :=
  ⟨noteBlueprint, [some (.datum (.string text))], some [1], [emTree]⟩

def noteStore (text : String) : Store :=
  [{ noteBlueprint.node with
      values := [some (.datum (.string text))]
      collection := some ⟨.sequence, 1, some 1, [.slot ⟨some "Em", none, [⟨1, "Em"⟩]⟩]⟩ },
    { emBlueprint.node with values := [some (.datum (.string "now"))], parent := some 0 }]

theorem holds_noteStore (text : String) :
    (noteStore text).Holds (fun _ => True) 0 (noteTree text) := by
  refine .intro trivial rfl ⟨rfl, rfl, rfl, rfl⟩ (.cons rfl rfl ?_ .nil)
  exact .intro trivial rfl ⟨rfl, rfl, rfl, rfl⟩ .nil

/-- The document of a note, with a line break before some of the tags. -/
def noteText (lineBreak text : String) : String :=
  "<?xml version=\"1.0\" encoding=\"utf-8\"?>" ++ lineBreak ++ "<Note>" ++ text ++
    "<Em>now</Em>" ++ lineBreak ++ "</Note>"

/-- A note of blank text keeps its stressed word. -/
theorem load_toXml_indented_note : ∃ text text' r, (noteStore " ").toXml .plain 0 = .ok text ∧
    (moduleLoader "notes" noteModule).load text [] = .ok r ∧
      (noteStore " ").toXml .indented 0 = .ok text' ∧
        (moduleLoader "notes" noteModule).load text' [] = .ok r := by
  have hclasses : ∀ u ∈ (noteTree " ").subtrees,
      ∃ kind, (kind, u.blueprint) ∈ moduleBlueprints "notes" noteModule := by
    intro u hu
    have hu : u ∈ [noteTree " ", emTree] := hu
    rcases List.mem_cons.mp hu with rfl | hu
    · exact ⟨⟨"notes", "Note"⟩, List.mem_of_getElem? (i := 1) rfl⟩
    · obtain rfl := List.mem_singleton.mp hu
      exact ⟨⟨"notes", "Em"⟩, List.mem_of_getElem? (i := 0) rfl⟩
  have hsparse : ∀ u ∈ (noteTree " ").subtrees, u.Sparse := by
    intro u hu
    have hu : u ∈ [noteTree " ", emTree] := hu
    rcases List.mem_cons.mp hu with rfl | hu
    · rintro - text htext
      obtain rfl : " " = text := Option.some.inj htext
      decide
    · obtain rfl := List.mem_singleton.mp hu
      exact fun hne => absurd rfl hne
  have htext : (noteStore " ").toXml .plain 0 = .ok (noteText "" " ") := by decide +kernel
  have hok : ((moduleLoader "notes" noteModule).load (noteText "" " ") []).isOk = true := by
    decide +kernel
  cases hload : (moduleLoader "notes" noteModule).load (noteText "" " ") [] with
  | error err =>
    rw [hload] at hok
    cases hok
  | ok r =>
    obtain ⟨text', htext', hload'⟩ := load_toXml_indented
      (Module.named_of_ofModel named_notes ofModel_notes) (holds_noteStore " ") hclasses hsparse
      htext hload
    exact ⟨_, text', r, htext, hload, htext', hload'⟩

/-- The line break before the end tag becomes part of the text of a note. -/
theorem not_load_toXml_indented_note : ∃ text r, (noteStore "go").toXml .plain 0 = .ok text ∧
    (moduleLoader "notes" noteModule).load text [] = .ok r ∧
      r.1.map (·.values) = (noteStore "go").map (·.values) ∧
        ¬ ∃ text', (noteStore "go").toXml .indented 0 = .ok text' ∧
          (moduleLoader "notes" noteModule).load text' [] = .ok r := by
  have hvalues : ((moduleLoader "notes" noteModule).load (noteText "" "go") []).toOption.map
      (·.1.map (·.values)) = some ((noteStore "go").map (·.values)) := by decide +kernel
  have hindented : ((moduleLoader "notes" noteModule).load (noteText "\n" "go") []).toOption.map
      (·.1.map (·.values)) = some ((noteStore "go\n").map (·.values)) := by decide +kernel
  have htext' : (noteStore "go").toXml .indented 0 = .ok (noteText "\n" "go") := by decide +kernel
  cases hload : (moduleLoader "notes" noteModule).load (noteText "" "go") [] with
  | error err =>
    rw [hload] at hvalues
    cases hvalues
  | ok r =>
    rw [hload] at hvalues
    have hr : r.1.map (·.values) = (noteStore "go").map (·.values) := Option.some.inj hvalues
    refine ⟨noteText "" "go", r, by decide +kernel, hload, hr, ?_⟩
    rintro ⟨text', htext, hload'⟩
    obtain rfl := Except.ok.inj (htext'.symm.trans htext)
    rw [hload'] at hindented
    have hr' : r.1.map (·.values) = (noteStore "go\n").map (·.values) :=
      Option.some.inj hindented
    exact absurd (hr.symm.trans hr') (by decide)

end XmlBinding.Tree
