import XmlBinding.Generation
import XmlBinding.Proofs.Binding.Keeping
import XmlBinding.Proofs.Code.Emission
import XmlBinding.Proofs.Collection.Slots
import XmlBinding.Tree.Loading

/-! # Modules refer to nothing but themselves

Slots name classes, values are read by functions of enumerations, and classes bear markers. In a
module all of these are there, once each, wherever the references come from.
-/
namespace XmlBinding.Binding
open Schema (Model SimpleType)
open Code XmlBinding.Tree

section
variable {α β : Type} [DecidableEq β] {f : α → β} {xs : List α}

theorem filter_eq_singleton (h : (xs.map f).Nodup) {x : α} (hx : x ∈ xs) :
    xs.filter (f · = f x) = [x] := by
  induction xs with
  | nil => cases hx
  | cons y xs ih =>
    obtain ⟨hy, hxs⟩ := List.nodup_cons.mp h
    rcases List.mem_cons.mp hx with rfl | hx
    · rw [List.filter_cons_of_pos (by simp), List.filter_eq_nil_iff.mpr]
      intro z hz heq
      exact hy (List.mem_map.mpr ⟨z, hz, of_decide_eq_true heq⟩)
    · rw [List.filter_cons_of_neg, ih hxs hx]
      intro heq
      exact hy (of_decide_eq_true heq ▸ List.mem_map_of_mem hx)

end

/-! ## Children -/

theorem firstOfEach_subset {α : Type} (ps : List (String × α)) : firstOfEach ps ⊆ ps := by
  induction ps with
  | nil => exact List.Subset.refl _
  | cons p r ih =>
    rw [firstOfEach]
    exact List.cons_subset_cons p (List.Subset.trans (List.filter_subset_self _) ih)

theorem find?_firstOfEach {α : Type} (name : String) (ps : List (String × α)) :
    (firstOfEach ps).find? (·.1 = name) = ps.find? (·.1 = name) := by
  induction ps with
  | nil => rfl
  | cons p ps ih =>
    rw [firstOfEach]
    by_cases hp : p.1 = name
    · rw [List.find?_cons_of_pos (by simpa using hp), List.find?_cons_of_pos (by simpa using hp)]
    · rw [List.find?_cons_of_neg (by simpa using hp), List.find?_cons_of_neg (by simpa using hp),
        List.find?_filter, ← ih]
      congr 1
      funext q
      by_cases hq : q.1 = name <;> simp [hq, Ne.symm hp]

mutual

/-- A collection accepts the names of the slots it is made from. -/
theorem Membership.accepts_collection {name : String} :
    ∀ ms : Membership, name ∈ ms.named.map (·.1) → ms.collection.accepts name = true
  | ⟨_, _, _, slots⟩, h => accepts_slotEntries slots h

theorem MemberSlot.accepts_entry {name : String} :
    ∀ s : MemberSlot, name ∈ s.named.map (·.1) → s.entry.accepts name = true
  | .element xmlName className m, h => by
    obtain rfl : name = xmlName := by simpa [MemberSlot.named] using h
    simp [MemberSlot.entry, Entry.accepts, Slot.accepts]
  | .wildcard _, h => by simp [MemberSlot.named] at h
  | .group ms, h => ms.accepts_collection h

theorem accepts_slotEntries {name : String} :
    ∀ ss : List MemberSlot, name ∈ (namedSlots ss).map (·.1) →
      acceptsAny name (slotEntries ss) = true
  | [], h => by simp [namedSlots] at h
  | s :: ss, h => by
    rw [namedSlots, List.map_append, List.mem_append] at h
    rw [slotEntries, acceptsAny, Bool.or_eq_true]
    exact h.imp s.accepts_entry (accepts_slotEntries ss)

end

/-- What a collection accepts does not depend on what it holds. -/
theorem Collection.accepts_of_emptied {c d : Collection} (h : c.emptied = d.emptied)
    (name : String) : c.accepts name = d.accepts name := by
  have hslots (ss : List Slot) : ss.any (·.accepts name) =
      (ss.map Slot.emptied).any (·.accepts name) := by
    rw [List.any_map]
    rfl
  rw [c.accepts_eq_any, d.accepts_eq_any, hslots, hslots d.slots,
    Collection.map_emptied_of_emptied h]

/-- A module's kinds are there under the name of a group, whichever other kinds there are. -/
def Offers (l : Loader) (group : String) (m : Module) : Prop :=
  ∀ name, l.blueprints.get? ⟨group, name⟩ = (moduleBlueprints group m).get? ⟨group, name⟩

/-- The blueprint of the one class of a name. -/
theorem get?_moduleBlueprints {m : Module} {c : ElementClass}
    (h : m.classes.filter (·.name = c.name) = [c]) (group : String) :
    ∃ b, (moduleBlueprints group m).get? ⟨group, c.name⟩ = some b ∧ b.elementName = c.xmlName ∧
      b.creatable = c.membership.map fun ms => ms.creatable.map fun p => (p.1, ⟨group, p.2⟩) := by
  have hfind : m.classes.find? (·.name = c.name) = some c := by
    rw [← List.head?_filter, h, List.head?_cons]
  have hkind (k : ElementClass) : decide ((⟨group, k.name⟩ : Kind) = ⟨group, c.name⟩) =
      decide (k.name = c.name) := by
    simp
  unfold Blueprints.get? moduleBlueprints
  rw [List.find?_map]
  simp only [Function.comp_def, hkind, hfind]
  exact ⟨_, rfl, rfl, rfl⟩

/-- Children are made for the names of slots, and for no others. -/
structure CreatesChildren (l : Loader) (n : Node) (ms : Membership) : Prop where
  /-- A child has the name it is made for, and its parent accepts it whatever is held already. -/
  named : ∀ name ∈ ms.named.map (·.1), ∀ s, ∃ b, l.createDeclared n name s = .ok (s.create b) ∧
    b.elementName = name ∧ ∀ d : Collection, d.emptied = ms.collection →
      d.accepts b.elementName = true
  unnamed : ∀ name, name ∉ ms.named.map (·.1) → ∀ s,
    l.createDeclared n name s = .error (.invalidChildName n.name name)

theorem createsChildren {m : Module} {c : ElementClass} {ms : Membership}
    (hc : m.classes.filter (·.name = c.name) = [c]) (hms : c.membership = some ms)
    (hslots : ∀ slot ∈ ms.named, ∃ k, m.classes.filter (·.name = slot.2) = [k] ∧
      k.xmlName = slot.1)
    {l : Loader} {group : String} (hl : Offers l group m) {n : Node}
    (hn : l.blueprints.get? ⟨group, c.name⟩ = some n.blueprint) :
    CreatesChildren l n ms := by
  obtain ⟨b, hb, -, hcreatable⟩ := get?_moduleBlueprints hc group
  rw [hl, hb, Option.some.injEq] at hn
  rw [hn, hms, Option.map_some] at hcreatable
  have hfind (name : String) : ((ms.creatable.map fun p => (p.1, (⟨group, p.2⟩ : Kind))).find?
      (·.1 = name)) = (ms.named.find? (·.1 = name)).map fun p => (p.1, ⟨group, p.2⟩) := by
    rw [List.find?_map, ← find?_firstOfEach]
    rfl
  constructor
  · intro name hname s
    obtain ⟨slot, hslot, hslotName⟩ := List.mem_map.mp hname
    obtain ⟨first, hfirst⟩ : ∃ first, ms.named.find? (·.1 = name) = some first :=
      Option.isSome_iff_exists.mp
        (List.find?_isSome.mpr ⟨slot, hslot, decide_eq_true hslotName⟩)
    have hfirstName : first.1 = name := of_decide_eq_true (List.find?_some hfirst :)
    obtain ⟨k, hk, hkName⟩ := hslots first (List.mem_of_find?_eq_some hfirst)
    have hmem : k ∈ m.classes.filter (·.name = first.2) := hk ▸ List.mem_cons_self
    have hclass : k.name = first.2 := of_decide_eq_true (List.mem_filter.mp hmem).2
    obtain ⟨child, hchild, hchildName, -⟩ := get?_moduleBlueprints (hclass ▸ hk) group
    have helement : child.elementName = name := by rw [hchildName, hkName, hfirstName]
    refine ⟨child, ?_, helement, fun d hd => ?_⟩
    · rw [Loader.createDeclared, hcreatable]
      simp only [hfind, hfirst, Option.map_some, Loader.make]
      rw [hl, ← hclass, hchild]
    · have hstart : ms.collection.emptied = ms.collection :=
        Collection.emptied_eq_self ms.held_eq_nil
      rw [helement, Collection.accepts_of_emptied (hd.trans hstart.symm)]
      exact ms.accepts_collection hname
  · intro name hname s
    have hnone : ms.named.find? (·.1 = name) = none := by
      rw [List.find?_eq_none]
      intro slot hslot heq
      exact hname (List.mem_map.mpr ⟨slot, hslot, of_decide_eq_true heq⟩)
    rw [Loader.createDeclared, hcreatable]
    simp only [hfind, hnone, Option.map_none]

/-! ## Enumerations -/

/-- The function that an arm reads an enumeration with, and whether it checks the result. -/
def readerOf : Arm → Option (String × Bool)
  | ⟨_, .assign _ (.call _ [.call (.word path) _])⟩ => some (path, false)
  | ⟨_, .assign _ (.call _ [.question (.method (.call (.word path) _) _ _ _)])⟩ =>
    some (path, true)
  | _ => none

/-- An arm reads an enumeration with one of its functions, where that is held. An enumeration is
what the function gives if it has a sentinel for all other texts, and else what it may give. -/
def ReadsEnumeration (m : Module) (arm : Arm) (e : Enumeration) : Prop :=
  ∃ f, .function f ∈ enumerationReaders e ∧
    readerOf arm = some (homeName m e ++ "::" ++ f.name, e.form == .flags) ∧
    f.output = some (if e.form = .flags then resultOf e else .path (written e.name))

/-- An enumeration has a function of the form its arms need. -/
theorem exists_reader (e : Enumeration) : ∃ f, .function f ∈ enumerationReaders e ∧
    f.name = (if e.form = .flags then e.tryParseName else e.parseName) ∧
    f.output = some (if e.form = .flags then resultOf e else .path (written e.name)) := by
  rw [enumerationReaders]
  cases e.form with
  | plain => exact ⟨_, List.mem_cons_of_mem _ List.mem_cons_self, rfl, rfl⟩
  | flags => exact ⟨_, List.mem_cons_self, rfl, rfl⟩

theorem readsEnumeration_setArm {m : Module} {f : Field} {place : Nat} {e : Enumeration}
    (hf : f.type = .enumeration place) (he : m.enumerations[place]? = some e) :
    ReadsEnumeration m ((surroundingsOf m).setArm f) e := by
  have harm : (surroundingsOf m).setArm f = ⟨.word (Text.literal f.xmlName),
      .assign (.field self (written f.member))
        (callOf "Some" [(surroundingsOf m).parsedEnumeration e])⟩ := by
    simp [Surroundings.setArm, hf, surroundingsOf, he]
  obtain ⟨reader, hreader, hname, houtput⟩ := exists_reader e
  refine ⟨reader, hreader, ?_, houtput⟩
  rw [harm, hname, Surroundings.parsedEnumeration]
  cases e.form <;> rfl

theorem readerOf_setArm_primitive {s : Surroundings} {f : Field} {p : Value.Primitive}
    (hf : f.type = .primitive p) : readerOf (s.setArm f) = none := by
  have harm : s.setArm f = ⟨.word (Text.literal f.xmlName),
      .assign (.field self (written f.member)) (callOf "Some" [parsed p])⟩ := by
    simp [Surroundings.setArm, hf]
  rw [harm]
  cases p <;> rfl

/-- What an enumeration without an owner is read by makes the container necessary. -/
theorem readersOf_none_ne_nil {m : Module} {e : Enumeration} (he : e ∈ m.enumerations)
    (hnone : m.home? e = none) : readersOf m none ≠ [] := by
  intro hempty
  have hall := List.flatMap_eq_nil_iff.mp hempty e
    (List.mem_filter.mpr ⟨he, decide_eq_true hnone⟩)
  unfold enumerationReaders at hall
  split at hall <;> cases hall

/-- The home of an enumeration is declared. -/
theorem record_homeName_mem {m : Module} {e : Enumeration} (he : e ∈ m.enumerations) :
    Feature.record (homeName m e) ∈ moduleFeatures m := by
  rw [moduleFeatures, homeName]
  rcases List.mem_cons.mp (home?_mem m e) with hnone | hsome
  · have hreaders := readersOf_none_ne_nil he hnone
    have hcontainer : Feature.record (written containerName) ∈ containerFeatures m := by
      rw [containerFeatures, if_neg (by simpa using hreaders)]
      exact List.mem_singleton_self _
    rw [hnone]
    exact List.mem_append_right _ (List.mem_append_left _ hcontainer)
  · obtain ⟨c, hc, hname⟩ := List.mem_map.mp hsome
    have hrecord : Feature.record (written c.name) ∈
        m.classes.flatMap (classFeatures (surroundingsOf m)) :=
      List.mem_flatMap.mpr ⟨c, hc, List.mem_cons_self⟩
    rw [← hname]
    exact List.mem_append_right _ (List.mem_append_right _ (List.mem_append_right _
      (List.mem_append_left _ hrecord)))

/-! ## Names -/

/-- The names that the code uses as they are, and those of what it declares. -/
def Module.identifiers (m : Module) : List String :=
  reservedTypeNames ++
    (m.classes.map (·.name) ++ (m.markers.map (·.name) ++ m.enumerations.map (·.name)))

/-- The names of enumerations with one home differ even in the form they have in members. -/
def Module.ReadersDiffer (m : Module) : Prop :=
  m.enumerations.Pairwise fun e e' =>
    m.home? e = m.home? e' → memberName e.name ≠ memberName e'.name

theorem Module.ReadersDiffer.of_nodup {m : Module}
    (h : (m.enumerations.map fun e => memberName e.name).Nodup) : m.ReadersDiffer := by
  refine (List.pairwise_map.mp h).imp ?_
  intro e e' hname _
  exact hname

theorem home?_eq_of_homeName_eq {m : Module} (h : (m.identifiers.map written).Nodup)
    {e e' : Enumeration} (heq : homeName m e = homeName m e') : m.home? e = m.home? e' := by
  have hclass (c : ElementClass) (hc : c ∈ m.classes) : c.name ∈ m.identifiers :=
    List.mem_append_right _ (List.mem_append_left _ (List.mem_map_of_mem hc))
  have hcontainer : containerName ∈ m.identifiers :=
    List.mem_append_left _ (by decide)
  have hapart (c : ElementClass) (hc : c ∈ m.classes) : containerName ≠ c.name :=
    (List.nodup_append.mp (List.Nodup.of_map _ h)).2.2 _ (by decide) _
      (List.mem_append_left _ (List.mem_map_of_mem hc))
  rw [homeName, homeName] at heq
  have hname := List.inj_on_of_nodup_map h
  rcases List.mem_cons.mp (home?_mem m e) with he | he <;>
    rcases List.mem_cons.mp (home?_mem m e') with he' | he'
  · rw [he, he']
  · obtain ⟨c, hc, hc'⟩ := List.mem_map.mp he'
    rw [he, ← hc'] at heq
    exact absurd (hname hcontainer (hclass c hc) heq) (hapart c hc)
  · obtain ⟨c, hc, hc'⟩ := List.mem_map.mp he
    rw [he', ← hc'] at heq
    exact absurd (hname hcontainer (hclass c hc) heq.symm) (hapart c hc)
  · obtain ⟨c, hc, hcName⟩ := List.mem_map.mp he
    obtain ⟨c', hc', hcName'⟩ := List.mem_map.mp he'
    rw [← hcName, ← hcName'] at heq ⊢
    exact congrArg some (hname (hclass c hc) (hclass c' hc') heq)

theorem tryParseName_ne_parseName (e e' : Enumeration) : e.tryParseName ≠ e'.parseName := by
  intro heq
  have hlist := congrArg String.toList heq
  simp [Enumeration.tryParseName, Enumeration.parseName] at hlist

theorem nodup_readerNames (e : Enumeration) : (readerNames e).Nodup := by
  rw [readerNames]
  split
  · simpa using tryParseName_ne_parseName e e
  · exact List.nodup_singleton _

theorem memberName_eq_of_mem_readerNames {e e' : Enumeration} {name : String}
    (h : name ∈ readerNames e) (h' : name ∈ readerNames e') :
    memberName e.name = memberName e'.name := by
  have hcases {e : Enumeration} (h : name ∈ readerNames e) :
      name = e.tryParseName ∨ name = e.parseName := by
    unfold readerNames at h
    split at h <;> simp at h <;> tauto
  rcases hcases h with rfl | rfl <;> rcases hcases h' with heq | heq
  · exact (String.append_right_inj "try_parse_").mp heq
  · exact absurd heq (tryParseName_ne_parseName e e')
  · exact absurd heq.symm (tryParseName_ne_parseName e' e)
  · exact (String.append_right_inj "parse_").mp heq

/-- Then every path to a function that reads texts leads to one function. -/
theorem nodup_readerPaths {m : Module} (h : (m.identifiers.map written).Nodup)
    (hdiffer : m.ReadersDiffer) : (readerPaths m).Nodup := by
  have hclasses : (m.classes.map (·.name)).Nodup :=
    (List.nodup_append.mp (List.nodup_append.mp (List.Nodup.of_map _ h)).2.1).1
  rw [(readerPaths_perm hclasses).nodup_iff, List.nodup_flatMap]
  constructor
  · exact fun e _ => (nodup_readerNames e).map fun _ _ h => (Prod.mk.inj h).2
  · refine hdiffer.imp fun {e e'} hname path hpath hpath' => ?_
    obtain ⟨name, hread, rfl⟩ := List.mem_map.mp hpath
    obtain ⟨name', hread', heq⟩ := List.mem_map.mp hpath'
    obtain ⟨hhome, rfl⟩ := Prod.mk.inj heq
    exact hname (home?_eq_of_homeName_eq h hhome).symm
      (memberName_eq_of_mem_readerNames hread hread')

/-! ## Modules -/

/-- A module that refers to nothing but what it declares. -/
structure Module.Closed (m : Module) : Prop where
  /-- No two of its names are written alike. -/
  identifiers : (m.identifiers.map written).Nodup
  /-- Every slot names one class, made for the element of the slot. -/
  slots : ∀ c ∈ m.classes, ∀ ms ∈ c.membership, ∀ slot ∈ ms.named,
    ∃ k, m.classes.filter (·.name = slot.2) = [k] ∧ k.xmlName = slot.1
  /-- Whoever loads with the module, its parents make the children of their slots. -/
  children : ∀ c ∈ m.classes, ∀ ms ∈ c.membership, ∀ (l : Loader) (group : String),
    Offers l group m → ∀ n : Node, l.blueprints.get? ⟨group, c.name⟩ = some n.blueprint →
      CreatesChildren l n ms
  /-- The enumeration of a value is one of the module's, with a name of its own, and its arm reads
  it. -/
  enumerations : ∀ c ∈ m.classes, ∀ f ∈ c.values, ∀ place, f.type = .enumeration place →
    ∃ e, m.enumerations[place]? = some e ∧ m.enumerations.filter (·.name = e.name) = [e] ∧
      ReadsEnumeration m ((surroundingsOf m).setArm f) e
  /-- Other arms read no enumeration. -/
  primitives : ∀ c ∈ m.classes, ∀ f ∈ c.values, ∀ p, f.type = .primitive p →
    readerOf ((surroundingsOf m).setArm f) = none
  /-- The functions that read an enumeration are held by something that is declared. -/
  homes : ∀ e ∈ m.enumerations, .record (homeName m e) ∈ moduleFeatures m
  /-- The code declares every enumeration, marker and class once, and so it does the functions of
  every enumeration, in its home. -/
  code : ((moduleItems m).flatMap Item.features).Perm (moduleFeatures m)

/-- Every marker that a class bears is declared once. -/
def Module.MarkersClosed (m : Module) : Prop :=
  ∀ c ∈ m.classes, ∀ name ∈ c.markers, ∃ k, m.markers.filter (·.name = name) = [k]

section
variable {model : Model} {c : Catalog}

theorem Catalog.names_nil (c : Catalog) (targetNamespace : Option String) : c.names [] =
    (⟨targetNamespace, c.enumerations, c.markers, c.classes⟩ : Module).identifiers := by
  simp [names, promises, ElementClass.promise, Marker.promise, Function.comp_def,
    Module.identifiers]

/-- Classes, markers and enumerations have names of their own. -/
theorem Coherent.nodup_names (h : Coherent model [] c) :
    (c.classes.map (·.name)).Nodup ∧ (c.markers.map (·.name)).Nodup ∧
      (c.enumerations.map (·.name)).Nodup := by
  have hnodup := h.nodup
  rw [c.names_nil none, Module.identifiers] at hnodup
  obtain ⟨hclasses, hrest, -⟩ := List.nodup_append.mp (List.nodup_append.mp hnodup).2.1
  exact ⟨hclasses, (List.nodup_append.mp hrest).1, (List.nodup_append.mp hrest).2.1⟩

/-- When nothing is pending, a promised class is there. -/
theorem Coherent.exists_class (h : Coherent model [] c) {xmlName className : String}
    (hknown : (c.ledger []).Knows xmlName className) :
    ∃ k, c.classes.filter (·.name = className) = [k] ∧ k.xmlName = xmlName := by
  have hmem : ⟨className, .classFor xmlName⟩ ∈
      c.classes.map ElementClass.promise ++ c.markers.map Marker.promise := hknown
  rcases List.mem_append.mp hmem with hclass | hmarker
  · obtain ⟨k, hk, hpromise⟩ := List.mem_map.mp hclass
    cases hpromise
    exact ⟨k, filter_eq_singleton h.nodup_names.1 hk, rfl⟩
  · obtain ⟨k, -, hpromise⟩ := List.mem_map.mp hmarker
    cases hpromise

theorem Coherent.exists_marker (h : Coherent model [] c) {name : String}
    (hmarked : (c.ledger []).Marks name) :
    ∃ k, c.markers.filter (·.name = name) = [k] := by
  have hmem : ⟨name, .marker⟩ ∈
      c.classes.map ElementClass.promise ++ c.markers.map Marker.promise := hmarked
  rcases List.mem_append.mp hmem with hclass | hmarker
  · obtain ⟨k, -, hpromise⟩ := List.mem_map.mp hclass
    cases hpromise
  · obtain ⟨k, hk, hpromise⟩ := List.mem_map.mp hmarker
    cases hpromise
    exact ⟨k, filter_eq_singleton h.nodup_names.2.1 hk⟩

theorem Coherent.exists_enumeration (h : Coherent model [] c) {place : Nat}
    (hheld : (c.ledger []).Holds (.enumeration place)) :
    ∃ e, c.enumerations[place]? = some e ∧ c.enumerations.filter (·.name = e.name) = [e] := by
  have hlt : place < c.enumerations.length := hheld
  exact ⟨c.enumerations[place], List.getElem?_eq_getElem hlt,
    filter_eq_singleton h.nodup_names.2.2 (List.getElem_mem hlt)⟩

theorem Coherent.closed (h : Coherent model [] c) (targetNamespace : Option String) :
    (⟨targetNamespace, c.enumerations, c.markers, c.classes⟩ : Module).Closed := by
  have hslots (k : ElementClass) (hk : k ∈ c.classes) (ms : Membership) (hms : ms ∈ k.membership)
      (slot : String × String) (hslot : slot ∈ ms.named) :
      ∃ k, c.classes.filter (·.name = slot.2) = [k] ∧ k.xmlName = slot.1 :=
    h.exists_class ((h.covered.classes k hk).slots ms hms slot hslot)
  exact {
    identifiers := by
      rw [← c.names_nil]
      exact h.nodup.map_on fun a ha b hb =>
        (h.plain a (h.taken ha)).written_inj (h.plain b (h.taken hb))
    slots := hslots
    children := fun k hk ms hms l group hl n hn =>
      createsChildren (filter_eq_singleton h.nodup_names.1 hk) hms (hslots k hk ms hms) hl hn
    enumerations := fun k hk f hf place hplace => by
      obtain ⟨e, he, hunique⟩ :=
        h.exists_enumeration (hplace ▸ (h.covered.classes k hk).values f hf)
      exact ⟨e, he, hunique, readsEnumeration_setArm hplace he⟩
    primitives := fun _ _ _ _ _ hp => readerOf_setArm_primitive hp
    homes := fun _ he => record_homeName_mem he
    code := features_moduleItems h.nodup_names.1 }

theorem Coherent.markersClosed (h : Coherent model [] c) (ha : model.AbstractAgrees)
    (targetNamespace : Option String) :
    (⟨targetNamespace, c.enumerations, c.markers, c.classes⟩ : Module).MarkersClosed :=
  fun k hk name hname => h.exists_marker ((h.covered.classes k hk).markers ha name hname)

end

/-- The module bound to a schema refers to nothing but what it declares, however its types and
elements refer to each other. Only a marker may be missing, if an abstract type declared in place
bears the name of a concrete top-level type. Tables are keyed in all schemas that are read, see
`keyed_of_readModel`. -/
theorem Module.closed_of_ofModel {model : Model} (hm : model.Keyed) {m : Module}
    (h : Module.ofModel model = .ok m) :
    m.Closed ∧ (model.AbstractAgrees → m.MarkersClosed) ∧
      (m.ReadersDiffer → (readerPaths m).Nodup) := by
  obtain ⟨c, hc, rfl⟩ := coherent_of_ofModel model hm h
  have hclosed := hc.closed model.targetNamespace
  exact ⟨hclosed, fun ha => hc.markersClosed ha _, nodup_readerPaths hclosed.identifiers⟩

/-- Strings that are one of these words. -/
def wordType (words : List String) : SimpleType :=
  ⟨none, none, .restriction ⟨.named (.builtin "string"), words.map (⟨·, none⟩), [], []⟩⟩

/-- A type with an abstract base that contains elements of its own type. -/
def figureSchema : Model where
  complexTypes :=
    [("Shape", ⟨some "Shape", none, true, false, .empty,
        [.declaration ⟨"kind", none, some (.inline (wordType ["round", "flat"])), none, none⟩
          false]⟩),
      ("Group", ⟨some "Group", none, false, false,
        .extension (.schema "Shape") (some ⟨1, .one, .group ⟨.sequence,
          [⟨0, .unbounded, .element ⟨"item", none, .named (.schema "Group"), false⟩⟩,
            ⟨0, .one, .elementRef "note"⟩]⟩⟩),
        [.declaration ⟨"styles", none, some (.inline
          ⟨none, none, .list (.inline (wordType ["bold", "thin"]))⟩), none, none⟩ false]⟩)]
  elements :=
    [("note", ⟨"note", none, .named (.builtin "string"), false⟩),
      ("figure", ⟨"figure", none, .named (.schema "Group"), false⟩)]

theorem keyed_figureSchema : figureSchema.Keyed :=
  ⟨by decide, by decide, by decide, by simp [figureSchema], by simp [figureSchema]⟩

/-- A property of the module bound to a schema, as it is computed. -/
theorem exists_of_toOption (model : Model) {P : Module → Bool}
    (h : (Module.ofModel model).toOption.any P = true) :
    ∃ m, Module.ofModel model = .ok m ∧ P m = true := by
  cases hm : Module.ofModel model with
  | error e =>
    rw [hm] at h
    cases h
  | ok m =>
    rw [hm] at h
    exact ⟨m, rfl, h⟩

theorem Module.closed_figureSchema : ∃ m, Module.ofModel figureSchema = .ok m ∧
    m.classes.length = 4 ∧ m.enumerations.length = 2 ∧ m.Closed ∧ m.MarkersClosed ∧
      (readerPaths m).Nodup := by
  obtain ⟨m, hm, hcomputed⟩ := exists_of_toOption figureSchema
    (P := fun m => m.classes.length = 4 ∧
      m.enumerations.map (memberName ·.name) = ["kind_type", "styles_type"])
    (by decide +kernel)
  obtain ⟨hclasses, henumerations⟩ := of_decide_eq_true hcomputed
  obtain ⟨hclosed, hmarkers, hreaders⟩ := Module.closed_of_ofModel keyed_figureSchema hm
  have hdiffer : m.ReadersDiffer := .of_nodup (henumerations ▸ by decide)
  refine ⟨m, hm, hclasses, ?_, hclosed, hmarkers (by decide +kernel), hreaders hdiffer⟩
  simpa using congrArg List.length henumerations

/-- An element whose abstract type, declared in place, bears the name of a concrete type, and two
enumerations with names that are alike in members. -/
def impostorSchema : Model where
  simpleTypes := [("a1-b", wordType ["x"]), ("a1b", wordType ["y"])]
  complexTypes := [("Foo", ⟨some "Foo", none, false, false, .empty, []⟩)]
  elements := [("E", ⟨"E", none, .complex ⟨some "Foo", none, true, false, .empty,
    [.declaration ⟨"p", none, some (.named (.schema "a1-b")), none, none⟩ false,
      .declaration ⟨"q", none, some (.named (.schema "a1b")), none, none⟩ false]⟩, false⟩)]

theorem keyed_impostorSchema : impostorSchema.Keyed :=
  ⟨by decide, by decide, by decide, by simp [impostorSchema], by simp [impostorSchema]⟩

/-- The class of the element bears a marker, but no marker is declared; and one path leads to two
functions. -/
theorem Module.not_markersClosed_of_impostorSchema : impostorSchema.Keyed ∧
    ∃ m, Module.ofModel impostorSchema = .ok m ∧ ¬ m.MarkersClosed ∧ ¬ (readerPaths m).Nodup := by
  obtain ⟨m, hm, hcomputed⟩ := exists_of_toOption impostorSchema
    (P := fun m => (m.markers = [] ∧ ∃ c ∈ m.classes, c.markers ≠ []) ∧
      (readerPaths m).count ("Enums", "parse_a1b") = 2)
    (by decide +kernel)
  obtain ⟨⟨hnone, c, hc, hmarkers⟩, htwice⟩ := of_decide_eq_true hcomputed
  refine ⟨keyed_impostorSchema, m, hm, fun hclosed => ?_, fun hnodup => ?_⟩
  · obtain ⟨name, hname⟩ := List.exists_mem_of_ne_nil c.markers hmarkers
    obtain ⟨k, hk⟩ := hclosed c hc name hname
    rw [hnone] at hk
    cases hk
  · exact absurd (List.nodup_iff_count_le_one.mp hnodup ("Enums", "parse_a1b")) (by omega)

end XmlBinding.Binding

namespace XmlBinding
open Binding

/-- Whatever text a schema is read from, the module bound to it is closed. -/
theorem closed_of_bindSchema {text : String} {allowDoctype : Bool} {m : Module}
    (h : bindSchema text allowDoctype = .ok m) : m.Closed := by
  obtain ⟨model, hread, hbound⟩ := bindSchema_eq_ok.mp h
  obtain ⟨c, hc, rfl⟩ := coherent_of_ofModel model (Schema.keyed_of_readSchema hread) hbound
  exact hc.closed _

end XmlBinding
