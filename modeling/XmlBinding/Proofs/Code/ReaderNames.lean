import XmlBinding.Proofs.Binding.Documents

/-! # Names of the functions that read texts

Functions that read an enumeration are called after it, but their names are not given out: they
stand beside the members of the class that holds them, or with those of other enumerations. What
they can clash with is another enumeration of a name that is alike in members, or a value that is
called like one of them. They never clash with what sets a value or makes an element.
-/
namespace XmlBinding.Binding
open Code

/-- No value of a class is called like a function that the class holds. -/
def Module.ValuesDiffer (m : Module) : Prop :=
  ∀ c ∈ m.classes, ∀ e ∈ m.enumerations, m.home? e = some c.name →
    ∀ f ∈ c.values, written f.member ∉ readerNames e

instance (m : Module) : Decidable m.ReadersDiffer :=
  inferInstanceAs (Decidable (m.enumerations.Pairwise fun e e' =>
    m.home? e = m.home? e' → memberName e.name ≠ memberName e'.name))

instance (m : Module) : Decidable m.ValuesDiffer :=
  inferInstanceAs (Decidable (∀ c ∈ m.classes, ∀ e ∈ m.enumerations, m.home? e = some c.name →
    ∀ f ∈ c.values, written f.member ∉ readerNames e))

end XmlBinding.Binding

namespace XmlBinding.Code
open Binding

def Associated.functionName? : Associated → Option String
  | .function f => some f.name
  | _ => none

def functionNames (members : List Associated) : List String :=
  members.filterMap Associated.functionName?

/-- What an item adds to a type, unless it is for a trait. -/
def Item.inherent? : Item → Option (List Associated)
  | .impl none _ members => some members
  | _ => none

/-- Every function that reads texts has a name that nothing else among the members has. -/
def ReadersApart (members : List Associated) : Prop :=
  (functionNames (members.filter Associated.isReader)).Nodup ∧
    ∀ name ∈ functionNames (members.filter Associated.isReader),
      name ∉ functionNames (members.filter fun a => !a.isReader)

theorem readersApart_append_iff {own readers : List Associated}
    (hown : own.filter Associated.isReader = []) (hreaders : ∀ a ∈ readers, a.isReader = true) :
    ReadersApart (own ++ readers) ↔ (functionNames readers).Nodup ∧
      ∀ name ∈ functionNames readers, name ∉ functionNames own := by
  have hothers : own.filter (fun a => !a.isReader) = own := by
    rw [List.filter_eq_self]
    intro a ha
    simpa using List.filter_eq_nil_iff.mp hown a ha
  have hnone : readers.filter (fun a => !a.isReader) = [] := by
    rw [List.filter_eq_nil_iff]
    intro a ha
    simp [hreaders a ha]
  rw [ReadersApart, List.filter_append, List.filter_append, hown, hothers, hnone,
    List.nil_append, List.append_nil, List.filter_eq_self.mpr hreaders]

theorem readersApart_of_filter_eq_nil {members : List Associated}
    (h : members.filter Associated.isReader = []) : ReadersApart members := by
  rw [← List.append_nil members, readersApart_append_iff h (by simp)]
  simp [functionNames]

/-! ## Functions of one home -/

theorem functionNames_enumerationReaders (e : Enumeration) :
    functionNames (enumerationReaders e) = readerNames e := by
  rw [enumerationReaders, readerNames]
  cases e.form <;> rfl

theorem functionNames_readersOf (m : Module) (owner : Option String) :
    functionNames (readersOf m owner) =
      (m.enumerations.filter fun e => m.home? e = owner).flatMap readerNames := by
  rw [readersOf, functionNames, List.filterMap_flatMap]
  exact List.flatMap_congr fun e _ => functionNames_enumerationReaders e

theorem tryParseName_mem_readerNames (e : Enumeration) : e.tryParseName ∈ readerNames e := by
  rw [readerNames]
  cases e.form <;> exact List.mem_cons_self

/-- The functions of two enumerations are told apart by what the enumerations are called in
members. -/
theorem disjoint_readerNames_iff (e e' : Enumeration) :
    (readerNames e).Disjoint (readerNames e') ↔ memberName e.name ≠ memberName e'.name := by
  constructor
  · intro hdisjoint hname
    have hsame : e.tryParseName = e'.tryParseName := congrArg ("try_parse_" ++ ·) hname
    have hmem := tryParseName_mem_readerNames e'
    rw [← hsame] at hmem
    exact hdisjoint (tryParseName_mem_readerNames e) hmem
  · exact fun hname _ h h' => hname (memberName_eq_of_mem_readerNames h h')

theorem nodup_functionNames_readersOf_iff (m : Module) (owner : Option String) :
    (functionNames (readersOf m owner)).Nodup ↔
      (m.enumerations.filter fun e => m.home? e = owner).Pairwise fun e e' =>
        memberName e.name ≠ memberName e'.name := by
  rw [functionNames_readersOf, List.nodup_flatMap, and_iff_right fun e _ => nodup_readerNames e]
  exact List.Pairwise.iff fun {e e'} => disjoint_readerNames_iff e e'

/-- It is enough to look at one home after the other. -/
theorem readersDiffer_iff (m : Module) : m.ReadersDiffer ↔
    (functionNames (readersOf m none)).Nodup ∧
      ∀ c ∈ m.classes, (functionNames (readersOf m (some c.name))).Nodup := by
  simp only [nodup_functionNames_readersOf_iff, List.pairwise_filter, decide_eq_true_eq]
  constructor
  · intro h
    exact ⟨h.imp fun hname he he' => hname (he.trans he'.symm),
      fun c _ => h.imp fun hname he he' => hname (he.trans he'.symm)⟩
  · rintro ⟨hnone, hclasses⟩
    refine List.pairwise_iff_getElem.mpr fun i j hi hj hij hhome => ?_
    rcases List.mem_cons.mp (home?_mem m m.enumerations[i]) with hi' | hi'
    · exact List.pairwise_iff_getElem.mp hnone i j hi hj hij hi' (hhome ▸ hi')
    · obtain ⟨c, hc, hname⟩ := List.mem_map.mp hi'
      exact List.pairwise_iff_getElem.mp (hclasses c hc) i j hi hj hij hname.symm
        (hhome ▸ hname.symm)

/-! ## Members of a class -/

/-- What a class holds besides the functions that read texts. -/
def ownMembers (s : Surroundings) (c : ElementClass) : List Associated :=
  [.constant [] "ELEMENT_NAME" (.reference false (some "'static") (.path "str"))
      (stringLiteral c.xmlName), Surroundings.construction c] ++
    (if c.membership.isSome then [Surroundings.childrenOf] else []) ++
    c.values.flatMap s.accessors

theorem functionNames_accessors (s : Surroundings) (f : Field) :
    functionNames (s.accessors f) = [written f.member, "set_" ++ f.member] := by
  unfold Surroundings.accessors
  split <;> rfl

theorem functionNames_ownMembers (s : Surroundings) (c : ElementClass) :
    functionNames (ownMembers s c) =
      "new" :: ((if c.membership.isSome then ["children_of"] else []) ++
        c.values.flatMap fun f => [written f.member, "set_" ++ f.member]) := by
  have hvalues : (c.values.flatMap s.accessors).filterMap Associated.functionName? =
      c.values.flatMap fun f => [written f.member, "set_" ++ f.member] := by
    rw [List.filterMap_flatMap]
    exact List.flatMap_congr fun f _ => functionNames_accessors s f
  rw [functionNames, ownMembers, List.filterMap_append, List.filterMap_append, hvalues]
  split <;> rfl

theorem head?_of_mem_readerNames {e : Enumeration} {name : String} (h : name ∈ readerNames e) :
    name.toList.head? = some 'p' ∨ name.toList.head? = some 't' := by
  have htry : e.tryParseName.toList.head? = some 't' := by simp [Enumeration.tryParseName]
  have hparse : e.parseName.toList.head? = some 'p' := by simp [Enumeration.parseName]
  unfold readerNames at h
  split at h
  · rcases List.mem_pair.mp h with rfl | rfl
    · exact .inr htry
    · exact .inl hparse
  · exact .inr (List.mem_singleton.mp h ▸ htry)

/-- Only what gives a value may be called like a function that reads texts. -/
theorem mem_functionNames_ownMembers_iff {e : Enumeration} {name : String}
    (h : name ∈ readerNames e) (s : Surroundings) (c : ElementClass) :
    name ∈ functionNames (ownMembers s c) ↔ ∃ f ∈ c.values, written f.member = name := by
  have hhead := head?_of_mem_readerNames h
  have hnew : name ≠ "new" := by
    rintro rfl
    exact absurd hhead (by decide)
  have hchildren : name ∉ if c.membership.isSome then ["children_of"] else [] := by
    split
    · rw [List.mem_singleton]
      rintro rfl
      exact absurd hhead (by decide)
    · exact List.not_mem_nil
  have hset (f : Field) : name ≠ "set_" ++ f.member := by
    rintro rfl
    simp at hhead
  rw [functionNames_ownMembers, List.mem_cons, List.mem_append, or_iff_right hnew,
    or_iff_right hchildren, List.mem_flatMap]
  refine exists_congr fun f => and_congr_right fun _ => ?_
  rw [List.mem_pair, or_iff_left (hset f), eq_comm]

theorem valuesDiffer_iff (m : Module) (s : Surroundings) : m.ValuesDiffer ↔
    ∀ c ∈ m.classes, ∀ name ∈ functionNames (readersOf m (some c.name)),
      name ∉ functionNames (ownMembers s c) := by
  refine forall₂_congr fun c _ => ?_
  rw [functionNames_readersOf]
  constructor
  · intro h name hname hown
    obtain ⟨e, he, hread⟩ := List.mem_flatMap.mp hname
    obtain ⟨he, hhome⟩ := List.mem_filter.mp he
    obtain ⟨f, hf, rfl⟩ := (mem_functionNames_ownMembers_iff hread s c).mp hown
    exact h e he (of_decide_eq_true hhome) f hf hread
  · intro h e he hhome f hf hread
    refine h _ (List.mem_flatMap.mpr ⟨e, List.mem_filter.mpr ⟨he, decide_eq_true hhome⟩, hread⟩) ?_
    exact (mem_functionNames_ownMembers_iff hread s c).mpr ⟨f, hf, rfl⟩

/-! ## Items of a module -/

theorem readersApart_enumerationItems (e : Enumeration) :
    ∀ members ∈ (enumerationItems e).filterMap Item.inherent?, ReadersApart members := by
  unfold enumerationItems
  split
  · exact List.forall_mem_singleton.mpr (readersApart_of_filter_eq_nil rfl)
  · refine List.forall_mem_singleton.mpr (readersApart_of_filter_eq_nil ?_)
    simp [flagConstant, flagsToText, Associated.isReader]

theorem readersApart_containerItems_iff (m : Module) :
    (∀ members ∈ (containerItems (readersOf m none)).filterMap Item.inherent?,
      ReadersApart members) ↔ (functionNames (readersOf m none)).Nodup := by
  rw [containerItems]
  split
  · next hempty => simp [List.isEmpty_iff.mp hempty, functionNames]
  · refine List.forall_mem_singleton.trans ?_
    rw [← List.nil_append (readersOf m none),
      readersApart_append_iff rfl (@isReader_of_readersOf m none)]
    simp [functionNames]

theorem inherent_classItems (s : Surroundings) (c : ElementClass) (readers : List Associated) :
    (s.classItems c readers).filterMap Item.inherent? = [ownMembers s c ++ readers] := by
  have hmarks : (c.markers.map fun m => Item.impl (some (written m)) (written c.name)
      []).filterMap Item.inherent? = [] := by
    simp [Item.inherent?]
  have hparent : (c.membership.elim [] (Surroundings.parentItems c)).filterMap Item.inherent? =
      [] := by
    cases c.membership <;> rfl
  unfold Surroundings.classItems
  simp only [List.filterMap_append, hmarks, hparent]
  rfl

/-- What the items of a file add to their types. -/
def File.inherent (f : File) : List (List Associated) := f.items.filterMap Item.inherent?

theorem inherent_sourceFile (m : Module) (modules : List String) (support : String) :
    (sourceFile m modules support).inherent =
      m.enumerations.flatMap (fun e => (enumerationItems e).filterMap Item.inherent?) ++
        ((containerItems (readersOf m none)).filterMap Item.inherent? ++
          m.classes.map fun c => ownMembers (surroundingsOf m) c ++ readersOf m (some c.name)) := by
  have hmarkers : (m.markers.map markerItem).filterMap Item.inherent? = [] := by
    simp [markerItem, Item.inherent?]
  have hclasses : (m.classes.flatMap fun c =>
      (surroundingsOf m).classItems c (readersOf m (some c.name))).filterMap Item.inherent? =
        m.classes.map fun c => ownMembers (surroundingsOf m) c ++ readersOf m (some c.name) := by
    rw [List.filterMap_flatMap, List.map_eq_flatMap]
    exact List.flatMap_congr fun c _ => inherent_classItems _ c _
  have hitems : (sourceFile m modules support).inherent =
      (m.enumerations.flatMap enumerationItems ++ containerItems (readersOf m none) ++
        m.markers.map markerItem ++ m.classes.flatMap (fun c =>
          (surroundingsOf m).classItems c (readersOf m (some c.name))) ++
        [registryItem m]).filterMap Item.inherent? := rfl
  have hregistry : [registryItem m].filterMap Item.inherent? = [] := rfl
  rw [hitems, List.filterMap_append, List.filterMap_append, List.filterMap_append,
    List.filterMap_append, hmarkers, hclasses, hregistry, List.append_nil, List.append_nil,
    List.filterMap_flatMap, List.append_assoc]

/-- Functions that read texts clash exactly where names of enumerations of one home are alike in
members, or a value has the name of a function that its class holds. -/
theorem readersApart_sourceFile_iff (m : Module) (modules : List String) (support : String) :
    (∀ members ∈ (sourceFile m modules support).inherent, ReadersApart members) ↔
      m.ReadersDiffer ∧ m.ValuesDiffer := by
  have henumerations : ∀ members ∈ m.enumerations.flatMap fun e =>
      (enumerationItems e).filterMap Item.inherent?, ReadersApart members := by
    intro members hmembers
    obtain ⟨e, -, hmembers⟩ := List.mem_flatMap.mp hmembers
    exact readersApart_enumerationItems e members hmembers
  have hclasses : (∀ members ∈ m.classes.map fun c =>
      ownMembers (surroundingsOf m) c ++ readersOf m (some c.name), ReadersApart members) ↔
        (∀ c ∈ m.classes, (functionNames (readersOf m (some c.name))).Nodup) ∧ m.ValuesDiffer := by
    rw [List.forall_mem_map, valuesDiffer_iff m (surroundingsOf m), ← forall₂_and]
    exact forall₂_congr fun c _ =>
      readersApart_append_iff (readers_ownMembers _ c) isReader_of_readersOf
  rw [inherent_sourceFile, List.forall_mem_append, List.forall_mem_append, hclasses,
    and_iff_right henumerations, readersApart_containerItems_iff, readersDiffer_iff, and_assoc]

end XmlBinding.Code

namespace XmlBinding
open Schema Binding Xml Code

/-- In generated code the functions that read texts are apart from each other and from what else
their types have, exactly if names of enumerations and values differ as they should. -/
theorem readersApart_iff_of_generate {text source : String} {options : Options}
    (h : generate text options = .ok source) :
    ∃ m modules support, bindSchema text options.allowDoctype = .ok m ∧
      source = (sourceFile m modules support).text ∧
      ((∀ members ∈ (sourceFile m modules support).inherent, ReadersApart members) ↔
        m.ReadersDiffer ∧ m.ValuesDiffer) := by
  obtain ⟨m, modules, support, hm, hsource⟩ := exists_of_generate h
  exact ⟨m, modules, support, hm, hsource, readersApart_sourceFile_iff m modules support⟩

def wordOutline (attributes : List (String × String)) (word : String) : Outline :=
  schemaElement "simpleType" attributes [
    schemaElement "restriction" [("base", "string")]
      [schemaElement "enumeration" [("value", word)] []]]

/-- An enumeration of the container, one of a class, and a value beside it. -/
def apartOutline : Outline :=
  schemaElement "schema" [] [
    wordOutline [("name", "ab")] "x",
    schemaElement "complexType" [("name", "T")] [
      schemaElement "attribute" [("name", "c")] [wordOutline [] "z"],
      schemaElement "attribute" [("name", "parse-c"), ("type", "string")] []]]

def apartSchema : Model where
  simpleTypes := [("ab", { wordType ["x"] with name := some "ab" })]
  complexTypes := [("T", ⟨some "T", none, false, false, .empty,
    [.declaration ⟨"c", none, some (.inline (wordType ["z"])), none, none⟩ false,
      .declaration ⟨"parse-c", none, some (.named (.builtin "string")), none, none⟩ false]⟩)]

theorem readModel_apartOutline : readModel (apartOutline.element none []) = .ok apartSchema := by
  cbv

theorem readersApart_apartOutline :
    ∃ source, generate apartOutline.document {} = .ok source ∧
      ∃ m modules support, bindSchema apartOutline.document false = .ok m ∧
        source = (sourceFile m modules support).text ∧ m.enumerations.length = 2 ∧
        ∀ members ∈ (sourceFile m modules support).inherent, ReadersApart members := by
  obtain ⟨m, hm, hcomputed⟩ := exists_bindSchema_document
    (P := fun m => m.enumerations.length = 2 ∧ m.ReadersDiffer ∧ m.ValuesDiffer)
    (by decide +kernel) readModel_apartOutline (by decide +kernel) false
  obtain ⟨hlength, hdiffer⟩ := of_decide_eq_true hcomputed
  obtain ⟨source, hsource⟩ := exists_generate hm
  obtain ⟨m', modules, support, hm', htext, hiff⟩ := readersApart_iff_of_generate hsource
  obtain rfl : m' = m := Except.ok.inj (hm'.symm.trans hm)
  exact ⟨source, hsource, m', modules, support, hm, htext, hlength, hiff.mpr hdiffer⟩

/-- Two enumerations that are called alike in members. -/
def clashOutline : Outline :=
  schemaElement "schema" [] [wordOutline [("name", "ab")] "x", wordOutline [("name", "a-b")] "y"]

def clashSchema : Model where
  simpleTypes := [("ab", { wordType ["x"] with name := some "ab" }),
    ("a-b", { wordType ["y"] with name := some "a-b" })]

theorem readModel_clashOutline : readModel (clashOutline.element none []) = .ok clashSchema := by
  cbv

/-- Code is generated, but the container has two functions of one name. -/
theorem not_readersApart_clashOutline :
    ∃ source, generate clashOutline.document {} = .ok source ∧
      ∃ m modules support, bindSchema clashOutline.document false = .ok m ∧
        source = (sourceFile m modules support).text ∧
        ¬ ∀ members ∈ (sourceFile m modules support).inherent, ReadersApart members := by
  obtain ⟨m, hm, hcomputed⟩ := exists_bindSchema_document
    (P := fun m => m.enumerations.map (fun e => (e.name, m.home? e)) = [("Ab", none), ("AB", none)])
    (by decide +kernel) readModel_clashOutline (by decide +kernel) false
  have hnames := of_decide_eq_true hcomputed
  have halike : ¬ m.ReadersDiffer := by
    intro hdiffer
    have hpairs : (m.enumerations.map fun e => (e.name, m.home? e)).Pairwise fun p q =>
        p.2 = q.2 → memberName p.1 ≠ memberName q.1 := List.pairwise_map.mpr hdiffer
    have hab : memberName "Ab" = "ab" := by decide +kernel
    have hab' : memberName "AB" = "ab" := by decide +kernel
    rw [hnames, List.pairwise_pair, hab, hab'] at hpairs
    exact hpairs rfl rfl
  obtain ⟨source, hsource⟩ := exists_generate hm
  obtain ⟨m', modules, support, hm', htext⟩ := exists_of_generate hsource
  obtain rfl : m' = m := Except.ok.inj (hm'.symm.trans hm)
  exact ⟨source, hsource, m', modules, support, hm, htext,
    fun hapart => halike ((readersApart_sourceFile_iff m' modules support).mp hapart).1⟩

end XmlBinding
