import XmlBinding.Proofs.Binding.FieldTypes

/-! # What a chain of derivations contributes

A draft of a type goes through the types it is derived from, outermost base first. Each of them adds
its particle and the fields of its attributes, and a marker if it is abstract, and nothing else. All
that is known of a draft follows from these contributions.
-/
namespace XmlBinding.Schema

/-- The types that a type is derived through, outermost base first, and the type itself at last. -/
inductive Chain (model : Model) : ComplexType → List ComplexType → Prop
  | alone {t : ComplexType} (hbase : t.content.baseType? model = none) : Chain model t [t]
  | derived {t base : ComplexType} {ts : List ComplexType}
      (hbase : t.content.baseType? model = some base) (h : Chain model base ts) :
      Chain model t (ts ++ [t])

/-- What the uses in a list of definitions stand for, one definition after the other. -/
abbrev Expansions (model : Model) (ts : List ComplexType) (sources : List (List AttributeSource)) :
    Prop :=
  List.Forall₂ (fun t inner => Expands model t.attributes inner) ts sources

/-- The names of the attributes of a type, those of its bases first. -/
def AttributeNames (model : Model) (t : ComplexType) (names : List String) : Prop :=
  ∃ ts sources, Chain model t ts ∧ Expansions model ts sources ∧
    names = sources.flatten.map (·.name)

section
variable {model : Model} {t base : ComplexType} {names : List String}
  {sources : List AttributeSource}

theorem Chain.mem_self {ts : List ComplexType} (h : Chain model t ts) : t ∈ ts := by
  cases h <;> simp

theorem attributeNames_alone (hbase : t.content.baseType? model = none)
    (h : Expands model t.attributes sources) : AttributeNames model t (sources.map (·.name)) :=
  ⟨[t], [sources], .alone hbase, .cons h .nil, by simp⟩

theorem AttributeNames.derived (hbase : t.content.baseType? model = some base)
    (hnames : AttributeNames model base names) (h : Expands model t.attributes sources) :
    AttributeNames model t (names ++ sources.map (·.name)) := by
  obtain ⟨ts, inherited, hchain, hexpand, rfl⟩ := hnames
  exact ⟨ts ++ [t], inherited ++ [sources], .derived hbase hchain,
    List.rel_append hexpand (.cons h .nil), by simp⟩

end

end XmlBinding.Schema

namespace XmlBinding.Binding
open Schema

/-! ## Fields -/

/-- Fields for the first of every name. -/
def NamedFirst (names : List String) (fields : List Field) : Prop :=
  fields.map (·.xmlName) = firstOf id names

theorem NamedFirst.addField {names : List String} {fields : List Field}
    (h : NamedFirst names fields) (name : String) (type : FieldType)
    (documentation : Option String) :
    NamedFirst (names ++ [name]) (addField fields name type documentation) := by
  have hmem : (fields.any (·.xmlName = name) = true) ↔ id name ∈ names.map id := by
    rw [← mem_names_firstOf, List.map_id, ← h]
    simp
  rw [NamedFirst, firstOf_concat, Binding.addField]
  by_cases hold : id name ∈ names.map id
  · rw [if_pos (hmem.mpr hold), if_pos hold, h]
  · rw [if_neg (hmem.not.mpr hold), if_neg hold, ← h, List.map_append]
    rfl

/-- Fields have been added for what uses stand for, as far as the names are new. -/
def AddsUses (model : Model) (uses : List AttributeUse) (fields fields' : List Field) : Prop :=
  ∃ sources, Expands model uses sources ∧ ∀ names, NamedFirst names fields →
    NamedFirst (names ++ sources.map (·.name)) fields'

section
variable {model : Model} {uses : List AttributeUse} {fields fields' fields'' : List Field}

theorem addsUses_nil (fields : List Field) : AddsUses model [] fields fields :=
  ⟨[], .nil, fun names h => by simpa using h⟩

theorem AddsUses.declaration {d : AttributeDeclaration} {required : Bool} {t : FieldType}
    (h : AddsUses model uses (addField fields d.name t d.documentation) fields') :
    AddsUses model (.declaration d required :: uses) fields fields' := by
  obtain ⟨sources, hsources, hnames⟩ := h
  refine ⟨_, .declaration hsources, fun names hfields => ?_⟩
  simpa [AttributeSource.name, AttributeSource.declaration] using
    hnames _ (hfields.addField d.name t d.documentation)

theorem AddsUses.reference {name : String} {d : AttributeDeclaration} {required : Bool}
    {t : FieldType} (hd : model.attribute? name = some d)
    (h : AddsUses model uses (addField fields d.name t d.documentation) fields') :
    AddsUses model (.reference name required :: uses) fields fields' := by
  obtain ⟨sources, hsources, hnames⟩ := h
  refine ⟨_, .reference hd hsources, fun names hfields => ?_⟩
  simpa [AttributeSource.name, AttributeSource.declaration] using
    hnames _ (hfields.addField d.name t d.documentation)

theorem AddsUses.group {name : String} {g : AttributeGroup}
    (hg : model.attributeGroup name = some g) (hinner : AddsUses model g.uses fields fields')
    (h : AddsUses model uses fields' fields'') :
    AddsUses model (.group name :: uses) fields fields'' := by
  obtain ⟨inner, hinner, hnames⟩ := hinner
  obtain ⟨sources, hsources, hnames'⟩ := h
  refine ⟨_, .group hg hinner hsources, fun names hfields => ?_⟩
  simpa using hnames' _ (hnames _ hfields)

/-- A step that adds the fields of an attribute group. -/
def AddsGroup (model : Model) (group : String → List Field → Build (List Field)) : Prop :=
  ∀ name fields, Ensures (fun _ => True) (group name fields) fun fields' _ =>
    ∃ g, model.attributeGroup name = some g ∧ AddsUses model g.uses fields fields'

theorem addUses_addsUses {group : String → List Field → Build (List Field)}
    (hgroup : AddsGroup model group) (scope : Scope) (uses : List AttributeUse)
    (fields : List Field) :
    Ensures (fun _ => True) (addUses model group scope uses fields)
      fun fields' _ => AddsUses model uses fields fields' := by
  induction uses generalizing fields with
  | nil => exact ensures_pure fun _ _ => addsUses_nil fields
  | cons use uses ih =>
    cases use with
    | declaration d required =>
      exact ensures_true.bind fun t => (ih _).weaken fun _ _ h => h.declaration
    | reference name required =>
      rw [addUses]
      split
      · exact ensures_fail
      · next d hd => exact ensures_true.bind fun t => (ih _).weaken fun _ _ h => h.reference hd
    | group name =>
      refine (hgroup name fields).bind_of_result fun fields' ⟨g, hg, hinner⟩ => ?_
      exact (ih fields').weaken fun _ _ h => .group hg hinner h

theorem addGroupWithin_addsGroup (scope : Scope) (bound : Nat) (active : List String) :
    AddsGroup model (addGroupWithin model scope bound active) := by
  induction bound generalizing active with
  | zero => exact fun _ _ => ensures_fail
  | succ bound ih =>
    intro name fields
    rw [addGroupWithin]
    split
    · exact ensures_fail
    · next g hg =>
      split
      · exact ensures_fail
      · exact (addUses_addsUses (ih (name :: active)) scope g.uses fields).weaken
          fun _ _ h => ⟨g, hg, h⟩

theorem addAttributes_addsUses (scope : Scope) (uses : List AttributeUse) (fields : List Field) :
    Ensures (fun _ => True) (addAttributes model scope uses fields)
      fun fields' _ => AddsUses model uses fields fields' :=
  addUses_addsUses (addGroupWithin_addsGroup scope _ _) scope uses fields

end

/-! ## Drafts -/

section
variable (model : Model)

/-- What a type adds itself to a draft, apart from markers. -/
structure AddsOwn (t : ComplexType) (d d' : Draft) : Prop where
  particles : d'.particles = d.particles ++ t.content.own?.toList.map (⟨·, t.name⟩)
  markers : d'.markers = d.markers
  fields : AddsUses model t.attributes d.fields d'.fields

/-- What a type contributes to a draft: a marker if it is abstract, what its base contributes, and
what it adds itself. -/
inductive Contributes : ComplexType → Draft → Draft → Prop
  | alone {t : ComplexType} {marker : Option String} {d d' : Draft}
      (hmarker : t.isAbstract = false → marker = none) (hbase : t.content.baseType? model = none)
      (h : AddsOwn model t (d.addMarker marker) d') : Contributes t d d'
  | derived {t base : ComplexType} {marker : Option String} {d d' d'' : Draft}
      (hmarker : t.isAbstract = false → marker = none)
      (hbase : t.content.baseType? model = some base)
      (hd : Contributes base (d.addMarker marker) d')
      (h : AddsOwn model t d' d'') : Contributes t d d''

/-- What the base of a content contributes, if it has one. -/
def BaseContributes (content : ComplexContent) (d d' : Draft) : Prop :=
  match content.baseType? model with
  | none => d' = d
  | some base => Contributes model base d d'

/-- A content adds its particle after what its base contributes, and no field. -/
structure AddsContent (name : Option String) (content : ComplexContent) (d d' : Draft) : Prop where
  particles : d'.particles = d.particles ++ content.own?.toList.map (⟨·, name⟩)
  markers : d'.markers = d.markers
  fields : d'.fields = d.fields

/-- A step that adds the contributions of a base type. -/
def BringsBase (base : TypeName → Draft → Build Draft) : Prop :=
  ∀ name d, Ensures (fun _ => True) (base name d) fun d' _ =>
    ∃ t, model.typeNamed? name = some t ∧ Contributes model t d d'

end

section
variable {model : Model}

theorem baseContributes_of_none {content : ComplexContent} (h : content.baseType? model = none)
    (d : Draft) : BaseContributes model content d d := by
  rw [BaseContributes, h]

theorem baseContributes_of_some {content : ComplexContent} {base : ComplexType} {d d' : Draft}
    (h : content.baseType? model = some base) (hd : Contributes model base d d') :
    BaseContributes model content d d' := by
  rw [BaseContributes, h]
  exact hd

theorem BaseContributes.contributes {t : ComplexType} {marker : Option String} {d d' d'' : Draft}
    (hmarker : t.isAbstract = false → marker = none)
    (h : BaseContributes model t.content (d.addMarker marker) d') (hown : AddsOwn model t d' d'') :
    Contributes model t d d'' := by
  unfold BaseContributes at h
  split at h
  · next hbase => exact .alone hmarker hbase (h ▸ hown)
  · next base hbase => exact .derived hmarker hbase h hown

theorem particles_addMarker (d : Draft) (m : Option String) :
    (d.addMarker m).particles = d.particles := by
  obtain ⟨_, heq⟩ := d.exists_addMarker_eq m
  rw [heq]

theorem fields_addMarker (d : Draft) (m : Option String) : (d.addMarker m).fields = d.fields := by
  obtain ⟨_, heq⟩ := d.exists_addMarker_eq m
  rw [heq]

theorem addParticle_addsContent (d : Draft) (name : Option String) {content : ComplexContent}
    {p : Option Particle} (hp : content.own? = p) :
    AddsContent name content d (d.addParticle name p) := by
  cases p with
  | none => exact ⟨by simp [hp, Draft.addParticle], rfl, rfl⟩
  | some p => exact ⟨by simp [hp, Draft.addParticle], rfl, rfl⟩

/-- A type for the text is no contribution. -/
theorem addsContent_text (d : Draft) (name : Option String) {content : ComplexContent}
    (hown : content.own? = none) (text : Option FieldType) :
    AddsContent name content d { d with content := text } :=
  ⟨by simp [hown], rfl, rfl⟩

theorem addContent_contributes {base : TypeName → Draft → Build Draft}
    (hbase : BringsBase model base) (scope : Scope) (name : Option String) (d : Draft)
    (content : ComplexContent) :
    Ensures (fun _ => True) (addContent model base scope name d content) fun d' _ =>
      ∃ between, BaseContributes model content d between ∧ AddsContent name content between d' := by
  cases content with
  | empty =>
    exact ensures_pure fun _ _ =>
      ⟨d, baseContributes_of_none rfl d, addParticle_addsContent d name (p := none) rfl⟩
  | particle p =>
    exact ensures_pure fun _ _ =>
      ⟨d, baseContributes_of_none rfl d, addParticle_addsContent d name (p := some p) rfl⟩
  | extension b particle =>
    refine (hbase b d).bind fun d' => ensures_pure fun _ ⟨t, ht, hd'⟩ => ?_
    exact ⟨d', baseContributes_of_some ht hd', addParticle_addsContent d' name rfl⟩
  | simpleExtension b =>
    rw [addContent, isComplex_eq]
    split
    · exact (hbase b d).weaken fun d' _ ⟨t, ht, hd'⟩ =>
        ⟨d', baseContributes_of_some ht hd', addsContent_text d' name rfl d'.content⟩
    · next hnone =>
      have hnone : (ComplexContent.simpleExtension b).baseType? model = none :=
        Option.not_isSome_iff_eq_none.mp hnone
      exact ensures_true.bind fun t => ensures_pure fun _ _ =>
        ⟨d, baseContributes_of_none hnone d, addsContent_text d name rfl (some t)⟩
  | simpleRestriction r =>
    have hfinish (d' : Draft) : Ensures (fun _ => True)
        (if (complexBase? model r).isNone || !r.enumerations.isEmpty then do
            return { d' with content := some (← restrictedContent model scope r) }
          else return d') fun d'' _ => AddsContent name (.simpleRestriction r) d' d'' := by
      split
      · exact ensures_true.bind fun t => ensures_pure fun _ _ => addsContent_text d' name rfl _
      · exact ensures_pure fun _ _ => addsContent_text d' name rfl d'.content
    have hcontent := baseType?_simpleRestriction model r
    rw [addContent]
    split
    · next b hb =>
      rw [hb, Option.bind_some] at hcontent
      refine (hbase b d).bind_of_result fun d' ⟨t, ht, hd'⟩ => ?_
      exact (hfinish d').weaken fun d'' _ hd'' =>
        ⟨d', baseContributes_of_some (hcontent.trans ht) hd', hd''⟩
    · next hb =>
      rw [hb, Option.bind_none] at hcontent
      refine (ensures_pure fun _ _ => rfl).bind_of_result (R := (· = d)) fun d' hd' => ?_
      exact (hfinish d').weaken fun d'' _ hd'' =>
        ⟨d, baseContributes_of_none hcontent d, hd' ▸ hd''⟩

theorem markerOf_of_concrete {c : Catalog} {t : ComplexType} (h : t.isAbstract = false) :
    markerOf c t = none := by
  simp [markerOf, h]

theorem addType_contributes {base : TypeName → Draft → Build Draft} (hbase : BringsBase model base)
    (scope : Scope) (t : ComplexType) (d : Draft) :
    Ensures (fun _ => True) (addType model base scope t d)
      fun d' _ => Contributes model t d d' := by
  refine ensures_true.bind fun c => ?_
  refine (addContent_contributes hbase scope t.name _ t.content).bind_of_result
    fun d' ⟨between, hbetween, hd'⟩ => ?_
  refine (addAttributes_addsUses scope t.attributes d'.fields).bind fun fields =>
    ensures_pure fun _ hfields => ?_
  exact hbetween.contributes markerOf_of_concrete ⟨hd'.particles, hd'.markers, hd'.fields ▸ hfields⟩

theorem addBaseWithin_bringsBase (bound : Nat) (active : List String) :
    BringsBase model (addBaseWithin model bound active) := by
  induction bound generalizing active with
  | zero =>
    intro name d
    cases name <;> exact ensures_fail
  | succ bound ih =>
    intro name d
    cases name with
    | builtin name => exact ensures_fail
    | schema name =>
      rw [addBaseWithin]
      split
      · exact ensures_fail
      · next t ht =>
        refine ensures_true.bind fun scope => ?_
        split
        · exact ensures_fail
        · exact (addType_contributes (ih (name :: active)) scope t d).weaken
            fun d' _ h => ⟨t, ht, h⟩

theorem derive_contributes (scope : Scope) (t : ComplexType) :
    Ensures (fun _ => True) (derive model scope t) fun d _ => Contributes model t {} d :=
  addType_contributes (addBaseWithin_bringsBase _ _) scope t {}

/-! ## What a draft holds -/

section
variable {t : ComplexType} {d d' : Draft}

theorem Contributes.particles (h : Contributes model t d d') :
    ∃ ps, DeclaredParticles model t.name t.content ps ∧ d'.particles = d.particles ++ ps := by
  induction h with
  | alone _ hbase hown =>
    exact ⟨_, .alone hbase, by rw [hown.particles, particles_addMarker]⟩
  | derived _ hbase _ hown ih =>
    obtain ⟨ps, hps, hparticles⟩ := ih
    refine ⟨_, .derived hbase hps, ?_⟩
    rw [hown.particles, hparticles, particles_addMarker, List.append_assoc]

theorem Contributes.names (h : Contributes model t d d') :
    ∃ names, AttributeNames model t names ∧ ∀ before, NamedFirst before d.fields →
      NamedFirst (before ++ names) d'.fields := by
  induction h with
  | alone _ hbase hown =>
    obtain ⟨sources, hsources, hfields⟩ := hown.fields
    rw [fields_addMarker] at hfields
    exact ⟨_, attributeNames_alone hbase hsources, hfields⟩
  | derived _ hbase _ hown ih =>
    obtain ⟨names, hnames, hinherited⟩ := ih
    obtain ⟨sources, hsources, hfields⟩ := hown.fields
    rw [fields_addMarker] at hinherited
    refine ⟨_, hnames.derived hbase hsources, fun before hbefore => ?_⟩
    rw [← List.append_assoc]
    exact hfields _ (hinherited before hbefore)

/-- Markers are those of abstract types. -/
theorem Contributes.markers (h : Contributes model t d d') {ts : List ComplexType}
    (hchain : Chain model t ts) (hconcrete : ∀ s ∈ ts, s.isAbstract = false) :
    d'.markers = d.markers := by
  induction h generalizing ts with
  | alone hmarker _ hown =>
    rw [hown.markers, hmarker (hconcrete _ hchain.mem_self)]
    rfl
  | derived hmarker hbase _ hown ih =>
    have ht := hconcrete _ hchain.mem_self
    cases hchain with
    | alone hnone => rw [hbase] at hnone; cases hnone
    | derived hbase' hchain =>
      obtain rfl := Option.some.inj (hbase.symm.trans hbase')
      rw [hown.markers, ih hchain fun s hs => hconcrete s (List.mem_append_left _ hs), hmarker ht]
      rfl

end

/-- A draft holds the particles of its type. -/
theorem derive_declaredParticles (scope : Scope) (t : ComplexType) :
    Ensures (fun _ => True) (derive model scope t)
      fun d _ => DeclaredParticles model t.name t.content d.particles := by
  refine (derive_contributes scope t).weaken fun d _ h => ?_
  obtain ⟨ps, hps, hd⟩ := h.particles
  rw [hd]
  exact hps

theorem derive_contentParticles (scope : Scope) (t : ComplexType) :
    Ensures (fun _ => True) (derive model scope t)
      fun d _ => ContentParticles model t.content (d.particles.map (·.particle)) :=
  (derive_declaredParticles scope t).weaken fun _ _ h => h.contentParticles

end

end XmlBinding.Binding
