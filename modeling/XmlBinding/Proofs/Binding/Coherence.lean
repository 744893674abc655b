import XmlBinding.Proofs.Binding.Ledger
import XmlBinding.Proofs.Schema.Keys

/-! # The construction keeps its promises

Every step leaves a coherent catalog. A class that is built refers to enumerations that are there
and to classes and markers that are promised; a local element gets its name, is remembered under
it and has its class built before the step is over, so that nothing more is pending after it.
-/
namespace XmlBinding.Binding
open Schema

namespace Ledger

/-- Fields have legal names and types that are held. -/
def HoldsAll (w : Ledger) (fields : List Field) : Prop :=
  ∀ f ∈ fields, w.Holds f.type ∧ IsName f.member

def KnowsAll (w : Ledger) (slots : List (String × String)) : Prop :=
  ∀ s ∈ slots, w.Knows s.1 s.2

variable {v w : Ledger}

theorem HoldsAll.mono {fields : List Field} (h : v.HoldsAll fields) (hvw : v ≤ w) :
    w.HoldsAll fields := fun f hf => ⟨(h f hf).1.mono hvw, (h f hf).2⟩

theorem KnowsAll.mono {slots : List (String × String)} (h : v.KnowsAll slots) (hvw : v ≤ w) :
    w.KnowsAll slots := fun s hs => (h s hs).mono hvw

theorem knowsAll_nil : w.KnowsAll [] := by simp [KnowsAll]

theorem KnowsAll.append {slots slots' : List (String × String)} (h : w.KnowsAll slots)
    (h' : w.KnowsAll slots') : w.KnowsAll (slots ++ slots') :=
  fun s hs => (List.mem_append.mp hs).elim (h s) (h' s)

theorem knowsAll_singleton {xmlName className : String} (h : w.Knows xmlName className) :
    w.KnowsAll [(xmlName, className)] :=
  fun _ hs => List.mem_singleton.mp hs ▸ h

theorem HoldsAll.addField {fields : List Field} (h : w.HoldsAll fields) (name : String)
    {t : FieldType} (ht : w.Holds t) (documentation : Option String) :
    w.HoldsAll (addField fields name t documentation) := by
  rw [Binding.addField]
  split
  · exact h
  · have hmember := (isName_memberName name).chooseMember (takenMembers fields)
    generalize chooseMember (takenMembers fields) (memberName name) = member at hmember ⊢
    intro f hf
    rcases List.mem_append.mp hf with hf | hf
    · exact h f hf
    · exact List.mem_singleton.mp hf ▸ ⟨ht, hmember⟩

/-- What a draft refers to is promised, and its particles are the schema's. -/
structure Drafts (model : Model) (w : Ledger) (d : Draft) : Prop where
  content : ∀ t ∈ d.content, w.Holds t
  fields : w.HoldsAll d.fields
  markers : model.AbstractAgrees → ∀ name ∈ d.markers, w.Marks name
  markerNames : ∀ name ∈ d.markers, w.Gives name
  particles : ∀ p ∈ d.particles, p.particle.term.declared ⊆ model.declared

variable {model : Model} {d : Draft}

theorem drafts_empty : w.Drafts model {} :=
  ⟨by simp, by simp [HoldsAll], by simp, by simp, by simp⟩

theorem Drafts.mono (h : v.Drafts model d) (hvw : v ≤ w) : w.Drafts model d where
  content t ht := (h.content t ht).mono hvw
  fields := h.fields.mono hvw
  markers ha name hname := (h.markers ha name hname).mono hvw
  markerNames name hname := (h.markerNames name hname).mono hvw
  particles := h.particles

theorem Drafts.addMarker (h : w.Drafts model d) {m : Option String}
    (hm : model.AbstractAgrees → ∀ name ∈ m, w.Marks name) (hnames : ∀ name ∈ m, w.Gives name) :
    w.Drafts model (d.addMarker m) := by
  cases m with
  | none => exact h
  | some m =>
    rw [Draft.addMarker]
    split
    · exact h
    · exact { h with
        markers := fun ha => List.forall_mem_append.mpr ⟨h.markers ha, by simpa using hm ha⟩
        markerNames := List.forall_mem_append.mpr ⟨h.markerNames, by simpa using hnames⟩ }

theorem Drafts.addParticle (h : w.Drafts model d) (declaredIn : Option String)
    {p : Option Particle} (hp : ∀ q ∈ p, q.term.declared ⊆ model.declared) :
    w.Drafts model (d.addParticle declaredIn p) := by
  cases p with
  | none => exact h
  | some p =>
    refine { h with particles := fun q hq => ?_ }
    rcases List.mem_append.mp hq with hq | hq
    · exact h.particles q hq
    · exact List.mem_singleton.mp hq ▸ hp p rfl

theorem Drafts.withContent (h : w.Drafts model d) {t : FieldType} (ht : w.Holds t) :
    w.Drafts model { d with content := some t } :=
  { h with content := fun _ hs => Option.some.inj hs ▸ ht }

/-- The marker of an abstract type is promised, as no concrete type has its name. -/
theorem Covers.markerOf {c : Catalog} (h : w.Covers model c) (ha : model.AbstractAgrees)
    {t : ComplexType} (ht : .inr t ∈ model.declared) : ∀ name ∈ markerOf c t, w.Marks name := by
  intro name hname
  rw [Binding.markerOf, Option.mem_def] at hname
  split at hname
  · next habstract =>
    obtain ⟨entry, hentry, rfl⟩ := Option.map_eq_some_iff.mp hname
    obtain ⟨typeName, htypeName, hentry⟩ := Option.bind_eq_some_iff.mp hentry
    have hmem := mem_of_remembered hentry
    obtain ⟨top, htop, hsame⟩ := h.declared _ hmem
    exact h.marked _ hmem (hsame.trans (ha t (model.mem_allTypes ht) habstract _ htop htypeName))
  · cases hname

/-- A marker bears the name of a type that has been declared. -/
theorem Covers.gives_markerOf {c : Catalog} (h : w.Covers model c) (t : ComplexType) :
    ∀ name ∈ Binding.markerOf c t, w.Gives name := by
  intro name hname
  rw [Binding.markerOf, Option.mem_def] at hname
  split at hname
  · obtain ⟨entry, hentry, rfl⟩ := Option.map_eq_some_iff.mp hname
    obtain ⟨typeName, -, hentry⟩ := Option.bind_eq_some_iff.mp hentry
    exact h.typeNames _ (mem_of_remembered hentry)
  · cases hname

end Ledger

section
variable {model : Model} {w : Ledger} {p : List Promise}

/-! ## Simple types -/

theorem map_set_of_eq {α β : Type} {f : α → β} {xs : List α} {i : Nat} {a b : α}
    (ha : xs[i]? = some a) (h : f b = f a) : (xs.set i b).map f = xs.map f := by
  obtain ⟨hi, rfl⟩ := List.getElem?_eq_some_iff.mp ha
  have hi' : i < (xs.map f).length := by rwa [List.length_map]
  calc (xs.set i b).map f = (xs.map f).set i ((xs.map f)[i]) := by
        rw [List.map_set, h, List.getElem_map]
    _ = xs.map f := List.set_getElem_self _

theorem name_toFlags {e f : Enumeration} (h : e.toFlags = .ok f) : f.name = e.name := by
  unfold Enumeration.toFlags at h
  split at h
  · cases h
    rfl
  · split at h
    · cases h
    · cases h
      rfl

/-- Flags keep the name and the place of the enumeration they are made of. -/
theorem promote_stays (place : Nat) : Stays model w p (promote place) fun _ _ => True := by
  refine ensures_get_bind fun c ⟨hc, hw⟩ => ?_
  split
  · exact ensures_pure fun d hd => hd ▸ ⟨hc, hw, trivial⟩
  · next e he =>
    refine Ensures.bind (Q := fun f d => d = c ∧ f.name = e.name)
      (ensures_lift fun f d hf hd => ⟨hd, name_toFlags hf⟩) fun f => ensures_set fun d ⟨_, hf⟩ => ?_
    have hnames : (c.enumerations.set place f).map (·.name) = c.enumerations.map (·.name) :=
      map_set_of_eq he hf
    have hledger : ({ c with enumerations := c.enumerations.set place f } : Catalog).ledger p =
        c.ledger p := by
      simp only [Catalog.ledger, Catalog.promises, List.length_set]
    refine ⟨hc.of_perm ?_ rfl (hledger ▸ { hc.covered with }), hledger ▸ hw, trivial⟩
    simp only [Catalog.names, hnames, Catalog.promises]
    exact .refl _

theorem listOf_stays {t : FieldType} (ht : w.Holds t) :
    Stays model w p (listOf t) Ledger.Holds := by
  cases t with
  | primitive _ => exact coheres_fail
  | enumeration place =>
    exact (promote_stays place).bind fun _ w' hw _ => stays_pure fun w'' hw' =>
      (ht.mono hw).mono hw'

end

/-- Whatever is promised, the step gives a type that is held. -/
def Resolves (model : Model) (x : Build FieldType) : Prop :=
  ∀ w p, Stays model w p x Ledger.Holds

section
variable {model : Model}

section
variable {named : String → Build FieldType} (target : Target)

theorem resolveTypeName_resolves (hnamed : ∀ name, Resolves model (named name)) (name : TypeName) :
    Resolves model (resolveTypeName named name) := by
  cases name with
  | builtin name => exact fun w p => stays_pure fun _ _ => trivial
  | schema name => exact hnamed name

mutual

theorem resolveSimpleType_resolves (hnamed : ∀ name, Resolves model (named name)) :
    ∀ t : SimpleType, Resolves model (resolveSimpleType named target t)
  | ⟨_, documentation, variety⟩ => by
    rw [resolveSimpleType]
    exact resolveVariety_resolves hnamed documentation variety

theorem resolveVariety_resolves (hnamed : ∀ name, Resolves model (named name))
    (documentation : Option String) : ∀ v : Variety,
    Resolves model (resolveVariety named target documentation v)
  | .restriction r => by
    rw [resolveVariety]
    exact resolveRestriction_resolves hnamed documentation r
  | .list item => by
    rw [resolveVariety]
    exact fun w p => (resolveRef_resolves hnamed item w p).bind fun t w' _ ht => listOf_stays ht
  | .union [] => by
    rw [resolveVariety]
    exact fun w p => coheres_fail
  | .union (first :: _) => by
    rw [resolveVariety]
    exact resolveRef_resolves hnamed first

theorem resolveRef_resolves (hnamed : ∀ name, Resolves model (named name)) :
    ∀ r : SimpleTypeRef, Resolves model (resolveRef named target r)
  | .named name => by
    rw [resolveRef]
    exact resolveTypeName_resolves hnamed name
  | .inline t => by
    rw [resolveRef]
    exact resolveSimpleType_resolves hnamed t

theorem resolveRestriction_resolves (hnamed : ∀ name, Resolves model (named name))
    (documentation : Option String) : ∀ r : Restriction,
    Resolves model (resolveRestriction named target documentation r)
  | ⟨base, enumerations, patterns, _⟩ => by
    intro w p
    rw [resolveRestriction]
    refine Coheres.bind (R := fun _ _ => True) (stays_lift fun _ _ _ => trivial) fun _ w' _ _ => ?_
    split
    · exact resolveRef_resolves hnamed base w' p
    · exact enumerate_stays target documentation enumerations

end

end

variable (model)

theorem resolveNamedWithin_resolves (bound : Nat) (active : List String) (name : String) :
    Resolves model (resolveNamedWithin model bound active name) := by
  induction bound generalizing active name with
  | zero => exact fun w p => coheres_fail
  | succ bound ih =>
    intro w p
    rw [resolveNamedWithin]
    refine stays_get.bind fun c w' _ hc => ?_
    split
    · next t ht =>
      exact stays_pure fun _ hw => (hc.1.simpleTypes _ (mem_of_remembered ht)).mono hw
    · refine Coheres.bind (R := fun _ _ => True) (stays_lift fun _ _ _ => trivial)
        fun t w' _ _ => ?_
      split
      · exact coheres_fail
      · refine (resolveSimpleType_resolves _ (ih (name :: active)) t w' p).bind
          fun t w' _ ht => ?_
        refine Coheres.bind (stays_modify (fun _ => ⟨rfl, rfl, rfl⟩) fun c w'' hw hc => ?_)
          fun _ w'' hw _ => stays_pure fun _ hw' => (ht.mono hw).mono hw'
        exact { hc with simpleTypes := List.forall_mem_cons.mpr ⟨ht.mono hw, hc.simpleTypes⟩ }

theorem resolveNamed_resolves (name : String) : Resolves model (resolveNamed model name) :=
  resolveNamedWithin_resolves model _ _ name

/-! ## Fields -/

variable {model} in
theorem remembering_resolves {resolve : Build FieldType} (h : Resolves model resolve)
    (key : ScopeKey × String) : Resolves model (remembering key resolve) := by
  intro w p
  refine stays_get.bind fun c w' _ hc => ?_
  split
  · next t ht =>
    exact stays_pure fun _ hw => (hc.1.attributeTypes _ (mem_of_remembered ht)).mono hw
  · refine (h w' p).bind fun t w' _ ht => ?_
    refine Coheres.bind (stays_modify (fun _ => ⟨rfl, rfl, rfl⟩) fun c w'' hw hc => ?_)
      fun _ w'' hw _ => stays_pure fun _ hw' => (ht.mono hw).mono hw'
    exact { hc with attributeTypes := List.forall_mem_cons.mpr ⟨ht.mono hw, hc.attributeTypes⟩ }

theorem attributeType_resolves (key : ScopeKey) (target : Target) (d : AttributeDeclaration) :
    Resolves model (attributeType model key target d) := by
  rw [attributeType]
  split
  · exact fun w p => stays_pure fun _ _ => trivial
  · exact resolveTypeName_resolves (resolveNamed_resolves model) _
  · exact remembering_resolves (resolveSimpleType_resolves target (resolveNamed_resolves model) _) _

variable {w : Ledger} {p : List Promise}

theorem addUses_stays {group : String → List Field → Build (List Field)}
    (hgroup : ∀ w name fields, w.HoldsAll fields →
      Stays model w p (group name fields) Ledger.HoldsAll)
    (scope : Scope) (uses : List AttributeUse) {fields : List Field} (hf : w.HoldsAll fields) :
    Stays model w p (addUses model group scope uses fields) Ledger.HoldsAll := by
  induction uses generalizing w fields with
  | nil => exact stays_pure fun _ hw => hf.mono hw
  | cons u uses ih =>
    cases u with
    | declaration d required =>
      exact (attributeType_resolves model _ _ d w p).bind fun t w' hw ht =>
        ih ((hf.mono hw).addField _ ht _)
    | reference name required =>
      rw [addUses]
      split
      · exact coheres_fail
      · next d hd =>
        exact (attributeType_resolves model _ _ d w p).bind fun t w' hw ht =>
          ih ((hf.mono hw).addField _ ht _)
    | group name => exact (hgroup w name fields hf).bind fun fields w' _ hf => ih hf

theorem addGroupWithin_stays (scope : Scope) (bound : Nat) (active : List String) (w : Ledger)
    (name : String) (fields : List Field) (hf : w.HoldsAll fields) :
    Stays model w p (addGroupWithin model scope bound active name fields) Ledger.HoldsAll := by
  induction bound generalizing active w name fields with
  | zero => exact coheres_fail
  | succ bound ih =>
    rw [addGroupWithin]
    split
    · exact coheres_fail
    · next g hg =>
      split
      · exact coheres_fail
      · exact addUses_stays model (ih (name :: active)) scope g.uses hf

theorem addAttributes_stays (scope : Scope) (uses : List AttributeUse) {fields : List Field}
    (hf : w.HoldsAll fields) :
    Stays model w p (addAttributes model scope uses fields) Ledger.HoldsAll :=
  addUses_stays model (addGroupWithin_stays model scope _ _) scope uses hf

/-! ## Types -/

theorem typeScope_stays (name : String) : Stays model w p (typeScope name) fun w' scope =>
    ∃ entry, remembered w'.types name = some entry ∧ scope = .ofType name entry := by
  refine stays_get.bind fun c w' _ hc => ?_
  split
  · next entry hentry =>
    rw [← hc.2.1] at hentry
    exact stays_pure fun _ hw => ⟨entry, hw.types ▸ hentry, rfl⟩
  · exact coheres_fail

theorem restrictedContent_resolves (scope : Scope) (r : Restriction) :
    Resolves model (restrictedContent model scope r) :=
  remembering_resolves (resolveRestriction_resolves _ (resolveNamed_resolves model) none r) _

variable {base : TypeName → Draft → Build Draft}

theorem addContent_stays
    (hbase : ∀ w name d, w.Drafts model d → Stays model w p (base name d) (Ledger.Drafts model))
    (scope : Scope) (name : Option String) {d : Draft} (hd : w.Drafts model d)
    {content : ComplexContent} (hc : content.declared ⊆ model.declared) :
    Stays model w p (addContent model base scope name d content) (Ledger.Drafts model) := by
  cases content with
  | empty => exact stays_pure fun _ hw => hd.mono hw
  | particle particle =>
    rw [ComplexContent.declared_particle] at hc
    refine stays_pure fun _ hw => (hd.mono hw).addParticle name fun q hq => ?_
    exact Option.some.inj hq ▸ hc
  | extension b particle =>
    refine (hbase w b d hd).bind fun d w' _ hd => stays_pure fun _ hw =>
      (hd.mono hw).addParticle name fun q hq => ?_
    obtain rfl := Option.mem_def.mp hq
    rwa [ComplexContent.declared_extension] at hc
  | simpleExtension b =>
    rw [addContent]
    split
    · exact hbase w b d hd
    · exact (resolveTypeName_resolves (resolveNamed_resolves model) b w p).bind fun t w' hw ht =>
        stays_pure fun _ hw' => ((hd.mono hw).withContent ht).mono hw'
  | simpleRestriction r =>
    have hfinish (w : Ledger) (d : Draft) (hd : w.Drafts model d) :
        Stays model w p (if (complexBase? model r).isNone || !r.enumerations.isEmpty then do
            return { d with content := some (← restrictedContent model scope r) }
          else return d) (Ledger.Drafts model) := by
      split
      · exact (restrictedContent_resolves model scope r w p).bind fun t w' hw ht =>
          stays_pure fun _ hw' => ((hd.mono hw).withContent ht).mono hw'
      · exact stays_pure fun _ hw => hd.mono hw
    rw [addContent]
    split
    · exact (hbase w _ d hd).bind fun d w' _ hd => hfinish w' d hd
    · exact (stays_pure fun _ hw => hd.mono hw).bind fun d w' _ hd => hfinish w' d hd

theorem addType_stays
    (hbase : ∀ w name d, w.Drafts model d → Stays model w p (base name d) (Ledger.Drafts model))
    (scope : Scope) {t : ComplexType} (ht : t.declared ⊆ model.declared) {d : Draft}
    (hd : w.Drafts model d) :
    Stays model w p (addType model base scope t d) (Ledger.Drafts model) := by
  have hself := ht t.mem_declared
  have hcontent := List.Subset.trans t.sublist_content.subset ht
  refine stays_get.bind fun c w' hw hc => ?_
  have hmarker := (hd.mono hw).addMarker (fun ha => hc.1.markerOf ha hself)
    (hc.1.gives_markerOf t)
  refine (addContent_stays model hbase scope t.name hmarker hcontent).bind fun d w' _ hd => ?_
  refine (addAttributes_stays model scope t.attributes hd.fields).bind fun fields w' hw hf => ?_
  refine stays_pure fun _ hw' => Ledger.Drafts.mono ?_ hw'
  refine { hd.mono hw with fields := hf, content := fun s hs => ?_ }
  split at hs
  · exact Option.some.inj hs ▸ trivial
  · exact (hd.content s hs).mono hw

theorem addBaseWithin_stays (bound : Nat) (active : List String) (w : Ledger) (name : TypeName)
    (d : Draft) (hd : w.Drafts model d) :
    Stays model w p (addBaseWithin model bound active name d) (Ledger.Drafts model) := by
  induction bound generalizing active w name d with
  | zero => cases name <;> exact coheres_fail
  | succ bound ih =>
    cases name with
    | builtin name => exact coheres_fail
    | schema name =>
      rw [addBaseWithin]
      split
      · exact coheres_fail
      · next t ht =>
        refine (typeScope_stays model name).bind fun scope w' hw _ => ?_
        split
        · exact coheres_fail
        · exact addType_stays model (ih (name :: active)) scope
            (model.sublist_of_complexType (mem_of_find ht)).subset (hd.mono hw)

theorem derive_stays (scope : Scope) {t : ComplexType} (ht : t.declared ⊆ model.declared) :
    Stays model w p (derive model scope t) (Ledger.Drafts model) :=
  addType_stays model (addBaseWithin_stays model _ _) scope ht Ledger.drafts_empty

end

/-! ## Content models -/

theorem namedSlots_append (ss ts : List MemberSlot) :
    namedSlots (ss ++ ts) = namedSlots ss ++ namedSlots ts := by
  induction ss with
  | nil => simp [namedSlots]
  | cons s ss ih => rw [List.cons_append, namedSlots, namedSlots, ih, List.append_assoc]

section
variable {model : Model} {w : Ledger} {p : List Promise}

/-- What is remembered of a top-level element is promised. -/
theorem referredElement_stays (name : String) : Stays model w p (referredElement name)
    fun w' className => remembered w'.elements name = some className ∧ w'.Knows name className := by
  refine stays_get.bind fun c w' _ hc => ?_
  split
  · next className hclass =>
    have hknown := hc.1.elements _ (mem_of_remembered hclass)
    rw [← hc.2.2] at hclass
    exact stays_pure fun _ hw => ⟨hw.elements ▸ hclass, hknown.mono hw⟩
  · exact coheres_fail

section
variable {element : ElementDeclaration → Build String}
  {group : String → Nat → MaxOccurs → Build Membership}

/-- An element that is declared in the schema gets a class that is promised for it. -/
def NamesElements (model : Model) (p : List Promise) (element : ElementDeclaration → Build String) :
    Prop :=
  ∀ w d, d.declared ⊆ model.declared →
    Stays model w p (element d) fun w' className => w'.Knows d.name className

/-- The slots of a group that is referred to name classes that are promised. -/
def NamesSlots (model : Model) (p : List Promise)
    (group : String → Nat → MaxOccurs → Build Membership) : Prop :=
  ∀ w name minimum m, Stays model w p (group name minimum m) fun w' ms => w'.KnowsAll ms.named

mutual

theorem buildGroup_stays (he : NamesElements model p element) (hg : NamesSlots model p group)
    (w : Ledger) (minimum : Nat) (m : MaxOccurs) :
    ∀ g : ModelGroup, g.declared ⊆ model.declared →
    Stays model w p (buildGroup element group minimum m g) fun w' ms => w'.KnowsAll ms.named
  | ⟨_, particles⟩, h => by
    rw [ModelGroup.declared] at h
    rw [buildGroup]
    refine (buildSlots_stays he hg w m particles h).bind fun ss w' _ hss =>
      stays_pure fun _ hw => ?_
    rw [Membership.named]
    exact hss.mono hw

theorem buildSlots_stays (he : NamesElements model p element) (hg : NamesSlots model p group)
    (w : Ledger) (outer : MaxOccurs) :
    ∀ ps : List Particle, particlesDeclared ps ⊆ model.declared →
    Stays model w p (buildSlots element group outer ps) fun w' ss => w'.KnowsAll (namedSlots ss)
  | [], _ => by
    rw [buildSlots]
    refine stays_pure fun _ _ => ?_
    rw [namedSlots]
    exact Ledger.knowsAll_nil
  | ⟨minimum, maximum, term⟩ :: ps, h => by
    rw [particlesDeclared] at h
    obtain ⟨hterm, hps⟩ := List.append_subset.mp h
    rw [buildSlots]
    split
    · exact buildSlots_stays he hg w outer ps hps
    · refine (buildSlot_stays he hg w minimum (maximum.mul outer) term hterm).bind
        fun s w' _ hs => ?_
      refine (buildSlots_stays he hg w' outer ps hps).bind fun ss w'' hw hss =>
        stays_pure fun _ hw' => ?_
      rw [namedSlots]
      exact ((hs.mono hw).append hss).mono hw'

theorem buildSlot_stays (he : NamesElements model p element) (hg : NamesSlots model p group)
    (w : Ledger) (minimum : Nat) (m : MaxOccurs) :
    ∀ t : Term, t.declared ⊆ model.declared →
    Stays model w p (buildSlot element group minimum m t) fun w' s => w'.KnowsAll s.named
  | .element d, h => by
    rw [Term.declared] at h
    rw [buildSlot]
    refine (he w d h).bind fun className w' _ hknown => stays_pure fun _ hw => ?_
    rw [MemberSlot.named]
    exact Ledger.knowsAll_singleton (hknown.mono hw)
  | .elementRef name, _ => by
    rw [buildSlot]
    refine (referredElement_stays name).bind fun className w' _ hknown => stays_pure fun _ hw => ?_
    rw [MemberSlot.named]
    exact Ledger.knowsAll_singleton (hknown.2.mono hw)
  | .group g, h => by
    rw [Term.declared] at h
    rw [buildSlot]
    refine (buildGroup_stays he hg w minimum m g h).bind fun ms w' _ hms =>
      stays_pure fun _ hw => ?_
    rw [MemberSlot.named]
    exact hms.mono hw
  | .groupRef name, _ => by
    rw [buildSlot]
    refine (hg w name minimum m).bind fun ms w' _ hms => stays_pure fun _ hw => ?_
    rw [MemberSlot.named]
    exact hms.mono hw
  | .wildcard, _ => by
    rw [buildSlot]
    refine stays_pure fun _ _ => ?_
    rw [MemberSlot.named]
    exact Ledger.knowsAll_nil

end

end

section
variable {element : Option String → String → ElementDeclaration → Build String}
  {group : Option String → String → String → Nat → MaxOccurs → Build Membership}

theorem declaredSlots_stays
    (he : ∀ declaredIn owner, NamesElements model p (element declaredIn owner))
    (hg : ∀ declaredIn owner, NamesSlots model p (group declaredIn owner)) (owner : String)
    {ps : List DeclaredParticle} (hps : ∀ q ∈ ps, q.particle.term.declared ⊆ model.declared) :
    Stays model w p (declaredSlots element group owner ps)
      fun w' ss => w'.KnowsAll (namedSlots ss) := by
  induction ps generalizing w with
  | nil =>
    refine stays_pure fun _ _ => ?_
    rw [namedSlots]
    exact Ledger.knowsAll_nil
  | cons q ps ih =>
    obtain ⟨hq, hps⟩ := List.forall_mem_cons.mp hps
    rw [← particlesDeclared_singleton] at hq
    rw [declaredSlots]
    refine (buildSlots_stays (he _ _) (hg _ _) w .one [q.particle] hq).bind fun ss w' _ hss => ?_
    refine (ih hps).bind fun ts w'' hw hts => stays_pure fun _ hw' => ?_
    rw [namedSlots_append]
    exact ((hss.mono hw).append hts).mono hw'

theorem buildMembership_stays
    (he : ∀ declaredIn owner, NamesElements model p (element declaredIn owner))
    (hg : ∀ declaredIn owner, NamesSlots model p (group declaredIn owner)) (owner : String)
    {ps : List DeclaredParticle} (hps : ∀ q ∈ ps, q.particle.term.declared ⊆ model.declared) :
    Stays model w p (buildMembership element group owner ps)
      fun w' r => ∀ ms ∈ r, w'.KnowsAll ms.named := by
  have hfilter : ∀ q ∈ ps.filter fun q => !q.particle.isProhibited,
      q.particle.term.declared ⊆ model.declared :=
    fun q hq => hps q (List.mem_filter.mp hq).1
  rw [buildMembership]
  split
  · exact stays_pure fun _ _ => by simp
  · next minimum maximum g declaredIn hgroup =>
    rw [hgroup] at hfilter
    have hdeclared := hfilter _ List.mem_cons_self
    rw [Term.declared] at hdeclared
    refine (buildGroup_stays (he _ _) (hg _ _) w minimum maximum g hdeclared).bind
      fun ms w' _ hms => stays_pure fun _ hw ms' hms' => ?_
    exact Option.some.inj hms' ▸ hms.mono hw
  · refine (declaredSlots_stays he hg owner hfilter).bind fun ss w' _ hss =>
      stays_pure fun _ hw ms hms => ?_
    obtain rfl := Option.some.inj hms
    rw [Membership.named]
    exact hss.mono hw

end

/-- A class refers to what its draft and its membership refer to. -/
theorem Ledger.Drafts.describes {d : Draft} (hd : w.Drafts model d) {ms : Option Membership}
    (hms : ∀ m ∈ ms, w.KnowsAll m.named) (name xmlName : String) (origin : Origin)
    (documentation : Option String) (registered : Bool) :
    w.Describes model ⟨name, origin, xmlName, documentation, d.content, d.fields, ms, d.markers,
      registered⟩ where
  values f hf := by
    rcases List.mem_append.mp hf with hf | hf
    · obtain ⟨t, ht, rfl⟩ := Option.map_eq_some_iff.mp (Option.mem_toList.mp hf)
      exact hd.content t ht
    · exact (hd.fields f hf).1
  slots := hms
  markers := hd.markers
  members f hf := by
    rcases List.mem_append.mp hf with hf | hf
    · obtain ⟨t, -, rfl⟩ := Option.map_eq_some_iff.mp (Option.mem_toList.mp hf)
      exact (by decide : IsName contentMember)
    · exact (hd.fields f hf).2
  markerNames := hd.markerNames

theorem knows_of_rememberedElement {c : Catalog} (hc : w.Covers model c)
    {declaredIn : Option String} {d : ElementDeclaration} {className : String}
    (h : rememberedElement c declaredIn d = some className) : w.Knows d.name className := by
  unfold rememberedElement at h
  split at h
  · exact hc.typedElements _ (mem_of_remembered h)
  · exact hc.inlineElements _ (mem_of_remembered h)
  · cases h

theorem rememberElement_stays (declaredIn : Option String) {d : ElementDeclaration}
    {className : String} (h : w.Knows d.name className) :
    Stays model w p (rememberElement declaredIn d className) fun _ _ => True := by
  unfold rememberElement
  split
  · refine stays_modify (fun _ => ⟨rfl, rfl, rfl⟩) fun c w' hw hc => ?_
    exact { hc with typedElements := List.forall_mem_cons.mpr ⟨h.mono hw, hc.typedElements⟩ }
  · refine stays_modify (fun _ => ⟨rfl, rfl, rfl⟩) fun c w' hw hc => ?_
    exact { hc with inlineElements := List.forall_mem_cons.mpr ⟨h.mono hw, hc.inlineElements⟩ }
  · exact stays_pure fun _ _ => trivial

theorem reserveElement_coheres (declaredIn : Option String) (owner : String)
    (d : ElementDeclaration) :
    Coheres model w p (reserveElement declaredIn owner d)
      (fun className => ⟨className, .classFor d.name⟩ :: p)
      fun w' className => w'.Knows d.name className :=
  stays_get.bind fun _ _ _ _ => reserve_coheres _ _ _

variable (model)

/-- The complex type of an element is found in the schema or lies inside of the element. -/
theorem complexTypeOf?_stays (className : String) {t : ElementType}
    (ht : t.declared ⊆ model.declared) : Stays model w p (complexTypeOf? model className t)
      fun _ r => ∀ s ∈ r, s.2.declared ⊆ model.declared := by
  unfold complexTypeOf?
  split
  · next name =>
    split
    · next t hfind =>
      refine (typeScope_stays model name).bind fun scope _ _ _ => stays_pure fun _ _ s hs => ?_
      obtain rfl := Option.some.inj hs
      exact (model.sublist_of_complexType (mem_of_find hfind)).subset
    · exact stays_pure fun _ _ => by simp
  · next t =>
    refine stays_pure fun _ _ s hs => ?_
    obtain rfl := Option.some.inj hs
    rwa [ElementType.declared] at ht
  · exact stays_pure fun _ _ => by simp

theorem simpleContent_resolves (className : String) (t : ElementType) :
    Resolves model (simpleContent model className t) := by
  unfold simpleContent
  split
  · exact resolveTypeName_resolves (resolveNamed_resolves model) _
  · exact resolveSimpleType_resolves _ (resolveNamed_resolves model) _
  · exact fun w p => stays_pure fun _ _ => trivial

/-- A class is built under a name that is promised for it. -/
theorem buildClass_coheres
    {members : String → List DeclaredParticle → Build (Option Membership)}
    (hmembers : ∀ w p owner ps, (∀ q ∈ ps, q.particle.term.declared ⊆ model.declared) →
      Stays model w p (members owner ps) fun w' r => ∀ ms ∈ r, w'.KnowsAll ms.named)
    (origin : Origin) (name : String) {d : ElementDeclaration}
    (hd : d.type.declared ⊆ model.declared) :
    Coheres model w (⟨name, .classFor d.name⟩ :: p) (buildClass model members origin name d)
      (fun _ => p) fun _ _ => True := by
  rw [buildClass]
  split
  · refine addClass_coheres rfl ?_
    have hstring : w.Drafts model { content := some (.primitive .string) } :=
      Ledger.drafts_empty.withContent (t := .primitive .string) trivial
    refine hstring.describes (fun m hm => ?_) _ _ _ _ _
    obtain rfl := Option.some.inj hm
    simp [anyMembership, Membership.named, namedSlots, MemberSlot.named, Ledger.KnowsAll]
  · refine (complexTypeOf?_stays model name hd).bind fun r w' _ hr => ?_
    split
    · next scope t =>
      refine (derive_stays model scope (hr _ rfl)).bind fun draft w' _ hdraft => ?_
      refine (hmembers w' _ name draft.particles hdraft.particles).bind fun ms w'' hw hms => ?_
      refine addClass_coheres rfl ?_
      exact (hdraft.mono hw).describes hms _ _ _ _ _
    · refine (simpleContent_resolves model name d.type w' _).bind fun t w'' _ ht => ?_
      refine addClass_coheres rfl ?_
      exact (Ledger.drafts_empty.withContent ht).describes (by simp) _ _ _ _ _

/-- However deep elements and references are nested, a local element gets a class that is promised
for it, and what is promised on the way is kept. -/
theorem within_stays (bound : Nat) :
    (∀ groups p declaredIn owner,
      NamesElements model p (localElementWithin model bound groups declaredIn owner)) ∧
    ∀ groups p declaredIn owner,
      NamesSlots model p (referredGroupWithin model bound groups declaredIn owner) := by
  induction bound with
  | zero =>
    constructor
    · intro groups p declaredIn owner w d _
      rw [localElementWithin]
      exact coheres_fail
    · intro groups p declaredIn owner w name minimum m
      rw [referredGroupWithin]
      exact coheres_fail
  | succ bound ih =>
    obtain ⟨helement, hgroup⟩ := ih
    constructor
    · intro groups p declaredIn owner w d hd
      rw [localElementWithin]
      refine stays_get.bind fun c w' _ hc => ?_
      split
      · next className hclass =>
        exact stays_pure fun _ hw => (knows_of_rememberedElement hc.1 hclass).mono hw
      · have htype : d.type.declared ⊆ model.declared :=
          List.Subset.trans d.sublist_type.subset hd
        refine (reserveElement_coheres declaredIn owner d).bind fun className w' _ hknown => ?_
        refine (rememberElement_stays declaredIn hknown).bind fun _ w'' hw _ => ?_
        refine (buildClass_coheres model (fun w p owner ps hps => ?_) _ _ htype).bind
          fun _ _ hw' _ => stays_pure fun _ hw'' => ?_
        · exact buildMembership_stays (helement groups p) (hgroup groups p) owner hps
        · exact ((hknown.mono hw).mono hw').mono hw''
    · intro groups p declaredIn owner w name minimum m
      rw [referredGroupWithin]
      split
      · exact coheres_fail
      · next g hg =>
        split
        · exact coheres_fail
        · exact buildGroup_stays (helement _ p _ _) (hgroup _ p _ _) w minimum m g.group
            (model.sublist_of_group (mem_of_find hg)).subset

theorem membershipOf_stays (w : Ledger) (p : List Promise) (owner : String)
    (ps : List DeclaredParticle) (hps : ∀ q ∈ ps, q.particle.term.declared ⊆ model.declared) :
    Stays model w p (membershipOf model owner ps)
      fun w' r => ∀ ms ∈ r, w'.KnowsAll ms.named :=
  buildMembership_stays ((within_stays model _).1 _ p) ((within_stays model _).2 _ p) owner hps

end

end XmlBinding.Binding
