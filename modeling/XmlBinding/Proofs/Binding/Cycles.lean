import Mathlib.Logic.Relation
import XmlBinding.Generation
import XmlBinding.Proofs.Binding.Termination

/-! # Definitions in terms of themselves

What is defined in terms of itself has no binding: wherever the construction gets to such a simple
type, attribute group, base type or model group, it ends in an error. Local elements of a named type
are no such definitions, since they are remembered before their classes are built.
-/
namespace XmlBinding.Schema
open Binding

mutual

/-- The type that a definition follows by name, if it follows one. -/
def SimpleType.next? : SimpleType → Option String
  | ⟨_, _, variety⟩ => variety.next?

def Variety.next? : Variety → Option String
  | .restriction r => r.next?
  | .list item => item.next?
  | .union [] => none
  | .union (first :: _) => first.next?

def SimpleTypeRef.next? : SimpleTypeRef → Option String
  | .named (.builtin _) => none
  | .named (.schema name) => some name
  | .inline t => t.next?

def Restriction.next? : Restriction → Option String
  | ⟨base, enumerations, _, _⟩ => if enumerations.isEmpty then base.next? else none

end

/-- The type of the schema that content is derived from. -/
def ComplexContent.base? (model : Model) : ComplexContent → Option String
  | .extension (.schema name) _ => some name
  | .simpleExtension (.schema name) => if isComplex model (.schema name) then some name else none
  | .simpleRestriction r =>
    match complexBase? model r with
    | some (.schema name) => some name
    | _ => none
  | _ => none

mutual

/-- The groups that a group refers to, but for those in particles that cannot occur and those inside
of elements. -/
def ModelGroup.referred : ModelGroup → List String
  | ⟨_, particles⟩ => particlesReferred particles

def particlesReferred : List Particle → List String
  | [] => []
  | ⟨_, maximum, term⟩ :: ps =>
    if maximum = .count 0 then particlesReferred ps else term.referred ++ particlesReferred ps

def Term.referred : Term → List String
  | .group g => g.referred
  | .groupRef name => [name]
  | .element _ | .elementRef _ | .wildcard => []

end

namespace Model
variable (model : Model)

/-! How one definition is in terms of another. -/

def SimpleTypeFollows (a b : String) : Prop :=
  ∃ t, model.simpleType a = some t ∧ t.next? = some b

def AttributeGroupUses (a b : String) : Prop :=
  ∃ g, model.attributeGroup a = some g ∧ .group b ∈ g.uses

def TypeExtends (a b : String) : Prop :=
  ∃ t, model.complexType a = some t ∧ t.content.base? model = some b

def GroupRefersTo (a b : String) : Prop :=
  ∃ g, model.group a = some g ∧ b ∈ g.group.referred

end Model

/-- A definition from which references lead into a cycle. -/
def Endless (r : String → String → Prop) (name : String) : Prop :=
  ∃ other, Relation.ReflTransGen r name other ∧ Relation.TransGen r other other

/-- The next definition leads into the same cycle. -/
theorem Endless.next {r : String → String → Prop} {name : String} (h : Endless r name) :
    ∃ next, r name next ∧ Endless r next := by
  obtain ⟨other, hlead, hcycle⟩ := h
  obtain ⟨next, hnext, hrest⟩ :=
    Relation.TransGen.head'_iff.mp (Relation.TransGen.trans_right hlead hcycle)
  exact ⟨next, hnext, other, hrest, hcycle⟩

end XmlBinding.Schema

namespace XmlBinding.Binding
open Schema

/-! ## Simple types -/

section
variable (model : Model)

/-- No definition that is remembered is endless. -/
def KnownEnd (c : Catalog) : Prop :=
  ∀ p ∈ c.simpleTypes, ¬ Endless model.SimpleTypeFollows p.1

theorem reserve_simpleTypes (types : List (String × FieldType)) (preferred : String)
    (alternative : Option String) : Ensures (·.simpleTypes = types)
      (reserve preferred alternative) fun _ c => c.simpleTypes = types := by
  refine ensures_get_bind fun c hc => Ensures.bind (Q := fun _ c => c.simpleTypes = types) ?_ ?_
  · exact ensures_set fun _ _ => hc
  · exact fun _ => ensures_pure fun _ => id

theorem addEnumeration_simpleTypes (types : List (String × FieldType)) (e : Enumeration) :
    Ensures (·.simpleTypes = types) (addEnumeration e) fun _ c => c.simpleTypes = types := by
  refine ensures_get_bind fun c hc => Ensures.bind (Q := fun _ c => c.simpleTypes = types) ?_ ?_
  · exact ensures_set fun _ _ => hc
  · exact fun _ => ensures_pure fun _ => id

theorem promote_simpleTypes (types : List (String × FieldType)) (place : Nat) :
    Ensures (·.simpleTypes = types) (promote place) fun _ c => c.simpleTypes = types := by
  refine ensures_get_bind fun c hc => ?_
  split
  · exact ensures_pure fun c' h => h ▸ hc
  · exact ensures_true.bind fun _ => ensures_set fun _ _ => hc

theorem enumerate_simpleTypes (types : List (String × FieldType)) (target : Target)
    (documentation : Option String) (facets : List Facet) : Ensures (·.simpleTypes = types)
      (enumerate target documentation facets) fun _ c => c.simpleTypes = types :=
  (reserve_simpleTypes types _ _).bind fun _ => addEnumeration_simpleTypes types _

theorem listOf_simpleTypes (types : List (String × FieldType)) (t : FieldType) :
    Ensures (·.simpleTypes = types) (listOf t) fun _ c => c.simpleTypes = types := by
  cases t with
  | primitive p => exact ensures_fail
  | enumeration place =>
    exact (promote_simpleTypes types place).bind fun _ => ensures_pure fun _ => id

variable {model}

/-- A step that notes down no type cannot note down an endless one. -/
theorem ensures_knownEnd {α : Type} {x : Build α}
    (h : ∀ types, Ensures (·.simpleTypes = types) x fun _ c => c.simpleTypes = types) :
    Ensures (KnownEnd model) x fun _ => KnownEnd model := by
  intro c a c' hc hx
  rw [KnownEnd, h c.simpleTypes c a c' rfl hx]
  exact hc

/-- A definition that was followed to its end is not endless. -/
theorem not_endless_of_next {name : String} {t : SimpleType}
    (ht : model.simpleType name = some t)
    (h : ∀ next ∈ t.next?, ¬ Endless model.SimpleTypeFollows next) :
    ¬ Endless model.SimpleTypeFollows name := by
  intro hend
  obtain ⟨next, ⟨t', ht', hnext⟩, hend⟩ := hend.next
  obtain rfl : t = t' := Option.some.inj (ht.symm.trans ht')
  exact h next hnext hend

section
variable {named : String → Build FieldType} (target : Target)

/-- Following a name rejects an endless definition. -/
abbrev RejectsEndless (model : Model) (named : String → Build FieldType) : Prop :=
  ∀ name, Ensures (KnownEnd model) (named name) fun _ c =>
    KnownEnd model c ∧ ¬ Endless model.SimpleTypeFollows name

mutual

theorem resolveSimpleType_knownEnd (hnamed : RejectsEndless model named) : ∀ t : SimpleType,
    Ensures (KnownEnd model) (resolveSimpleType named target t) fun _ c =>
      KnownEnd model c ∧ ∀ next ∈ t.next?, ¬ Endless model.SimpleTypeFollows next
  | ⟨_, documentation, variety⟩ => by
    rw [resolveSimpleType, SimpleType.next?]
    exact resolveVariety_knownEnd hnamed documentation variety

theorem resolveVariety_knownEnd (hnamed : RejectsEndless model named)
    (documentation : Option String) : ∀ v : Variety,
    Ensures (KnownEnd model) (resolveVariety named target documentation v) fun _ c =>
      KnownEnd model c ∧ ∀ next ∈ v.next?, ¬ Endless model.SimpleTypeFollows next
  | .restriction r => by
    rw [resolveVariety, Variety.next?]
    exact resolveRestriction_knownEnd hnamed documentation r
  | .list item => by
    rw [resolveVariety, Variety.next?]
    refine (resolveRef_knownEnd hnamed item).bind fun t c a c' ⟨hc, hnext⟩ hx => ⟨?_, hnext⟩
    exact ensures_knownEnd (listOf_simpleTypes · t) c a c' hc hx
  | .union [] => by
    rw [resolveVariety]
    exact ensures_fail
  | .union (first :: _) => by
    rw [resolveVariety, Variety.next?]
    exact resolveRef_knownEnd hnamed first

theorem resolveRef_knownEnd (hnamed : RejectsEndless model named) : ∀ r : SimpleTypeRef,
    Ensures (KnownEnd model) (resolveRef named target r) fun _ c =>
      KnownEnd model c ∧ ∀ next ∈ r.next?, ¬ Endless model.SimpleTypeFollows next
  | .named (.builtin name) => by
    rw [resolveRef, SimpleTypeRef.next?]
    exact ensures_pure fun c hc => ⟨hc, nofun⟩
  | .named (.schema name) => by
    rw [resolveRef, SimpleTypeRef.next?]
    exact (hnamed name).weaken fun _ _ h => ⟨h.1, fun _ hn => Option.some.inj hn ▸ h.2⟩
  | .inline t => by
    rw [resolveRef, SimpleTypeRef.next?]
    exact resolveSimpleType_knownEnd hnamed t

theorem resolveRestriction_knownEnd (hnamed : RejectsEndless model named)
    (documentation : Option String) : ∀ r : Restriction,
    Ensures (KnownEnd model) (resolveRestriction named target documentation r) fun _ c =>
      KnownEnd model c ∧ ∀ next ∈ r.next?, ¬ Endless model.SimpleTypeFollows next
  | ⟨base, enumerations, patterns, _⟩ => by
    rw [resolveRestriction, Restriction.next?]
    refine (ensures_lift (Q := fun _ => KnownEnd model) fun _ _ _ hc => hc).bind fun _ => ?_
    split
    · exact resolveRef_knownEnd hnamed base
    · exact (ensures_knownEnd (enumerate_simpleTypes · target documentation enumerations)).weaken
        fun _ _ hc => ⟨hc, nofun⟩

end

end

theorem resolveNamedWithin_knownEnd (bound : Nat) (active : List String) (name : String) :
    Ensures (KnownEnd model) (resolveNamedWithin model bound active name) fun _ c =>
      KnownEnd model c ∧ ¬ Endless model.SimpleTypeFollows name := by
  induction bound generalizing active name with
  | zero => exact ensures_fail
  | succ bound ih =>
    rw [resolveNamedWithin]
    refine ensures_get_bind fun c hc => ?_
    split
    · next t ht =>
      exact ensures_pure fun c' hc' => hc' ▸ ⟨hc, hc _ (mem_of_remembered ht)⟩
    · refine Ensures.bind (Q := fun t c => model.simpleType name = some t ∧ KnownEnd model c)
        (ensures_lift fun t c' ht hc' => ⟨simpleType_of_defined model ht, ?_⟩) fun t => ?_
      · obtain rfl : c' = c := hc'
        exact hc
      split
      · exact ensures_fail
      · intro c a c' h hx
        refine Ensures.bind (S := fun _ c => KnownEnd model c ∧
          ¬ Endless model.SimpleTypeFollows name)
          (resolveSimpleType_knownEnd (.shared name) (ih (name :: active)) t)
          (fun r => ?_) c a c' h.2 hx
        refine Ensures.bind (ensures_modify fun c hc => ?_) fun _ => ensures_pure fun _ => id
        have hend := not_endless_of_next h.1 hc.2
        exact ⟨List.forall_mem_cons.mpr ⟨hend, hc.1⟩, hend⟩

/-- Binding the simple types first rejects all endless ones. -/
theorem resolveAll_knownEnd (types : List (String × SimpleType)) :
    Ensures (KnownEnd model) (types.forM fun p => discard (resolveNamed model p.1)) fun _ c =>
      KnownEnd model c ∧ ∀ p ∈ types, ¬ Endless model.SimpleTypeFollows p.1 := by
  induction types with
  | nil => exact ensures_pure fun c hc => ⟨hc, by simp⟩
  | cons p types ih =>
    refine Ensures.bind (Q := fun _ c => KnownEnd model c ∧
      ¬ Endless model.SimpleTypeFollows p.1) ?_ fun _ c a c' ⟨hc, hp⟩ hx => ?_
    · exact Ensures.bind (resolveNamedWithin_knownEnd _ _ p.1) fun _ => ensures_pure fun _ => id
    · obtain ⟨hc', htypes⟩ := ih c a c' hc hx
      exact ⟨hc', List.forall_mem_cons.mpr ⟨hp, htypes⟩⟩

end

/-! ## Attribute groups, base types and model groups -/

/-- A step that ends in an error from every catalog. -/
def Fails {α : Type} (x : Build α) : Prop :=
  ∀ c, ∃ e, x.run c = .error e

section
variable {α β : Type} {x : Build α} {f : α → Build β}

theorem fails_fail {e : BindingError} : Fails (fail e : Build α) :=
  fun _ => ⟨e, rfl⟩

theorem Fails.bind (h : Fails x) : Fails (x >>= f) := by
  intro c
  obtain ⟨e, he⟩ := h c
  exact ⟨e, by rw [StateT.run_bind, he]; rfl⟩

theorem Fails.of_bind (h : ∀ a, Fails (f a)) : Fails (x >>= f) := by
  intro c
  rw [StateT.run_bind]
  cases x.run c with
  | error e => exact ⟨e, rfl⟩
  | ok r => exact h r.1 r.2

end

section
variable {model : Model}

theorem addUses_fails {group : String → List Field → Build (List Field)} {scope : Scope}
    {name : String} (hgroup : ∀ fields, Fails (group name fields)) {uses : List AttributeUse}
    (hmem : .group name ∈ uses) (fields : List Field) :
    Fails (addUses model group scope uses fields) := by
  induction uses generalizing fields with
  | nil => cases hmem
  | cons u uses ih =>
    rcases List.mem_cons.mp hmem with rfl | htail
    · exact (hgroup fields).bind
    cases u with
    | declaration d required => exact .of_bind fun t => ih htail _
    | reference name required =>
      rw [addUses]
      split
      · exact fails_fail
      · exact .of_bind fun t => ih htail _
    | group name => exact .of_bind fun fields => ih htail fields

theorem addGroupWithin_fails {name : String} (h : Endless model.AttributeGroupUses name)
    (scope : Scope) (bound : Nat) (active : List String) (fields : List Field) :
    Fails (addGroupWithin model scope bound active name fields) := by
  induction bound generalizing active name fields with
  | zero => exact fails_fail
  | succ bound ih =>
    obtain ⟨next, ⟨g, hg, hnext⟩, hend⟩ := h.next
    rw [addGroupWithin]
    simp only [hg]
    split
    · exact fails_fail
    · exact addUses_fails (fun fields => ih hend _ fields) hnext fields

theorem addContent_fails {base : TypeName → Draft → Build Draft} {scope : Scope}
    {declaredIn : Option String} {name : String} (hbase : ∀ d, Fails (base (.schema name) d))
    {content : ComplexContent} (h : content.base? model = some name) (d : Draft) :
    Fails (addContent model base scope declaredIn d content) := by
  unfold ComplexContent.base? at h
  split at h
  · cases h
    exact (hbase d).bind
  · split at h
    · next hcomplex =>
      cases h
      rw [addContent, if_pos hcomplex]
      exact hbase d
    · cases h
  · split at h
    · next hcomplex =>
      cases h
      rw [addContent]
      simp only [hcomplex]
      exact (hbase d).bind
    · cases h
  · cases h

theorem addType_fails {base : TypeName → Draft → Build Draft} {scope : Scope} {name : String}
    (hbase : ∀ d, Fails (base (.schema name) d)) {t : ComplexType}
    (h : t.content.base? model = some name) (d : Draft) :
    Fails (addType model base scope t d) :=
  .of_bind fun _ => (addContent_fails hbase h _).bind

theorem addBaseWithin_fails {name : String} (h : Endless model.TypeExtends name) (bound : Nat)
    (active : List String) (d : Draft) :
    Fails (addBaseWithin model bound active (.schema name) d) := by
  induction bound generalizing active name d with
  | zero => exact fails_fail
  | succ bound ih =>
    obtain ⟨next, ⟨t, ht, hnext⟩, hend⟩ := h.next
    rw [addBaseWithin]
    simp only [ht]
    refine .of_bind fun scope => ?_
    split
    · exact fails_fail
    · exact addType_fails (fun d => ih hend _ d) hnext d

section
variable {element : ElementDeclaration → Build String}
  {group : String → Nat → MaxOccurs → Build Membership} {name : String}

mutual

theorem buildGroup_fails (hgroup : ∀ minimum m, Fails (group name minimum m)) (minimum : Nat)
    (m : MaxOccurs) :
    ∀ g : ModelGroup, name ∈ g.referred → Fails (buildGroup element group minimum m g)
  | ⟨_, particles⟩, h => by
    rw [ModelGroup.referred] at h
    rw [buildGroup]
    exact (buildSlots_fails hgroup m particles h).bind

theorem buildSlots_fails (hgroup : ∀ minimum m, Fails (group name minimum m))
    (outer : MaxOccurs) :
    ∀ ps : List Particle, name ∈ particlesReferred ps → Fails (buildSlots element group outer ps)
  | [], h => by
    rw [particlesReferred] at h
    cases h
  | ⟨minimum, maximum, term⟩ :: ps, h => by
    rw [particlesReferred] at h
    rw [buildSlots]
    split at h
    · next hzero =>
      rw [if_pos hzero]
      exact buildSlots_fails hgroup outer ps h
    · next hzero =>
      rw [if_neg hzero]
      rcases List.mem_append.mp h with h | h
      · exact (buildSlot_fails hgroup minimum (maximum.mul outer) term h).bind
      · exact .of_bind fun _ => (buildSlots_fails hgroup outer ps h).bind

theorem buildSlot_fails (hgroup : ∀ minimum m, Fails (group name minimum m)) (minimum : Nat)
    (m : MaxOccurs) :
    ∀ t : Term, name ∈ t.referred → Fails (buildSlot element group minimum m t)
  | .group g, h => by
    rw [Term.referred] at h
    rw [buildSlot]
    exact (buildGroup_fails hgroup minimum m g h).bind
  | .groupRef other, h => by
    rw [Term.referred, List.mem_singleton] at h
    rw [buildSlot, ← h]
    exact (hgroup minimum m).bind
  | .element _, h | .elementRef _, h | .wildcard, h => by
    rw [Term.referred] at h
    cases h

end

end

theorem referredGroupWithin_fails {name : String} (h : Endless model.GroupRefersTo name)
    (bound : Nat) (groups : List String) (declaredIn : Option String) (owner : String)
    (minimum : Nat) (m : MaxOccurs) :
    Fails (referredGroupWithin model bound groups declaredIn owner name minimum m) := by
  induction bound generalizing groups name minimum m with
  | zero =>
    rw [referredGroupWithin]
    exact fails_fail
  | succ bound ih =>
    obtain ⟨next, ⟨g, hg, hnext⟩, hend⟩ := h.next
    rw [referredGroupWithin]
    simp only [hg]
    split
    · exact fails_fail
    · exact buildGroup_fails (fun minimum m => ih hend _ minimum m) minimum m g.group hnext

end

/-! ## What a run comes to -/

/-- In a run of a step from a catalog, `y` is run from `d`: as the whole, as its beginning or after
its beginning has succeeded. -/
inductive ComesTo {β : Type} (y : Build β) (d : Catalog) : {α : Type} → Build α → Catalog → Prop
  | here : ComesTo y d y d
  | first {α γ : Type} {x : Build α} {f : α → Build γ} {c : Catalog} :
      ComesTo y d x c → ComesTo y d (x >>= f) c
  | after {α γ : Type} {x : Build α} {f : α → Build γ} {c c' : Catalog} {a : α} :
      x.run c = .ok (a, c') → ComesTo y d (f a) c' → ComesTo y d (x >>= f) c

/-- No step catches an error. -/
theorem ComesTo.run_eq_error {α β : Type} {y : Build β} {d : Catalog} {x : Build α} {c : Catalog}
    (h : ComesTo y d x c) {e : BindingError} (he : y.run d = .error e) : x.run c = .error e := by
  induction h with
  | here => exact he
  | first _ ih => rw [StateT.run_bind, ih]; rfl
  | after hx _ ih => rw [StateT.run_bind, hx]; exact ih

theorem Module.ofModel_eq_error {model : Model} {e : BindingError}
    (h : (buildAll model).run {} = .error e) : ofModel model = .error e := by
  rw [ofModel, h]
  rfl

/-- The step stops the construction with an error about the schema. -/
def Stops (model : Model) {α : Type} (x : Build α) (c : Catalog) : Prop :=
  ∃ e, x.run c = .error e ∧ Module.ofModel model = .error e ∧ e.Proper

/-- An error that the construction ends in is about the schema. -/
theorem proper_of_ofModel {model : Model} (hm : model.Keyed) {e : BindingError}
    (h : Module.ofModel model = .error e) : e.Proper := by
  rcases Module.ofModel_ends hm with ⟨m, hok⟩ | ⟨e', herror, hproper⟩
  · rw [h] at hok
    cases hok
  · rw [h] at herror
    exact Except.error.inj herror ▸ hproper

theorem Fails.stops {model : Model} (hm : model.Keyed) {α : Type} {x : Build α} (hx : Fails x)
    {c : Catalog} (h : ComesTo x c (buildAll model) {}) : Stops model x c := by
  obtain ⟨e, he⟩ := hx c
  have herror := Module.ofModel_eq_error (h.run_eq_error he)
  exact ⟨e, he, herror, proper_of_ofModel hm herror⟩

/-- An endless simple type is found before anything else is built. -/
theorem Module.ofModel_ne_ok_of_endless {model : Model} {name : String}
    (h : Endless model.SimpleTypeFollows name) (m : Module) : ofModel model ≠ .ok m := by
  intro hok
  obtain ⟨next, ⟨t, ht, -⟩, -⟩ := h.next
  have hbuild : Ensures (KnownEnd model) (buildAll model) fun _ _ => False := by
    refine Ensures.bind (resolveAll_knownEnd model.simpleTypes) fun _ c a c' ⟨_, hend⟩ _ => ?_
    exact hend _ (mem_of_find ht) h
  obtain ⟨u, catalog, hr, -⟩ := exists_catalog_of_ofModel hok
  exact hbuild {} u catalog (by simp [KnownEnd]) hr

/-- How the construction of a module comes to an end. -/
structure ConstructionEnds (model : Model) : Prop where
  /-- It ends with a module or with an error about the schema; no bound is ever reached. -/
  ends : (∃ m, Module.ofModel model = .ok m) ∨ ∃ e, Module.ofModel model = .error e ∧ e.Proper
  /-- All simple types are followed, so that it ends in an error if there is an endless one. -/
  simpleTypes : ∀ name, Endless model.SimpleTypeFollows name →
    ∃ e, Module.ofModel model = .error e ∧ e.Proper
  /-- Wherever it gets to an endless attribute group, that stops it, -/
  attributeGroups : ∀ scope bound active name fields c, Endless model.AttributeGroupUses name →
    ComesTo (addGroupWithin model scope bound active name fields) c (buildAll model) {} →
    Stops model (addGroupWithin model scope bound active name fields) c
  /-- and so does an endless base type, -/
  baseTypes : ∀ bound active name draft c, Endless model.TypeExtends name →
    ComesTo (addBaseWithin model bound active (.schema name) draft) c (buildAll model) {} →
    Stops model (addBaseWithin model bound active (.schema name) draft) c
  /-- and an endless group. -/
  groups : ∀ bound active declaredIn owner name minimum maximum c,
    Endless model.GroupRefersTo name →
    ComesTo (referredGroupWithin model bound active declaredIn owner name minimum maximum) c
      (buildAll model) {} →
    Stops model (referredGroupWithin model bound active declaredIn owner name minimum maximum) c
  /-- A local element of a named type is remembered from the first time it is met, -/
  remembers : ∀ bound groups declaredIn owner d c className c',
    (∀ n ∈ declaredIn, n ∈ model.allTypeNames) → d.declared.Sublist model.declared →
    (∃ t, d.type = .named t) →
    (localElementWithin model bound groups declaredIn owner d).run c = .ok (className, c') →
    c.ExtendedBy c' ∧ rememberedElement c' declaredIn d = some className
  /-- and one that is remembered is not built again, so that recursion through it ends. -/
  recursion : ∀ bound groups declaredIn owner d c className c',
    rememberedElement c declaredIn d = some className → c.ExtendedBy c' →
    (localElementWithin model (bound + 1) groups declaredIn owner d).run c' = .ok (className, c')

theorem localElementWithin_remembers {model : Model} (hm : model.Keyed) {bound : Nat}
    {groups : List String} {declaredIn : Option String} {owner : String} {d : ElementDeclaration}
    {c c' : Catalog} {className : String} (howner : ∀ n ∈ declaredIn, n ∈ model.allTypeNames)
    (hd : d.declared.Sublist model.declared) (htype : ∃ t, d.type = .named t)
    (h : (localElementWithin model bound groups declaredIn owner d).run c = .ok (className, c')) :
    c.ExtendedBy c' ∧ rememberedElement c' declaredIn d = some className := by
  -- Errors of any kind are allowed for here, so that there need not be room.
  have hsettles := (within_settles (E := fun _ => True) (fun _ _ => trivial) hm bound).1
    c.ExtendedBy (c.vacant model) groups declaredIn owner d (stable_extendedBy c) howner hd
    (.inl fun _ => trivial)
  obtain ⟨⟨hext, -⟩, hknown⟩ := hsettles.ensures c className c' ⟨.refl c, Nat.le_refl _⟩ h
  exact ⟨hext, hknown (.inl htype)⟩

theorem localElementWithin_of_remembered {model : Model} {bound : Nat} {groups : List String}
    {declaredIn : Option String} {owner : String} {d : ElementDeclaration} {c : Catalog}
    {className : String} (h : rememberedElement c declaredIn d = some className) :
    (localElementWithin model (bound + 1) groups declaredIn owner d).run c =
      .ok (className, c) := by
  have hends : Ends (fun _ => False) (· = c)
      (localElementWithin model (bound + 1) groups declaredIn owner d)
      fun a c' => a = className ∧ c' = c := by
    rw [localElementWithin]
    refine ends_get_bind fun c' hc' => ?_
    rw [hc', h]
    exact ends_pure fun c' hc' => ⟨rfl, hc'⟩
  rcases hends c rfl with ⟨e, -, hfalse⟩ | ⟨a, c', hrun, rfl, rfl⟩
  · exact hfalse.elim
  · exact hrun

/-- A type with two attribute groups that use each other. -/
def ringSchema : Model where
  complexTypes := [("Item", ⟨some "Item", none, false, false, .empty, [.group "first"]⟩)]
  attributeGroups :=
    [("first", ⟨"first", [.group "second"]⟩), ("second", ⟨"second", [.group "first"]⟩)]

theorem keyed_ringSchema : ringSchema.Keyed :=
  ⟨by decide, by decide, by decide, by simp [ringSchema], by simp [ringSchema]⟩

theorem endless_ringSchema : Endless ringSchema.AttributeGroupUses "first" := by
  have hfirst : ringSchema.AttributeGroupUses "first" "second" := ⟨_, rfl, by simp⟩
  have hsecond : ringSchema.AttributeGroupUses "second" "first" := ⟨_, rfl, by simp⟩
  exact ⟨"first", .refl, .head hfirst (.single hsecond)⟩

/-- The class of the type needs the fields of the first group. -/
theorem comesTo_ringSchema : ∃ scope bound fields c,
    ComesTo (addGroupWithin ringSchema scope bound [] "first" fields) c
      (buildAll ringSchema) {} := by
  exact ⟨_, _, _, _, .after rfl (.after rfl (.after rfl (.first (.first
    (.after rfl (.first (.after rfl (.after rfl (.first (.first .here))))))))))⟩

end XmlBinding.Binding

namespace XmlBinding
open Binding

/-- Whatever text a schema is read from, it is bound or there is an error about it. -/
theorem proper_of_bindSchema {text : String} {allowDoctype : Bool} {e : BindingError}
    (h : bindSchema text allowDoctype = .error (.binding e)) : e.Proper := by
  obtain ⟨model, hread, hbound⟩ := bindSchema_eq_error.mp h
  exact proper_of_ofModel (Schema.keyed_of_readSchema hread) hbound

end XmlBinding
