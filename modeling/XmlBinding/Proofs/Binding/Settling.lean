import Mathlib.Data.List.Perm.Subperm
import XmlBinding.Proofs.Binding.Derivations

/-! # The construction comes to an end

The definitions that follow references carry a bound. No step reaches it: what is being followed by
name differs from step to step and is found in a table, so there is less left of the table every
time, and a local element is either remembered before its class is built or lies inside the last
one.
-/
namespace XmlBinding.Binding
open Schema

/-- An error about the schema rather than about a bound. -/
def BindingError.Proper (e : BindingError) : Prop :=
  ∀ kind name, e ≠ .unsupported (.nesting kind name)

/-- From a catalog with `P` the step ends in a result and a catalog with `Q`, or in an error with
`E`. -/
def Ends {α : Type} (E : BindingError → Prop) (P : Catalog → Prop) (x : Build α)
    (Q : α → Catalog → Prop) : Prop :=
  ∀ c, P c → (∃ e, x.run c = .error e ∧ E e) ∨ ∃ a c', x.run c = .ok (a, c') ∧ Q a c'

/-- A step that ends, with a result of which `R` holds, and keeps `P` of the catalog. -/
def Settles {α : Type} (E : BindingError → Prop) (P : Catalog → Prop) (x : Build α)
    (R : α → Prop) : Prop :=
  Ends E P x fun a c => P c ∧ R a

/-- Nothing is asked of the result. -/
abbrev SettlesAll {α : Type} (E : BindingError → Prop) (P : Catalog → Prop) (x : Build α) : Prop :=
  Settles E P x fun _ => True

section
variable {α β : Type} {E : BindingError → Prop} {P : Catalog → Prop} {x : Build α}
  {Q : α → Catalog → Prop} {R S : α → Prop}

theorem Ends.bind {f : α → Build β} {S : β → Catalog → Prop} (hx : Ends E P x Q)
    (hf : ∀ a, Ends E (Q a) (f a) S) : Ends E P (x >>= f) S := by
  intro c hc
  rw [StateT.run_bind]
  rcases hx c hc with ⟨e, he, hproper⟩ | ⟨a, c', ha, hq⟩
  · exact .inl ⟨e, by rw [he]; rfl, hproper⟩
  · rw [ha]
    exact hf a c' hq

theorem Ends.consequence {P' : Catalog → Prop} {Q' : α → Catalog → Prop} (h : Ends E P x Q)
    (hp : ∀ c, P' c → P c) (hq : ∀ a c, Q a c → Q' a c) : Ends E P' x Q' := by
  intro c hc
  rcases h c (hp c hc) with h | ⟨a, c', ha, ha'⟩
  · exact .inl h
  · exact .inr ⟨a, c', ha, hq a c' ha'⟩

theorem ends_pure {a : α} (h : ∀ c, P c → Q a c) : Ends E P (pure a : Build α) Q :=
  fun c hc => .inr ⟨a, c, rfl, h c hc⟩

theorem ends_fail {e : BindingError} (h : E e) : Ends E P (fail e : Build α) Q :=
  fun _ _ => .inl ⟨e, rfl, h⟩

theorem ends_lift {r : Except BindingError α} (h : ∀ e, r = .error e → E e)
    (ha : ∀ a c, r = .ok a → P c → Q a c) : Ends E P (liftM r : Build α) Q := by
  intro c hc
  cases r with
  | error e => exact .inl ⟨e, rfl, h e rfl⟩
  | ok a => exact .inr ⟨a, c, rfl, ha a c rfl hc⟩

theorem ends_get {Q : Catalog → Catalog → Prop} (h : ∀ c, P c → Q c c) :
    Ends E P (get : Build Catalog) Q :=
  fun c hc => .inr ⟨c, c, rfl, h c hc⟩

theorem ends_get_bind {k : Catalog → Build α} (h : ∀ c, P c → Ends E (· = c) (k c) Q) :
    Ends E P (get >>= k) Q :=
  fun c hc => h c hc c rfl

theorem ends_set {d : Catalog} {Q : PUnit → Catalog → Prop} (h : ∀ c, P c → Q ⟨⟩ d) :
    Ends E P (set d : Build PUnit) Q :=
  fun c hc => .inr ⟨⟨⟩, d, rfl, h c hc⟩

theorem ends_modify {f : Catalog → Catalog} {Q : PUnit → Catalog → Prop}
    (h : ∀ c, P c → Q ⟨⟩ (f c)) : Ends E P (modify f : Build PUnit) Q :=
  fun c hc => .inr ⟨⟨⟩, f c, rfl, h c hc⟩

theorem Settles.bind {f : α → Build β} {T : β → Prop} (hx : Settles E P x R)
    (hf : ∀ a, R a → Settles E P (f a) T) : Settles E P (x >>= f) T :=
  Ends.bind hx fun a c ⟨hc, ha⟩ => hf a ha c hc

theorem settles_pure {a : α} (h : R a) : Settles E P (pure a : Build α) R :=
  ends_pure fun _ hc => ⟨hc, h⟩

theorem settles_get : Settles E P (get : Build Catalog) P :=
  ends_get fun _ hc => ⟨hc, hc⟩

theorem settles_set {d : Catalog} (h : P d) : SettlesAll E P (set d : Build PUnit) :=
  ends_set fun _ _ => ⟨h, trivial⟩

/-- Where any error is allowed for, only success matters. -/
theorem settles_of_ensures (h : Ensures P x fun a c => P c ∧ R a) :
    Settles (fun _ => True) P x R := by
  intro c hc
  cases hx : x.run c with
  | error e => exact .inl ⟨e, rfl, trivial⟩
  | ok r => exact .inr ⟨r.1, r.2, rfl, h c r.1 r.2 hc hx⟩

theorem Ends.ensures (h : Ends E P x Q) : Ensures P x Q := by
  intro c a c' hc hx
  rcases h c hc with ⟨e, he, -⟩ | ⟨b, d, hb, hq⟩
  · rw [hx] at he
    cases he
  · rw [hx] at hb
    cases hb
    exact hq

theorem Settles.ensures_bind {f : α → Build β} {T : β → Catalog → Prop} (hx : Settles E P x R)
    (hf : ∀ a, R a → Ensures P (f a) T) : Ensures P (x >>= f) T :=
  hx.ensures.bind fun a c b c' ⟨hc, ha⟩ hb => hf a ha c b c' hc hb

/-- What is known of a result, whatever the catalog is like, is known besides. -/
theorem Settles.and_result (h : Settles E P x R) (h' : Ensures (fun _ => True) x fun a _ => S a) :
    Settles E P x fun a => R a ∧ S a := by
  intro c hc
  rcases h c hc with herror | ⟨a, c', hx, hc', ha⟩
  · exact .inl herror
  · exact .inr ⟨a, c', hx, hc', ha, h' c a c' trivial hx⟩

end

/-- An error about the schema other than that a group is defined in terms of itself. -/
structure BindingError.Plain (e : BindingError) : Prop where
  proper : e.Proper
  noGroup : ∀ name, e ≠ .circular .group name

theorem plain_unknown (kind : Referent) (name : String) :
    (BindingError.unknown kind name).Plain :=
  ⟨nofun, nofun⟩

theorem plain_circular {kind : Referent} (h : kind ≠ .group) (name : String) :
    (BindingError.circular kind name).Plain :=
  ⟨nofun, fun _ heq => h (BindingError.circular.inj heq).1⟩

/-- Plain errors are allowed for, and `P` says nothing about a catalog but which local elements it
remembers and which classes it has. -/
structure Frame (E : BindingError → Prop) (P : Catalog → Prop) : Prop where
  plain : ∀ e : BindingError, e.Plain → E e
  elements : ∀ c c' : Catalog, c'.typedElements = c.typedElements →
    c'.inlineElements = c.inlineElements → c'.classes = c.classes → P c → P c'

section
variable {E : BindingError → Prop} {P : Catalog → Prop}

theorem Frame.fail {α : Type} {R : α → Prop} (hP : Frame E P) {e : BindingError} (h : e.Plain) :
    Settles E P (fail e : Build α) R :=
  ends_fail (hP.plain e h)

theorem Frame.lift {α : Type} (hP : Frame E P) {r : Except BindingError α}
    (h : ∀ e, r = .error e → e.Plain) : SettlesAll E P (liftM r : Build α) :=
  ends_lift (fun e he => hP.plain e (h e he)) fun _ _ _ hc => ⟨hc, trivial⟩

theorem Frame.modify (hP : Frame E P) {f : Catalog → Catalog}
    (ht : ∀ c, (f c).typedElements = c.typedElements)
    (hi : ∀ c, (f c).inlineElements = c.inlineElements)
    (hk : ∀ c, (f c).classes = c.classes) : SettlesAll E P (modify f : Build PUnit) :=
  ends_modify fun c hc => ⟨hP.elements c _ (ht c) (hi c) (hk c) hc, trivial⟩

theorem reserve_settles (hP : Frame E P) (preferred : String) (alternative : Option String) :
    SettlesAll E P (reserve preferred alternative) := by
  refine settles_get.bind fun c hc => ?_
  refine (settles_set ?_).bind fun _ _ => settles_pure trivial
  exact hP.elements c _ rfl rfl rfl hc

theorem addEnumeration_settles (hP : Frame E P) (e : Enumeration) :
    SettlesAll E P (addEnumeration e) := by
  refine settles_get.bind fun c hc => ?_
  refine (settles_set ?_).bind fun _ _ => settles_pure trivial
  exact hP.elements c _ rfl rfl rfl hc

theorem plain_toFlags {e : Enumeration} {error : BindingError} (h : e.toFlags = .error error) :
    error.Plain := by
  unfold Enumeration.toFlags at h
  split at h
  · cases h
  · split at h
    · cases h
      exact ⟨nofun, nofun⟩
    · cases h

theorem promote_settles (hP : Frame E P) (place : Nat) : SettlesAll E P (promote place) := by
  refine settles_get.bind fun c hc => ?_
  split
  · exact settles_pure trivial
  · next e he =>
    refine (hP.lift fun _ => plain_toFlags).bind fun f _ => ?_
    exact settles_set (hP.elements c _ rfl rfl rfl hc)

/-! ## Simple types -/

theorem enumerate_settles (hP : Frame E P) (target : Target) (documentation : Option String)
    (facets : List Facet) : SettlesAll E P (enumerate target documentation facets) :=
  (reserve_settles hP _ _).bind fun _ _ => addEnumeration_settles hP _

theorem listOf_settles (hP : Frame E P) (t : FieldType) : SettlesAll E P (listOf t) := by
  cases t with
  | primitive p => exact hP.fail ⟨nofun, nofun⟩
  | enumeration place => exact (promote_settles hP place).bind fun _ _ => settles_pure trivial

theorem plain_checkFacets {enumerations : List Facet} {patterns : List String} {e : BindingError}
    (h : checkFacets enumerations patterns = .error e) : e.Plain := by
  unfold checkFacets at h
  split at h
  · cases h
    exact ⟨nofun, nofun⟩
  · split at h
    · cases h
      exact ⟨nofun, nofun⟩
    · cases h

section
variable {named : String → Build FieldType} (target : Target)

theorem resolveTypeName_settles (hnamed : ∀ name, SettlesAll E P (named name)) (name : TypeName) :
    SettlesAll E P (resolveTypeName named name) := by
  cases name with
  | builtin name => exact settles_pure trivial
  | schema name => exact hnamed name

mutual

theorem resolveSimpleType_settles (hP : Frame E P) (hnamed : ∀ name, SettlesAll E P (named name)) :
    ∀ t : SimpleType, SettlesAll E P (resolveSimpleType named target t)
  | ⟨_, documentation, variety⟩ => by
    rw [resolveSimpleType]
    exact resolveVariety_settles hP hnamed documentation variety

theorem resolveVariety_settles (hP : Frame E P) (hnamed : ∀ name, SettlesAll E P (named name))
    (documentation : Option String) : ∀ v : Variety,
    SettlesAll E P (resolveVariety named target documentation v)
  | .restriction r => by
    rw [resolveVariety]
    exact resolveRestriction_settles hP hnamed documentation r
  | .list item => by
    rw [resolveVariety]
    exact (resolveRef_settles hP hnamed item).bind fun t _ => listOf_settles hP t
  | .union [] => by
    rw [resolveVariety]
    exact hP.fail ⟨nofun, nofun⟩
  | .union (first :: _) => by
    rw [resolveVariety]
    exact resolveRef_settles hP hnamed first

theorem resolveRef_settles (hP : Frame E P) (hnamed : ∀ name, SettlesAll E P (named name)) :
    ∀ r : SimpleTypeRef, SettlesAll E P (resolveRef named target r)
  | .named name => by
    rw [resolveRef]
    exact resolveTypeName_settles hnamed name
  | .inline t => by
    rw [resolveRef]
    exact resolveSimpleType_settles hP hnamed t

theorem resolveRestriction_settles (hP : Frame E P) (hnamed : ∀ name, SettlesAll E P (named name))
    (documentation : Option String) : ∀ r : Restriction,
    SettlesAll E P (resolveRestriction named target documentation r)
  | ⟨base, enumerations, patterns, _⟩ => by
    rw [resolveRestriction]
    refine (hP.lift fun _ => plain_checkFacets).bind fun _ _ => ?_
    split
    · exact resolveRef_settles hP hnamed base
    · exact enumerate_settles hP target documentation enumerations

end

end

/-- What is followed by name: different names out of a table. -/
structure Followed {α : Type} (table : List (String × α)) (active : List String) : Prop where
  nodup : active.Nodup
  found : ∀ name ∈ active, (find table name).isSome

theorem followed_nil {α : Type} (table : List (String × α)) : Followed table [] :=
  ⟨List.nodup_nil, by simp⟩

theorem Followed.cons {α : Type} {table : List (String × α)} {active : List String}
    (h : Followed table active) {name : String} (hfound : (find table name).isSome)
    (hnew : ¬ active.contains name = true) : Followed table (name :: active) :=
  ⟨List.nodup_cons.mpr ⟨by simpa using hnew, h.nodup⟩, List.forall_mem_cons.mpr ⟨hfound, h.found⟩⟩

/-- No more names can be followed at once than there are entries. -/
theorem Followed.length_le {α : Type} {table : List (String × α)} {active : List String}
    (h : Followed table active) : active.length ≤ table.length := by
  have hkeys : active ⊆ table.map (·.1) := by
    intro name hname
    obtain ⟨a, ha⟩ := Option.isSome_iff_exists.mp (h.found name hname)
    exact List.mem_map.mpr ⟨(name, a), mem_of_find ha, rfl⟩
  calc active.length ≤ (table.map (·.1)).length := (List.Nodup.subperm h.nodup hkeys).length_le
    _ = table.length := List.length_map _

section
variable (model : Model)

theorem plain_definedSimpleType {name : String} {e : BindingError}
    (h : definedSimpleType model name = .error e) : e.Plain := by
  unfold definedSimpleType at h
  split at h
  · cases h
  · split at h <;> cases h <;> exact ⟨nofun, nofun⟩

theorem simpleType_of_defined {name : String} {t : SimpleType}
    (h : definedSimpleType model name = .ok t) : model.simpleType name = some t := by
  unfold definedSimpleType at h
  split at h
  · cases h
    assumption
  · split at h <;> cases h

theorem resolveNamedWithin_settles (hP : Frame E P) (bound : Nat) (active : List String)
    (hactive : Followed model.simpleTypes active)
    (hbound : model.simpleTypes.length < bound + active.length) (name : String) :
    SettlesAll E P (resolveNamedWithin model bound active name) := by
  induction bound generalizing active name with
  | zero =>
    have := hactive.length_le
    omega
  | succ bound ih =>
    rw [resolveNamedWithin]
    refine settles_get.bind fun c _ => ?_
    split
    · exact settles_pure trivial
    · refine Settles.bind (R := fun t => model.simpleType name = some t) ?_ fun t ht => ?_
      · exact ends_lift (fun e he => hP.plain e (plain_definedSimpleType model he))
          fun t c ht hc => ⟨hc, simpleType_of_defined model ht⟩
      split
      · exact hP.fail (plain_circular (by decide) _)
      · next hnew =>
        have hcons : Followed model.simpleTypes (name :: active) :=
          hactive.cons (by rw [← Model.simpleType, ht]; rfl) hnew
        refine (resolveSimpleType_settles _ hP (ih (name :: active) hcons ?_) t).bind
          fun t _ => ?_
        · rw [List.length_cons]
          omega
        refine Settles.bind (hP.modify (fun _ => rfl) (fun _ => rfl) fun _ => rfl) fun _ _ => ?_
        exact settles_pure trivial

theorem resolveNamed_settles (hP : Frame E P) (name : String) :
    SettlesAll E P (resolveNamed model name) :=
  resolveNamedWithin_settles model hP _ [] (followed_nil _) (by simp) name

/-! ## Requests -/

/-- A simple type that is to be resolved, and what literals without a name are to be called. -/
structure Request where
  ref : SimpleTypeRef
  target : Target

def Request.resolve (model : Model) (q : Request) : Build FieldType :=
  resolveRef (resolveNamed model) q.target q.ref

/-- Plain errors are allowed for, and `P` is kept when anything is resolved that the schema asks for
and when that is noted for an attribute or a text. -/
structure Serves (model : Model) (E : BindingError → Prop) (P : Catalog → Prop) : Prop where
  plain : ∀ e : BindingError, e.Plain → E e
  resolve : ∀ q : Request, model.Asks q.ref → SettlesAll E P (q.resolve model)
  note : ∀ (c : Catalog) types, P c → P { c with attributeTypes := types }

theorem Frame.serves (hP : Frame E P) : Serves model E P where
  plain := hP.plain
  resolve q _ := resolveRef_settles q.target hP (resolveNamed_settles model hP) q.ref
  note c _ hc := hP.elements c _ rfl rfl rfl hc

variable {model}

theorem Serves.typeName (hP : Serves model E P) {name : TypeName} (h : model.Asks (.named name)) :
    SettlesAll E P (resolveTypeName (resolveNamed model) name) := by
  have hq := hP.resolve ⟨.named name, .shared ""⟩ h
  rwa [Request.resolve, resolveRef] at hq

theorem Serves.simpleType (hP : Serves model E P) (target : Target) {t : SimpleType}
    (h : model.Asks (.inline t)) :
    SettlesAll E P (resolveSimpleType (resolveNamed model) target t) := by
  have hq := hP.resolve ⟨.inline t, target⟩ h
  rwa [Request.resolve, resolveRef] at hq

variable (model)

/-! ## Fields -/

theorem remembering_settles (hP : Serves model E P) {resolve : Build FieldType}
    (h : SettlesAll E P resolve) (key : ScopeKey × String) :
    SettlesAll E P (remembering key resolve) := by
  refine settles_get.bind fun c _ => ?_
  split
  · exact settles_pure trivial
  · refine h.bind fun t _ => ?_
    refine Settles.bind (R := fun _ => True) ?_ fun _ _ => settles_pure trivial
    exact ends_modify fun c hc => ⟨hP.note c _ hc, trivial⟩

theorem attributeType_settles (hP : Serves model E P) (key : ScopeKey) (target : Target)
    {d : AttributeDeclaration} (h : model.Asks d.valueType) :
    SettlesAll E P (attributeType model key target d) := by
  rw [AttributeDeclaration.valueType] at h
  rw [attributeType]
  split
  · exact settles_pure trivial
  · next name hd =>
    rw [hd] at h
    exact hP.typeName h
  · next t hd =>
    rw [hd] at h
    exact remembering_settles model hP (hP.simpleType target h) _

theorem addUses_settles (hP : Serves model E P)
    {group : String → List Field → Build (List Field)}
    (hgroup : ∀ name fields, SettlesAll E P (group name fields)) (scope : Scope)
    {uses : List AttributeUse} (h : model.AsksFor uses) (fields : List Field) :
    SettlesAll E P (addUses model group scope uses fields) := by
  induction uses generalizing fields with
  | nil => exact settles_pure trivial
  | cons u uses ih =>
    have ih := ih fun d required hd => h d required (List.mem_cons_of_mem _ hd)
    cases u with
    | declaration d required =>
      exact (attributeType_settles model hP _ _ (h d required List.mem_cons_self)).bind
        fun t _ => ih _
    | reference name required =>
      rw [addUses]
      split
      · exact ends_fail (hP.plain _ (plain_unknown _ _))
      · next d hd =>
        exact (attributeType_settles model hP _ _ (.topLevel (mem_of_find hd))).bind
          fun t _ => ih _
    | group name => exact (hgroup name fields).bind fun fields _ => ih fields

theorem addGroupWithin_settles (hP : Serves model E P) (scope : Scope) (bound : Nat)
    (active : List String) (hactive : Followed model.attributeGroups active)
    (hbound : model.attributeGroups.length < bound + active.length) (name : String)
    (fields : List Field) :
    SettlesAll E P (addGroupWithin model scope bound active name fields) := by
  induction bound generalizing active name fields with
  | zero =>
    have := hactive.length_le
    omega
  | succ bound ih =>
    rw [addGroupWithin]
    split
    · exact ends_fail (hP.plain _ (plain_unknown _ _))
    · next g hg =>
      split
      · exact ends_fail (hP.plain _ (plain_circular (by decide) _))
      · next hnew =>
        have hcons : Followed model.attributeGroups (name :: active) :=
          hactive.cons (by rw [← Model.attributeGroup, hg]; rfl) hnew
        refine addUses_settles model hP (ih (name :: active) hcons ?_) scope
          (fun d required hd => .groupUse (mem_of_find hg) hd) fields
        rw [List.length_cons]
        omega

theorem addAttributes_settles (hP : Serves model E P) (scope : Scope) {uses : List AttributeUse}
    (h : model.AsksFor uses) (fields : List Field) :
    SettlesAll E P (addAttributes model scope uses fields) :=
  addUses_settles model hP
    (addGroupWithin_settles model hP scope _ [] (followed_nil _) (by simp)) scope h fields

end

/-! ## Types -/

/-- Where the declarations inside of a particle are met: they are the schema's own, the type that
declares them is too, and if that has no name there are at most `k` of them. -/
structure Placed (model : Model) (k : Nat) (declaredIn : Option String) (inside : List Declared) :
    Prop where
  owner : ∀ name ∈ declaredIn, name ∈ model.allTypeNames
  part : inside.Sublist model.declared
  depth : declaredIn = none → inside.length ≤ k

theorem Placed.sublist {model : Model} {k : Nat} {declaredIn : Option String}
    {inside inside' : List Declared} (h : Placed model k declaredIn inside)
    (hsub : inside'.Sublist inside) : Placed model k declaredIn inside' :=
  ⟨h.owner, hsub.trans h.part, fun hn => Nat.le_trans hsub.length_le (h.depth hn)⟩

/-- The particles of a draft are placed. -/
def Draft.Placed (model : Model) (k : Nat) (d : Draft) : Prop :=
  ∀ p ∈ d.particles, Binding.Placed model k p.declaredIn p.particle.term.declared

section
variable {model : Model} {k : Nat} {d : Draft}

theorem Draft.Placed.addMarker (h : d.Placed model k) (m : Option String) :
    (d.addMarker m).Placed model k := by
  obtain ⟨_, heq⟩ := d.exists_addMarker_eq m
  exact heq ▸ h

theorem Draft.Placed.addParticle (h : d.Placed model k) {declaredIn : Option String}
    {p : Option Particle} (hp : ∀ q ∈ p, Binding.Placed model k declaredIn q.term.declared) :
    (d.addParticle declaredIn p).Placed model k := by
  cases p with
  | none => exact h
  | some p =>
    intro q hq
    rcases List.mem_append.mp hq with hq | hq
    · exact h q hq
    · exact List.mem_singleton.mp hq ▸ hp p rfl

end

theorem typeScope_settles (hE : ∀ e : BindingError, e.Plain → E e) (name : String) :
    SettlesAll E P (typeScope name) := by
  refine settles_get.bind fun c _ => ?_
  split
  · exact settles_pure trivial
  · exact ends_fail (hE _ (plain_unknown _ _))

section
variable (model : Model)

theorem restrictedContent_settles (hP : Serves model E P) (scope : Scope) {r : Restriction}
    (h : model.Asks (.inline r.asType)) :
    SettlesAll E P (restrictedContent model scope r) := by
  have hresolve := hP.simpleType ⟨scope.name ++ "Content", none, scope.owner⟩ h
  rw [Restriction.asType, resolveSimpleType, resolveVariety] at hresolve
  exact remembering_settles model hP hresolve _

variable {k : Nat} {base : TypeName → Draft → Build Draft}

theorem addContent_settles (hP : Serves model E P)
    (hbase : ∀ name d, d.Placed model k → Settles E P (base name d) (Draft.Placed model k))
    (scope : Scope) (name : Option String) {d : Draft} (hd : d.Placed model k)
    {content : ComplexContent} (hc : Placed model k name content.declared)
    (htext : ∀ ref, content.statedText? model = some ref → model.Asks ref) :
    Settles E P (addContent model base scope name d content) (Draft.Placed model k) := by
  cases content with
  | empty => exact settles_pure hd
  | particle p =>
    rw [ComplexContent.declared_particle] at hc
    exact settles_pure (hd.addParticle fun q hq => Option.some.inj hq ▸ hc)
  | extension b particle =>
    refine (hbase b d hd).bind fun d hd => settles_pure (hd.addParticle fun q hq => ?_)
    obtain rfl := Option.mem_def.mp hq
    rwa [ComplexContent.declared_extension] at hc
  | simpleExtension b =>
    rw [addContent]
    split
    · exact hbase b d hd
    · next hsimple =>
      exact (hP.typeName (htext _ (if_neg hsimple))).bind fun t _ => settles_pure hd
  | simpleRestriction r =>
    have hfinish (d : Draft) (hd : d.Placed model k) :
        Settles E P (if (complexBase? model r).isNone || !r.enumerations.isEmpty then do
            return { d with content := some (← restrictedContent model scope r) }
          else return d) (Draft.Placed model k) := by
      split
      · next hstates =>
        have hstated : (ComplexContent.simpleRestriction r).statedText? model =
            some (.inline r.asType) := congrArg (Option.map _) (if_pos hstates)
        exact (restrictedContent_settles model hP scope (htext _ hstated)).bind fun t _ =>
          settles_pure hd
      · exact settles_pure hd
    rw [addContent]
    split
    · exact (hbase _ d hd).bind hfinish
    · exact (settles_pure hd).bind hfinish

/-- A complex type of the schema, with what is declared inside of its content. -/
structure TypePlaced (model : Model) (k : Nat) (t : ComplexType) : Prop
    extends Placed model k t.name t.content.declared where
  declared : .inr t ∈ model.declared

theorem addType_settles (hP : Serves model E P)
    (hbase : ∀ name d, d.Placed model k → Settles E P (base name d) (Draft.Placed model k))
    (scope : Scope) {t : ComplexType} (ht : TypePlaced model k t) {d : Draft}
    (hd : d.Placed model k) :
    Settles E P (addType model base scope t d) (Draft.Placed model k) := by
  refine settles_get.bind fun c _ => ?_
  refine (addContent_settles model hP hbase scope t.name (hd.addMarker _) ht.toPlaced
    fun ref href => .text ht.declared href).bind fun d hd => ?_
  refine (addAttributes_settles model hP scope (fun d required hd => .use ht.declared hd) _).bind
    fun fields _ => ?_
  exact settles_pure hd

/-- Top-level types have a name. -/
theorem placed_of_complexType (hm : model.Keyed) {p : String × ComplexType}
    (h : p ∈ model.complexTypes) (k : Nat) : TypePlaced model k p.2 := by
  have hsub := model.sublist_of_complexType h
  have hname : p.2.name = some p.1 := hm.complexTypeName p h
  refine ⟨⟨fun n hn => ?_, p.2.sublist_content.trans hsub, fun hn => ?_⟩, ?_⟩
  · exact model.mem_allTypeNames (hsub.subset p.2.mem_declared) hn
  · rw [hname] at hn
    cases hn
  · exact hsub.subset p.2.mem_declared

theorem addBaseWithin_settles (hP : Serves model E P) (hm : model.Keyed) (bound : Nat)
    (active : List String) (hactive : Followed model.complexTypes active)
    (hbound : model.complexTypes.length < bound + active.length) (name : TypeName) (d : Draft)
    (hd : d.Placed model k) :
    Settles E P (addBaseWithin model bound active name d) (Draft.Placed model k) := by
  induction bound generalizing active name d with
  | zero =>
    have := hactive.length_le
    omega
  | succ bound ih =>
    cases name with
    | builtin name => exact ends_fail (hP.plain _ ⟨nofun, nofun⟩)
    | schema name =>
      rw [addBaseWithin]
      split
      · exact ends_fail (hP.plain _ (plain_unknown _ _))
      · next t ht =>
        refine (typeScope_settles hP.plain name).bind fun scope _ => ?_
        split
        · exact ends_fail (hP.plain _ (plain_circular (by decide) _))
        · next hnew =>
          have hcons : Followed model.complexTypes (name :: active) :=
            hactive.cons (by rw [← Model.complexType, ht]; rfl) hnew
          refine addType_settles model hP (ih (name :: active) hcons ?_) scope
            (placed_of_complexType model hm (mem_of_find ht) k) hd
          rw [List.length_cons]
          omega

theorem derive_settles (hP : Serves model E P) (hm : model.Keyed) (scope : Scope)
    {t : ComplexType} (ht : TypePlaced model k t) :
    Settles E P (derive model scope t) (Draft.Placed model k) :=
  addType_settles model hP (addBaseWithin_settles model hP hm _ [] (followed_nil _) (by simp))
    scope ht (by simp [Draft.Placed])

end

/-! ## Content models -/

theorem referredElement_settles (hE : ∀ e : BindingError, e.Plain → E e) (name : String) :
    SettlesAll E P (referredElement name) := by
  refine settles_get.bind fun c _ => ?_
  split
  · exact settles_pure trivial
  · exact ends_fail (hE _ (plain_unknown _ _))

/-- What holds of a group holds of its particles, as far as they may occur. -/
def PassesDown (Q : Term → Prop) : Prop :=
  ∀ g p, Q (.group g) → p ∈ g.particles → p.maximum ≠ .count 0 → Q p.term

theorem passesDown_placed (model : Model) (k : Nat) (declaredIn : Option String) :
    PassesDown fun t => Placed model k declaredIn t.declared := by
  rintro ⟨_, ps⟩ p hplaced hp -
  rw [Term.declared, ModelGroup.declared] at hplaced
  exact hplaced.sublist (sublist_particlesDeclared hp)

section
variable {Q : Term → Prop} {element : ElementDeclaration → Build String}
  {group : String → Nat → MaxOccurs → Build Membership}

mutual

theorem buildGroup_settles (hE : ∀ e : BindingError, e.Plain → E e) (hQ : PassesDown Q)
    (he : ∀ d, Q (.element d) → SettlesAll E P (element d))
    (hg : ∀ name minimum m, Q (.groupRef name) → SettlesAll E P (group name minimum m))
    (minimum : Nat) (m : MaxOccurs) :
    ∀ g : ModelGroup, Q (.group g) → SettlesAll E P (buildGroup element group minimum m g)
  | ⟨_, particles⟩, h => by
    rw [buildGroup]
    exact (buildSlots_settles hE hQ he hg m particles fun p hp hmaximum =>
      hQ _ p h hp hmaximum).bind fun _ _ => settles_pure trivial

theorem buildSlots_settles (hE : ∀ e : BindingError, e.Plain → E e) (hQ : PassesDown Q)
    (he : ∀ d, Q (.element d) → SettlesAll E P (element d))
    (hg : ∀ name minimum m, Q (.groupRef name) → SettlesAll E P (group name minimum m))
    (outer : MaxOccurs) :
    ∀ ps : List Particle, (∀ p ∈ ps, p.maximum ≠ .count 0 → Q p.term) →
      SettlesAll E P (buildSlots element group outer ps)
  | [], _ => by
    rw [buildSlots]
    exact settles_pure trivial
  | ⟨minimum, maximum, term⟩ :: ps, h => by
    obtain ⟨hterm, hps⟩ := List.forall_mem_cons.mp h
    rw [buildSlots]
    split
    · exact buildSlots_settles hE hQ he hg outer ps hps
    · next hmaximum =>
      refine (buildSlot_settles hE hQ he hg minimum (maximum.mul outer) term
        (hterm hmaximum)).bind fun _ _ => ?_
      exact (buildSlots_settles hE hQ he hg outer ps hps).bind fun _ _ => settles_pure trivial

theorem buildSlot_settles (hE : ∀ e : BindingError, e.Plain → E e) (hQ : PassesDown Q)
    (he : ∀ d, Q (.element d) → SettlesAll E P (element d))
    (hg : ∀ name minimum m, Q (.groupRef name) → SettlesAll E P (group name minimum m))
    (minimum : Nat) (m : MaxOccurs) :
    ∀ t : Term, Q t → SettlesAll E P (buildSlot element group minimum m t)
  | .element d, h => by
    rw [buildSlot]
    exact (he d h).bind fun _ _ => settles_pure trivial
  | .elementRef name, _ => by
    rw [buildSlot]
    exact (referredElement_settles hE name).bind fun _ _ => settles_pure trivial
  | .group g, h => by
    rw [buildSlot]
    exact (buildGroup_settles hE hQ he hg minimum m g h).bind fun _ _ => settles_pure trivial
  | .groupRef name, h => by
    rw [buildSlot]
    exact (hg name minimum m h).bind fun _ _ => settles_pure trivial
  | .wildcard, _ => by
    rw [buildSlot]
    exact settles_pure trivial

end

end

section
variable {Q : Option String → Term → Prop}
  {element : Option String → String → ElementDeclaration → Build String}
  {group : Option String → String → String → Nat → MaxOccurs → Build Membership}

theorem declaredSlots_settles (hE : ∀ e : BindingError, e.Plain → E e)
    (hQ : ∀ declaredIn, PassesDown (Q declaredIn))
    (he : ∀ declaredIn owner d, Q declaredIn (.element d) →
      SettlesAll E P (element declaredIn owner d))
    (hg : ∀ declaredIn owner name minimum m, Q declaredIn (.groupRef name) →
      SettlesAll E P (group declaredIn owner name minimum m))
    (owner : String) {ps : List DeclaredParticle}
    (hps : ∀ p ∈ ps, p.particle.maximum ≠ .count 0 → Q p.declaredIn p.particle.term) :
    SettlesAll E P (declaredSlots element group owner ps) := by
  induction ps with
  | nil => exact settles_pure trivial
  | cons p ps ih =>
    obtain ⟨hp, hps⟩ := List.forall_mem_cons.mp hps
    rw [declaredSlots]
    refine (buildSlots_settles hE (hQ p.declaredIn) (he p.declaredIn owner)
      (hg p.declaredIn owner) .one [p.particle] fun q hq => ?_).bind fun _ _ => ?_
    · exact List.mem_singleton.mp hq ▸ hp
    · exact (ih hps).bind fun _ _ => settles_pure trivial

theorem mem_filter_isProhibited {p : DeclaredParticle} {ps : List DeclaredParticle} :
    p ∈ ps.filter (fun p => !p.particle.isProhibited) ↔
      p ∈ ps ∧ p.particle.maximum ≠ .count 0 := by
  simp [Particle.isProhibited]

theorem buildMembership_settles (hE : ∀ e : BindingError, e.Plain → E e)
    (hQ : ∀ declaredIn, PassesDown (Q declaredIn))
    (he : ∀ declaredIn owner d, Q declaredIn (.element d) →
      SettlesAll E P (element declaredIn owner d))
    (hg : ∀ declaredIn owner name minimum m, Q declaredIn (.groupRef name) →
      SettlesAll E P (group declaredIn owner name minimum m))
    (owner : String) {ps : List DeclaredParticle}
    (hps : ∀ p ∈ ps, p.particle.maximum ≠ .count 0 → Q p.declaredIn p.particle.term) :
    SettlesAll E P (buildMembership element group owner ps) := by
  have hfilter : ∀ p ∈ ps.filter fun p => !p.particle.isProhibited,
      Q p.declaredIn p.particle.term :=
    fun p hp => hps p (mem_filter_isProhibited.mp hp).1 (mem_filter_isProhibited.mp hp).2
  rw [buildMembership]
  split
  · exact settles_pure trivial
  · next minimum maximum g declaredIn hgroup =>
    rw [hgroup] at hfilter
    exact (buildGroup_settles hE (hQ declaredIn) (he declaredIn owner) (hg declaredIn owner)
      minimum maximum g (hfilter _ List.mem_cons_self)).bind fun _ _ => settles_pure trivial
  · refine (declaredSlots_settles hE hQ he hg owner fun p hp _ => hfilter p hp).bind
      fun _ _ => settles_pure trivial

end

section
variable (model : Model)

/-- The complex type of an element is found in the schema or lies inside of the element. -/
theorem complexTypeOf?_settles (hE : ∀ e : BindingError, e.Plain → E e) (hm : model.Keyed)
    (className : String) {t : ElementType} (ht : t.declared.Sublist model.declared) :
    Settles E P (complexTypeOf? model className t) fun r =>
      ∀ p ∈ r, TypePlaced model t.declared.length p.2 := by
  unfold complexTypeOf?
  split
  · next name =>
    split
    · next t hfind =>
      refine (typeScope_settles hE name).bind fun scope _ => settles_pure fun p hp => ?_
      obtain rfl := Option.some.inj hp
      exact placed_of_complexType model hm (mem_of_find hfind) _
    · exact settles_pure (by simp)
  · next t =>
    refine settles_pure fun p hp => ?_
    obtain rfl := Option.some.inj hp
    rw [ElementType.declared] at ht ⊢
    exact ⟨⟨fun n hn => model.mem_allTypeNames (ht.subset t.mem_declared) hn,
      t.sublist_content.trans ht, fun _ => t.sublist_content.length_le⟩, ht.subset t.mem_declared⟩
  · exact settles_pure (by simp)

theorem simpleContent_settles (hP : Frame E P) (className : String) (t : ElementType) :
    SettlesAll E P (simpleContent model className t) := by
  unfold simpleContent
  split
  · exact resolveTypeName_settles (resolveNamed_settles model hP) _
  · exact resolveSimpleType_settles _ hP (resolveNamed_settles model hP) _
  · exact settles_pure trivial

theorem buildClass_settles (hP : Frame E P) (hm : model.Keyed) {d : ElementDeclaration}
    (hd : d.type.declared.Sublist model.declared)
    {members : String → List DeclaredParticle → Build (Option Membership)}
    (hmembers : ∀ owner t (draft : Draft), d.type.complex? model = some t →
      draft.Placed model d.type.declared.length →
      DeclaredParticles model t.name t.content draft.particles →
      SettlesAll E P (members owner draft.particles))
    (hadd : ∀ k, SettlesAll E P (addClass k)) (origin : Origin) (name : String) :
    SettlesAll E P (buildClass model members origin name d) := by
  rw [buildClass]
  split
  · exact hadd _
  · refine ((complexTypeOf?_settles model hP.plain hm name hd).and_result
      (complexTypeOf?_complex? name d.type)).bind fun r hr => ?_
    split
    · next scope t =>
      obtain ⟨hr, hcomplex⟩ := hr
      refine ((derive_settles model (hP.serves model) hm scope (hr _ rfl)).and_result
        (derive_declaredParticles scope t)).bind fun draft ⟨hdraft, hps⟩ => ?_
      refine (hmembers name t draft hcomplex hdraft hps).bind fun membership _ => ?_
      exact hadd _
    · refine (simpleContent_settles model hP name d.type).bind fun content _ => ?_
      exact hadd _

end

theorem reserveElement_settles (hP : Frame E P) (declaredIn : Option String) (owner : String)
    (d : ElementDeclaration) : SettlesAll E P (reserveElement declaredIn owner d) :=
  settles_get.bind fun _ _ => reserve_settles hP _ _

theorem forM_settles {α : Type} {f : α → Build PUnit} {xs : List α}
    (h : ∀ x ∈ xs, SettlesAll E P (f x)) : SettlesAll E P (xs.forM f) := by
  induction xs with
  | nil => exact settles_pure trivial
  | cons x xs ih =>
    obtain ⟨hx, hxs⟩ := List.forall_mem_cons.mp h
    exact hx.bind fun _ _ => ih hxs

theorem declareComplexType_settles (hP : Frame E P) (name : String) (t : ComplexType) :
    SettlesAll E P (declareComplexType name t) :=
  (reserve_settles hP name none).bind fun _ _ =>
    hP.modify (fun _ => rfl) (fun _ => rfl) fun _ => rfl

theorem declareElement_settles (hP : Frame E P) (name : String) :
    SettlesAll E P (declareElement name) :=
  (reserve_settles hP name _).bind fun _ _ =>
    hP.modify (fun _ => rfl) (fun _ => rfl) fun _ => rfl

/-- Simple types are resolved and names given out whatever the classes are built from. -/
theorem buildAll_settles {model : Model} (hP : Frame E P)
    (ht : ∀ p ∈ model.complexTypes, SettlesAll E P (buildComplexType model p.1 p.2))
    (he : ∀ p ∈ model.elements, SettlesAll E P (buildElement model p.1 p.2)) :
    SettlesAll E P (buildAll model) := by
  refine Settles.bind (forM_settles fun p _ => ?_) fun _ _ => ?_
  · exact (resolveNamed_settles model hP p.1).bind fun _ _ => settles_pure trivial
  refine (forM_settles fun p _ => declareComplexType_settles hP p.1 p.2).bind fun _ _ => ?_
  refine (forM_settles fun p _ => declareElement_settles hP p.1).bind fun _ _ => ?_
  exact (forM_settles ht).bind fun _ _ => forM_settles he

end

end XmlBinding.Binding
