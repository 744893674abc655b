import XmlBinding.Proofs.Binding.Resolution

/-! # The values of a draft

Attributes are gone through in order, and whatever type without a name has been stated on the way is
remembered. So if nothing is remembered under a name, then what is stated next is the first of its
name, and if something is, then it is the type of the first one, or of the text.
-/
namespace XmlBinding.Binding
open Schema Value

/-! ## Attributes -/

section
variable (model : Model) (st : Stage) (key : ScopeKey)

/-- What the declaration of an attribute is kept as under a key. -/
inductive KeptUnder (w : Catalog) (d : AttributeDeclaration) (t : FieldType) : Prop
  | named (hd : ∀ s, d.type ≠ some (.inline s))
      (ht : Represents model w.enumerations d.valueType t)
  | anonymous {s s' : SimpleType} (hd : d.type = some (.inline s)) (hnoted : w.Notes (key, d.name))
      (hs : Stands model st key d.name s') (ht : Represents model w.enumerations (.inline s') t)

/-- Attributes of a type have been gone through, after those it inherits. -/
structure Visited (t : ComplexType) (inherited : List (ComplexType × AttributeSource))
    (done : List AttributeSource) (w : Catalog) (fields : List Field) : Prop where
  text : (t.content.restriction? model).isSome = true → w.Notes (key, contentName)
  noted : ∀ p ∈ done.filterMap AttributeSource.anonymous?, w.Notes (key, p.1)
  fields : FieldsFor model w.enumerations (inherited ++ done.map (t, ·)) fields

end

section
variable {model : Model} {st : Stage} {key : ScopeKey} {v w : Catalog} {t : ComplexType}
  {inherited : List (ComplexType × AttributeSource)} {done rest : List AttributeSource}
  {fields : List Field}

theorem attributeType_grows (target : Target) (d : AttributeDeclaration)
    (hnew : ∀ s, d.type = some (.inline s) → ¬ v.Notes (key, d.name) →
      Stands model st key d.name s) :
    Grows model st v (attributeType model key target d)
      fun w t => KeptUnder model st key w d t := by
  rw [attributeType]
  split
  · next hd =>
    refine grows_pure fun w _ => .named (by simp [hd]) ?_
    rw [AttributeDeclaration.valueType, hd]
    exact ⟨_, .builtin "string", .primitive .string⟩
  · next name hd =>
    refine (resolveTypeName_grows resolveNamed_follows name v).weaken fun t w _ ht => ?_
    refine .named (by simp [hd]) ?_
    rwa [AttributeDeclaration.valueType, hd]
  · next s hd =>
    refine (remembering_grows (hnew s hd) fun w =>
      resolveSimpleType_grows target resolveNamed_follows w s).weaken fun t w _ h => ?_
    obtain ⟨hnoted, s', hs, ht⟩ := h
    exact .anonymous hd hnoted hs ht

/-- What is kept of a top-level attribute is its own type. -/
theorem KeptUnder.own {d : AttributeDeclaration} {ty : FieldType}
    (h : KeptUnder model st .global w d ty) (hd : model.attribute? d.name = some d) :
    Represents model w.enumerations d.valueType ty := by
  cases h with
  | named _ ht => exact ht
  | anonymous htype _ hs ht =>
    rw [AttributeDeclaration.valueType, htype, Option.getD_some]
    exact (Stands.topLevel hd htype).unique hs ▸ ht

/-- The first one of a name is found. -/
theorem find_anonymous {source : AttributeSource} {name : String} {s : SimpleType}
    (hsource : source.anonymous? = some (name, s))
    (hnew : ∀ p ∈ done.filterMap AttributeSource.anonymous?, p.1 ≠ name) :
    find ((done ++ source :: rest).filterMap AttributeSource.anonymous?) name = some s := by
  have hnone : (done.filterMap AttributeSource.anonymous?).find? (·.1 == name) = none :=
    List.find?_eq_none.mpr fun p hp => by simpa using hnew p hp
  rw [find, List.filterMap_append, List.find?_append, hnone, Option.none_or,
    List.filterMap_cons_some hsource, List.find?_cons_of_pos (by simp)]
  rfl

theorem name_of_anonymous? {source : AttributeSource} {p : String × SimpleType}
    (h : source.anonymous? = some p) : p.1 = source.name := by
  cases source with
  | topLevel d => cases h
  | stated d =>
    rw [AttributeSource.anonymous?] at h
    split at h
    · cases h
      rfl
    · cases h

theorem anonymous?_stated {d : AttributeDeclaration} {s : SimpleType}
    (hd : d.type = some (.inline s)) :
    (AttributeSource.stated d).anonymous? = some (d.name, s) := by
  rw [AttributeSource.anonymous?, hd]

theorem inline_of_anonymous? {d : AttributeDeclaration} {p : String × SimpleType}
    (h : (AttributeSource.stated d).anonymous? = some p) : d.type = some (.inline p.2) := by
  rw [AttributeSource.anonymous?] at h
  split at h
  · next s hs =>
    cases h
    exact hs
  · cases h

/-- What a type states under a new name is the type of the attribute, or else that of the text. -/
theorem typeFor_of_anonymous {d : AttributeDeclaration} {s s' : SimpleType} {ty : FieldType}
    (hd : d.type = some (.inline s)) (hs : t.Anonymous model d.name s')
    (hty : Represents model w.enumerations (.inline s') ty)
    (hall : Expands model t.attributes (done ++ .stated d :: rest))
    (hnew : d.name ∉ done.map (·.name)) : TypeFor model w.enumerations (t, .stated d) ty := by
  cases hs with
  | text hr hname hs =>
    subst hs
    constructor
    · intro hclash
      exact absurd ⟨hr, hname, by rw [anonymous?_stated hd]; rfl⟩ (hclash _)
    · intro r' hr'
      obtain rfl := Option.some.inj (hr.symm.trans hr'.1)
      exact hty
  | declared hsources hs htext =>
    have hdone : ∀ p ∈ done.filterMap AttributeSource.anonymous?, p.1 ≠ d.name := by
      intro p hp heq
      obtain ⟨source, hsource, hp⟩ := List.mem_filterMap.mp hp
      exact hnew (heq ▸ name_of_anonymous? hp ▸ List.mem_map_of_mem hsource)
    rw [hsources.unique hall] at hs
    obtain rfl := Option.some.inj ((find_anonymous (anonymous?_stated hd) hdone).symm.trans hs)
    constructor
    · intro _
      have hvalue : d.valueType = .inline s := by
        rw [AttributeDeclaration.valueType, hd]
        rfl
      exact hvalue ▸ hty
    · rintro r ⟨hr, hname, -⟩
      rw [htext hname] at hr
      cases hr

/-- An attribute whose name is new is kept as its own type, unless that of the text is in the
way. -/
theorem KeptUnder.typeFor {d : AttributeDeclaration} {ty : FieldType}
    (h : KeptUnder model st key w d ty) (ht : st.holder? model key = some t)
    (hall : Expands model t.attributes (done ++ .stated d :: rest))
    (hnew : d.name ∉ done.map (·.name)) : TypeFor model w.enumerations (t, .stated d) ty := by
  cases h with
  | named hd hty =>
    refine ⟨fun _ => hty, fun r ⟨_, _, hr⟩ => ?_⟩
    obtain ⟨p, hp⟩ := Option.isSome_iff_exists.mp hr
    exact absurd (inline_of_anonymous? hp) (hd _)
  | anonymous hd _ hs hty =>
    cases hs with
    | topLevel => cases ht
    | scope ht' hs =>
      obtain rfl := Option.some.inj (ht.symm.trans ht')
      exact typeFor_of_anonymous hd hs hty hall hnew

/-- Where nothing is noted, the next one is the first of its name. -/
theorem Visited.stands (h : Visited model key t inherited done v fields)
    (ht : st.holder? model key = some t) {d : AttributeDeclaration}
    (hall : Expands model t.attributes (done ++ .stated d :: rest)) {s : SimpleType}
    (hd : d.type = some (.inline s)) (hnew : ¬ v.Notes (key, d.name)) :
    Stands model st key d.name s := by
  refine .scope ht (.declared hall (find_anonymous ?_ fun p hp heq => ?_) fun hname => ?_)
  · exact anonymous?_stated hd
  · exact hnew (heq ▸ h.noted p hp)
  · refine Option.not_isSome_iff_eq_none.mp fun hr => hnew ?_
    rw [hname]
    exact h.text hr

theorem Visited.add (h : Visited model key t inherited done v fields) (hle : v ≤ w)
    (source : AttributeSource) {ty : FieldType}
    (hnoted : ∀ p, source.anonymous? = some p → w.Notes (key, p.1))
    (hty : source.name ∉ done.map (·.name) → TypeFor model w.enumerations (t, source) ty) :
    Visited model key t inherited (done ++ [source]) w
      (addField fields source.name ty source.declaration.documentation) where
  text hr := (h.text hr).mono hle
  noted p hp := by
    obtain ⟨other, hother, hp⟩ := List.mem_filterMap.mp hp
    rcases List.mem_append.mp hother with hother | hother
    · exact (h.noted p (List.mem_filterMap.mpr ⟨other, hother, hp⟩)).mono hle
    · exact hnoted p (List.mem_singleton.mp hother ▸ hp)
  fields := by
    rw [List.map_append, ← List.append_assoc]
    refine (h.fields.mono hle.enumerations).addField fun hname => hty fun hdone => hname ?_
    rw [List.map_append, List.map_map]
    exact List.mem_append_right _ hdone

theorem Visited.addStated (h : Visited model key t inherited done v fields) (hle : v ≤ w)
    (ht : st.holder? model key = some t) {d : AttributeDeclaration}
    (hall : Expands model t.attributes (done ++ .stated d :: rest)) {ty : FieldType}
    (hty : KeptUnder model st key w d ty) :
    Visited model key t inherited (done ++ [.stated d]) w
      (addField fields d.name ty d.documentation) := by
  refine h.add hle (.stated d) (fun p hp => ?_) fun hnew => hty.typeFor ht hall hnew
  cases hty with
  | named hd _ => exact absurd (inline_of_anonymous? hp) (hd _)
  | anonymous _ hnoted _ _ => exact name_of_anonymous? hp ▸ hnoted

theorem Visited.addTopLevel (h : Visited model key t inherited done v fields) (hle : v ≤ w)
    {d : AttributeDeclaration} (hd : model.attribute? d.name = some d) {ty : FieldType}
    (hty : KeptUnder model st .global w d ty) :
    Visited model key t inherited (done ++ [.topLevel d]) w
      (addField fields d.name ty d.documentation) :=
  h.add hle (.topLevel d) nofun fun _ => ⟨fun _ => hty.own hd, nofun⟩

section
variable {scope : Scope} (ht : st.holder? model scope.key = some t)
  (hnames : ∀ p ∈ model.attributes, p.2.name = p.1)

/-- A step that goes through the attributes of a group. -/
def VisitsGroup (model : Model) (st : Stage) (scope : Scope) (t : ComplexType)
    (group : String → List Field → Build (List Field)) : Prop :=
  ∀ name g inner inherited done rest fields v, model.attributeGroup name = some g →
    Expands model g.uses inner → Expands model t.attributes (done ++ (inner ++ rest)) →
    Visited model scope.key t inherited done v fields →
    Grows model st v (group name fields) (Visited model scope.key t inherited (done ++ inner))

include ht hnames

theorem addUses_grows {group : String → List Field → Build (List Field)}
    (hgroup : VisitsGroup model st scope t group) {uses : List AttributeUse}
    {sources : List AttributeSource} (huses : Expands model uses sources)
    (hall : Expands model t.attributes (done ++ (sources ++ rest)))
    (h : Visited model scope.key t inherited done v fields) :
    Grows model st v (addUses model group scope uses fields)
      (Visited model scope.key t inherited (done ++ sources)) := by
  induction uses generalizing sources done rest fields v with
  | nil =>
    cases huses
    refine grows_pure fun w hle => ?_
    rw [List.append_nil]
    exact ⟨fun hr => (h.text hr).mono hle, fun p hp => (h.noted p hp).mono hle,
      h.fields.mono hle.enumerations⟩
  | cons use uses ih =>
    cases huses with
    | @declaration d _ _ sources huses =>
      have hnext : Expands model t.attributes (done ++ [.stated d] ++ (sources ++ rest)) := by
        rwa [← List.append_cons]
      refine (attributeType_grows _ d fun s hd hnew => h.stands ht hall hd hnew).bind
        fun ty w hle hty => ?_
      rw [List.append_cons]
      exact ih huses hnext (h.addStated hle ht hall hty)
    | @reference name _ d _ sources hd huses =>
      have hnext : Expands model t.attributes (done ++ [.topLevel d] ++ (sources ++ rest)) := by
        rwa [← List.append_cons]
      have hfound : model.attribute? d.name = some d := hall.found hnames d (by simp)
      rw [addUses, hd]
      refine (attributeType_grows _ d fun s hs _ => .topLevel hfound hs).bind
        fun ty w hle hty => ?_
      rw [List.append_cons]
      exact ih huses hnext (h.addTopLevel hle hfound hty)
    | @group name g _ inner sources hg hinner huses =>
      rw [List.append_assoc] at hall
      refine (hgroup name g inner inherited done _ fields v hg hinner hall h).bind
        fun fields w hle hfields => ?_
      rw [← List.append_assoc]
      exact ih huses (by rwa [List.append_assoc]) hfields

theorem addGroupWithin_visits (bound : Nat) (active : List String) :
    VisitsGroup model st scope t (addGroupWithin model scope bound active) := by
  induction bound generalizing active with
  | zero => exact fun _ _ _ _ _ _ _ _ _ _ _ _ => grows_fail
  | succ bound ih =>
    intro name g inner inherited done rest fields v hg hinner hall h
    rw [addGroupWithin, hg]
    simp only
    split
    · exact grows_fail
    · exact addUses_grows ht hnames (ih (name :: active)) hinner hall h

/-- The attributes of a type come after those it inherits. -/
theorem addAttributes_grows
    (htext : (t.content.restriction? model).isSome = true → v.Notes (scope.key, contentName))
    (hfields : FieldsFor model v.enumerations inherited fields) :
    Grows model st v (addAttributes model scope t.attributes fields) fun w fields =>
      ∃ sources, Expands model t.attributes sources ∧
        FieldsFor model w.enumerations (inherited ++ sources.map (t, ·)) fields := by
  intro c a c' hc hrun
  obtain ⟨sources, hsources, -⟩ :=
    addAttributes_addsUses scope t.attributes fields c a c' trivial hrun
  have hstart : Visited model scope.key t inherited [] v fields :=
    ⟨htext, by simp, by rwa [List.map_nil, List.append_nil]⟩
  have hall : Expands model t.attributes ([] ++ (sources ++ [])) := by
    rwa [List.append_nil]
  obtain ⟨hsound, hle, hvisited⟩ := addUses_grows ht hnames
    (addGroupWithin_visits ht hnames _ _) hsources hall hstart c a c' hc hrun
  exact ⟨hsound, hle, sources, hsources, hvisited.fields⟩

end

/-! ## Types -/

theorem typeScope_grows (name : String) :
    Grows model st v (typeScope name) fun _ scope => scope.key = .type name := by
  refine grows_get.bind fun c w _ _ => ?_
  split
  · exact grows_pure fun _ _ => rfl
  · exact grows_fail

/-- What a draft has of attributes and text. -/
structure Drafted (model : Model) (es : List Enumeration)
    (attributes : List (ComplexType × AttributeSource)) (text : Option SimpleTypeRef) (d : Draft) :
    Prop where
  fields : FieldsFor model es attributes d.fields
  content : Option.Rel (Represents model es) text d.content

/-- A draft without attributes and text. -/
structure Draft.Bare (d : Draft) : Prop where
  fields : d.fields = []
  content : d.content = none

theorem Draft.Bare.addMarker {d : Draft} (h : d.Bare) (m : Option String) :
    (d.addMarker m).Bare := by
  obtain ⟨_, heq⟩ := d.exists_addMarker_eq m
  exact heq ▸ ⟨h.fields, h.content⟩

theorem Draft.Bare.drafted {d : Draft} (h : d.Bare) (es : List Enumeration) :
    Drafted model es [] none d where
  fields := by
    rw [h.fields]
    exact fieldsFor_nil
  content := by
    rw [h.content]
    exact .none

theorem Drafted.addParticle {es : List Enumeration}
    {attributes : List (ComplexType × AttributeSource)} {text : Option SimpleTypeRef} {d : Draft}
    (h : Drafted model es attributes text d) (declaredIn : Option String) (p : Option Particle) :
    Drafted model es attributes text (d.addParticle declaredIn p) := by
  cases p with
  | none => exact h
  | some p => exact ⟨h.fields, h.content⟩

theorem Drafted.mono {es fs : List Enumeration}
    {attributes : List (ComplexType × AttributeSource)} {text : Option SimpleTypeRef} {d : Draft}
    (h : Drafted model es attributes text d) (hes : Extends es fs) :
    Drafted model fs attributes text d :=
  ⟨h.fields.mono hes, represents_rel_mono h.content hes⟩

theorem isNone_eq_of_rel {α β : Type} {R : α → β → Prop} {a : Option α} {b : Option β}
    (h : Option.Rel R a b) : b.isNone = a.isNone := by
  cases h <;> rfl

/-- The values of a type are drafted. -/
def DraftsValues (model : Model) (t : ComplexType) (w : Catalog) (d : Draft) : Prop :=
  ∃ attributes text, HasValues model t attributes text ∧
    Drafted model w.enumerations attributes text d

/-- The text of a content is drafted, and the attributes that come with it. -/
def DraftsContent (model : Model) (key : ScopeKey) (content : ComplexContent) (w : Catalog)
    (d : Draft) : Prop :=
  ∃ attributes text, Inherits model content attributes text ∧
    Drafted model w.enumerations attributes ((content.statedText? model).or text) d ∧
    ((content.restriction? model).isSome = true → w.Notes (key, contentName))

/-- A content that states no restriction notes nothing. -/
theorem DraftsContent.unrestricted {model : Model} {key : ScopeKey} {content : ComplexContent}
    (hnone : content.restriction? model = none) {attributes : List (ComplexType × AttributeSource)}
    {text : Option SimpleTypeRef} (hinherits : Inherits model content attributes text)
    {w : Catalog} {d : Draft}
    (hd : Drafted model w.enumerations attributes ((content.statedText? model).or text) d) :
    DraftsContent model key content w d :=
  ⟨attributes, text, hinherits, hd, fun hsome => by simp [hnone] at hsome⟩

/-- A step that drafts the values of a base type. -/
def DraftsBase (model : Model) (st : Stage) (base : TypeName → Draft → Build Draft) : Prop :=
  ∀ name d v, d.Bare → Grows model st v (base name d) fun w d' =>
    ∃ t, model.typeNamed? name = some t ∧ DraftsValues model t w d'

section
variable {scope : Scope} (ht : st.holder? model scope.key = some t)
include ht

/-- Restricted text is what the type states first. -/
theorem restrictedContent_grows {r : Restriction}
    (hr : t.content.restriction? model = some r) :
    Grows model st v (restrictedContent model scope r) fun w ty =>
      w.Notes (scope.key, contentName) ∧ Represents model w.enumerations (.inline r.asType) ty := by
  have hstands : Stands model st scope.key contentName r.asType := .scope ht (.text hr rfl rfl)
  refine (remembering_grows (fun _ => hstands) fun w =>
    resolveRestriction_grows _ resolveNamed_follows w none none r).weaken fun ty w _ h => ?_
  obtain ⟨hnoted, s, hs, hty⟩ := h
  exact ⟨hnoted, hstands.unique hs ▸ hty⟩

/-- The text that is stated as a restriction counts, whatever is inherited. -/
theorem addRestriction_grows {r : Restriction} (hr : t.content = .simpleRestriction r)
    {attributes : List (ComplexType × AttributeSource)} {text : Option SimpleTypeRef}
    (hinherits : Inherits model (.simpleRestriction r) attributes text) {d : Draft}
    (hd : Drafted model v.enumerations attributes text d) :
    Grows model st v
      (if (complexBase? model r).isNone || !r.enumerations.isEmpty then do
          return { d with content := some (← restrictedContent model scope r) }
        else return d) (DraftsContent model scope.key (.simpleRestriction r)) := by
  have hstated : (ComplexContent.simpleRestriction r).statedText? model =
      ((ComplexContent.simpleRestriction r).restriction? model).map fun r => .inline r.asType := rfl
  split
  · next hstates =>
    have hsome : (ComplexContent.simpleRestriction r).restriction? model = some r := if_pos hstates
    refine (restrictedContent_grows ht (hr ▸ hsome)).bind fun ty w hle ⟨hnoted, hty⟩ =>
      grows_pure fun w' hle' => ⟨attributes, text, hinherits, ?_, fun _ => hnoted.mono hle'⟩
    rw [hstated, hsome]
    exact ⟨(hd.fields.mono hle.enumerations).mono hle'.enumerations,
      .some (hty.mono hle'.enumerations)⟩
  · next hleaves =>
    have hnone : (ComplexContent.simpleRestriction r).restriction? model = none := if_neg hleaves
    refine grows_pure fun w hle => .unrestricted hnone hinherits ?_
    rw [hstated, hnone]
    exact hd.mono hle.enumerations

theorem addContent_grows {base : TypeName → Draft → Build Draft} (hbase : DraftsBase model st base)
    {d : Draft} (hd : d.Bare) {content : ComplexContent} (hcontent : t.content = content) :
    Grows model st v (addContent model base scope t.name d content)
      (DraftsContent model scope.key content) := by
  cases content with
  | empty => exact grows_pure fun w _ => .unrestricted rfl (inherits_of_none rfl) (hd.drafted _)
  | particle p =>
    exact grows_pure fun w _ => .unrestricted rfl (inherits_of_none rfl)
      ((hd.drafted _).addParticle t.name (some p))
  | extension b particle =>
    refine (hbase b d v hd).bind fun d' w _ h => ?_
    obtain ⟨s, hs, attributes, text, hvalues, hdrafted⟩ := h
    have hs : (ComplexContent.extension b particle).baseType? model = some s := hs
    exact grows_pure fun w' hle => .unrestricted rfl (inherits_of_some hs hvalues)
      ((hdrafted.mono hle.enumerations).addParticle t.name particle)
  | simpleExtension b =>
    rw [addContent]
    split
    · next hcomplex =>
      refine (hbase b d v hd).weaken fun d' w _ h => ?_
      obtain ⟨s, hs, attributes, text, hvalues, hdrafted⟩ := h
      have hs : (ComplexContent.simpleExtension b).baseType? model = some s := hs
      refine .unrestricted rfl (inherits_of_some hs hvalues) ?_
      rwa [ComplexContent.statedText?, if_pos hcomplex]
    · next hsimple =>
      have hnone : (ComplexContent.simpleExtension b).baseType? model = none := by
        rw [isComplex_eq] at hsimple
        exact Option.not_isSome_iff_eq_none.mp hsimple
      refine (resolveTypeName_grows resolveNamed_follows b v).bind fun ty w _ hty => ?_
      refine grows_pure fun w' hle => .unrestricted rfl (inherits_of_none hnone) ?_
      rw [ComplexContent.statedText?, if_neg hsimple]
      exact ⟨(hd.drafted _).fields, .some (hty.mono hle.enumerations)⟩
  | simpleRestriction r =>
    have hbase? := baseType?_simpleRestriction model r
    rw [addContent]
    split
    · next b hb =>
      rw [hb, Option.bind_some] at hbase?
      refine (hbase b d v hd).bind fun d' w _ h => ?_
      obtain ⟨s, hs, attributes, text, hvalues, hdrafted⟩ := h
      exact addRestriction_grows ht hcontent (inherits_of_some (hbase?.trans hs) hvalues) hdrafted
    · next hb =>
      rw [hb, Option.bind_none] at hbase?
      refine Grows.bind (R := fun _ d' => d' = d) (grows_pure fun _ _ => rfl) fun d' w _ hd' => ?_
      subst hd'
      exact addRestriction_grows ht hcontent (inherits_of_none hbase?) (hd.drafted _)

theorem addType_grows (hnames : ∀ p ∈ model.attributes, p.2.name = p.1)
    {base : TypeName → Draft → Build Draft} (hbase : DraftsBase model st base) {d : Draft}
    (hd : d.Bare) : Grows model st v (addType model base scope t d) (DraftsValues model t) := by
  refine grows_get.bind fun c w _ _ => ?_
  refine (addContent_grows ht hbase (hd.addMarker _) rfl).bind fun d w _ hcontent => ?_
  obtain ⟨attributes, text, hinherits, hdrafted, hnoted⟩ := hcontent
  refine (addAttributes_grows ht hnames hnoted hdrafted.fields).bind fun fields w' hle h => ?_
  obtain ⟨sources, hsources, hfields⟩ := h
  refine grows_pure fun w'' hle' => ⟨_, _, hinherits.hasValues hsources, ?_⟩
  refine ⟨hfields.mono hle'.enumerations, ?_⟩
  have htext := represents_rel_mono hdrafted.content (hle.trans hle').enumerations
  rw [ComplexType.text?, ← isNone_eq_of_rel htext]
  split
  · exact .some ⟨_, .builtin "string", .primitive .string⟩
  · exact htext

end

section
variable (hnames : ∀ p ∈ model.attributes, p.2.name = p.1)
include hnames

theorem addBaseWithin_drafts (bound : Nat) (active : List String) :
    DraftsBase model st (addBaseWithin model bound active) := by
  induction bound generalizing active with
  | zero =>
    intro name d v _
    cases name <;> exact grows_fail
  | succ bound ih =>
    intro name d v hd
    cases name with
    | builtin name => exact grows_fail
    | schema name =>
      rw [addBaseWithin]
      split
      · exact grows_fail
      · next t ht =>
        refine (typeScope_grows name).bind fun scope w _ hscope => ?_
        split
        · exact grows_fail
        · have hholder : st.holder? model scope.key = some t := by rw [hscope, Stage.holder?, ht]
          exact (addType_grows hholder hnames (ih (name :: active)) hd).weaken fun d' w _ h =>
            ⟨t, ht, h⟩

/-- A draft has the values of its type. -/
theorem derive_grows {scope : Scope} (ht : st.holder? model scope.key = some t) :
    Grows model st v (derive model scope t) (DraftsValues model t) :=
  addType_grows ht hnames (addBaseWithin_drafts hnames _ _) ⟨rfl, rfl⟩

end

end

end XmlBinding.Binding
