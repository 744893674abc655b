import XmlBinding.Proofs.Binding.Documents
import XmlBinding.Proofs.Binding.Drafting
import XmlBinding.Proofs.Binding.Keeping
import XmlBinding.Proofs.Binding.Nesting

/-! # Every field has the type of its declaration

A name that is given out for a class is free until the attributes of that class are drafted, and
nothing is remembered under it before. So every class is built from its own declarations, whatever
has been built already and whatever is built inside of it.
-/
namespace XmlBinding.Binding
open Schema Value

/-! ## Names of classes -/

section
variable {model : Model} {own : String → Option ComplexType} {free : List String} {name : String}
  {c : Catalog}

/-- Nothing is stated under a free name. -/
theorem Stands.update {key : ScopeKey} {n : String} {s : SimpleType}
    (h : Stands model ⟨own, free⟩ key n s) (hname : own name = none) (t : ComplexType)
    (free' : List String) : Stands model ⟨Function.update own name (some t), free'⟩ key n s := by
  cases h with
  | topLevel hd hs => exact .topLevel hd hs
  | scope ht hs =>
    refine .scope ?_ hs
    cases key with
    | type _ => exact ht
    | global => cases ht
    | struct other =>
      have hother : other ≠ name := by
        rintro rfl
        exact nomatch hname.symm.trans ht
      exact (Function.update_of_ne hother _ _).trans ht

theorem Stands.withFree {key : ScopeKey} {n : String} {s : SimpleType}
    (h : Stands model ⟨own, free⟩ key n s) (free' : List String) :
    Stands model ⟨own, free'⟩ key n s := by
  cases h with
  | topLevel hd hs => exact .topLevel hd hs
  | scope ht hs =>
    refine .scope ?_ hs
    cases key <;> exact ht

/-- A name that is given out is free. -/
theorem Sound.reserve (h : Sound model ⟨own, free⟩ c) (hnew : name ∉ c.taken) {free' : List String}
    (hfree : free'.Perm (name :: free)) :
    Sound model ⟨own, free'⟩ { c with taken := name :: c.taken } where
  simpleTypes := h.simpleTypes
  attributeTypes e he := by
    obtain ⟨s, hs, hrepresents⟩ := h.attributeTypes e he
    exact ⟨s, hs.withFree free', hrepresents⟩
  classes := h.classes
  nodup := hfree.nodup_iff.mpr (List.nodup_cons.mpr ⟨fun hname => hnew (h.taken hname), h.nodup⟩)
  taken := List.Subset.trans hfree.subset (List.cons_subset_cons _ h.taken)
  begun other hother := by
    obtain ⟨htaken, hfree'⟩ := h.begun other hother
    refine ⟨List.mem_cons_of_mem _ htaken, fun hmem => ?_⟩
    rcases List.mem_cons.mp (hfree.subset hmem) with rfl | hmem
    · exact hnew htaken
    · exact hfree' hmem

/-- A class need not state any types. -/
theorem Sound.drop (h : Sound model ⟨own, name :: free⟩ c) : Sound model ⟨own, free⟩ c where
  simpleTypes := h.simpleTypes
  attributeTypes e he := by
    obtain ⟨s, hs, hrepresents⟩ := h.attributeTypes e he
    exact ⟨s, hs.withFree _, hrepresents⟩
  classes := h.classes
  nodup := (List.nodup_cons.mp h.nodup).2
  taken := (List.cons_subset.mp h.taken).2
  begun other hother :=
    ⟨(h.begun other hother).1, fun hmem => (h.begun other hother).2 (List.mem_cons_of_mem _ hmem)⟩

/-- From now on the class states the types of a complex type. -/
theorem Sound.begin (h : Sound model ⟨own, name :: free⟩ c) (t : ComplexType) :
    Sound model ⟨Function.update own name (some t), free⟩ c := by
  have hname : own name = none := Option.not_isSome_iff_eq_none.mp fun hbegun =>
    (h.begun name hbegun).2 List.mem_cons_self
  obtain ⟨hnew, hnodup⟩ := List.nodup_cons.mp h.nodup
  obtain ⟨htaken, hfree⟩ := List.cons_subset.mp h.taken
  refine ⟨h.simpleTypes, fun e he => ?_, h.classes, hnodup, hfree, fun other hother => ?_⟩
  · obtain ⟨s, hs, hrepresents⟩ := h.attributeTypes e he
    exact ⟨s, hs.update hname t _, hrepresents⟩
  · by_cases heq : other = name
    · subst heq
      exact ⟨htaken, hnew⟩
    · simp only [Function.update_of_ne heq] at hother
      exact h.drop.begun other hother

/-- From here on a complex type states its types under a key, while these names stay free. -/
def Enters (model : Model) (st : Stage) (key : ScopeKey) (t : ComplexType) (free : List String) :
    Prop :=
  ∃ own, Stage.holder? ⟨own, free⟩ model key = some t ∧
    ∀ c, Sound model st c → Sound model ⟨own, free⟩ c

theorem enters_type {st : Stage} {t : ComplexType} (ht : model.complexType name = some t) :
    Enters model st (.type name) t st.free :=
  ⟨st.own, ht, fun _ => id⟩

/-- The key for a complex type that is built for a class of this name. -/
inductive KeyFor (model : Model) (name : String) (t : ComplexType) : ScopeKey → Prop
  | type {typeName : String} (ht : model.complexType typeName = some t) :
      KeyFor model name t (.type typeName)
  | struct : KeyFor model name t (.struct name)

theorem KeyFor.enters {key : ScopeKey} {t : ComplexType} (h : KeyFor model name t key) :
    Enters model ⟨own, name :: free⟩ key t free := by
  cases h with
  | type ht => exact ⟨own, ht, fun c hc => hc.drop⟩
  | struct =>
    exact ⟨Function.update own name (some t), Function.update_self .., fun c hc => hc.begin t⟩

end

/-! ## Classes -/

/-- A catalog that is right while these names are free, and that goes beyond another one. -/
def SoundBeyond (model : Model) (i : List String × Catalog) (c : Catalog) : Prop :=
  ∃ own, Sound model ⟨own, i.1⟩ c ∧ i.2 ≤ c

section
variable {model : Model} {st : Stage} {v : Catalog} {free : List String} {name : String}

theorem SoundBeyond.drop {c : Catalog} (h : SoundBeyond model (name :: free, v) c) :
    SoundBeyond model (free, v) c :=
  h.imp fun _ hc => ⟨hc.1.drop, hc.2⟩

theorem SoundBeyond.trans {w c : Catalog} (h : SoundBeyond model (free, w) c) (hle : v ≤ w) :
    SoundBeyond model (free, v) c :=
  h.imp fun _ hc => ⟨hc.1, hle.trans hc.2⟩

theorem Grows.and_result {α : Type} {x : Build α} {R : Catalog → α → Prop} {S : α → Prop}
    (h : Grows model st v x R) (h' : Ensures (fun _ => True) x fun a _ => S a) :
    Grows model st v x fun w a => R w a ∧ S a := by
  intro c a c' hc hx
  obtain ⟨hc', hle, ha⟩ := h c a c' hc hx
  exact ⟨hc', hle, ha, h' c a c' trivial hx⟩

theorem complexTypeOf?_grows (type : ElementType) :
    Grows model st v (complexTypeOf? model name type)
      fun _ r => ∀ p ∈ r, KeyFor model name p.2 p.1.key := by
  unfold complexTypeOf?
  split
  · split
    · next t ht =>
      refine (typeScope_grows _).bind fun scope w _ hscope => grows_pure fun _ _ p hp => ?_
      obtain rfl := Option.some.inj hp
      simp only [hscope]
      exact .type ht
    · exact grows_pure fun _ _ => nofun
  · refine grows_pure fun _ _ p hp => ?_
    obtain rfl := Option.some.inj hp
    exact .struct
  · exact grows_pure fun _ _ => nofun

theorem simpleContent_grows (className : String) (type : ElementType) :
    Grows model st v (simpleContent model className type)
      fun w t => Represents model w.enumerations type.valueType t := by
  cases type with
  | named name => exact resolveTypeName_grows resolveNamed_follows name v
  | simple s => exact resolveSimpleType_grows _ resolveNamed_follows v s
  | complex t => exact grows_pure fun w _ => ⟨_, .builtin "string", .primitive .string⟩
  | any => exact grows_pure fun w _ => ⟨_, .builtin "string", .primitive .string⟩

theorem addClass_sound {k : ElementClass}
    (hk : ∀ es, Extends v.enumerations es → k.ValuedFor model es) :
    Ensures (SoundBeyond model (free, v)) (addClass k) fun _ => SoundBeyond model (free, v) := by
  refine ensures_modify fun c ⟨own, hc, hle⟩ => ⟨own, { hc with classes := fun k' hk' => ?_ }, ?_⟩
  · rcases List.mem_append.mp hk' with hk' | hk'
    · exact hc.classes k' hk'
    · exact List.mem_singleton.mp hk' ▸ hk _ hle.enumerations
  · exact ⟨hle.enumerations, hle.attributeTypes, hle.elements⟩

/-- The values of a class are right as soon as they are drafted. -/
theorem DraftsValues.typeValues {t : ComplexType} {w : Catalog} {d : Draft}
    (h : DraftsValues model t w d) {k : ElementClass} (hfields : k.fields = d.fields)
    (hcontent : k.content = d.content) : TypeValues model w.enumerations t k := by
  obtain ⟨attributes, text, hvalues, hdrafted⟩ := h
  refine ⟨attributes, text, hvalues, ?_, ?_⟩
  · rw [hfields]
    exact hdrafted.fields
  · rw [hcontent]
    exact hdrafted.content

section
variable (hm : model.Keyed) (hnames : ∀ p ∈ model.attributes, p.2.name = p.1)
  {members : String → List DeclaredParticle → Build (Option Membership)}
  (hmembers : MembersKeep model (SoundBeyond model) members)
include hm hnames hmembers

/-- A class of a complex type is added after the classes inside of it, which leave its values as
they have been drafted. -/
theorem buildTyped_sound {scope : Scope} {t : ComplexType} (hkey : Enters model st scope.key t free)
    {k : Nat} (ht : TypePlaced model k t) (owner : String)
    {make : Draft → Option Membership → ElementClass}
    (hfields : ∀ d ms, (make d ms).fields = d.fields)
    (hcontent : ∀ d ms, (make d ms).content = d.content)
    (hfor : ∀ d ms es, TypeValues model es t (make d ms) → (make d ms).ValuedFor model es) :
    Ensures (fun c => Sound model st c ∧ v ≤ c) (do
        let draft ← derive model scope t
        addClass (make draft (← members owner draft.particles)))
      fun _ => SoundBeyond model (free, v) := by
  obtain ⟨own, hholder, hsound⟩ := hkey
  have hplaced : Settles (fun _ => True) (fun _ => True) (derive model scope t)
      (Draft.Placed model k) :=
    derive_settles model (Frame.serves model (frame_of_classes fun _ _ _ => id)) hm scope ht
  have hderive := (derive_grows (v := v) hnames hholder).and_result
    (hplaced.ensures.weaken fun _ _ h => h.2)
  refine Ensures.strengthen ?_ fun c hc => And.intro (hsound c hc.1) hc.2
  refine hderive.ensures_bind fun d w hvw ⟨hd, hplaced⟩ => ?_
  have hadd (ms : Option Membership) : Ensures (SoundBeyond model (free, w)) (addClass (make d ms))
      fun _ => SoundBeyond model (free, w) :=
    addClass_sound fun es hes =>
      hfor d ms es ((hd.typeValues (hfields d ms) (hcontent d ms)).mono hes)
  have hmake := (hmembers (free, w) d k owner hplaced).ensures_bind fun ms _ => hadd ms
  exact (hmake.strengthen fun c hc => ⟨own, hc⟩).weaken fun _ _ hc => hc.trans hvw

theorem buildClass_sound (origin : Origin) {d : ElementDeclaration}
    (hd : d.type.declared.Sublist model.declared)
    (hfor : ∀ (k : ElementClass) es, k.origin = origin → k.xmlName = d.name →
      ElementValues model es d.type k → k.ValuedFor model es) :
    Ensures (SoundBeyond model (name :: free, v)) (buildClass model members origin name d)
      fun _ => SoundBeyond model (free, v) := by
  have htext {w : Catalog} {k : ElementClass} (horigin : k.origin = origin)
      (hname : k.xmlName = d.name) (hk : ElementValues model w.enumerations d.type k) :
      Ensures (SoundBeyond model (name :: free, w)) (addClass k)
        fun _ => SoundBeyond model (free, w) :=
    (addClass_sound fun es hes => hfor k es horigin hname (hk.mono hes)).strengthen fun _ => .drop
  rw [buildClass]
  split
  · next hany =>
    refine htext rfl rfl (.text (by rw [hany]; rfl) ⟨rfl, .some ?_⟩)
    rw [hany]
    exact ⟨_, .builtin "string", .primitive .string⟩
  · have hplaced : Settles (fun _ => True) (fun _ => True) (complexTypeOf? model name d.type)
        fun r => ∀ p ∈ r, TypePlaced model d.type.declared.length p.2 :=
      complexTypeOf?_settles model (fun _ _ => trivial) hm name hd
    refine ensures_exists fun own => ?_
    refine ((complexTypeOf?_grows d.type).and_result
      ((hplaced.and_result (complexTypeOf?_complex? name d.type)).ensures.weaken
        fun _ _ h => h.2)).ensures_bind fun r w hle h => ?_
    obtain ⟨hkey, hplaced, hcomplex⟩ := h
    split
    · next scope t =>
      refine (buildTyped_sound hm hnames hmembers (hkey _ rfl).enters (hplaced _ rfl) name
        (fun _ _ => rfl) (fun _ _ => rfl) fun draft ms es h => ?_).weaken fun _ _ h => h.trans hle
      exact hfor _ es rfl rfl (.complex hcomplex h)
    · refine (simpleContent_grows name d.type).ensures_bind fun content w' hle' hcontent => ?_
      have hadd := htext (w := w') (k := ⟨name, origin, d.name, documentationOf model d,
        some content, [], none, [], !d.isAbstract⟩) rfl rfl (.text hcomplex ⟨rfl, .some hcontent⟩)
      exact (hadd.strengthen fun c hc => ⟨own, hc⟩).weaken fun _ _ hc => hc.trans (hle.trans hle')

end

/-! ## Elements inside -/

theorem reserve_sound (preferred : String) (alternative : Option String) :
    Ensures (SoundBeyond model (free, v)) (reserve preferred alternative)
      fun name => SoundBeyond model (name :: free, v) :=
  reserve_ensures fun _ _ ⟨own, hc, hle⟩ hnew _ =>
    ⟨own, hc.reserve hnew.new (.refl _), ⟨hle.enumerations, hle.attributeTypes, hle.elements⟩⟩

theorem rememberElement_sound (declaredIn : Option String) (d : ElementDeclaration)
    (className : String) :
    Ensures (SoundBeyond model (free, v)) (rememberElement declaredIn d className)
      fun _ => SoundBeyond model (free, v) := by
  unfold rememberElement
  split
  · exact ensures_modify fun c ⟨own, hc, hle⟩ => ⟨own, { hc with }, { hle with }⟩
  · exact ensures_modify fun c ⟨own, hc, hle⟩ => ⟨own, { hc with }, { hle with }⟩
  · exact ensures_pure fun _ hc => hc

section
variable (hm : model.Keyed) (hnames : ∀ p ∈ model.attributes, p.2.name = p.1)
include hm hnames

/-- An element inside gets a name, under which nothing has been stated, and then its class. -/
theorem keptInside_sound : KeptInside model (SoundBeyond model) := by
  intro bound groups hmembers ⟨free, v⟩ declaredIn owner d hd
  have helement := model.mem_allElements (hd.subset d.mem_declared)
  refine settles_of_ensures (Ensures.weaken (Q := fun _ => SoundBeyond model (free, v)) ?_
    fun _ _ hc => ⟨hc, trivial⟩)
  have hreserve : Ensures (SoundBeyond model (free, v)) (reserveElement declaredIn owner d)
      fun name => SoundBeyond model (name :: free, v) :=
    ensures_get_bind fun c hc => (reserve_sound _ _).strengthen fun _ h => h ▸ hc
  refine hreserve.bind fun name => (rememberElement_sound declaredIn d name).bind fun _ => ?_
  refine (buildClass_sound hm hnames hmembers .localElement (d.sublist_type.trans hd)
    fun k es horigin hname h => .localElement helement horigin hname h).bind fun _ => ?_
  exact ensures_pure fun _ hc => hc

theorem membershipOf_sound : MembersKeep model (SoundBeyond model) (membershipOf model) :=
  (keptInside_sound hm hnames).members (nestingBound model) []

/-! ## The whole construction -/

theorem buildComplexType_sound {e : String × ComplexType} (he : e ∈ model.complexTypes) :
    Ensures (SoundBeyond model (free, v)) (buildComplexType model e.1 e.2)
      fun _ => SoundBeyond model (free, v) := by
  have hfound : model.complexType e.1 = some e.2 := (find_eq_some_iff hm.complexTypes).mpr he
  refine ensures_exists fun own => ?_
  refine (typeScope_grows e.1).ensures_bind fun scope w hle hscope => ?_
  split
  · exact ensures_modify fun c ⟨hc, hle'⟩ =>
      ⟨own, { hc with }, hle.trans { hle' with }⟩
  · have hkey : Enters model ⟨own, free⟩ scope.key e.2 free := hscope ▸ enters_type hfound
    refine (buildTyped_sound hm hnames (membershipOf_sound hm hnames) hkey
      (placed_of_complexType model hm he 0) scope.name (fun _ _ => rfl) (fun _ _ => rfl)
      fun d ms es h => ?_).weaken fun _ _ hc => hc.trans hle
    exact .complexType he rfl rfl h

theorem buildElement_sound {e : String × ElementDeclaration} (he : e ∈ model.elements)
    (hname : remembered v.elements e.1 = some name) :
    Ensures (SoundBeyond model (name :: free, v)) (buildElement model e.1 e.2)
      fun _ => SoundBeyond model (free, v) := by
  have hreferred : Ensures (SoundBeyond model (name :: free, v)) (referredElement e.1)
      fun className c => SoundBeyond model (className :: free, v) c := by
    refine ensures_get_bind fun c hc => ?_
    obtain ⟨own, hsound, hle⟩ := hc
    rw [hle.elements, hname]
    exact ensures_pure fun _ h => h ▸ ⟨own, hsound, hle⟩
  refine hreferred.bind fun className => ?_
  exact buildClass_sound hm hnames (membershipOf_sound hm hnames) .topLevel
    (e.2.sublist_type.trans (model.sublist_of_element he))
    fun k es horigin hname h => .element he horigin hname h

/-- The names of the elements that are still to come are free. -/
theorem buildElements_sound {es : List (String × ElementDeclaration)} {names : List String}
    (hes : es ⊆ model.elements)
    (h : List.Forall₂ (fun e name => remembered v.elements e.1 = some name) es names) :
    Ensures (SoundBeyond model (names, v)) (es.forM fun e => buildElement model e.1 e.2)
      fun _ => SoundBeyond model ([], v) := by
  induction h with
  | nil => exact ensures_pure fun _ hc => hc
  | cons hname _ ih =>
    obtain ⟨he, hes⟩ := List.cons_subset.mp hes
    exact (buildElement_sound hm hnames he hname).bind fun _ => ih hes

end

/-- Names of elements have been given out, and are free. -/
def ElementsFree (model : Model) (before : List (String × ElementDeclaration)) (c : Catalog) :
    Prop :=
  ∃ names, Sound model ⟨fun _ => none, names⟩ c ∧
    c.elements.map (·.1) = (before.map (·.1)).reverse ∧
    List.Forall₂ (fun e name => (e.1, name) ∈ c.elements) before names

theorem declareElement_free (e : String × ElementDeclaration)
    (before : List (String × ElementDeclaration)) :
    Ensures (ElementsFree model before) (declareElement e.1)
      fun _ => ElementsFree model (before ++ [e]) := by
  refine Ensures.bind (Q := fun name d => ∃ names, Sound model ⟨fun _ => none, names ++ [name]⟩ d ∧
      d.elements.map (·.1) = (before.map (·.1)).reverse ∧
      List.Forall₂ (fun e name => (e.1, name) ∈ d.elements) before names)
    (reserve_ensures fun c name ⟨names, hc, hkeys, hbefore⟩ hnew _ =>
      ⟨names, hc.reserve hnew.new (List.perm_append_singleton _ _), hkeys, hbefore⟩) fun name => ?_
  refine ensures_modify fun c ⟨names, hc, hkeys, hbefore⟩ => ⟨names ++ [name], { hc with }, ?_, ?_⟩
  · rw [List.map_cons, hkeys, List.map_append, List.map_singleton, List.reverse_concat]
  · refine List.rel_append (hbefore.imp fun e name h => List.mem_cons_of_mem _ h) ?_
    exact .cons List.mem_cons_self .nil

theorem forM_grows {α : Type} {f : α → Build PUnit} {xs : List α}
    (h : ∀ x ∈ xs, ∀ v, Grows model st v (f x) fun _ _ => True) (v : Catalog) :
    Grows model st v (xs.forM f) fun _ _ => True := by
  induction xs generalizing v with
  | nil => exact grows_pure fun _ _ => trivial
  | cons x xs ih =>
    obtain ⟨hx, hxs⟩ := List.forall_mem_cons.mp h
    exact (hx v).bind fun _ w _ _ => ih hxs w

theorem declareComplexType_grows (e : String × ComplexType) (v : Catalog) :
    Grows model st v (declareComplexType e.1 e.2) fun _ _ => True :=
  (reserve_grows e.1 none).bind fun _ _ _ _ => grows_modify fun _ hc _ =>
    ⟨{ hc with }, ⟨extends_refl _, List.Subset.refl _, rfl⟩, trivial⟩

theorem sound_empty : Sound model ⟨fun _ => none, []⟩ {} :=
  ⟨by simp, by simp, by simp, List.nodup_nil, by simp, by simp⟩

/-- Nothing is stated under any key while names are given out. -/
theorem buildAll_of_free {Q : PUnit → Catalog → Prop}
    (hclasses : Ensures (ElementsFree model model.elements) (do
      model.complexTypes.forM fun e => buildComplexType model e.1 e.2
      model.elements.forM fun e => buildElement model e.1 e.2) Q) :
    Ensures (· = {}) (buildAll model) Q := by
  have hstart (c : Catalog) (hc : c = {}) :
      Sound model ⟨fun _ => none, []⟩ c ∧ ({} : Catalog) ≤ c := by
    subst hc
    exact ⟨sound_empty, le_refl _⟩
  refine Ensures.strengthen ?_ hstart
  refine (forM_grows (fun e _ v => ?_) _).ensures_bind fun _ w hle _ =>
    (forM_grows (fun e _ v => declareComplexType_grows e v) w).ensures_bind fun _ w' hle' _ => ?_
  · exact (resolveNamed_follows e.1 v).bind fun _ _ _ _ => grows_pure fun _ _ => trivial
  · have hfree : Ensures (ElementsFree model []) (model.elements.forM fun e => declareElement e.1)
        fun _ => ElementsFree model model.elements :=
      forM_ensures fun before e _ => declareElement_free e before
    refine (hfree.strengthen fun c ⟨hc, hle''⟩ => ⟨[], hc, ?_, .nil⟩).bind fun _ => hclasses
    rw [((hle.trans hle').trans hle'').elements]
    rfl

section
variable (hm : model.Keyed) (hnames : ∀ p ∈ model.attributes, p.2.name = p.1)
include hm hnames

theorem buildAll_sound : Ensures (· = {}) (buildAll model)
    fun _ c => ∀ k ∈ c.classes, k.ValuedFor model c.enumerations := by
  refine buildAll_of_free ?_
  intro c u c' ⟨names, hc, hkeys, helements⟩ hrun
  have hnodup : (c.elements.map (·.1)).Nodup := hkeys ▸ List.nodup_reverse.mpr hm.elements
  have htypes : SettlesAll (fun _ => True) (SoundBeyond model (names, c))
      (model.complexTypes.forM fun e => buildComplexType model e.1 e.2) :=
    forM_settles fun e he => settles_of_ensures ((buildComplexType_sound hm hnames he).weaken
      fun _ _ hc => ⟨hc, trivial⟩)
  have hrest := buildElements_sound hm hnames (List.Subset.refl _)
    (helements.imp fun e name h => remembered_of_mem hnodup h)
  obtain ⟨own, hsound, -⟩ := htypes.ensures_bind (fun _ _ => hrest) c u c'
    ⟨_, hc, le_refl _⟩ hrun
  exact hsound.classes

theorem Module.valuedFor_of_ofModel {m : Module} (h : Module.ofModel model = .ok m) :
    ∀ k ∈ m.classes, k.ValuedFor model m.enumerations := by
  obtain ⟨u, catalog, hrun, rfl⟩ := exists_catalog_of_ofModel h
  exact buildAll_sound hm hnames {} u catalog rfl hrun

end

end

end XmlBinding.Binding

namespace XmlBinding
open Schema Binding Xml

/-- What the values of a class are, and what they are kept as, is said by the declarations in the
type that the class was made for. The text has the type that is stated for it, or inherited, and an
attribute has the type of its own declaration, unless the text of the type that states it has a type
without a name and the attribute, of such a type itself, has the name of the text. -/
theorem valuedFor_of_bindSchema {text : String} {allow : Bool} {m : Module}
    (h : bindSchema text allow = .ok m) :
    ∃ model, readSchema allow text = .ok model ∧
      ∀ k ∈ m.classes, k.ValuedFor model m.enumerations := by
  obtain ⟨model, hread, hbound⟩ := bindSchema_eq_ok.mp h
  exact ⟨model, hread, Module.valuedFor_of_ofModel (keyed_of_readSchema hread)
    (attributeName_of_readSchema hread) hbound⟩

/-- A restriction of strings to literals, and what else is stated in it. -/
def literalsOutline (values : List String) (more : List Outline) : Outline :=
  schemaElement "restriction" [("base", "string")]
    (values.map (fun value => schemaElement "enumeration" [("value", value)] []) ++ more)

/-- A type with literals for its text and other ones for an attribute. -/
def gradeOutline (xmlName : String) : Outline :=
  schemaElement "schema" [] [schemaElement "complexType" [("name", "Grade")]
    [schemaElement "simpleContent" [] [literalsOutline ["a", "b"]
      [schemaElement "attribute" [("name", xmlName)]
        [schemaElement "simpleType" [] [literalsOutline ["oral"] []]]]]]]

def literalsRestriction (values : List String) : Restriction :=
  ⟨.named (.builtin "string"), values.map (⟨·, none⟩), [], []⟩

def gradeAttribute (xmlName : String) : AttributeDeclaration :=
  ⟨xmlName, none, some (.inline (literalsRestriction ["oral"]).asType), none, none⟩

def gradeSchema (xmlName : String) : Model :=
  { complexTypes := [("Grade", ⟨some "Grade", none, false, false,
      .simpleRestriction (literalsRestriction ["a", "b"]),
      [.declaration (gradeAttribute xmlName) false]⟩)] }

theorem readModel_gradeOutline (xmlName : String) :
    readModel ((gradeOutline xmlName).element none []) = .ok (gradeSchema xmlName) := by
  cbv

theorem valuedFor_gradeOutline : ∃ m, bindSchema (gradeOutline "mode").document false = .ok m ∧
    m.classes.any (fun k => k.content = some (.enumeration 0) &&
      k.fields.map (·.type) = [.enumeration 1]) ∧
    ∃ model, readSchema false (gradeOutline "mode").document = .ok model ∧
      ∀ k ∈ m.classes, k.ValuedFor model m.enumerations := by
  obtain ⟨m, hm, hvalues⟩ := exists_bindSchema_document (P := fun m => m.classes.any fun k =>
      k.content = some (.enumeration 0) && k.fields.map (·.type) = [.enumeration 1])
    (by decide +kernel) (readModel_gradeOutline "mode") (by decide +kernel) false
  exact ⟨m, hm, hvalues, valuedFor_of_bindSchema hm⟩

/-- The only attribute of a type is not kept as its own type but as that of the text. -/
theorem not_represents_gradeOutline : ∃ m model t d,
    bindSchema (gradeOutline "Content").document false = .ok m ∧
    readSchema false (gradeOutline "Content").document = .ok model ∧
    model.complexTypes = [("Grade", t)] ∧ t.attributes = [.declaration d false] ∧
    ∃ k ∈ m.classes, k.xmlName = "Grade" ∧ ∃ f ∈ k.fields, f.xmlName = d.name ∧
      some f.type = k.content ∧ ¬ Represents model m.enumerations d.valueType f.type := by
  have hdocument : ∀ p ∈ (gradeOutline "Content").outlines, p.Proper isPlain := by decide +kernel
  obtain ⟨m, hm, hP⟩ := exists_bindSchema_document (P := fun m =>
      (m.enumerations[0]?.map fun e => e.literals.map (·.value)) = some ["a", "b"] &&
      m.classes.any fun k => k.xmlName = "Grade" && k.fields.any fun f =>
        f.xmlName = "Content" && f.type = .enumeration 0 && k.content = some f.type)
    hdocument (readModel_gradeOutline "Content") (by decide +kernel) false
  rw [Bool.and_eq_true, List.any_eq_true, decide_eq_true_eq] at hP
  obtain ⟨hliterals, k, hk, hP⟩ := hP
  rw [Bool.and_eq_true, List.any_eq_true, decide_eq_true_eq] at hP
  obtain ⟨hname, f, hf, hP⟩ := hP
  simp only [Bool.and_eq_true, decide_eq_true_eq] at hP
  obtain ⟨⟨hfield, htype⟩, hcontent⟩ := hP
  refine ⟨m, gradeSchema "Content", _, gradeAttribute "Content", hm,
    (readSchema_document hdocument false).trans (readModel_gradeOutline "Content"), rfl, rfl, k, hk,
    hname, f, hf, hfield, hcontent.symm, fun ⟨meaning, hmeans, hkept⟩ => ?_⟩
  rw [htype] at hkept
  cases hmeans.unique (.literals rfl rfl)
  cases hkept with
  | enumeration he _ hown _ =>
    rw [he, Option.map_some, hown] at hliterals
    exact absurd hliterals (by decide)

end XmlBinding
