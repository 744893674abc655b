import XmlBinding.Proofs.Binding.FieldTypes
import XmlBinding.Proofs.Binding.Ledger
import XmlBinding.Proofs.Binding.Settling

/-! # What is remembered of types

While classes are built, types that have been resolved are remembered: those with names by name, the
others by the type that states them and the name they are stated under. Whatever is remembered is
the type of a field that stands for the right one of these. A class without a type of its own name
begins to state types when its attributes are drafted, and there is one such time for each.
-/
namespace XmlBinding.Schema
open Binding

/-- The type without a name that a complex type states under a name, be it for its text, which goes
first, or for an attribute. -/
inductive ComplexType.Anonymous (model : Model) (t : ComplexType) (name : String) (s : SimpleType) :
    Prop
  | text {r : Restriction} (hr : t.content.restriction? model = some r) (hname : name = contentName)
      (hs : s = r.asType)
  | declared {sources : List AttributeSource} (h : Expands model t.attributes sources)
      (hs : find (sources.filterMap AttributeSource.anonymous?) name = some s)
      (htext : name = contentName → t.content.restriction? model = none)

theorem ComplexType.Anonymous.unique {model : Model} {t : ComplexType} {name : String}
    {s s' : SimpleType} (h : t.Anonymous model name s) (h' : t.Anonymous model name s') :
    s = s' := by
  cases h with
  | text hr hname hs =>
    cases h' with
    | text hr' _ hs' =>
      obtain rfl := Option.some.inj (hr.symm.trans hr')
      rw [hs, hs']
    | declared _ _ htext =>
      rw [htext hname] at hr
      cases hr
  | declared h hs htext =>
    cases h' with
    | text hr hname _ =>
      rw [htext hname] at hr
      cases hr
    | declared h' hs' _ =>
      rw [h.unique h', hs'] at hs
      exact (Option.some.inj hs).symm

end XmlBinding.Schema

namespace XmlBinding.Binding
open Schema Value

/-! ## Catalogs that tell the truth -/

/-- The types of classes that have begun to state types, and the names of those that have not. -/
structure Stage where
  own : String → Option ComplexType
  free : List String

/-- The complex type behind a key. -/
def Stage.holder? (st : Stage) (model : Model) : ScopeKey → Option ComplexType
  | .type name => model.complexType name
  | .struct name => st.own name
  | .global => none

section
variable (model : Model) (st : Stage)

/-- The type without a name that is stated under a key. -/
inductive Stands : ScopeKey → String → SimpleType → Prop
  | topLevel {name : String} {d : AttributeDeclaration} {s : SimpleType}
      (hd : model.attribute? name = some d) (hs : d.type = some (.inline s)) :
      Stands .global name s
  | scope {key : ScopeKey} {t : ComplexType} {name : String} {s : SimpleType}
      (ht : st.holder? model key = some t) (hs : t.Anonymous model name s) : Stands key name s

/-- What is remembered is right, and so are the classes there are. -/
structure Sound (c : Catalog) : Prop where
  simpleTypes : ∀ e ∈ c.simpleTypes, Represents model c.enumerations (.named (.schema e.1)) e.2
  attributeTypes : ∀ e ∈ c.attributeTypes, ∃ s, Stands model st e.1.1 e.1.2 s ∧
    Represents model c.enumerations (.inline s) e.2
  classes : ∀ k ∈ c.classes, k.ValuedFor model c.enumerations
  nodup : st.free.Nodup
  taken : st.free ⊆ c.taken
  begun : ∀ name, (st.own name).isSome = true → name ∈ c.taken ∧ name ∉ st.free

end

theorem Stands.unique {model : Model} {st : Stage} {key : ScopeKey} {name : String}
    {s s' : SimpleType} (h : Stands model st key name s) (h' : Stands model st key name s') :
    s = s' := by
  cases h with
  | topLevel hd hs =>
    cases h' with
    | topLevel hd' hs' =>
      obtain rfl := Option.some.inj (hd.symm.trans hd')
      exact SimpleTypeRef.inline.inj (Option.some.inj (hs.symm.trans hs'))
    | scope ht _ => cases ht
  | scope ht hs =>
    cases h' with
    | topLevel => cases ht
    | scope ht' hs' =>
      obtain rfl := Option.some.inj (ht.symm.trans ht')
      exact hs.unique hs'

/-- What may be done to a catalog while names of elements are fixed. -/
structure Catalog.GrowsTo (v c : Catalog) : Prop where
  enumerations : Extends v.enumerations c.enumerations
  attributeTypes : v.attributeTypes ⊆ c.attributeTypes
  elements : c.elements = v.elements

instance : Preorder Catalog where
  le := Catalog.GrowsTo
  le_refl c := ⟨extends_refl _, List.Subset.refl _, rfl⟩
  le_trans _ _ _ h h' :=
    ⟨h.enumerations.trans h'.enumerations, List.Subset.trans h.attributeTypes h'.attributeTypes,
      h'.elements.trans h.elements⟩

section
variable {model : Model} {st : Stage} {v c c' : Catalog}

/-- Neither enumerations that are added or made flags of nor names that are given out make anything
wrong. -/
theorem Sound.extend (h : Sound model st c) (hes : Extends c.enumerations c'.enumerations)
    (htaken : c.taken ⊆ c'.taken) (hsimple : c'.simpleTypes = c.simpleTypes)
    (hattributes : c'.attributeTypes = c.attributeTypes) (hclasses : c'.classes = c.classes) :
    Sound model st c' where
  simpleTypes e he := (h.simpleTypes e (hsimple ▸ he)).mono hes
  attributeTypes e he := by
    obtain ⟨s, hs, hrepresents⟩ := h.attributeTypes e (hattributes ▸ he)
    exact ⟨s, hs, hrepresents.mono hes⟩
  classes k hk := (h.classes k (hclasses ▸ hk)).mono hes
  nodup := h.nodup
  taken := List.Subset.trans h.taken htaken
  begun name hname := ⟨htaken (h.begun name hname).1, (h.begun name hname).2⟩

end

/-- From a catalog that is right and goes beyond `v` the step leaves another one, if it succeeds,
and `R` holds of that and the result. -/
def Grows {α : Type} (model : Model) (st : Stage) (v : Catalog) (x : Build α)
    (R : Catalog → α → Prop) : Prop :=
  Ensures (fun c => Sound model st c ∧ v ≤ c) x fun a c => Sound model st c ∧ v ≤ c ∧ R c a

section
variable {α β : Type} {model : Model} {st : Stage} {v : Catalog} {x : Build α}
  {R S : Catalog → α → Prop}

theorem Grows.ensures_bind {f : α → Build β} {Q : β → Catalog → Prop} (hx : Grows model st v x R)
    (hf : ∀ a w, v ≤ w → R w a → Ensures (fun c => Sound model st c ∧ w ≤ c) (f a) Q) :
    Ensures (fun c => Sound model st c ∧ v ≤ c) (x >>= f) Q :=
  Ensures.bind hx fun a c b c' ⟨hc, hv, ha⟩ hb => hf a c hv ha c b c' ⟨hc, le_refl _⟩ hb

theorem Grows.bind {f : α → Build β} {T : Catalog → β → Prop} (hx : Grows model st v x R)
    (hf : ∀ a w, v ≤ w → R w a → Grows model st w (f a) T) : Grows model st v (x >>= f) T :=
  hx.ensures_bind fun a w hv ha => (hf a w hv ha).weaken fun _ _ ⟨hc, hle, hb⟩ =>
    ⟨hc, hv.trans hle, hb⟩

theorem Grows.weaken (hx : Grows model st v x R) (h : ∀ a w, v ≤ w → R w a → S w a) :
    Grows model st v x S :=
  Ensures.weaken hx fun a c ⟨hc, hv, ha⟩ => ⟨hc, hv, h a c hv ha⟩

theorem grows_pure {a : α} (h : ∀ w, v ≤ w → R w a) : Grows model st v (pure a : Build α) R :=
  ensures_pure fun _ hc => ⟨hc.1, hc.2, h _ hc.2⟩

theorem grows_fail {e : BindingError} : Grows model st v (fail e : Build α) R :=
  ensures_fail

theorem grows_lift {r : Except BindingError α} (h : ∀ a, r = .ok a → ∀ w, R w a) :
    Grows model st v (liftM r : Build α) R :=
  ensures_lift fun a c hr hc => ⟨hc.1, hc.2, h a hr c⟩

theorem grows_get :
    Grows model st v (get : Build Catalog) fun w c => w = c ∧ Sound model st c :=
  ensures_get fun _ hc => ⟨hc.1, hc.2, rfl, hc.1⟩

/-- The type of a field is remembered once it has been found. -/
theorem grows_modify {f : Catalog → Catalog} {T : Catalog → PUnit → Prop}
    (h : ∀ c, Sound model st c → v ≤ c → Sound model st (f c) ∧ c ≤ f c ∧ T (f c) ⟨⟩) :
    Grows model st v (modify f : Build PUnit) T := by
  refine ensures_modify fun c ⟨hc, hv⟩ => ?_
  obtain ⟨hsound, hle, hT⟩ := h c hc hv
  exact ⟨hsound, hv.trans hle, hT⟩

/-! ## Simple types -/

theorem reserve_grows (preferred : String) (alternative : Option String) :
    Grows model st v (reserve preferred alternative) fun _ _ => True := by
  refine reserve_ensures fun c name ⟨hc, hv⟩ _ _ => ?_
  refine ⟨hc.extend (extends_refl _) (List.subset_cons_self _ _) rfl rfl rfl, ?_, trivial⟩
  exact hv.trans ⟨extends_refl _, List.Subset.refl _, rfl⟩

/-- A catalog whose enumerations are extended. -/
theorem set_grows {c : Catalog} (hc : Sound model st c) (hv : v ≤ c) {es : List Enumeration}
    (hes : Extends c.enumerations es) {T : Catalog → PUnit → Prop}
    (hT : T { c with enumerations := es } ⟨⟩) :
    Ensures (· = c) (set { c with enumerations := es } : Build PUnit)
      fun a w => Sound model st w ∧ v ≤ w ∧ T w a := by
  refine ensures_set fun _ _ => ⟨hc.extend hes (List.Subset.refl _) rfl rfl rfl, ?_, hT⟩
  exact hv.trans ⟨hes, List.Subset.refl _, rfl⟩

theorem addEnumeration_grows (e : Enumeration) :
    Grows model st v (addEnumeration e) fun w t =>
      ∃ place, t = .enumeration place ∧ w.enumerations[place]? = some e := by
  refine ensures_get_bind fun c ⟨hc, hv⟩ => ?_
  have hset := set_grows hc hv (extends_append c.enumerations [e])
    (T := fun w _ => w.enumerations = c.enumerations ++ [e]) rfl
  refine hset.bind fun _ => ensures_pure fun w ⟨hw, hle, hes⟩ => ⟨hw, hle, _, rfl, ?_⟩
  rw [hes, List.getElem?_concat_length]

theorem enumerate_grows (target : Target) (documentation : Option String) (facets : List Facet) :
    Grows model st v (enumerate target documentation facets) fun w t =>
      KeptAs w.enumerations (.enumeration documentation facets false) t := by
  refine (reserve_grows _ _).bind fun name w _ _ => ?_
  refine (addEnumeration_grows _).weaken fun t w _ ⟨place, ht, he⟩ => ?_
  rw [ht]
  exact .enumeration he rfl rfl nofun

theorem promote_grows {place : Nat} {e : Enumeration} (he : v.enumerations[place]? = some e) :
    Grows model st v (promote place) fun w _ =>
      w.enumerations[place]? = some { e with form := .flags } := by
  refine ensures_get_bind fun c ⟨hc, hv⟩ => ?_
  obtain ⟨form, hform, -⟩ := hv.enumerations _ _ he
  have hset := List.getElem?_set_self (a := { e with form := .flags })
    (List.getElem?_eq_some_iff.mp hform).1
  simp only [hform]
  refine Ensures.bind (Q := fun f d => d = c ∧ f = { e with form := .flags })
    (ensures_lift fun f d hf hd => ⟨hd, toFlags_eq hf⟩) fun f => ?_
  rintro d u d' ⟨rfl, rfl⟩
  exact set_grows hc hv (extends_set hform)
    (T := fun w _ => w.enumerations[place]? = some { e with form := .flags }) hset d u d' rfl

/-- The items of a list become flags. -/
theorem listOf_grows {item : SimpleTypeRef} {t : FieldType} {s : SimpleType}
    (hs : s.variety = .list item) (ht : Represents model v.enumerations item t) :
    Grows model st v (listOf t) fun w t' => Represents model w.enumerations (.inline s) t' := by
  obtain ⟨meaning, hmeans, hkept⟩ := ht
  cases hkept with
  | primitive p => exact grows_fail
  | enumeration he hdocumentation hliterals _ =>
    refine (promote_grows he).bind fun _ w _ hw => grows_pure fun w' hw' => ?_
    refine Represents.mono ⟨_, .list hs hmeans, ?_⟩ hw'.enumerations
    exact .enumeration hw hdocumentation hliterals fun _ => rfl

section
variable {named : String → Build FieldType} (target : Target)

/-- References by name are followed. -/
def ResolvesNames (model : Model) (st : Stage) (named : String → Build FieldType) : Prop :=
  ∀ name v, Grows model st v (named name) fun w t =>
    Represents model w.enumerations (.named (.schema name)) t

theorem resolveTypeName_grows (hnamed : ResolvesNames model st named) (name : TypeName)
    (v : Catalog) :
    Grows model st v (resolveTypeName named name) fun w t =>
      Represents model w.enumerations (.named name) t := by
  cases name with
  | builtin name => exact grows_pure fun w _ => ⟨_, .builtin name, .primitive _⟩
  | schema name => exact hnamed name v

mutual

theorem resolveSimpleType_grows (hnamed : ResolvesNames model st named) (v : Catalog) :
    ∀ s : SimpleType, Grows model st v (resolveSimpleType named target s) fun w t =>
      Represents model w.enumerations (.inline s) t
  | ⟨name, documentation, variety⟩ => by
    rw [resolveSimpleType]
    exact resolveVariety_grows hnamed v name documentation variety

theorem resolveVariety_grows (hnamed : ResolvesNames model st named) (v : Catalog)
    (name documentation : Option String) : ∀ variety : Variety,
    Grows model st v (resolveVariety named target documentation variety) fun w t =>
      Represents model w.enumerations (.inline ⟨name, documentation, variety⟩) t
  | .restriction r => by
    rw [resolveVariety]
    exact resolveRestriction_grows hnamed v name documentation r
  | .list item => by
    rw [resolveVariety]
    exact (resolveRef_grows hnamed v item).bind fun t w _ ht => listOf_grows rfl ht
  | .union [] => by
    rw [resolveVariety]
    exact grows_fail
  | .union (first :: others) => by
    rw [resolveVariety]
    refine (resolveRef_grows hnamed v first).weaken fun t w _ ⟨meaning, hmeans, hkept⟩ => ?_
    exact ⟨meaning, .union rfl hmeans, hkept⟩

theorem resolveRef_grows (hnamed : ResolvesNames model st named) (v : Catalog) :
    ∀ ref : SimpleTypeRef,
    Grows model st v (resolveRef named target ref) fun w t => Represents model w.enumerations ref t
  | .named name => by
    rw [resolveRef]
    exact resolveTypeName_grows hnamed name v
  | .inline s => by
    rw [resolveRef]
    exact resolveSimpleType_grows hnamed v s

theorem resolveRestriction_grows (hnamed : ResolvesNames model st named) (v : Catalog)
    (name documentation : Option String) : ∀ r : Restriction,
    Grows model st v (resolveRestriction named target documentation r) fun w t =>
      Represents model w.enumerations (.inline ⟨name, documentation, .restriction r⟩) t
  | ⟨base, enumerations, patterns, otherFacets⟩ => by
    rw [resolveRestriction]
    refine (grows_lift fun _ _ _ => trivial).bind (R := fun _ _ => True) fun _ w _ _ => ?_
    split
    · next hnone =>
      refine (resolveRef_grows hnamed w base).weaken fun t w _ ⟨meaning, hmeans, hkept⟩ => ?_
      exact ⟨meaning, .base rfl hnone hmeans, hkept⟩
    · next hsome =>
      refine (enumerate_grows target documentation enumerations).weaken fun t w _ hkept => ?_
      exact ⟨_, .literals rfl (Bool.eq_false_iff.mpr hsome), hkept⟩

end

end

theorem resolveNamedWithin_follows (bound : Nat) (active : List String) :
    ResolvesNames model st (resolveNamedWithin model bound active) := by
  induction bound generalizing active with
  | zero => exact fun _ _ => grows_fail
  | succ bound ih =>
    intro name v
    rw [resolveNamedWithin]
    refine grows_get.bind fun c w _ h => ?_
    obtain ⟨rfl, hc⟩ := h
    split
    · next t ht =>
      have ht := hc.simpleTypes _ (mem_of_remembered ht)
      exact grows_pure fun w hw => ht.mono hw.enumerations
    · refine Grows.bind (R := fun _ s => model.simpleType name = some s)
        (grows_lift fun s hs _ => simpleType_of_defined model hs) fun s w _ hs => ?_
      split
      · exact grows_fail
      · refine (resolveSimpleType_grows _ (ih (name :: active)) w s).bind fun t w' _ ht => ?_
        have ht : Represents model w'.enumerations (.named (.schema name)) t := by
          obtain ⟨meaning, hmeans, hkept⟩ := ht
          exact ⟨meaning, .schema hs hmeans, hkept⟩
        refine Grows.bind (R := fun _ _ => True) (grows_modify fun c hc hle => ?_)
          fun _ _ hle _ => grows_pure fun _ hle' => ht.mono (hle.trans hle').enumerations
        have hsound : Sound model st { c with simpleTypes := (name, t) :: c.simpleTypes } :=
          { hc with
            simpleTypes := List.forall_mem_cons.mpr ⟨ht.mono hle.enumerations, hc.simpleTypes⟩ }
        exact ⟨hsound, ⟨extends_refl _, List.Subset.refl _, rfl⟩, trivial⟩

theorem resolveNamed_follows : ResolvesNames model st (resolveNamed model) :=
  fun name v => resolveNamedWithin_follows _ [] name v

/-! ## Types without a name -/

/-- There is a note of what is stated under a key. -/
def Catalog.Notes (c : Catalog) (key : ScopeKey × String) : Prop :=
  ∃ t, (key, t) ∈ c.attributeTypes

theorem Catalog.Notes.mono {c c' : Catalog} {key : ScopeKey × String} (h : c.Notes key)
    (hle : c ≤ c') : c'.Notes key :=
  h.imp fun _ ht => hle.attributeTypes ht

/-- What is remembered stands for what is stated under the key, provided that what is resolved where
nothing is remembered does. -/
theorem remembering_grows {key : ScopeKey} {name : String} {s : SimpleType}
    {resolve : Build FieldType} (hnew : ¬ v.Notes (key, name) → Stands model st key name s)
    (h : ∀ w, Grows model st w resolve fun w t => Represents model w.enumerations (.inline s) t) :
    Grows model st v (remembering (key, name) resolve) fun w t => w.Notes (key, name) ∧
      ∃ s, Stands model st key name s ∧ Represents model w.enumerations (.inline s) t := by
  refine grows_get.bind fun c w hv ⟨hw, hc⟩ => ?_
  subst hw
  split
  · next t ht =>
    have ht := mem_of_remembered ht
    obtain ⟨s, hs, hrepresents⟩ := hc.attributeTypes _ ht
    exact grows_pure fun w hw =>
      ⟨⟨t, hw.attributeTypes ht⟩, s, hs, hrepresents.mono hw.enumerations⟩
  · next hnone =>
    have hs : Stands model st key name s := by
      refine hnew fun ⟨t, ht⟩ => ?_
      have hfind := List.find?_eq_none.mp (Option.map_eq_none_iff.mp hnone) _
        (hv.attributeTypes ht)
      exact hfind (decide_eq_true rfl)
    refine (h w).bind fun t w' _ ht => ?_
    refine Grows.bind (R := fun w _ => w.Notes (key, name)) (grows_modify fun c hc hle => ?_)
      fun _ _ hle hnotes => grows_pure fun _ hle' =>
        ⟨hnotes.mono hle', s, hs, ht.mono (hle.trans hle').enumerations⟩
    have hsound : Sound model st { c with
        attributeTypes := ((key, name), t) :: c.attributeTypes } :=
      { hc with
        attributeTypes := List.forall_mem_cons.mpr
          ⟨⟨s, hs, ht.mono hle.enumerations⟩, hc.attributeTypes⟩ }
    exact ⟨hsound, ⟨extends_refl _, List.subset_cons_self _ _, rfl⟩, t, List.mem_cons_self⟩

end

end XmlBinding.Binding
