import XmlBinding.Binding.SimpleTypes
import XmlBinding.Proofs.Schema.Names

/-! # What simple types come down to

Definitions are followed to a built-in type or to an enumerating restriction, without regard to what
has been followed before. The type of a field stands for one of them: a primitive, or an enumeration
of the module with just the literals of that restriction.
-/
namespace XmlBinding.Binding
open Schema Value

/-- The end of a chain of definitions. Literals may be the items of a list. -/
inductive Meaning where
  | primitive (p : Primitive)
  | enumeration (documentation : Option String) (facets : List Facet) (isList : Bool)

/-- A restriction without literals takes after its base, a union after its first member, and a list
after its items, which are literals. -/
inductive Means (model : Model) : SimpleTypeRef → Meaning → Prop
  | builtin (name : String) : Means model (.named (.builtin name)) (.primitive (.ofBuiltin name))
  | schema {name : String} {t : SimpleType} {meaning : Meaning}
      (ht : model.simpleType name = some t) (h : Means model (.inline t) meaning) :
      Means model (.named (.schema name)) meaning
  | literals {t : SimpleType} {r : Restriction} (ht : t.variety = .restriction r)
      (hr : r.enumerations.isEmpty = false) :
      Means model (.inline t) (.enumeration t.documentation r.enumerations false)
  | base {t : SimpleType} {r : Restriction} {meaning : Meaning} (ht : t.variety = .restriction r)
      (hr : r.enumerations.isEmpty = true) (h : Means model r.base meaning) :
      Means model (.inline t) meaning
  | list {t : SimpleType} {item : SimpleTypeRef} {documentation : Option String}
      {facets : List Facet} {isList : Bool} (ht : t.variety = .list item)
      (h : Means model item (.enumeration documentation facets isList)) :
      Means model (.inline t) (.enumeration documentation facets true)
  | union {t : SimpleType} {first : SimpleTypeRef} {others : List SimpleTypeRef}
      {meaning : Meaning} (ht : t.variety = .union (first :: others))
      (h : Means model first meaning) : Means model (.inline t) meaning

theorem Means.unique {model : Model} {ref : SimpleTypeRef} {a b : Meaning} (ha : Means model ref a)
    (hb : Means model ref b) : a = b := by
  induction ha generalizing b with
  | builtin name =>
    cases hb
    rfl
  | schema ht _ ih =>
    cases hb with
    | schema ht' hb =>
      obtain rfl := Option.some.inj (ht.symm.trans ht')
      exact ih hb
  | literals ht hr => cases hb <;> simp_all
  | base ht hr _ ih =>
    cases hb with
    | base ht' _ hb =>
      obtain rfl := Variety.restriction.inj (ht.symm.trans ht')
      exact ih hb
    | _ => simp_all
  | list ht _ ih =>
    cases hb with
    | list ht' hb =>
      obtain rfl := Variety.list.inj (ht.symm.trans ht')
      cases ih hb
      rfl
    | _ => simp_all
  | union ht _ ih =>
    cases hb with
    | union ht' hb =>
      obtain ⟨rfl, -⟩ := List.cons.inj (Variety.union.inj (ht.symm.trans ht'))
      exact ih hb
    | _ => simp_all

/-! ## Enumerations -/

/-- Enumerations stay at their places; at most flags are made of them, and others follow. -/
def Extends (es fs : List Enumeration) : Prop :=
  ∀ (place : Nat) (e : Enumeration), es[place]? = some e →
    ∃ form, fs[place]? = some { e with form } ∧ (e.form = .flags → form = .flags)

section
variable {es fs gs : List Enumeration}

theorem extends_refl (es : List Enumeration) : Extends es es :=
  fun _ e he => ⟨e.form, he, id⟩

theorem Extends.trans (h : Extends es fs) (h' : Extends fs gs) : Extends es gs := by
  intro place e he
  obtain ⟨form, hf, hflags⟩ := h place e he
  obtain ⟨form', hg, hflags'⟩ := h' place _ hf
  exact ⟨form', hg, hflags' ∘ hflags⟩

theorem extends_append (es fs : List Enumeration) : Extends es (es ++ fs) := by
  intro place e he
  refine ⟨e.form, ?_, id⟩
  rw [List.getElem?_append_left (List.getElem?_eq_some_iff.mp he).1]
  exact he

/-- Flags have the same literals, as has what they are made of. -/
theorem toFlags_eq {e f : Enumeration} (h : e.toFlags = .ok f) : f = { e with form := .flags } := by
  unfold Enumeration.toFlags at h
  split at h
  · next hflags =>
    cases h
    exact hflags ▸ rfl
  · split at h
    · cases h
    · cases h
      rfl

theorem extends_set {place : Nat} {e : Enumeration} (he : es[place]? = some e) :
    Extends es (es.set place { e with form := .flags }) := by
  intro i e' he'
  by_cases hi : place = i
  · subst hi
    obtain rfl := Option.some.inj (he.symm.trans he')
    refine ⟨.flags, ?_, fun _ => rfl⟩
    rw [List.getElem?_set_self (List.getElem?_eq_some_iff.mp he).1]
  · refine ⟨e'.form, ?_, id⟩
    rw [List.getElem?_set_ne hi]
    exact he'

/-- The type of a field that is what a chain of definitions ends with. -/
inductive KeptAs (es : List Enumeration) : Meaning → FieldType → Prop
  | primitive (p : Primitive) : KeptAs es (.primitive p) (.primitive p)
  | enumeration {place : Nat} {e : Enumeration} {documentation : Option String}
      {facets : List Facet} {isList : Bool} (he : es[place]? = some e)
      (hdocumentation : e.documentation = documentation)
      (hliterals : e.literals = distinctLiterals facets)
      (hflags : isList = true → e.form = .flags) :
      KeptAs es (.enumeration documentation facets isList) (.enumeration place)

theorem KeptAs.mono {meaning : Meaning} {t : FieldType} (h : KeptAs es meaning t)
    (hes : Extends es fs) : KeptAs fs meaning t := by
  cases h with
  | primitive p => exact .primitive p
  | enumeration he hdocumentation hliterals hflags =>
    obtain ⟨form, hf, hform⟩ := hes _ _ he
    exact .enumeration hf hdocumentation hliterals fun h => hform (hflags h)

/-- The type of a field stands for a simple type. -/
def Represents (model : Model) (es : List Enumeration) (ref : SimpleTypeRef) (t : FieldType) :
    Prop :=
  ∃ meaning, Means model ref meaning ∧ KeptAs es meaning t

theorem Represents.mono {model : Model} {ref : SimpleTypeRef} {t : FieldType}
    (h : Represents model es ref t) (hes : Extends es fs) : Represents model fs ref t := by
  obtain ⟨meaning, hmeans, hkept⟩ := h
  exact ⟨meaning, hmeans, hkept.mono hes⟩

end

end XmlBinding.Binding
