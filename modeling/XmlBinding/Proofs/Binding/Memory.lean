import XmlBinding.Proofs.Binding.Following
import XmlBinding.Proofs.Binding.Settling

/-! # What is remembered of simple types

Simple types are resolved with a memory of those that have been resolved before, so that their
literals become one enumeration however often they are reached. Whatever is remembered could as well
be followed again: what is remembered of a name is where its definitions end. As definitions lead
from one to the next, nothing is added to the memory before the end is reached.
-/
namespace XmlBinding.Binding
open Schema Value

/-! ## Catalogs -/

namespace Catalog

/-- None of these names is remembered. -/
def Unmet (c : Catalog) (names : List String) : Prop :=
  ∀ n ∈ names, remembered c.simpleTypes n = none

/-- The enumeration that is remembered for a name. -/
def enumerationOf? (c : Catalog) (name : String) : Option Enumeration :=
  match remembered c.simpleTypes name with
  | some (.enumeration place) => c.enumerations[place]?
  | _ => none

/-- What the enumeration of literals is called, if there is one, or else what it would be called. -/
def called (c : Catalog) (target : Target) : Option String → String
  | none => chooseName c.taken target.preferred target.alternative
  | some name => ((c.enumerationOf? name).map (·.name)).getD (chooseName c.taken name none)

end Catalog

/-- There are flags at a place. -/
def FlagsAt (es : List Enumeration) (place : Nat) : Prop :=
  ∃ e, es[place]? = some e ∧ e.form = .flags

/-- The type of a field that is what definitions end with. Of every enumeration it is known which
literals it was made for. -/
structure Kept (origins : List (Option String)) (es : List Enumeration) (ending : Ending)
    (t : FieldType) : Prop where
  keptAs : KeptAs es ending.meaning t
  origin : ∀ place, t = .enumeration place → origins[place]? = some ending.site?

/-- Names are remembered for what their definitions end with, as do those that they lead to, and
there is one enumeration for the literals of a top-level type. -/
structure Memo (model : Model) (origins : List (Option String)) (c : Catalog) : Prop where
  length : origins.length = c.enumerations.length
  entries : ∀ name t, remembered c.simpleTypes name = some t → ∃ ending,
    (∀ active here, c.Unmet active →
      LeadsTo model active here (.named (.schema name)) (.ok ending)) ∧
    Kept origins c.enumerations ending t
  once : ∀ (p q : Nat) (name : String), origins[p]? = some (some name) →
    origins[q]? = some (some name) → p = q
  limit : ∀ (place : Nat) (e : Enumeration), c.enumerations[place]? = some e → e.form = .flags →
    e.literals.length ≤ flagLimit

/-- The enumeration for the literals of a top-level type is remembered for that type. -/
def Owned (origins : List (Option String)) (c : Catalog) : Prop :=
  ∀ (place : Nat) (name : String), origins[place]? = some (some name) →
    remembered c.simpleTypes name = some (.enumeration place)

/-- What has been made and what is remembered stays. -/
structure Lasts (origins : List (Option String)) (c : Catalog) (origins' : List (Option String))
    (c' : Catalog) : Prop where
  origins : origins <+: origins'
  enumerations : Extends c.enumerations c'.enumerations
  remembered : ∀ name t, remembered c.simpleTypes name = some t →
    remembered c'.simpleTypes name = some t

section
variable {model : Model} {origins origins' origins'' : List (Option String)} {c c' c'' : Catalog}
  {es es' : List Enumeration} {place : Nat} {name : String}

theorem lasts_refl (origins : List (Option String)) (c : Catalog) : Lasts origins c origins c :=
  ⟨List.prefix_refl _, extends_refl _, fun _ _ => id⟩

theorem Lasts.trans (h : Lasts origins c origins' c') (h' : Lasts origins' c' origins'' c'') :
    Lasts origins c origins'' c'' :=
  ⟨h.origins.trans h'.origins, h.enumerations.trans h'.enumerations,
    fun name t ht => h'.remembered name t (h.remembered name t ht)⟩

theorem Lasts.unmet (h : Lasts origins c origins' c') {names : List String} (hc : c'.Unmet names) :
    c.Unmet names := by
  intro n hn
  cases ht : Binding.remembered c.simpleTypes n with
  | none => rfl
  | some t => exact nomatch (h.remembered n t ht).symm.trans (hc n hn)

theorem getElem?_of_prefix {α : Type} {xs ys : List α} (h : xs <+: ys) {a : α}
    (ha : xs[place]? = some a) : ys[place]? = some a := by
  obtain ⟨zs, rfl⟩ := h
  rw [List.getElem?_append_left (List.getElem?_eq_some_iff.mp ha).1, ha]

theorem Kept.mono {ending : Ending} {t : FieldType} (h : Kept origins es ending t)
    (ho : origins <+: origins') (hes : Extends es es') : Kept origins' es' ending t where
  keptAs := h.keptAs.mono hes
  origin place ht := getElem?_of_prefix ho (h.origin place ht)

/-- Literals are kept as an enumeration of them. -/
theorem Kept.enumeration {site documentation : Option String} {facets : List Facet} {isList : Bool}
    {t : FieldType} (h : Kept origins es (.literals site documentation facets isList) t) :
    ∃ place e, t = .enumeration place ∧ es[place]? = some e ∧
      e.documentation = documentation ∧ e.literals = distinctLiterals facets := by
  obtain ⟨hkept, -⟩ := h
  cases hkept with
  | enumeration he hdocumentation hliterals _ => exact ⟨_, _, rfl, he, hdocumentation, hliterals⟩

/-- What is remembered still holds once there is more of it. -/
theorem Memo.entries_mono (h : Memo model origins c) (hlasts : Lasts origins c origins' c')
    {t : FieldType} (ht : remembered c.simpleTypes name = some t) : ∃ ending,
      (∀ active here, c'.Unmet active →
        LeadsTo model active here (.named (.schema name)) (.ok ending)) ∧
      Kept origins' c'.enumerations ending t := by
  obtain ⟨ending, hleads, hkept⟩ := h.entries name t ht
  exact ⟨ending, fun active here hc => hleads active here (hlasts.unmet hc),
    hkept.mono hlasts.origins hlasts.enumerations⟩

/-! ### Another enumeration -/

theorem getElem?_append_singleton {α : Type} {xs : List α} {x a : α}
    (h : (xs ++ [x])[place]? = some a) : xs[place]? = some a ∨ place = xs.length ∧ a = x := by
  rw [List.getElem?_append] at h
  split at h
  · exact .inl h
  · obtain ⟨hplace, rfl⟩ := List.getElem?_eq_some_iff.mp h
    simp only [List.length_singleton] at hplace
    exact .inr ⟨by omega, by simp⟩

theorem flagsAt_append {e : Enumeration} (he : e.form = .plain) :
    FlagsAt (es ++ [e]) place ↔ FlagsAt es place := by
  constructor
  · rintro ⟨e', he', hform⟩
    rcases getElem?_append_singleton he' with he' | ⟨-, rfl⟩
    · exact ⟨e', he', hform⟩
    · rw [he] at hform
      cases hform
  · rintro ⟨e', he', hform⟩
    exact ⟨e', getElem?_of_prefix (List.prefix_append _ _) he', hform⟩

/-- A catalog with one more enumeration, of this name. -/
def Catalog.withEnumeration (c : Catalog) (e : Enumeration) : Catalog :=
  { c with taken := e.name :: c.taken, enumerations := c.enumerations ++ [e] }

theorem lasts_withEnumeration (origins : List (Option String)) (site : Option String) (c : Catalog)
    (e : Enumeration) : Lasts origins c (origins ++ [site]) (c.withEnumeration e) :=
  ⟨List.prefix_append _ _, extends_append _ _, fun _ _ => id⟩

/-- It is for literals that there is none for yet. -/
theorem Memo.withEnumeration (h : Memo model origins c) (howned : Owned origins c)
    {site : Option String} (hsite : ∀ name ∈ site, remembered c.simpleTypes name = none)
    {e : Enumeration} (he : e.form = .plain) :
    Memo model (origins ++ [site]) (c.withEnumeration e) where
  length := by simp [Catalog.withEnumeration, h.length]
  entries name t ht := h.entries_mono (lasts_withEnumeration origins site c e) ht
  once p q name hp hq := by
    have hnew {p : Nat} (hp : origins[p]? = some (some name)) (heq : some name = site) : False :=
      nomatch (howned p name hp).symm.trans (hsite name heq.symm)
    rcases getElem?_append_singleton hp with hp | ⟨rfl, hname⟩
    · rcases getElem?_append_singleton hq with hq | ⟨-, hq⟩
      · exact h.once p q name hp hq
      · exact (hnew hp hq).elim
    · rcases getElem?_append_singleton hq with hq | ⟨rfl, -⟩
      · exact (hnew hq hname).elim
      · rfl
  limit place e' he' hform := by
    rcases getElem?_append_singleton he' with he' | ⟨-, rfl⟩
    · exact h.limit place e' he' hform
    · rw [he] at hform
      cases hform

/-! ### Flags -/

/-- Flags never have too many literals, so that it does not matter which enumerations are flags
already. -/
theorem toFlags_of_limit {e : Enumeration}
    (h : e.form = .flags → e.literals.length ≤ flagLimit) :
    e.toFlags = if flagLimit < e.literals.length then .error (.tooManyFlags e.name e.literals.length)
      else .ok { e with form := .flags } := by
  unfold Enumeration.toFlags
  split
  · next hflags =>
    rw [if_neg (Nat.not_lt.mpr (h hflags)), ← hflags]
  · rfl

/-- A catalog in which flags are made of the enumeration at a place. -/
def Catalog.withFlags (c : Catalog) (place : Nat) (e : Enumeration) : Catalog :=
  { c with enumerations := c.enumerations.set place { e with form := .flags } }

theorem lasts_withFlags {e : Enumeration} (he : c.enumerations[place]? = some e) :
    Lasts origins c origins (c.withFlags place e) :=
  ⟨List.prefix_refl _, extends_set he, fun _ _ => id⟩

theorem getElem?_withFlags {e : Enumeration} (he : c.enumerations[place]? = some e) :
    (c.withFlags place e).enumerations[place]? = some { e with form := .flags } :=
  List.getElem?_set_self (List.getElem?_eq_some_iff.mp he).1

theorem getElem?_withFlags_of_ne {e : Enumeration} {other : Nat} (h : place ≠ other) :
    (c.withFlags place e).enumerations[other]? = c.enumerations[other]? :=
  List.getElem?_set_ne h

theorem flagsAt_withFlags {e : Enumeration} (he : c.enumerations[place]? = some e) {other : Nat} :
    FlagsAt (c.withFlags place e).enumerations other ↔
      FlagsAt c.enumerations other ∨ other = place := by
  unfold FlagsAt
  by_cases h : place = other
  · subst h
    simp [getElem?_withFlags he]
  · simp [getElem?_withFlags_of_ne h, Ne.symm h]

theorem Memo.withFlags (h : Memo model origins c) {e : Enumeration}
    (he : c.enumerations[place]? = some e) (hlimit : e.literals.length ≤ flagLimit) :
    Memo model origins (c.withFlags place e) where
  length := by simp [Catalog.withFlags, h.length]
  entries name t ht := h.entries_mono (lasts_withFlags he) ht
  once := h.once
  limit other e' he' hform := by
    by_cases heq : place = other
    · subst heq
      rw [getElem?_withFlags he, Option.some.injEq] at he'
      exact he' ▸ hlimit
    · rw [getElem?_withFlags_of_ne heq] at he'
      exact h.limit other e' he' hform

/-! ### Another name -/

/-- A catalog that remembers one more name. -/
def Catalog.withName (c : Catalog) (name : String) (t : FieldType) : Catalog :=
  { c with simpleTypes := (name, t) :: c.simpleTypes }

theorem remembered_withName (c : Catalog) (name : String) (t : FieldType) :
    remembered (c.withName name t).simpleTypes name = some t :=
  (remembered_cons ..).trans (if_pos rfl)

theorem lasts_withName (hnew : remembered c.simpleTypes name = none) (t : FieldType) :
    Lasts origins c origins (c.withName name t) :=
  ⟨List.prefix_refl _, extends_refl _, fun _ _ h => remembered_cons_of_new hnew h⟩

theorem Memo.withName (h : Memo model origins c) (hnew : remembered c.simpleTypes name = none)
    {ending : Ending} {t : FieldType} (hleads : ∀ active here, (c.withName name t).Unmet active →
      LeadsTo model active here (.named (.schema name)) (.ok ending))
    (hkept : Kept origins c.enumerations ending t) : Memo model origins (c.withName name t) where
  length := h.length
  entries name' t' ht' := by
    by_cases heq : name = name'
    · subst heq
      rw [remembered_withName, Option.some.injEq] at ht'
      exact ⟨ending, hleads, ht' ▸ hkept⟩
    · rw [Catalog.withName, remembered_cons, if_neg heq] at ht'
      exact h.entries_mono (lasts_withName hnew t) ht'
  once := h.once
  limit := h.limit

end

/-! ## Steps -/

/-- Where definitions begin to be followed: a catalog, and what literals without a name would be
called. -/
structure Start (model : Model) where
  catalog : Catalog
  target : Target
  origins : List (Option String)
  memo : Memo model origins catalog
  owned : Owned origins catalog

namespace Start
variable {model : Model} (s : Start model)

/-- What enumerations are called. -/
def called : Option String → String := s.catalog.called s.target

/-- An error is reported for the failure that definitions lead to. -/
def Reports (active : List String) (here : Option String) (ref : SimpleTypeRef)
    (e : BindingError) : Prop :=
  ∃ f, LeadsTo model active here ref (.error f) ∧ e = f.toError s.called

/-- Definitions have been followed to their end. -/
structure Reaches (active : List String) (here : Option String) (ref : SimpleTypeRef)
    (t : FieldType) (c : Catalog) (origins : List (Option String)) (ending : Ending) : Prop where
  memo : Memo model origins c
  owned : ∀ (place : Nat) (name : String), origins[place]? = some (some name) →
    here = some name ∧ t = .enumeration place ∨
      remembered c.simpleTypes name = some (.enumeration place)
  lasts : Lasts s.origins s.catalog origins c
  unmet : c.Unmet active
  leads : ∀ active, c.Unmet active → LeadsTo model active here ref (.ok ending)
  kept : Kept origins c.enumerations ending t
  name : ∀ (place : Nat) (e : Enumeration), t = .enumeration place →
    c.enumerations[place]? = some e → e.name = s.called ending.site?
  flags : ∀ place, FlagsAt c.enumerations place ↔
    FlagsAt s.catalog.enumerations place ∨ t = .enumeration place ∧ ending.isList = true

/-- A step that ends where definitions lead to. -/
def Agrees (active : List String) (here : Option String) (ref : SimpleTypeRef)
    (x : Build FieldType) : Prop :=
  Ends (s.Reports active here ref) (· = s.catalog) x
    fun t c => ∃ origins ending, s.Reaches active here ref t c origins ending

/-- Where a definition is entered: none of the names that are being followed is remembered, the
definition at hand is that of one of them, and its literals are called as is intended. -/
structure Enters (active : List String) (here : Option String) : Prop where
  unmet : s.catalog.Unmet active
  active : ∀ name ∈ here, name ∈ active
  called : chooseName s.catalog.taken s.target.preferred s.target.alternative = s.called here

end Start

theorem Ends.mono_error {α : Type} {E E' : BindingError → Prop} {P : Catalog → Prop} {x : Build α}
    {Q : α → Catalog → Prop} (h : Ends E P x Q) (hE : ∀ e, E e → E' e) : Ends E' P x Q :=
  fun c hc => (h c hc).imp (fun ⟨e, he, hproper⟩ => ⟨e, he, hE e hproper⟩) id

section
variable {model : Model} {s : Start model} {active : List String} {here : Option String}
  {t : SimpleType} {r : Restriction}

/-- A reference within a definition. -/
theorem Start.Agrees.within {ref ref' : SimpleTypeRef} {x : Build FieldType}
    (h : s.Agrees active here ref x)
    (hleads : ∀ active o, LeadsTo model active here ref o → LeadsTo model active here ref' o) :
    s.Agrees active here ref' x :=
  (h.mono_error fun _ ⟨f, hf, he⟩ => ⟨f, hleads active _ hf, he⟩).consequence (fun _ => id)
    fun _ _ ⟨origins, ending, hr⟩ => ⟨origins, ending,
      { hr with leads := fun active' ha => hleads active' _ (hr.leads active' ha) }⟩

theorem agrees_fail {ref : SimpleTypeRef} {f : Failure}
    (h : LeadsTo model active here ref (.error f)) :
    s.Agrees active here ref (fail (f.toError s.called)) :=
  ends_fail ⟨f, h, rfl⟩

theorem agrees_builtin (hunmet : s.catalog.Unmet active) (name : String) :
    s.Agrees active here (.named (.builtin name)) (pure (.primitive (.ofBuiltin name))) := by
  refine ends_pure fun c hc => ⟨s.origins, .primitive (.ofBuiltin name), ?_⟩
  subst hc
  exact {
    memo := s.memo
    owned := fun place name h => .inr (s.owned place name h)
    lasts := lasts_refl _ _
    unmet := hunmet
    leads := fun _ _ => .builtin name
    kept := ⟨.primitive _, nofun⟩
    name := nofun
    flags := fun place => by simp }

theorem agrees_enumerate (h : s.Enters active here) (ht : t.variety = .restriction r)
    (hfault : facetFault? r = none) (hr : r.enumerations.isEmpty = false) :
    s.Agrees active here (.inline t) (enumerate s.target t.documentation r.enumerations) := by
  rintro c rfl
  let e := Enumeration.ofFacets (chooseName s.catalog.taken s.target.preferred s.target.alternative)
    t.documentation s.target.owner r.enumerations
  have hplace : (s.catalog.withEnumeration e).enumerations[s.catalog.enumerations.length]? =
      some e := by
    simp [Catalog.withEnumeration]
  have hhere (name : String) (hname : name ∈ here) : remembered s.catalog.simpleTypes name = none :=
    h.unmet name (h.active name hname)
  refine .inr ⟨.enumeration s.catalog.enumerations.length, s.catalog.withEnumeration e, rfl,
    s.origins ++ [here], .literals here t.documentation r.enumerations false, ?_⟩
  exact {
    memo := s.memo.withEnumeration s.owned hhere rfl
    owned := by
      intro place name hplace
      rcases getElem?_append_singleton hplace with hplace | ⟨rfl, hname⟩
      · exact .inr (s.owned place name hplace)
      · exact .inl ⟨hname.symm, by rw [s.memo.length]⟩
    lasts := lasts_withEnumeration _ _ _ _
    unmet := h.unmet
    leads := fun _ _ => .literals ht hfault hr
    kept := {
      keptAs := .enumeration hplace rfl rfl nofun
      origin := by
        rintro place ⟨⟩
        simp [← s.memo.length, Ending.site?] }
    name := by
      rintro place e' ⟨⟩ he'
      obtain rfl := Option.some.inj (hplace.symm.trans he')
      exact h.called
    flags := fun place => by
      simp only [Ending.isList, Bool.false_eq_true, and_false, or_false]
      exact flagsAt_append rfl }

/-- A list of literals has been made flags of. -/
theorem Start.Reaches.withFlags {item : SimpleTypeRef} {place : Nat} {c : Catalog}
    {origins : List (Option String)} {site documentation : Option String} {facets : List Facet}
    {isList : Bool} (h : s.Reaches active here item (.enumeration place) c origins
      (.literals site documentation facets isList)) {e : Enumeration}
    (he : c.enumerations[place]? = some e) (hliterals : e.literals = distinctLiterals facets)
    (hdocumentation : e.documentation = documentation)
    (hlimit : ¬ flagLimit < (distinctLiterals facets).length) (ht : t.variety = .list item) :
    s.Reaches active here (.inline t) (.enumeration place) (c.withFlags place e) origins
      (.literals site documentation facets true) where
  memo := h.memo.withFlags he (by rw [hliterals]; omega)
  owned := h.owned
  lasts := h.lasts.trans (lasts_withFlags he)
  unmet := h.unmet
  leads active hactive := by
    have hlist := LeadsTo.list ht (h.leads active hactive)
    rwa [Outcome.listed, if_neg hlimit] at hlist
  kept := {
    keptAs := .enumeration (getElem?_withFlags he) hdocumentation hliterals fun _ => rfl
    origin := h.kept.origin }
  name := by
    rintro place' e' ⟨⟩ he'
    obtain rfl := Option.some.inj ((getElem?_withFlags he).symm.trans he')
    exact h.name place e rfl he
  flags other := by
    rw [flagsAt_withFlags he, h.flags other]
    simp only [Ending.isList, FieldType.enumeration.injEq, and_true, eq_comm (a := place)]
    tauto

theorem promote_eq {c : Catalog} {place : Nat} {e : Enumeration}
    (he : c.enumerations[place]? = some e)
    (hlimit : e.form = .flags → e.literals.length ≤ flagLimit) :
    (promote place).run c = if flagLimit < e.literals.length then
        .error (.tooManyFlags e.name e.literals.length)
      else .ok (⟨⟩, c.withFlags place e) := by
  simp only [promote, StateT.run_bind, StateT.run_get, pure_bind, he, toFlags_of_limit hlimit]
  split <;> rfl

/-- What has been followed to its end is listed. -/
theorem listOf_agrees {item : SimpleTypeRef} (ht : t.variety = .list item) (ty : FieldType) :
    Ends (s.Reports active here (.inline t))
      (fun c => ∃ origins ending, s.Reaches active here item ty c origins ending) (listOf ty)
      fun ty c => ∃ origins ending, s.Reaches active here (.inline t) ty c origins ending := by
  rintro c ⟨origins, ending, h⟩
  have hleads := LeadsTo.list ht (h.leads active h.unmet)
  cases ending with
  | primitive p =>
    obtain ⟨⟨⟩, -⟩ := h.kept
    exact .inl ⟨_, rfl, .unsupported .listOfOther, hleads, rfl⟩
  | literals site documentation facets isList =>
    obtain ⟨place, e, rfl, he, hdocumentation, hliterals⟩ := h.kept.enumeration
    have hpromote := promote_eq he (h.memo.limit place e he)
    rw [Outcome.listed] at hleads
    rw [hliterals] at hpromote
    by_cases hmany : flagLimit < (distinctLiterals facets).length
    · rw [if_pos hmany] at hleads hpromote
      refine .inl ⟨_, by rw [listOf, StateT.run_bind, hpromote]; rfl, _, hleads, ?_⟩
      rw [h.name place e rfl he]
      rfl
    · rw [if_neg hmany] at hpromote
      exact .inr ⟨_, _, by rw [listOf, StateT.run_bind, hpromote]; rfl, origins, _,
        h.withFlags he hliterals hdocumentation hmany ht⟩

theorem agrees_list {item : SimpleTypeRef} {x : Build FieldType}
    (hx : s.Agrees active here item x) (ht : t.variety = .list item) :
    s.Agrees active here (.inline t) (x >>= listOf) :=
  (hx.mono_error fun _ ⟨f, hf, he⟩ => ⟨f, .list ht hf, he⟩).bind fun ty => listOf_agrees ht ty

end

section
variable {model : Model} {s : Start model} {active : List String} {here : Option String}
  {named : String → Build FieldType}

mutual

theorem resolveSimpleType_agrees
    (hnamed : ∀ name, s.Agrees active here (.named (.schema name)) (named name))
    (h : s.Enters active here) : ∀ t : SimpleType,
    s.Agrees active here (.inline t) (resolveSimpleType named s.target t)
  | ⟨name, documentation, variety⟩ => by
    rw [resolveSimpleType]
    exact resolveVariety_agrees hnamed h name documentation variety

theorem resolveVariety_agrees
    (hnamed : ∀ name, s.Agrees active here (.named (.schema name)) (named name))
    (h : s.Enters active here) (name documentation : Option String) : ∀ v : Variety,
    s.Agrees active here (.inline ⟨name, documentation, v⟩)
      (resolveVariety named s.target documentation v)
  | .restriction r => by
    rw [resolveVariety]
    exact resolveRestriction_agrees hnamed h name documentation r
  | .list item => by
    rw [resolveVariety]
    exact agrees_list (resolveRef_agrees hnamed h item) rfl
  | .union [] => by
    rw [resolveVariety]
    exact agrees_fail (.emptyUnion rfl)
  | .union (first :: _) => by
    rw [resolveVariety]
    exact (resolveRef_agrees hnamed h first).within fun _ _ => .union rfl

theorem resolveRef_agrees
    (hnamed : ∀ name, s.Agrees active here (.named (.schema name)) (named name))
    (h : s.Enters active here) : ∀ ref : SimpleTypeRef,
    s.Agrees active here ref (resolveRef named s.target ref)
  | .named (.builtin name) => by
    rw [resolveRef]
    exact agrees_builtin h.unmet name
  | .named (.schema name) => by
    rw [resolveRef]
    exact hnamed name
  | .inline t => by
    rw [resolveRef]
    exact resolveSimpleType_agrees hnamed h t

theorem resolveRestriction_agrees
    (hnamed : ∀ name, s.Agrees active here (.named (.schema name)) (named name))
    (h : s.Enters active here) (name documentation : Option String) : ∀ r : Restriction,
    s.Agrees active here (.inline ⟨name, documentation, .restriction r⟩)
      (resolveRestriction named s.target documentation r)
  | ⟨base, enumerations, patterns, other⟩ => by
    have hfacets := checkFacets_eq ⟨base, enumerations, patterns, other⟩
    rw [resolveRestriction, hfacets]
    cases hfault : facetFault? ⟨base, enumerations, patterns, other⟩ with
    | some what => exact agrees_fail (.fault rfl hfault)
    | none =>
      cases hr : enumerations.isEmpty with
      | true => exact (resolveRef_agrees hnamed h base).within fun _ _ => .base rfl hfault hr
      | false => exact agrees_enumerate h rfl hfault hr

end

/-! ## Names -/

/-- A name is entered. -/
def Start.enter (s : Start model) (name : String) : Start model :=
  { s with target := .shared name }

theorem called_of_unmet {c : Catalog} {name : String} (h : remembered c.simpleTypes name = none)
    (target : Target) : c.called target (some name) = chooseName c.taken name none := by
  simp [Catalog.called, Catalog.enumerationOf?, h]

theorem Start.enters {s : Start model} {active : List String} (hunmet : s.catalog.Unmet active)
    {name : String} (hnew : remembered s.catalog.simpleTypes name = none) :
    (s.enter name).Enters (name :: active) (some name) where
  unmet := List.forall_mem_cons.mpr ⟨hnew, hunmet⟩
  active name' hname' := by
    obtain rfl := Option.some.inj (Option.mem_def.mp hname')
    exact List.mem_cons_self
  called := (called_of_unmet hnew _).symm

/-- An enumeration with a known origin is called what is remembered of that. -/
theorem Start.called_of_kept {s : Start model} {place : Nat} {e : Enumeration}
    (he : s.catalog.enumerations[place]? = some e) {name : String}
    (horigin : s.origins[place]? = some (some name)) : e.name = s.called (some name) := by
  simp [Start.called, Catalog.called, Catalog.enumerationOf?, s.owned place name horigin, he]

/-- What is remembered is where definitions end. -/
theorem agrees_remembered (hunmet : s.catalog.Unmet active) {name : String} {t : FieldType}
    (ht : remembered s.catalog.simpleTypes name = some t) :
    s.Agrees active here (.named (.schema name)) (pure t) := by
  obtain ⟨ending, hleads, hkept⟩ := s.memo.entries name t ht
  have hsited := (hleads active here hunmet).sited (.inr ⟨_, rfl⟩)
  refine ends_pure fun c hc => ⟨s.origins, ending, ?_⟩
  subst hc
  exact {
    memo := s.memo
    owned := fun place name h => .inr (s.owned place name h)
    lasts := lasts_refl _ _
    unmet := hunmet
    leads := fun active => hleads active here
    kept := hkept
    name := by
      rintro place e rfl he
      have horigin := hkept.origin place rfl
      cases ending with
      | primitive p => cases hkept.keptAs
      | literals site documentation facets isList =>
        obtain ⟨name', rfl⟩ := Option.isSome_iff_exists.mp hsited
        exact s.called_of_kept he horigin
    flags := fun place => by
      refine (or_iff_left_of_imp ?_).symm
      rintro ⟨rfl, hlist⟩
      cases ending with
      | primitive p => cases hlist
      | literals site documentation facets isList =>
        cases hkept.keptAs with
        | enumeration he _ _ hflags => exact ⟨_, he, hflags hlist⟩ }

/-- What definitions of a name end with is remembered for it. -/
theorem Start.Reaches.remember {name : String} {t : SimpleType} (ht : model.simpleType name = some t)
    (hactive : name ∉ active) {ty : FieldType} {c : Catalog} {origins : List (Option String)}
    {ending : Ending}
    (h : (s.enter name).Reaches (name :: active) (some name) (.inline t) ty c origins ending) :
    s.Reaches active here (.named (.schema name)) ty (c.withName name ty) origins ending := by
  obtain ⟨hnew, hunmet⟩ := List.forall_mem_cons.mp h.unmet
  have hlasts : Lasts origins c origins (c.withName name ty) := lasts_withName hnew ty
  have hleads (active : List String) (here : Option String)
      (hunmet : (c.withName name ty).Unmet active) :
      LeadsTo model active here (.named (.schema name)) (.ok ending) := by
    have hfresh : name ∉ active := fun hmem =>
      nomatch (remembered_withName c name ty).symm.trans (hunmet name hmem)
    exact .schema ht hfresh
      (h.leads _ (List.forall_mem_cons.mpr ⟨hnew, hlasts.unmet hunmet⟩))
  have hsited := (hleads [] none (by simp [Catalog.Unmet])).sited (.inr ⟨_, rfl⟩)
  exact {
    memo := h.memo.withName hnew hleads h.kept
    owned := fun place other hplace => by
      refine .inr ?_
      rcases h.owned place other hplace with ⟨hname, rfl⟩ | hremembered
      · obtain rfl := Option.some.inj hname
        exact remembered_withName c name _
      · exact hlasts.remembered _ _ hremembered
    lasts := h.lasts.trans hlasts
    unmet := fun other hother => by
      rw [Catalog.withName, remembered_cons, if_neg]
      · exact hunmet other hother
      · rintro rfl
        exact hactive hother
    leads := fun active => hleads active here
    kept := h.kept
    name := by
      intro place e hplace he
      rw [h.name place e hplace he]
      cases ending with
      | primitive p => cases hplace ▸ h.kept.keptAs
      | literals site documentation facets isList =>
        obtain ⟨other, rfl⟩ := Option.isSome_iff_exists.mp hsited
        rfl
    flags := h.flags }

theorem remember_agrees {name : String} {t : SimpleType} (ht : model.simpleType name = some t)
    (hactive : name ∉ active) (ty : FieldType) :
    Ends (s.Reports active here (.named (.schema name)))
      (fun c => ∃ origins ending,
        (s.enter name).Reaches (name :: active) (some name) (.inline t) ty c origins ending)
      (do
        modify fun c => { c with simpleTypes := (name, ty) :: c.simpleTypes }
        return ty)
      fun ty c => ∃ origins ending,
        s.Reaches active here (.named (.schema name)) ty c origins ending := by
  refine Ends.bind (ends_modify fun c ⟨origins, ending, h⟩ => ?_) fun _ => ends_pure fun _ hc => hc
  exact ⟨origins, ending, h.remember ht hactive⟩

/-- A failure within the definition of a name is one of the name. -/
theorem Start.Reports.enter {name : String} {t : SimpleType} (ht : model.simpleType name = some t)
    (hactive : name ∉ active) {e : BindingError}
    (h : (s.enter name).Reports (name :: active) (some name) (.inline t) e) :
    s.Reports active here (.named (.schema name)) e := by
  obtain ⟨f, hf, rfl⟩ := h
  exact ⟨f, .schema ht hactive hf, toError_of_sited (hf.sited (.inl rfl)) fun _ => rfl⟩

theorem ends_ok_bind {α β : Type} {E : BindingError → Prop} {P : Catalog → Prop} {a : α}
    {f : α → Build β} {Q : β → Catalog → Prop} (h : Ends E P (f a) Q) :
    Ends E P (liftM (Except.ok a : Except BindingError α) >>= f) Q :=
  h

theorem resolveNamedWithin_agrees (bound : Nat) (s : Start model) (active : List String)
    (hactive : Followed model.simpleTypes active)
    (hbound : model.simpleTypes.length < bound + active.length) (hunmet : s.catalog.Unmet active)
    (here : Option String) (name : String) :
    s.Agrees active here (.named (.schema name)) (resolveNamedWithin model bound active name) := by
  induction bound generalizing s active here name with
  | zero =>
    have := hactive.length_le
    omega
  | succ bound ih =>
    rw [resolveNamedWithin]
    refine ends_get_bind fun c hc => ?_
    subst hc
    split
    · next t ht => exact agrees_remembered hunmet ht
    · next hnew =>
      rw [definedSimpleType_eq model name s.called]
      cases ht : model.simpleType name with
      | none => exact agrees_fail (.undefined ht)
      | some t =>
        refine ends_ok_bind ?_
        split
        · next hmem => exact agrees_fail (.circular ht (by simpa using hmem))
        · next hfresh =>
          have hcons : Followed model.simpleTypes (name :: active) :=
            hactive.cons (by rw [← Model.simpleType, ht]; rfl) hfresh
          have hfresh : name ∉ active := by simpa using hfresh
          have henters := Start.enters hunmet hnew
          have hinner := resolveSimpleType_agrees (ih (s.enter name) (name :: active) hcons
            (by rw [List.length_cons]; omega) henters.unmet (some name)) henters t
          exact (hinner.mono_error fun e he => he.enter ht hfresh).bind fun ty =>
            remember_agrees ht hfresh ty

end

end XmlBinding.Binding
