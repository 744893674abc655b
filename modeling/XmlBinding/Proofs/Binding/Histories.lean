import XmlBinding.Proofs.Binding.Memory

/-! # Simple types are resolved as if nothing had been before

Whatever has been resolved, and in whatever order, a name is resolved to what following its
definitions leads to. Enumerations are shared by just those whose definitions end with the same
literals, and those that end in a list make flags of theirs, before or after others use them.
-/
namespace XmlBinding.Binding
open Schema Value

/-- What has been resolved since the catalog was empty, the last one first. In between, anything may
have been done to a catalog but to its simple types and enumerations. -/
inductive History (model : Model) : List (Request × FieldType) → Catalog → Prop
  | start : History model [] {}
  | other {rs : List (Request × FieldType)} {c c' : Catalog} (h : History model rs c)
      (hs : c'.simpleTypes = c.simpleTypes) (he : c'.enumerations = c.enumerations) :
      History model rs c'
  | resolve {rs : List (Request × FieldType)} {c c' : Catalog} {q : Request} {t : FieldType}
      (h : History model rs c) (hrun : (q.resolve model).run c = .ok (t, c')) :
      History model ((q, t) :: rs) c'

/-- Definitions end with literals that are the items of a list. -/
def LeadsToList (model : Model) (ref : SimpleTypeRef) : Prop :=
  ∃ ending, LeadsTo model [] none ref (.ok ending) ∧ ending.isList = true

/-- What has been resolved is kept as its definitions say, and there are no other flags. -/
structure Recalls (model : Model) (rs : List (Request × FieldType)) (origins : List (Option String))
    (c : Catalog) : Prop where
  memo : Memo model origins c
  owned : Owned origins c
  kept : ∀ r ∈ rs, ∃ ending, LeadsTo model [] none r.1.ref (.ok ending) ∧
    Kept origins c.enumerations ending r.2
  flags : ∀ place, FlagsAt c.enumerations place ↔
    ∃ r ∈ rs, r.2 = .enumeration place ∧ LeadsToList model r.1.ref

section
variable {model : Model} {rs : List (Request × FieldType)} {origins : List (Option String)}
  {c c' : Catalog}

/-- What is resolved next starts from a memory of what has been. -/
def Recalls.start (h : Recalls model rs origins c) (target : Target) : Start model :=
  ⟨c, target, origins, h.memo, h.owned⟩

theorem unmet_nil (c : Catalog) : c.Unmet [] :=
  List.forall_mem_nil _

theorem resolveNamed_agrees (s : Start model) (name : String) :
    s.Agrees [] none (.named (.schema name)) (resolveNamed model name) :=
  resolveNamedWithin_agrees _ s [] (followed_nil _) (by simp) (unmet_nil _) none name

theorem Request.agrees (q : Request) {s : Start model} (hs : s.target = q.target) :
    s.Agrees [] none q.ref (q.resolve model) := by
  rw [Request.resolve, ← hs]
  exact resolveRef_agrees (resolveNamed_agrees s) ⟨unmet_nil _, by simp, rfl⟩ q.ref

theorem recalls_empty : Recalls model [] [] {} where
  memo := ⟨rfl, nofun, nofun, nofun⟩
  owned := nofun
  kept := nofun
  flags place := by simp [FlagsAt]

theorem Recalls.other (h : Recalls model rs origins c) (hs : c'.simpleTypes = c.simpleTypes)
    (he : c'.enumerations = c.enumerations) : Recalls model rs origins c' := by
  have hlasts : Lasts origins c origins c' :=
    ⟨List.prefix_refl _, he ▸ extends_refl _, fun name t ht => hs ▸ ht⟩
  exact {
    memo := {
      length := he ▸ h.memo.length
      entries := fun name t ht => h.memo.entries_mono hlasts (hs ▸ ht)
      once := h.memo.once
      limit := he ▸ h.memo.limit }
    owned := fun place name hplace => hs ▸ h.owned place name hplace
    kept := he ▸ h.kept
    flags := he ▸ h.flags }

theorem Recalls.resolve (h : Recalls model rs origins c) {q : Request} {t : FieldType}
    (hrun : (q.resolve model).run c = .ok (t, c')) :
    ∃ origins', Recalls model ((q, t) :: rs) origins' c' := by
  obtain ⟨origins', ending, hr⟩ :=
    (q.agrees (s := h.start q.target) rfl).ensures c t c' rfl hrun
  have hleads := hr.leads [] (unmet_nil _)
  have hlist : LeadsToList model q.ref ↔ ending.isList = true :=
    ⟨fun ⟨ending', hleads', h⟩ => Except.ok.inj (hleads'.unique hleads) ▸ h,
      fun h => ⟨ending, hleads, h⟩⟩
  refine ⟨origins', hr.memo, fun place name hplace => ?_, ?_, fun place => ?_⟩
  · exact (hr.owned place name hplace).resolve_left nofun
  · refine List.forall_mem_cons.mpr ⟨⟨ending, hleads, hr.kept⟩, fun r hrs => ?_⟩
    obtain ⟨ending', hleads', hkept⟩ := h.kept r hrs
    exact ⟨ending', hleads', hkept.mono hr.lasts.origins hr.lasts.enumerations⟩
  · have hbefore := h.flags place
    have hafter := hr.flags place
    rw [show (h.start q.target).catalog = c from rfl, hbefore] at hafter
    rw [hafter, ← hlist]
    simp only [List.mem_cons, exists_eq_or_imp]
    exact or_comm

theorem History.recalls (h : History model rs c) : ∃ origins, Recalls model rs origins c := by
  induction h with
  | start => exact ⟨[], recalls_empty⟩
  | other _ hs he ih =>
    obtain ⟨origins, ih⟩ := ih
    exact ⟨origins, ih.other hs he⟩
  | resolve _ hrun ih =>
    obtain ⟨origins, ih⟩ := ih
    exact ih.resolve hrun

end

/-- A name is resolved to this outcome. -/
def ResolvesTo (model : Model) (c : Catalog) (name : String) : Outcome → Prop
  | .error f => (resolveNamed model name).run c = .error (f.toError (c.called (.shared name)))
  | .ok ending => ∃ t c', (resolveNamed model name).run c = .ok (t, c') ∧
      KeptAs c'.enumerations ending.meaning t

/-- After some simple types have been resolved, others are as if none had been. -/
structure ResolvedAsFollowed (model : Model) (rs : List (Request × FieldType)) (c : Catalog) :
    Prop where
  /-- The definitions of a name lead somewhere, in one way, -/
  followed : ∀ name, ∃! o, LeadsTo model [] none (.named (.schema name)) o
  /-- and the name is resolved to that. -/
  resolved : ∀ name o, LeadsTo model [] none (.named (.schema name)) o → ResolvesTo model c name o
  /-- Names that have been resolved have one enumeration just if their definitions end with the
  literals of one type, -/
  shared : ∀ r ∈ rs, ∀ r' ∈ rs, ∀ name name' place place',
    r.1.ref = .named (.schema name) → r'.1.ref = .named (.schema name') →
    r.2 = .enumeration place → r'.2 = .enumeration place' → ∃ ending ending',
      LeadsTo model [] none (.named (.schema name)) (.ok ending) ∧
      LeadsTo model [] none (.named (.schema name')) (.ok ending') ∧
      (place = place' ↔ ending.site? = ending'.site?)
  /-- where a type has the literals of one restriction. -/
  sites : ∀ name name' site documentation facets isList documentation' facets' isList',
    LeadsTo model [] none (.named (.schema name))
      (.ok (.literals site documentation facets isList)) →
    LeadsTo model [] none (.named (.schema name'))
      (.ok (.literals site documentation' facets' isList')) →
    documentation = documentation' ∧ facets = facets'
  /-- There are flags where a list that has been resolved has its end. -/
  flags : ∀ place, FlagsAt c.enumerations place ↔
    ∃ r ∈ rs, r.2 = .enumeration place ∧ LeadsToList model r.1.ref

section
variable {model : Model} {rs : List (Request × FieldType)} {c : Catalog}

theorem History.leadsTo (h : History model rs c) (name : String) :
    ∃ o, LeadsTo model [] none (.named (.schema name)) o ∧ ResolvesTo model c name o := by
  obtain ⟨origins, h⟩ := h.recalls
  rcases resolveNamed_agrees (h.start (.shared name)) name c rfl with
    ⟨e, herror, f, hf, rfl⟩ | ⟨t, c', hok, _, ending, hr⟩
  · exact ⟨.error f, hf, herror⟩
  · exact ⟨.ok ending, hr.leads [] (unmet_nil _), t, c', hok, hr.kept.keptAs⟩

/-- An enumeration of literals that have a site is the only one of that site. -/
theorem Recalls.shared {origins : List (Option String)} (h : Recalls model rs origins c)
    {ending ending' : Ending} {place place' : Nat}
    (hkept : Kept origins c.enumerations ending (.enumeration place))
    (hkept' : Kept origins c.enumerations ending' (.enumeration place'))
    (hsited : Outcome.Sited (.ok ending)) : place = place' ↔ ending.site? = ending'.site? := by
  have hplace := hkept.origin place rfl
  have hplace' := hkept'.origin place' rfl
  constructor
  · rintro rfl
    exact Option.some.inj (hplace.symm.trans hplace')
  · intro heq
    cases ending with
    | primitive p => cases hkept.keptAs
    | literals site documentation facets isList =>
      obtain ⟨name, rfl⟩ := Option.isSome_iff_exists.mp hsited
      exact h.memo.once place place' name hplace (hplace'.trans (congrArg some heq.symm))

theorem History.resolvedAsFollowed (h : History model rs c) : ResolvedAsFollowed model rs c where
  followed name := by
    obtain ⟨o, ho, -⟩ := h.leadsTo name
    exact ⟨o, ho, fun o' ho' => ho'.unique ho⟩
  resolved name o ho := by
    obtain ⟨o', ho', hresolves⟩ := h.leadsTo name
    exact ho.unique ho' ▸ hresolves
  shared := by
    intro r hr r' hr' name name' place place' hname hname' hplace hplace'
    obtain ⟨origins, h⟩ := h.recalls
    obtain ⟨ending, hleads, hkept⟩ := h.kept r hr
    obtain ⟨ending', hleads', hkept'⟩ := h.kept r' hr'
    rw [hname] at hleads
    rw [hname'] at hleads'
    rw [hplace] at hkept
    rw [hplace'] at hkept'
    exact ⟨ending, ending', hleads, hleads',
      h.shared hkept hkept' (hleads.sited (.inr ⟨_, rfl⟩))⟩
  sites _ _ _ _ _ _ _ _ _ h h' := h.literals_unique h'
  flags := by
    obtain ⟨origins, h⟩ := h.recalls
    exact h.flags

end

end XmlBinding.Binding
