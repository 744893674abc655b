import XmlBinding.Proofs.Binding.Coherence

/-! # Every promise is kept

All names of types and top-level elements are promised before the first class is built. Each is
kept when its turn comes, so that nothing is pending in the end.
-/
namespace XmlBinding.Binding
open Schema

section
variable {α : Type} {f : α → Build PUnit} {xs : List α} {model : Model} {w : Ledger}
  {p : List Promise}

theorem forM_stays (h : ∀ x ∈ xs, ∀ w, Stays model w p (f x) fun _ _ => True) :
    Stays model w p (xs.forM f) fun _ _ => True := by
  induction xs generalizing w with
  | nil => exact stays_pure fun _ _ => trivial
  | cons x xs ih =>
    obtain ⟨hx, hxs⟩ := List.forall_mem_cons.mp h
    exact (hx w).bind fun _ _ _ _ => ih hxs

/-- Promises are kept in the order they are pending. -/
theorem forM_coheres {R : Ledger → α → Promise → Prop}
    (hmono : ∀ v w x t, v ≤ w → R v x t → R w x t)
    (h : ∀ x ∈ xs, ∀ w t p, R w x t →
      Coheres model w (t :: p) (f x) (fun _ => p) fun _ _ => True)
    {ts : List Promise} (hts : List.Forall₂ (R w) xs ts) :
    Coheres model w (ts ++ p) (xs.forM f) (fun _ => p) fun _ _ => True := by
  induction xs generalizing w ts with
  | nil =>
    cases hts
    exact stays_pure fun _ _ => trivial
  | cons x xs ih =>
    obtain ⟨hstep, hrest⟩ := List.forall_mem_cons.mp h
    cases hts with
    | cons hx hts =>
      exact (hstep w _ _ hx).bind fun _ w' hw _ =>
        ih hrest (hts.imp fun x t => hmono w w' x t hw)

end

theorem remembered_of_mem {κ α : Type} [DecidableEq κ] {table : List (κ × α)}
    (hkeys : (table.map (·.1)).Nodup) {key : κ} {a : α} (h : (key, a) ∈ table) :
    remembered table key = some a := by
  induction table with
  | nil => cases h
  | cons e table ih =>
    obtain ⟨hnew, hkeys⟩ := List.nodup_cons.mp hkeys
    rw [remembered_cons]
    rcases List.mem_cons.mp h with rfl | h
    · exact if_pos rfl
    · rw [if_neg, ih hkeys h]
      rintro rfl
      exact hnew (List.mem_map.mpr ⟨_, h, rfl⟩)

section
variable {model : Model}

/-- What the name of a top-level type is given out for. -/
def typePurpose (e : String × ComplexType) : Purpose :=
  if e.2.isAbstract then .marker else .classFor e.1

/-- Types have been declared, and the promises for them are pending. -/
def TypesDeclared (model : Model) (before : List (String × ComplexType)) (c : Catalog) : Prop :=
  ∃ ts, Coherent model ts.reverse c ∧ c.elements = [] ∧
    c.complexTypes.map (·.1) = (before.map (·.1)).reverse ∧
    List.Forall₂ (fun e t => (e.1, ⟨t.name, e.2.isAbstract⟩) ∈ c.complexTypes ∧
      t.purpose = typePurpose e) before ts

theorem declareComplexType_declares {e : String × ComplexType} (he : e ∈ model.complexTypes)
    (before : List (String × ComplexType)) :
    Ensures (TypesDeclared model before) (declareComplexType e.1 e.2)
      fun _ => TypesDeclared model (before ++ [e]) := by
  refine Ensures.bind (Q := fun name d => ∃ c, TypesDeclared model before c ∧
    Available c.taken name ∧ IsTypeName name ∧ d = { c with taken := name :: c.taken })
    (reserve_ensures fun c name hc hnew hlegal => ⟨c, hc, hnew, hlegal, rfl⟩) fun name => ?_
  refine ensures_modify fun d hd => ?_
  obtain ⟨c, ⟨ts, hc, helements, hkeys, hts⟩, hnew, hlegal, rfl⟩ := hd
  let t : Promise := ⟨name, typePurpose e⟩
  refine ⟨ts ++ [t], ?_, helements, ?_, ?_⟩
  · rw [List.reverse_concat]
    have hle : c.ledger ts.reverse ≤ c.ledger (t :: ts.reverse) :=
      ⟨List.subset_cons_self _ _, Nat.le_refl _, rfl, rfl⟩
    have hcovered := (hc.covered.mono hle).withTables
      ((e.1, ⟨name, e.2.isAbstract⟩) :: c.complexTypes) c.elements
    have hmarked (habstract : e.2.isAbstract = true) : t = ⟨name, .marker⟩ :=
      congrArg _ (if_pos habstract)
    exact hc.of_perm_cons hnew hlegal List.perm_middle rfl { hcovered with
      declared := List.forall_mem_cons.mpr ⟨⟨e.2, he, rfl⟩, hcovered.declared⟩
      marked := List.forall_mem_cons.mpr
        ⟨fun habstract => hmarked habstract ▸ List.mem_cons_self, hcovered.marked⟩
      typeNames := List.forall_mem_cons.mpr
        ⟨⟨t, List.mem_cons_self, rfl⟩, hcovered.typeNames⟩ }
  · rw [List.map_cons, hkeys, List.map_append, List.map_singleton, List.reverse_concat]
  · refine List.rel_append (hts.imp fun e' t' h => ⟨List.mem_cons_of_mem _ h.1, h.2⟩) ?_
    exact .cons ⟨List.mem_cons_self, rfl⟩ .nil

/-- Elements have been declared after the types in a table, for which `ts` are pending. -/
def ElementsDeclared (model : Model) (types : List (String × TypeEntry)) (ts : List Promise)
    (before : List (String × ElementDeclaration)) (c : Catalog) : Prop :=
  ∃ us, Coherent model (us.reverse ++ ts) c ∧ c.complexTypes = types ∧
    c.elements.map (·.1) = (before.map (·.1)).reverse ∧
    List.Forall₂ (fun e u => (e.1, u.name) ∈ c.elements ∧ u.purpose = .classFor e.1) before us

theorem declareElement_declares {types : List (String × TypeEntry)} {ts : List Promise}
    (e : String × ElementDeclaration) (before : List (String × ElementDeclaration)) :
    Ensures (ElementsDeclared model types ts before) (declareElement e.1)
      fun _ => ElementsDeclared model types ts (before ++ [e]) := by
  refine Ensures.bind (Q := fun name d => ∃ c, ElementsDeclared model types ts before c ∧
    Available c.taken name ∧ IsTypeName name ∧ d = { c with taken := name :: c.taken })
    (reserve_ensures fun c name hc hnew hlegal => ⟨c, hc, hnew, hlegal, rfl⟩) fun name => ?_
  refine ensures_modify fun d hd => ?_
  obtain ⟨c, ⟨us, hc, htypes, hkeys, hus⟩, hnew, hlegal, rfl⟩ := hd
  let u : Promise := ⟨name, .classFor e.1⟩
  refine ⟨us ++ [u], ?_, htypes, ?_, ?_⟩
  · rw [List.reverse_concat, List.cons_append]
    have hle : c.ledger (us.reverse ++ ts) ≤ c.ledger (u :: (us.reverse ++ ts)) :=
      ⟨List.subset_cons_self _ _, Nat.le_refl _, rfl, rfl⟩
    have hcovered := (hc.covered.mono hle).withTables c.complexTypes ((e.1, name) :: c.elements)
    exact hc.of_perm_cons hnew hlegal List.perm_middle rfl { hcovered with
      elements := List.forall_mem_cons.mpr ⟨List.mem_cons_self, hcovered.elements⟩ }
  · rw [List.map_cons, hkeys, List.map_append, List.map_singleton, List.reverse_concat]
  · refine List.rel_append (hus.imp fun e' u' h => ⟨List.mem_cons_of_mem _ h.1, h.2⟩) ?_
    exact .cons ⟨List.mem_cons_self, rfl⟩ .nil

end

section
variable (model : Model) {w : Ledger} {p : List Promise}

/-- The promise for a top-level type, as it can be looked up. -/
def TypePromised (w : Ledger) (e : String × ComplexType) (t : Promise) : Prop :=
  remembered w.types e.1 = some ⟨t.name, e.2.isAbstract⟩ ∧ t.purpose = typePurpose e

def ElementPromised (w : Ledger) (e : String × ElementDeclaration) (t : Promise) : Prop :=
  remembered w.elements e.1 = some t.name ∧ t.purpose = .classFor e.1

/-- The promise for a type is kept with a marker or with a class. -/
theorem buildComplexType_coheres {e : String × ComplexType} (he : e ∈ model.complexTypes)
    {t : Promise} (ht : TypePromised w e t) :
    Coheres model w (t :: p) (buildComplexType model e.1 e.2) (fun _ => p) fun _ _ => True := by
  obtain ⟨hknown, hpurpose⟩ := ht
  refine (typeScope_stays model e.1).bind fun scope w' hw hscope => ?_
  obtain ⟨entry, hentry, rfl⟩ := hscope
  rw [hw.types, hknown, Option.some.injEq] at hentry
  subst hentry
  have hkept {purpose : Purpose} (h : typePurpose e = purpose) :
      (⟨t.name, purpose⟩ : Promise) = t := by
    rw [← h, ← hpurpose]
  split
  · next habstract => exact addMarker_coheres (hkept (if_pos habstract))
  · next hconcrete =>
    have hdeclared := (model.sublist_of_complexType he).subset
    refine (derive_stays model _ hdeclared).bind fun draft w' _ hdraft => ?_
    refine (membershipOf_stays model w' _ _ _ hdraft.particles).bind fun ms w'' hw hms => ?_
    refine addClass_coheres (hkept (if_neg hconcrete)) ?_
    exact (hdraft.mono hw).describes hms _ _ _ _ _

theorem buildElement_coheres {e : String × ElementDeclaration} (he : e ∈ model.elements)
    (hname : e.2.name = e.1) {t : Promise} (ht : ElementPromised w e t) :
    Coheres model w (t :: p) (buildElement model e.1 e.2) (fun _ => p) fun _ _ => True := by
  obtain ⟨hknown, hpurpose⟩ := ht
  refine (referredElement_stays e.1).bind fun className w' hw hclass => ?_
  have hclassName : className = t.name := by
    rw [hw.elements, hknown] at hclass
    exact (Option.some.inj hclass.1).symm
  have hpromise : t = ⟨className, .classFor e.2.name⟩ := by rw [hclassName, hname, ← hpurpose]
  have hdeclared : e.2.type.declared ⊆ model.declared :=
    (e.2.sublist_type.trans (model.sublist_of_element he)).subset
  rw [hpromise]
  exact buildClass_coheres model (membershipOf_stays model) _ _ hdeclared

/-- Once the types are declared, the promises for them and for the elements are kept in turn. -/
theorem buildDeclared_coheres (hm : model.Keyed) {types : List (String × TypeEntry)}
    {ts : List Promise} (hts : List.Forall₂ (fun e t =>
      remembered types e.1 = some ⟨t.name, e.2.isAbstract⟩ ∧ t.purpose = typePurpose e)
      model.complexTypes ts) :
    Ensures (ElementsDeclared model types ts []) (do
      model.elements.forM fun e => declareElement e.1
      model.complexTypes.forM fun e => buildComplexType model e.1 e.2
      model.elements.forM fun e => buildElement model e.1 e.2)
      fun _ c => Coherent model [] c := by
  refine Ensures.bind (forM_ensures fun before e _ => declareElement_declares e before) fun _ => ?_
  rintro c u c' ⟨us, hc, rfl, hkeys, hus⟩ hrun
  have hnodup : (c.elements.map (·.1)).Nodup := hkeys ▸ List.nodup_reverse.mpr hm.elements
  have hus : List.Forall₂ (ElementPromised (c.ledger (ts ++ us))) model.elements us :=
    hus.imp fun e u h => ⟨remembered_of_mem hnodup h.1, h.2⟩
  have hperm : (us.reverse ++ ts).Perm (ts ++ us) :=
    (us.reverse_perm.append_right ts).trans List.perm_append_comm
  have htypes : Coheres model (c.ledger (ts ++ us)) (ts ++ us)
      (model.complexTypes.forM fun e => buildComplexType model e.1 e.2) (fun _ => us)
      fun _ _ => True :=
    forM_coheres (R := TypePromised) (fun v w e t hvw h => ⟨hvw.types ▸ h.1, h.2⟩)
      (fun e he w t p ht => buildComplexType_coheres model he ht) hts
  refine (htypes.bind fun _ w hw _ => ?_ : Coheres model _ _ _ (fun _ => []) fun _ _ => True)
    c u c' ⟨hc.perm hperm, le_refl _⟩ hrun |>.1
  have helements := forM_coheres (p := []) (R := ElementPromised)
    (f := fun e => buildElement model e.1 e.2)
    (fun v w e t hvw h => ⟨hvw.elements ▸ h.1, h.2⟩)
    (fun e he w t p ht => buildElement_coheres model he (hm.elementName e he) ht)
    (hus.imp fun e u h => (⟨hw.elements ▸ h.1, h.2⟩ : ElementPromised w e u))
  rwa [List.append_nil] at helements

/-- Everything is bound and nothing is left pending. -/
theorem buildAll_coheres (hm : model.Keyed) :
    Ensures (· = {}) (buildAll model) fun _ c => Coherent model [] c := by
  -- simple types are resolved before any name is promised
  refine Ensures.bind (Q := fun _ c => TypesDeclared model [] c) ?_ fun _ => ?_
  · have hstays : Stays model (Catalog.ledger {} []) []
        (model.simpleTypes.forM fun e => discard (resolveNamed model e.1)) fun _ _ => True :=
      forM_stays fun e _ w => (resolveNamed_resolves model e.1 w []).bind fun _ _ _ _ =>
        stays_pure fun _ _ => trivial
    rintro c u c' rfl hrun
    obtain ⟨hc', hle, -⟩ := hstays {} u c' ⟨coherent_empty model, le_refl _⟩ hrun
    exact ⟨[], hc', hle.elements, by rw [show c'.complexTypes = [] from hle.types]; rfl, .nil⟩
  refine Ensures.bind (forM_ensures fun before e he => declareComplexType_declares he before)
    fun _ => ?_
  rintro c u c' ⟨ts, hc, helements, hkeys, hts⟩ hrun
  have hnodup : (c.complexTypes.map (·.1)).Nodup :=
    hkeys ▸ List.nodup_reverse.mpr hm.complexTypes
  have hts := hts.imp fun e t h => And.intro (remembered_of_mem hnodup h.1) h.2
  refine buildDeclared_coheres model hm hts c u c' ⟨[], ?_, rfl, ?_, .nil⟩ hrun
  · exact hc.perm ts.reverse_perm
  · rw [helements]
    rfl

/-- A module is what a coherent catalog with nothing pending holds. -/
theorem coherent_of_ofModel (hm : model.Keyed) {m : Module}
    (h : Module.ofModel model = .ok m) : ∃ c, Coherent model [] c ∧
      m = ⟨model.targetNamespace, c.enumerations, c.markers, c.classes⟩ := by
  obtain ⟨u, catalog, hr, rfl⟩ := exists_catalog_of_ofModel h
  exact ⟨catalog, buildAll_coheres model hm {} u catalog rfl hr, rfl⟩

end

end XmlBinding.Binding
