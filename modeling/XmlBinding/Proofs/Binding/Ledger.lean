import Mathlib.Order.Basic
import XmlBinding.Proofs.Binding.Identifiers
import XmlBinding.Proofs.Binding.Steps
import XmlBinding.Proofs.Schema.Declared

/-! # What names are promised to

A name is given out before the class or the marker of that name is there, and others refer to it
in the meantime. The ledger lists what names are promised to, whether the promise has been kept or
is pending. It only grows, so that what a step has read from it holds ever after.
-/
namespace XmlBinding.Schema

/-- An abstract type, wherever it is declared, does not bear the name of a top-level type that is
concrete. -/
def Model.AbstractAgrees (m : Model) : Prop :=
  ∀ t ∈ m.allTypes, t.isAbstract = true → ∀ e ∈ m.complexTypes, t.name = some e.1 →
    e.2.isAbstract = true

instance (m : Model) : Decidable m.AbstractAgrees :=
  inferInstanceAs (Decidable (∀ t ∈ m.allTypes, t.isAbstract = true →
    ∀ e ∈ m.complexTypes, t.name = some e.1 → e.2.isAbstract = true))

end XmlBinding.Schema

namespace XmlBinding.Binding
open Schema

inductive Purpose where
  | classFor (xmlName : String)
  | marker
deriving DecidableEq

structure Promise where
  name : String
  purpose : Purpose
deriving DecidableEq

def ElementClass.promise (k : ElementClass) : Promise := ⟨k.name, .classFor k.xmlName⟩

def Marker.promise (m : Marker) : Promise := ⟨m.name, .marker⟩

/-- The promises, the number of enumerations, and the names of declared types and elements. -/
structure Ledger where
  promises : List Promise
  enumerations : Nat
  types : List (String × TypeEntry)
  elements : List (String × String)

namespace Ledger

structure GrowsTo (v w : Ledger) : Prop where
  promises : v.promises ⊆ w.promises
  enumerations : v.enumerations ≤ w.enumerations
  types : w.types = v.types
  elements : w.elements = v.elements

instance : Preorder Ledger where
  le := GrowsTo
  le_refl w := ⟨List.Subset.refl _, Nat.le_refl _, rfl, rfl⟩
  le_trans u v w huv hvw :=
    ⟨List.Subset.trans huv.promises hvw.promises, Nat.le_trans huv.enumerations hvw.enumerations,
      hvw.types.trans huv.types, hvw.elements.trans huv.elements⟩

variable (v w : Ledger)

/-- The class of that name is the one for elements of this name. -/
def Knows (xmlName className : String) : Prop := ⟨className, .classFor xmlName⟩ ∈ w.promises

def Marks (name : String) : Prop := ⟨name, .marker⟩ ∈ w.promises

/-- A class or a marker of that name is promised. -/
def Gives (name : String) : Prop := ∃ t ∈ w.promises, t.name = name

/-- Enumerations are told by places where there is one. -/
def Holds : FieldType → Prop
  | .primitive _ => True
  | .enumeration place => place < w.enumerations

/-- What a class refers to is promised, and its values have legal names. A marker that is missing
bears the name of a class at least. -/
structure Describes (model : Model) (k : ElementClass) : Prop where
  values : ∀ f ∈ k.values, w.Holds f.type
  slots : ∀ ms ∈ k.membership, ∀ slot ∈ ms.named, w.Knows slot.1 slot.2
  markers : model.AbstractAgrees → ∀ name ∈ k.markers, w.Marks name
  members : ∀ f ∈ k.values, IsName f.member
  markerNames : ∀ name ∈ k.markers, w.Gives name

/-- What a catalog has noted is promised. -/
structure Covers (model : Model) (c : Catalog) : Prop where
  simpleTypes : ∀ e ∈ c.simpleTypes, w.Holds e.2
  attributeTypes : ∀ e ∈ c.attributeTypes, w.Holds e.2
  declared : ∀ e ∈ c.complexTypes, ∃ t, (e.1, t) ∈ model.complexTypes ∧
    e.2.isAbstract = t.isAbstract
  marked : ∀ e ∈ c.complexTypes, e.2.isAbstract = true → w.Marks e.2.name
  typeNames : ∀ e ∈ c.complexTypes, w.Gives e.2.name
  elements : ∀ e ∈ c.elements, w.Knows e.1 e.2
  typedElements : ∀ e ∈ c.typedElements, w.Knows e.1.1 e.2
  inlineElements : ∀ e ∈ c.inlineElements, w.Knows e.1.2 e.2
  classes : ∀ k ∈ c.classes, w.Describes model k

variable {v w}

theorem Knows.mono {xmlName className : String} (h : v.Knows xmlName className) (hvw : v ≤ w) :
    w.Knows xmlName className := hvw.promises h

theorem Marks.mono {name : String} (h : v.Marks name) (hvw : v ≤ w) : w.Marks name :=
  hvw.promises h

theorem Gives.mono {name : String} (h : v.Gives name) (hvw : v ≤ w) : w.Gives name :=
  h.imp fun _ ht => ⟨hvw.promises ht.1, ht.2⟩

theorem Holds.mono {t : FieldType} (h : v.Holds t) (hvw : v ≤ w) : w.Holds t := by
  cases t with
  | primitive p => trivial
  | enumeration place => exact Nat.lt_of_lt_of_le h hvw.enumerations

theorem Describes.mono {model : Model} {k : ElementClass} (h : v.Describes model k)
    (hvw : v ≤ w) : w.Describes model k where
  values f hf := (h.values f hf).mono hvw
  slots ms hms slot hslot := (h.slots ms hms slot hslot).mono hvw
  markers ha name hname := (h.markers ha name hname).mono hvw
  members := h.members
  markerNames name hname := (h.markerNames name hname).mono hvw

theorem Covers.mono {model : Model} {c : Catalog} (h : v.Covers model c) (hvw : v ≤ w) :
    w.Covers model c where
  simpleTypes e he := (h.simpleTypes e he).mono hvw
  attributeTypes e he := (h.attributeTypes e he).mono hvw
  declared := h.declared
  marked e he ha := (h.marked e he ha).mono hvw
  typeNames e he := (h.typeNames e he).mono hvw
  elements e he := (h.elements e he).mono hvw
  typedElements e he := (h.typedElements e he).mono hvw
  inlineElements e he := (h.inlineElements e he).mono hvw
  classes k hk := (h.classes k hk).mono hvw

/-- What is covered does not depend on the names of declared types and elements. -/
theorem Covers.withTables {model : Model} {c : Catalog} (h : w.Covers model c)
    (types : List (String × TypeEntry)) (elements : List (String × String)) :
    ({ w with types := types, elements := elements } : Ledger).Covers model c :=
  { h with classes := fun k hk => { h.classes k hk with } }

end Ledger

namespace Catalog
variable (c : Catalog) (pending : List Promise)

/-- All promises; the classes and markers there are have been promised before. -/
def promises : List Promise :=
  pending ++ (c.classes.map ElementClass.promise ++ c.markers.map Marker.promise)

def ledger : Ledger :=
  ⟨c.promises pending, c.enumerations.length, c.complexTypes, c.elements⟩

/-- The names in use. -/
def names : List String :=
  reservedTypeNames ++ ((c.promises pending).map (·.name) ++ c.enumerations.map (·.name))

end Catalog

/-- A catalog in which no name is used twice and that refers to nothing but what is promised. -/
structure Coherent (model : Model) (pending : List Promise) (c : Catalog) : Prop where
  nodup : (c.names pending).Nodup
  taken : c.names pending ⊆ c.taken
  plain : ∀ name ∈ c.taken, Plain name
  legal : ∀ name ∈ c.taken, IsTypeName name
  covered : (c.ledger pending).Covers model c

theorem coherent_empty (model : Model) : Coherent model [] {} where
  nodup := by decide
  taken := by decide
  plain := (by decide : ∀ name ∈ reservedTypeNames, Plain name)
  legal := (by decide : ∀ name ∈ reservedTypeNames, IsTypeName name)
  covered := ⟨by simp, by simp, by simp, by simp, by simp, by simp, by simp, by simp, by simp⟩

section
variable {model : Model} {p q : List Promise} {c d : Catalog}

/-- A catalog with the same names in use. -/
theorem Coherent.of_perm (h : Coherent model p c) (hnames : (d.names q).Perm (c.names p))
    (htaken : d.taken = c.taken) (hcovered : (d.ledger q).Covers model d) :
    Coherent model q d where
  nodup := hnames.nodup_iff.mpr h.nodup
  taken _ hname := htaken ▸ h.taken (hnames.subset hname)
  plain := htaken ▸ h.plain
  legal := htaken ▸ h.legal
  covered := hcovered

/-- In which order promises are pending makes no difference. -/
theorem Coherent.perm (h : Coherent model p c) (hpq : p.Perm q) : Coherent model q c :=
  h.of_perm (((hpq.symm.append_right _).map _).append_right _ |>.append_left _) rfl
    (h.covered.mono ⟨(hpq.append_right _).subset, Nat.le_refl _, rfl, rfl⟩)

/-- A catalog with one more name in use. -/
theorem Coherent.of_perm_cons (h : Coherent model p c) {name : String}
    (hnew : Available c.taken name) (hlegal : IsTypeName name)
    (hnames : (d.names q).Perm (name :: c.names p)) (htaken : d.taken = name :: c.taken)
    (hcovered : (d.ledger q).Covers model d) : Coherent model q d where
  nodup := hnames.nodup_iff.mpr
    (List.nodup_cons.mpr ⟨fun hmem => hnew.new (h.taken hmem), h.nodup⟩)
  taken _ hn := htaken ▸ List.cons_subset_cons name h.taken (hnames.subset hn)
  plain := htaken ▸ List.forall_mem_cons.mpr ⟨hnew.plain, h.plain⟩
  legal := htaken ▸ List.forall_mem_cons.mpr ⟨hlegal, h.legal⟩
  covered := hcovered

end

/-- From a catalog that is coherent with `p` pending, and whose ledger goes beyond `w`, the step
leaves one, if it succeeds, that is coherent with `q` pending. Its ledger goes beyond `w` too, and
`R` holds of it and the result. -/
def Coheres {α : Type} (model : Model) (w : Ledger) (p : List Promise) (x : Build α)
    (q : α → List Promise) (R : Ledger → α → Prop) : Prop :=
  Ensures (fun c => Coherent model p c ∧ w ≤ c.ledger p) x fun a c =>
    Coherent model (q a) c ∧ w ≤ c.ledger (q a) ∧ R (c.ledger (q a)) a

/-- Whatever is pending remains so. -/
abbrev Stays {α : Type} (model : Model) (w : Ledger) (p : List Promise) (x : Build α)
    (R : Ledger → α → Prop) : Prop :=
  Coheres model w p x (fun _ => p) R

section
variable {α β : Type} {model : Model} {w : Ledger} {p : List Promise} {x : Build α}
  {q : α → List Promise} {R : Ledger → α → Prop}

theorem Coheres.bind {f : α → Build β} {q' : β → List Promise} {S : Ledger → β → Prop}
    (hx : Coheres model w p x q R)
    (hf : ∀ a w', w ≤ w' → R w' a → Coheres model w' (q a) (f a) q' S) :
    Coheres model w p (x >>= f) q' S := by
  refine Ensures.bind hx fun a c b c' ⟨hc, hw, ha⟩ hb => ?_
  obtain ⟨hc', hw', hb'⟩ := hf a _ hw ha c b c' ⟨hc, le_refl _⟩ hb
  exact ⟨hc', hw.trans hw', hb'⟩

theorem stays_pure {a : α} (h : ∀ w', w ≤ w' → R w' a) : Stays model w p (pure a : Build α) R :=
  ensures_pure fun _ hc => ⟨hc.1, hc.2, h _ hc.2⟩

theorem coheres_fail {e : BindingError} : Coheres model w p (fail e : Build α) q R :=
  ensures_fail

theorem stays_lift {r : Except BindingError α} (h : ∀ a, r = .ok a → ∀ w', R w' a) :
    Stays model w p (liftM r : Build α) R :=
  ensures_lift fun a _ hr hc => ⟨hc.1, hc.2, h a hr _⟩

theorem stays_get :
    Stays model w p (get : Build Catalog) fun w' c => w'.Covers model c ∧
      w'.types = c.complexTypes ∧ w'.elements = c.elements :=
  ensures_get fun _ hc => ⟨hc.1, hc.2, hc.1.covered, rfl, rfl⟩

/-- Noting down something that is promised. -/
theorem stays_modify {f : Catalog → Catalog}
    (hsame : ∀ c, (f c).names p = c.names p ∧ (f c).taken = c.taken ∧
      (f c).ledger p = c.ledger p)
    (hcovers : ∀ c w', w ≤ w' → w'.Covers model c → w'.Covers model (f c)) :
    Stays model w p (modify f : Build PUnit) fun _ _ => True := by
  refine ensures_modify fun c ⟨hc, hw⟩ => ?_
  obtain ⟨hnames, htaken, hledger⟩ := hsame c
  refine ⟨hc.of_perm (hnames ▸ .refl _) htaken ?_, hledger ▸ hw, trivial⟩
  exact hledger ▸ hcovers c _ hw hc.covered

/-- A name that is given out has been available, and it is one for a type. -/
theorem reserve_ensures {P : Catalog → Prop} {Q : String → Catalog → Prop} {preferred : String}
    {alternative : Option String}
    (h : ∀ c name, P c → Available c.taken name → IsTypeName name →
      Q name { c with taken := name :: c.taken }) :
    Ensures P (reserve preferred alternative) Q := by
  refine ensures_get_bind fun c hc => ?_
  refine Ensures.bind (Q := fun _ d =>
    d = { c with taken := chooseName c.taken preferred alternative :: c.taken })
    (ensures_set fun _ _ => rfl) fun _ => ensures_pure fun d hd => ?_
  exact hd ▸ h c _ hc (available_chooseName _ _ _) (isTypeName_chooseName _ _ _)

theorem reserve_coheres (preferred : String) (alternative : Option String) (purpose : Purpose) :
    Coheres model w p (reserve preferred alternative) (fun name => ⟨name, purpose⟩ :: p)
      fun w' name => ⟨name, purpose⟩ ∈ w'.promises := by
  refine reserve_ensures fun c name ⟨hc, hw⟩ hnew hlegal => ?_
  have hle : c.ledger p ≤ c.ledger (⟨name, purpose⟩ :: p) :=
    ⟨List.subset_cons_self _ _, Nat.le_refl _, rfl, rfl⟩
  refine ⟨?_, hw.trans hle, List.mem_cons_self⟩
  exact hc.of_perm_cons hnew hlegal List.perm_middle rfl { hc.covered.mono hle with }

theorem enumerate_stays (target : Target) (documentation : Option String) (facets : List Facet) :
    Stays model w p (enumerate target documentation facets) Ledger.Holds := by
  refine Ensures.bind (Q := fun name d => ∃ c, Coherent model p c ∧ w ≤ c.ledger p ∧
    Available c.taken name ∧ IsTypeName name ∧ d = { c with taken := name :: c.taken })
    (reserve_ensures fun c name ⟨hc, hw⟩ hnew hlegal => ⟨c, hc, hw, hnew, hlegal, rfl⟩)
    fun name => ?_
  refine ensures_get_bind fun d hd => ?_
  obtain ⟨c, hc, hw, hnew, hlegal, rfl⟩ := hd
  let e : Enumeration := .ofFacets name documentation target.owner facets
  let added : Catalog :=
    { c with taken := name :: c.taken, enumerations := c.enumerations ++ [e] }
  have hlength : added.enumerations.length = c.enumerations.length + 1 := List.length_append
  have hle : c.ledger p ≤ added.ledger p :=
    ⟨List.Subset.refl _, by rw [Catalog.ledger, Catalog.ledger, hlength]; exact Nat.le_succ _,
      rfl, rfl⟩
  refine Ensures.bind (Q := fun _ d => d = added) (ensures_set fun _ _ => rfl) fun _ =>
    ensures_pure fun d hd => ?_
  subst hd
  refine ⟨hc.of_perm_cons hnew hlegal ?_ rfl { hc.covered.mono hle with }, hw.trans hle, ?_⟩
  · simp only [Catalog.names, added, List.map_append, ← List.append_assoc]
    exact List.perm_append_singleton _ _
  · exact Nat.lt_of_lt_of_eq (Nat.lt_succ_self _) hlength.symm

/-- A promise is kept: what is added has the name that was given out for it. -/
theorem coheres_keep {promise : Promise} {f : Catalog → Catalog}
    (hpromises : ∀ c, ((f c).promises p).Perm (c.promises (promise :: p)))
    (hsame : ∀ c, (f c).taken = c.taken ∧ (f c).enumerations = c.enumerations ∧
      (f c).complexTypes = c.complexTypes ∧ (f c).elements = c.elements)
    (hcovers : ∀ c w', w ≤ w' → w'.Covers model c → w'.Covers model (f c)) :
    Coheres model w (promise :: p) (modify f : Build PUnit) (fun _ => p) fun _ _ => True := by
  refine ensures_modify fun c ⟨hc, hw⟩ => ?_
  obtain ⟨htaken, henumerations, htypes, helements⟩ := hsame c
  have hle : c.ledger (promise :: p) ≤ (f c).ledger p := by
    refine ⟨(hpromises c).symm.subset, ?_, htypes, helements⟩
    exact Nat.le_of_eq (congrArg List.length henumerations.symm)
  refine ⟨hc.of_perm ?_ htaken ?_, hw.trans hle, trivial⟩
  · rw [Catalog.names, Catalog.names, henumerations]
    exact (((hpromises c).map _).append_right _).append_left _
  · exact hcovers c _ (hw.trans hle) (hc.covered.mono hle)

theorem addClass_coheres {k : ElementClass} {promise : Promise} (hkept : k.promise = promise)
    (hk : w.Describes model k) :
    Coheres model w (promise :: p) (addClass k) (fun _ => p) fun _ _ => True := by
  subst hkept
  refine coheres_keep (fun c => ?_) (fun _ => ⟨rfl, rfl, rfl, rfl⟩) fun c w' hw hc => ?_
  · simp only [Catalog.promises, List.map_append, List.map_singleton, List.append_assoc]
    exact (List.perm_middle.append_left p).trans List.perm_middle
  · refine { hc with classes := fun k' hk' => ?_ }
    rcases List.mem_append.mp hk' with hk' | hk'
    · exact hc.classes k' hk'
    · exact List.mem_singleton.mp hk' ▸ hk.mono hw

theorem addMarker_coheres {m : Marker} {promise : Promise} (hkept : m.promise = promise) :
    Coheres model w (promise :: p)
      (modify fun c => { c with markers := c.markers ++ [m] } : Build PUnit) (fun _ => p)
      fun _ _ => True := by
  subst hkept
  refine coheres_keep (fun c => ?_) (fun _ => ⟨rfl, rfl, rfl, rfl⟩) fun c w' _ hc => { hc with }
  simp only [Catalog.promises, List.map_append, List.map_singleton, ← List.append_assoc]
  exact List.perm_append_singleton _ _

end

end XmlBinding.Binding
