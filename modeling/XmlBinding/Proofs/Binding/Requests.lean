import XmlBinding.Proofs.Binding.Attributes
import XmlBinding.Proofs.Binding.Documents
import XmlBinding.Proofs.Binding.Histories
import XmlBinding.Proofs.Binding.Nesting

/-! # What a schema asks to be resolved

Every simple type that is resolved for a module is one that the schema asks for: one of its own, or
that of an attribute, of the text of a complex type or of an element. No other step has to do with
simple types and enumerations, so the enumerations of a module are those that have been made for the
types that were resolved.
-/
namespace XmlBinding.Binding
open Schema Value

/-- A step that does no harm to a property of the catalog, whether it succeeds or not. -/
abbrev Spares {α : Type} (P : Catalog → Prop) (x : Build α) : Prop :=
  SettlesAll (fun _ => True) P x

/-- A property of the simple types and enumerations of a catalog that is kept when anything is
resolved that the schema asks for. -/
structure KeptByRequests (model : Model) (P : Catalog → Prop) : Prop where
  resolve : ∀ q : Request, model.Asks q.ref → Spares P (q.resolve model)
  other : ∀ c c' : Catalog, c'.simpleTypes = c.simpleTypes → c'.enumerations = c.enumerations →
    P c → P c'

section
variable {model : Model} {P : Catalog → Prop} (hP : KeptByRequests model P) (hm : model.Keyed)
include hP

theorem KeptByRequests.serves : Serves model (fun _ => True) P where
  plain _ _ := trivial
  resolve := hP.resolve
  note c _ hc := hP.other c _ rfl rfl hc

theorem KeptByRequests.modify {f : Catalog → Catalog}
    (hs : ∀ c, (f c).simpleTypes = c.simpleTypes)
    (he : ∀ c, (f c).enumerations = c.enumerations) : Spares P (modify f : Build PUnit) :=
  ends_modify fun c hc => ⟨hP.other c _ (hs c) (he c) hc, trivial⟩

theorem reserve_spares (preferred : String) (alternative : Option String) :
    Spares P (reserve preferred alternative) := by
  refine settles_get.bind fun c hc => (settles_set ?_).bind fun _ _ => settles_pure trivial
  exact hP.other c _ rfl rfl hc

theorem addClass_spares (k : ElementClass) : Spares P (addClass k) :=
  hP.modify (fun _ => rfl) fun _ => rfl

theorem simpleContent_spares (className : String) {type : ElementType}
    (h : model.Asks type.valueType) : Spares P (simpleContent model className type) := by
  cases type with
  | named name => exact hP.serves.typeName h
  | simple t => exact hP.serves.simpleType _ h
  | complex t => exact settles_pure trivial
  | any => exact settles_pure trivial

include hm

theorem buildClass_spares {members : String → List DeclaredParticle → Build (Option Membership)}
    (hmembers : MembersKeep model (fun _ : Unit => P) members) (origin : Origin) (name : String)
    {d : ElementDeclaration} (hd : d.declared.Sublist model.declared) :
    Spares P (buildClass model members origin name d) := by
  rw [buildClass]
  split
  · exact addClass_spares hP _
  · refine (complexTypeOf?_settles model hP.serves.plain hm name (d.sublist_type.trans hd)).bind
      fun r hr => ?_
    split
    · next scope t =>
      refine (derive_settles model hP.serves hm scope (hr _ rfl)).bind fun draft hdraft => ?_
      exact (hmembers () draft _ name hdraft).bind fun ms _ => addClass_spares hP _
    · exact (simpleContent_spares hP name (.element (hd.subset d.mem_declared))).bind fun t _ =>
        addClass_spares hP _

omit hm

theorem rememberElement_spares (declaredIn : Option String) (d : ElementDeclaration)
    (className : String) : Spares P (rememberElement declaredIn d className) := by
  unfold rememberElement
  split
  · exact hP.modify (fun _ => rfl) fun _ => rfl
  · exact hP.modify (fun _ => rfl) fun _ => rfl
  · exact settles_pure trivial

include hm

theorem keptInside_of_requests : KeptInside model fun _ : Unit => P := by
  intro bound groups hmembers _ declaredIn owner d hd
  have hreserve : Spares P (reserveElement declaredIn owner d) :=
    settles_get.bind fun c _ => reserve_spares hP _ _
  refine hreserve.bind fun name _ => (rememberElement_spares hP declaredIn d name).bind fun _ _ => ?_
  exact (buildClass_spares hP hm hmembers .localElement name hd).bind fun _ _ => settles_pure trivial

theorem membershipOf_spares : MembersKeep model (fun _ : Unit => P) (membershipOf model) :=
  (keptInside_of_requests hP hm).members (nestingBound model) []

theorem buildComplexType_spares {e : String × ComplexType} (he : e ∈ model.complexTypes) :
    Spares P (buildComplexType model e.1 e.2) := by
  refine (typeScope_settles hP.serves.plain e.1).bind fun scope _ => ?_
  split
  · exact hP.modify (fun _ => rfl) fun _ => rfl
  · refine (derive_settles model hP.serves hm scope (placed_of_complexType model hm he 0)).bind
      fun draft hdraft => ?_
    exact (membershipOf_spares hP hm () draft 0 scope.name hdraft).bind fun ms _ =>
      addClass_spares hP _

theorem buildElement_spares {e : String × ElementDeclaration} (he : e ∈ model.elements) :
    Spares P (buildElement model e.1 e.2) :=
  (referredElement_settles hP.serves.plain e.1).bind fun className _ =>
    buildClass_spares hP hm (membershipOf_spares hP hm) .topLevel className
      (model.sublist_of_element he)

/-- Once the simple types are resolved, names are given out and classes are built. -/
theorem buildDeclared_spares : Spares P (do
    model.complexTypes.forM fun e => declareComplexType e.1 e.2
    model.elements.forM fun e => declareElement e.1
    model.complexTypes.forM fun e => buildComplexType model e.1 e.2
    model.elements.forM fun e => buildElement model e.1 e.2) := by
  refine (forM_settles fun e _ => ?_).bind fun _ _ => ?_
  · exact (reserve_spares hP e.1 none).bind fun _ _ => hP.modify (fun _ => rfl) fun _ => rfl
  refine (forM_settles fun e _ => ?_).bind fun _ _ => ?_
  · exact (reserve_spares hP e.1 _).bind fun _ _ => hP.modify (fun _ => rfl) fun _ => rfl
  exact (forM_settles fun e he => buildComplexType_spares hP hm he).bind fun _ _ =>
    forM_settles fun e he => buildElement_spares hP hm he

end

/-- What has been resolved is what the schema asks for, and these names are among it. -/
def Requested (model : Model) (names : List String) (c : Catalog) : Prop :=
  ∃ rs, History model rs c ∧ (∀ r ∈ rs, model.Asks r.1.ref) ∧
    ∀ name ∈ names, ∃ r ∈ rs, r.1.ref = .named (.schema name)

section
variable {model : Model}

theorem Requested.resolve {names : List String} {q : Request} (hq : model.Asks q.ref) :
    Ensures (Requested model names) (q.resolve model) fun _ c =>
      Requested model names c ∧ ∀ name, q.ref = .named (.schema name) →
        Requested model (names ++ [name]) c := by
  rintro c t c' ⟨rs, h, hasks, hnames⟩ hrun
  have hlater : ∀ name ∈ names, ∃ r ∈ (q, t) :: rs, r.1.ref = .named (.schema name) := by
    intro name hname
    obtain ⟨r, hr, href⟩ := hnames name hname
    exact ⟨r, List.mem_cons_of_mem _ hr, href⟩
  have hasks : ∀ r ∈ (q, t) :: rs, model.Asks r.1.ref := List.forall_mem_cons.mpr ⟨hq, hasks⟩
  refine ⟨⟨_, h.resolve hrun, hasks, hlater⟩, fun name href => ⟨_, h.resolve hrun, hasks, ?_⟩⟩
  intro other hother
  rcases List.mem_append.mp hother with hother | hother
  · exact hlater other hother
  · exact ⟨_, List.mem_cons_self, List.mem_singleton.mp hother ▸ href⟩

theorem keptByRequests_requested (names : List String) :
    KeptByRequests model (Requested model names) where
  resolve _ hq := settles_of_ensures ((Requested.resolve hq).weaken fun _ _ h => ⟨h.1, trivial⟩)
  other := fun _ _ hs he ⟨rs, h, hrest⟩ => ⟨rs, h.other hs he, hrest⟩

theorem resolveNamed_requested {e : String × SimpleType} (he : e ∈ model.simpleTypes)
    (before : List (String × SimpleType)) :
    Ensures (Requested model (before.map (·.1))) (discard (resolveNamed model e.1))
      fun _ => Requested model ((before ++ [e]).map (·.1)) := by
  have h : Ensures (Requested model (before.map (·.1))) (resolveNamed model e.1)
      fun _ => Requested model ((before ++ [e]).map (·.1)) := by
    let q : Request := ⟨.named (.schema e.1), .shared e.1⟩
    have hq : model.Asks q.ref := .simpleType he
    have hresolve : q.resolve model = resolveNamed model e.1 := by
      rw [Request.resolve, resolveRef]
      rfl
    rw [← hresolve, List.map_append]
    exact (Requested.resolve hq).weaken fun _ _ h => h.2 e.1 rfl
  exact h.bind fun _ => ensures_pure (a := PUnit.unit) fun _ hc => hc

theorem buildAll_requested (hm : model.Keyed) : Ensures (· = {}) (buildAll model)
    fun _ => Requested model (model.simpleTypes.map (·.1)) := by
  refine Ensures.bind (Q := fun _ => Requested model (model.simpleTypes.map (·.1))) ?_ fun _ => ?_
  · have hnames := forM_ensures (P := fun before => Requested model (before.map (·.1)))
      fun before e (he : e ∈ model.simpleTypes) => resolveNamed_requested he before
    refine hnames.strengthen fun c hc => ?_
    subst hc
    exact ⟨[], .start, nofun, nofun⟩
  · exact (buildDeclared_spares (keptByRequests_requested _) hm).ensures.weaken fun _ _ h => h.1

/-- What simple types have been resolved for a module, and which of its enumerations are flags. -/
structure Module.ResolvedBy (model : Model) (m : Module) (rs : List (Request × FieldType)) :
    Prop where
  /-- They have been resolved one after the other, and the enumerations are those made for them. -/
  history : ∃ c, History model rs c ∧ c.enumerations = m.enumerations
  /-- They are types that the schema asks for, -/
  asked : ∀ r ∈ rs, model.Asks r.1.ref
  /-- and all of its own ones are among them. -/
  simpleTypes : ∀ e ∈ model.simpleTypes, ∃ r ∈ rs, r.1.ref = .named (.schema e.1)
  /-- There are flags where a list that has been resolved has its end. -/
  flags : ∀ place, FlagsAt m.enumerations place ↔
    ∃ r ∈ rs, r.2 = .enumeration place ∧ LeadsToList model r.1.ref

theorem Module.resolvedBy_of_ofModel (hm : model.Keyed) {m : Module}
    (h : Module.ofModel model = .ok m) : ∃ rs, m.ResolvedBy model rs := by
  obtain ⟨u, c, hrun, rfl⟩ := exists_catalog_of_ofModel h
  obtain ⟨rs, hrs, hasks, hnames⟩ := buildAll_requested hm {} u c rfl hrun
  exact ⟨rs, ⟨c, hrs, rfl⟩, hasks, fun e he => hnames e.1 (List.mem_map_of_mem he),
    hrs.resolvedAsFollowed.flags⟩

end

end XmlBinding.Binding

namespace XmlBinding
open Schema Binding Xml Code

/-- Whatever simple types of a schema have been resolved, a name is resolved to what following its
definitions leads to, and names have an enumeration in common just if their definitions end with the
same literals. In a generated module there are flags for the literals of the lists that have been
resolved, and for no others. -/
theorem simpleTypes_resolvedAsFollowed :
    (∀ (model : Model) (rs : List (Request × FieldType)) (c : Catalog), History model rs c →
      ResolvedAsFollowed model rs c) ∧
    ∀ (text source : String) (options : Options), generate text options = .ok source →
      ∃ root model m modules support rs, readDocument options.allowDoctype text = .ok root ∧
        readModel root = .ok model ∧ Module.ofModel model = .ok m ∧
        source = (sourceFile m modules support).text ∧ m.ResolvedBy model rs := by
  refine ⟨fun _ _ _ h => h.resolvedAsFollowed, fun text source options h => ?_⟩
  obtain ⟨m, modules, support, hm, hsource⟩ := exists_of_generate h
  obtain ⟨model, hread, hbound⟩ := bindSchema_eq_ok.mp hm
  obtain ⟨root, hroot, hmodel⟩ := readSchema_eq_ok.mp hread
  obtain ⟨rs, hrs⟩ := Module.resolvedBy_of_ofModel (keyed_of_readModel hmodel) hbound
  exact ⟨root, model, m, modules, support, rs, hroot, hmodel, hbound, hsource, hrs⟩

/-- Literals, a list of them, and a restriction of the list. -/
def sizeOutline : Outline :=
  let node (tag : String) (attributes : List (String × String)) (children : List Outline) :
      Outline := ⟨tag, none, attributes, none, children⟩
  node "schema" [] [
    node "simpleType" [("name", "Size")] [node "restriction" [("base", "string")]
      [node "enumeration" [("value", "small")] [], node "enumeration" [("value", "large")] []]],
    node "simpleType" [("name", "Sizes")] [node "list" [("itemType", "Size")] []],
    node "simpleType" [("name", "Usual")] [node "restriction" [("base", "Sizes")] []]]

def sizeSchema : Model :=
  { simpleTypes := [
      ("Size", ⟨some "Size", none, .restriction
        ⟨.named (.schema "string"), [⟨"small", none⟩, ⟨"large", none⟩], [], []⟩⟩),
      ("Sizes", ⟨some "Sizes", none, .list (.named (.schema "Size"))⟩),
      ("Usual", ⟨some "Usual", none, .restriction ⟨.named (.schema "Sizes"), [], [], []⟩⟩)] }

theorem readModel_sizeOutline : readModel (sizeOutline.element none []) = .ok sizeSchema := by
  cbv

theorem resolvedAsFollowed_sizeOutline :
    ∃ source, generate sizeOutline.document {} = .ok source ∧
      ∃ root model m modules support rs, readDocument false sizeOutline.document = .ok root ∧
        readModel root = .ok model ∧ Module.ofModel model = .ok m ∧
        source = (sourceFile m modules support).text ∧
        m.enumerations.map (fun e => (e.name, e.form)) = [("Size", .flags)] ∧
        m.ResolvedBy model rs ∧ ∃ c, History model rs c ∧ ResolvedAsFollowed model rs c := by
  obtain ⟨m, hm, hforms⟩ := exists_bindSchema_document (P := fun m =>
      m.enumerations.map (fun e => (e.name, e.form)) = [("Size", .flags)])
    (by decide +kernel) readModel_sizeOutline (by decide +kernel) false
  obtain ⟨source, hsource⟩ := exists_generate hm
  obtain ⟨root, model, m', modules, support, rs, hroot, hmodel, hbound, hrest⟩ :=
    simpleTypes_resolvedAsFollowed.2 _ _ _ hsource
  have hread := readSchema_eq_ok.mpr ⟨root, hroot, hmodel⟩
  have hm' := bindSchema_eq_ok.mpr ⟨model, hread, hbound⟩
  obtain rfl : m' = m := Except.ok.inj (hm'.symm.trans hm)
  obtain ⟨hsource', hresolved⟩ := hrest
  obtain ⟨c, hc, -⟩ := hresolved.history
  exact ⟨source, hsource, root, model, m', modules, support, rs, hroot, hmodel, hbound, hsource',
    of_decide_eq_true hforms, hresolved, c, hc, simpleTypes_resolvedAsFollowed.1 model rs c hc⟩

end XmlBinding
