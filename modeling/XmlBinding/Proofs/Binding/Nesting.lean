import XmlBinding.Proofs.Binding.Settling

/-! # Elements inside of each other

While the class of a type is built, those of the elements inside of it are, and so on down to the
bound. What has been built is kept on the way if it is kept whenever one element inside gets its
name and its class, so that nothing else needs to be known of the nesting.
-/
namespace XmlBinding.Binding
open Schema

/-- Builds the membership of a class within a bound. -/
abbrev membersWithin (model : Model) (bound : Nat) (groups : List String) :
    String → List DeclaredParticle → Build (Option Membership) :=
  buildMembership (localElementWithin model bound groups) (referredGroupWithin model bound groups)

section
variable {ι : Type} (model : Model) (P : ι → Catalog → Prop)

/-- Memberships are built without a loss, whatever there is to lose. -/
def MembersKeep (members : String → List DeclaredParticle → Build (Option Membership)) : Prop :=
  ∀ i (draft : Draft) (k : Nat) (owner : String), draft.Placed model k →
    SettlesAll (fun _ => True) (P i) (members owner draft.particles)

/-- A property that is kept when an element inside is met for the first time. -/
def KeptInside : Prop :=
  ∀ bound groups, MembersKeep model P (membersWithin model bound groups) →
    ∀ i declaredIn owner d, d.declared.Sublist model.declared →
      SettlesAll (fun _ => True) (P i) do
        let name ← reserveElement declaredIn owner d
        rememberElement declaredIn d name
        buildClass model (membersWithin model bound groups) .localElement name d
        return name

/-- It is kept by all elements and groups within a bound. -/
structure KeptWithin (bound : Nat) : Prop where
  element : ∀ i groups declaredIn owner d, d.declared.Sublist model.declared →
    SettlesAll (fun _ => True) (P i)
      (localElementWithin model bound groups declaredIn owner d)
  group : ∀ i groups declaredIn owner name minimum m,
    (∀ n ∈ declaredIn, n ∈ model.allTypeNames) →
    SettlesAll (fun _ => True) (P i)
      (referredGroupWithin model bound groups declaredIn owner name minimum m)

end

section
variable {ι : Type} {model : Model} {P : ι → Catalog → Prop} {bound : Nat}
  (hbound : KeptWithin model P bound)

section
include hbound

theorem KeptWithin.placedElement (i : ι) (groups : List String) {k : Nat}
    (declaredIn : Option String) (owner : String) (d : ElementDeclaration)
    (hd : Placed model k declaredIn (Term.element d).declared) :
    SettlesAll (fun _ => True) (P i)
      (localElementWithin model bound groups declaredIn owner d) := by
  rw [Term.declared] at hd
  exact hbound.element i groups declaredIn owner d hd.part

theorem KeptWithin.placedGroup (i : ι) (groups : List String) {k : Nat}
    (declaredIn : Option String) (owner name : String) (minimum : Nat) (m : MaxOccurs)
    (hname : Placed model k declaredIn (Term.groupRef name).declared) :
    SettlesAll (fun _ => True) (P i)
      (referredGroupWithin model bound groups declaredIn owner name minimum m) :=
  hbound.group i groups declaredIn owner name minimum m hname.owner

theorem KeptWithin.members (groups : List String) :
    MembersKeep model P (membersWithin model bound groups) :=
  fun i _ k owner hdraft => buildMembership_settles (fun _ _ => trivial)
    (passesDown_placed model k) (hbound.placedElement i groups) (hbound.placedGroup i groups) owner
    fun p hp _ => hdraft p hp

/-- An element gets its class where those inside of its type get theirs. -/
theorem KeptInside.localElement (h : KeptInside model P) (i : ι) (groups : List String)
    (declaredIn : Option String) (owner : String) {d : ElementDeclaration}
    (hd : d.declared.Sublist model.declared) :
    SettlesAll (fun _ => True) (P i)
      (localElementWithin model (bound + 1) groups declaredIn owner d) := by
  rw [localElementWithin]
  refine settles_get.bind fun c _ => ?_
  split
  · exact settles_pure trivial
  · exact h bound groups (hbound.members groups) i declaredIn owner d hd

theorem KeptWithin.referredGroup (i : ι) (groups : List String) {declaredIn : Option String}
    (howner : ∀ n ∈ declaredIn, n ∈ model.allTypeNames) (owner name : String) (minimum : Nat)
    (m : MaxOccurs) :
    SettlesAll (fun _ => True) (P i)
      (referredGroupWithin model (bound + 1) groups declaredIn owner name minimum m) := by
  rw [referredGroupWithin]
  split
  · exact ends_fail trivial
  · next g hg =>
    have hpart := model.sublist_of_group (mem_of_find hg)
    split
    · exact ends_fail trivial
    · apply buildGroup_settles (fun _ _ => trivial)
        (passesDown_placed model g.group.declared.length declaredIn)
        (hbound.placedElement i _ declaredIn owner) (hbound.placedGroup i _ declaredIn owner)
      rw [Term.declared]
      exact ⟨howner, hpart, fun _ => Nat.le_refl _⟩

end

theorem KeptInside.within (h : KeptInside model P) (bound : Nat) : KeptWithin model P bound := by
  induction bound with
  | zero =>
    constructor
    · intro i groups declaredIn owner d _
      rw [localElementWithin]
      exact ends_fail trivial
    · intro i groups declaredIn owner name minimum m _
      rw [referredGroupWithin]
      exact ends_fail trivial
  | succ bound ih =>
    constructor
    · intro i groups declaredIn owner d hd
      exact h.localElement ih i groups declaredIn owner hd
    · intro i groups declaredIn owner name minimum m howner
      exact ih.referredGroup i groups howner owner name minimum m

theorem KeptInside.members (h : KeptInside model P) (bound : Nat) (groups : List String) :
    MembersKeep model P (membersWithin model bound groups) :=
  (h.within bound).members groups

end

/-! ## Properties of the classes -/

/-- Of a catalog nothing but its classes matters. -/
theorem frame_of_classes {P : Catalog → Prop}
    (h : ∀ c c' : Catalog, c'.classes = c.classes → P c → P c') : Frame (fun _ => True) P where
  plain _ _ := trivial
  elements c c' _ _ hclasses := h c c' hclasses

theorem rememberElement_settles {E : BindingError → Prop} {P : Catalog → Prop}
    (h : ∀ c c' : Catalog, c'.classes = c.classes → P c → P c') (declaredIn : Option String)
    (d : ElementDeclaration) (className : String) :
    SettlesAll E P (rememberElement declaredIn d className) := by
  unfold rememberElement
  split
  · exact ends_modify fun c hc => ⟨h c _ rfl hc, trivial⟩
  · exact ends_modify fun c hc => ⟨h c _ rfl hc, trivial⟩
  · exact settles_pure trivial

/-- A property of the classes, compared to earlier ones, that is kept when an element inside gets
its class. -/
structure KeptByClasses (model : Model) (P : List ElementClass → Catalog → Prop) : Prop where
  classes : ∀ ks (c c' : Catalog), c'.classes = c.classes → P ks c → P ks c'
  build : ∀ bound groups, MembersKeep model P (membersWithin model bound groups) →
    ∀ ks name d, d.declared.Sublist model.declared →
      Ensures (P ks) (buildClass model (membersWithin model bound groups) .localElement name d)
        fun _ => P ks

/-- Names do not matter to the classes there are. -/
theorem KeptByClasses.keptInside {model : Model} {P : List ElementClass → Catalog → Prop}
    (h : KeptByClasses model P) : KeptInside model P := by
  intro bound groups hmembers ks declaredIn owner d hd
  have hframe := frame_of_classes (h.classes ks)
  refine (reserveElement_settles hframe declaredIn owner d).bind fun name _ => ?_
  refine (rememberElement_settles (h.classes ks) declaredIn d name).bind fun _ _ => ?_
  have hclass := (h.build bound groups hmembers ks name d hd).weaken fun _ c hc =>
    And.intro hc trivial
  exact Settles.bind (R := fun _ => True) (settles_of_ensures hclass) fun _ _ =>
    settles_pure trivial

/-- Before the first class of a type is built, no step is about classes. -/
theorem buildAll_ensures {model : Model} {P : Catalog → Prop} {Q : PUnit → Catalog → Prop}
    (hP : Frame (fun _ => True) P) (hstart : P {})
    (hclasses : Ensures P (do
      model.complexTypes.forM fun e => buildComplexType model e.1 e.2
      model.elements.forM fun e => buildElement model e.1 e.2) Q) :
    Ensures (· = {}) (buildAll model) Q := by
  have hnames : SettlesAll (fun _ => True) P
      (model.simpleTypes.forM fun e => discard (resolveNamed model e.1)) :=
    forM_settles fun e _ => (resolveNamed_settles model hP e.1).bind fun _ _ => settles_pure trivial
  have htypes : SettlesAll (fun _ => True) P
      (model.complexTypes.forM fun e => declareComplexType e.1 e.2) :=
    forM_settles fun e _ => declareComplexType_settles hP e.1 e.2
  have helements : SettlesAll (fun _ => True) P (model.elements.forM fun e => declareElement e.1) :=
    forM_settles fun e _ => declareElement_settles hP e.1
  rintro c u c' rfl hrun
  exact hnames.ensures_bind (fun _ _ => htypes.ensures_bind fun _ _ =>
    helements.ensures_bind fun _ _ => hclasses) {} u c' hstart hrun

end XmlBinding.Binding
