import Mathlib.Data.List.ProdSigma
import XmlBinding.Proofs.Binding.Settling

/-! # The bounds are never reached

A local element that is remembered is not built again. There are only so many places to remember
one at, and so many groups that can be entered at once; between two of these, the elements met on
the way down lie inside of each other.
-/
namespace XmlBinding.Binding
open Schema

/-- The second catalog remembers all local elements that the first does. -/
def Catalog.ExtendedBy (c c' : Catalog) : Prop :=
  ∀ declaredIn d className, rememberedElement c declaredIn d = some className →
    rememberedElement c' declaredIn d = some className

theorem Catalog.ExtendedBy.refl (c : Catalog) : c.ExtendedBy c :=
  fun _ _ _ h => h

theorem Catalog.ExtendedBy.trans {c c' c'' : Catalog} (h : c.ExtendedBy c')
    (h' : c'.ExtendedBy c'') : c.ExtendedBy c'' :=
  fun declaredIn d className hc => h' declaredIn d className (h declaredIn d className hc)

theorem rememberedElement_congr {c c' : Catalog} (ht : c'.typedElements = c.typedElements)
    (hi : c'.inlineElements = c.inlineElements) (declaredIn : Option String)
    (d : ElementDeclaration) :
    rememberedElement c' declaredIn d = rememberedElement c declaredIn d := by
  unfold rememberedElement
  rw [ht, hi]

/-- A local element that can be remembered: its type has a name, or the type that declares it. -/
def Memorable (declaredIn : Option String) (d : ElementDeclaration) : Prop :=
  (∃ t, d.type = .named t) ∨ declaredIn ≠ none

section
variable {declaredIn : Option String} {d : ElementDeclaration} {className : String}

theorem rememberedElement_named {c : Catalog} {t : TypeName} (h : d.type = .named t) :
    rememberedElement c declaredIn d = remembered c.typedElements (d.name, t.text) := by
  unfold rememberedElement
  split <;> simp_all

theorem rememberedElement_inline {c : Catalog} {owner : String} (h : ∀ t, d.type ≠ .named t) :
    rememberedElement c (some owner) d = remembered c.inlineElements (owner, d.name) := by
  unfold rememberedElement
  split <;> simp_all

theorem rememberElement_named {t : TypeName} (h : d.type = .named t) :
    rememberElement declaredIn d className = modify fun c =>
      { c with typedElements := ((d.name, t.text), className) :: c.typedElements } := by
  unfold rememberElement
  split <;> simp_all

theorem rememberElement_inline {owner : String} (h : ∀ t, d.type ≠ .named t) :
    rememberElement (some owner) d className = modify fun c =>
      { c with inlineElements := ((owner, d.name), className) :: c.inlineElements } := by
  unfold rememberElement
  split <;> simp_all

theorem rememberElement_of_not_memorable (h : ¬ Memorable declaredIn d) :
    rememberElement declaredIn d className = pure () := by
  unfold rememberElement
  split
  · exact absurd (.inl ⟨_, ‹_›⟩) h
  · exact absurd (.inr nofun) h
  · rfl

theorem extendedBy_typed {c : Catalog} {key : String × String}
    (hnew : remembered c.typedElements key = none) :
    c.ExtendedBy { c with typedElements := (key, className) :: c.typedElements } := by
  intro declaredIn' d' name h
  unfold rememberedElement at h ⊢
  split at h
  · exact remembered_cons_of_new hnew h
  · exact h
  · exact h

theorem extendedBy_inline {c : Catalog} {key : String × String}
    (hnew : remembered c.inlineElements key = none) :
    c.ExtendedBy { c with inlineElements := (key, className) :: c.inlineElements } := by
  intro declaredIn' d' name h
  unfold rememberedElement at h ⊢
  split at h
  · exact h
  · exact remembered_cons_of_new hnew h
  · exact h

/-- Remembering an element that is new forgets no other. -/
theorem rememberElement_ends {E : BindingError → Prop} {P Q : Catalog → Prop}
    (h : ∀ c c' : Catalog, P c → rememberedElement c declaredIn d = none → c.ExtendedBy c' →
      (Memorable declaredIn d → rememberedElement c' declaredIn d = some className) → Q c') :
    Ends E (fun c => P c ∧ rememberedElement c declaredIn d = none)
      (rememberElement declaredIn d className) fun _ => Q := by
  by_cases hnamed : ∃ t, d.type = .named t
  · obtain ⟨t, ht⟩ := hnamed
    rw [rememberElement_named ht]
    refine ends_modify fun c ⟨hc, hnew⟩ => h c _ hc hnew ?_ fun _ => ?_
    · exact extendedBy_typed (rememberedElement_named ht ▸ hnew)
    · rw [rememberedElement_named ht, remembered_cons, if_pos rfl]
  · have hinline : ∀ t, d.type ≠ .named t := not_exists.mp hnamed
    cases declaredIn with
    | some owner =>
      rw [rememberElement_inline hinline]
      refine ends_modify fun c ⟨hc, hnew⟩ => h c _ hc hnew ?_ fun _ => ?_
      · exact extendedBy_inline (rememberedElement_inline hinline ▸ hnew)
      · rw [rememberedElement_inline hinline, remembered_cons, if_pos rfl]
    | none =>
      have hm : ¬ Memorable none d := by simpa [Memorable] using hinline
      rw [rememberElement_of_not_memorable hm]
      exact ends_pure fun c ⟨hc, hnew⟩ => h c c hc hnew (.refl c) (absurd · hm)

end

/-! ## What is left to build -/

/-- The places where a local element may be remembered. -/
def places (model : Model) : List (Option String × ElementDeclaration) :=
  (none :: model.allTypeNames.map some) ×ˢ model.allElements

theorem length_places_le (model : Model) :
    (places model).length ≤ model.declarations * (model.declarations + 1) := by
  have helements : model.allElements.length ≤ model.declarations := by
    rw [← model.length_declared]
    exact List.length_filterMap_le _ _
  have hnames : model.allTypeNames.length ≤ model.declarations := by
    rw [← model.length_declared]
    exact List.length_filterMap_le _ _
  calc (places model).length
      = (model.allTypeNames.length + 1) * model.allElements.length := by
        rw [places, List.length_product, List.length_cons, List.length_map]
    _ ≤ (model.declarations + 1) * model.declarations :=
        Nat.mul_le_mul (Nat.succ_le_succ hnames) helements
    _ = model.declarations * (model.declarations + 1) := Nat.mul_comm _ _

/-- The number of places where no element is remembered yet. -/
def Catalog.vacant (model : Model) (c : Catalog) : Nat :=
  (places model).countP fun p => (rememberedElement c p.1 p.2).isNone

theorem Catalog.ExtendedBy.isNone {c c' : Catalog} (h : c.ExtendedBy c')
    (p : Option String × ElementDeclaration) (hp : (rememberedElement c' p.1 p.2).isNone) :
    (rememberedElement c p.1 p.2).isNone := by
  cases hc : rememberedElement c p.1 p.2 with
  | none => rfl
  | some className => rw [h p.1 p.2 className hc] at hp; cases hp

theorem Catalog.ExtendedBy.vacant_le {c c' : Catalog} (h : c.ExtendedBy c') (model : Model) :
    c'.vacant model ≤ c.vacant model :=
  List.countP_mono_left fun p _ => h.isNone p

/-- A place that is taken is vacant no more. -/
theorem Catalog.ExtendedBy.vacant_lt {c c' : Catalog} (h : c.ExtendedBy c') {model : Model}
    {p : Option String × ElementDeclaration} (hp : p ∈ places model)
    (hc : rememberedElement c p.1 p.2 = none) (hc' : (rememberedElement c' p.1 p.2).isSome) :
    c'.vacant model < c.vacant model := by
  obtain ⟨front, back, hsplit⟩ := List.append_of_mem hp
  have hfront := List.countP_mono_left (l := front) fun p _ => h.isNone p
  have hback := List.countP_mono_left (l := back) fun p _ => h.isNone p
  have hnone : (rememberedElement c' p.1 p.2).isNone = false := by simpa using hc'
  rw [vacant, vacant, hsplit]
  simp only [List.countP_append, List.countP_cons, hc, hnone, Option.isNone_none]
  simp only [if_true, Bool.false_eq_true, if_false]
  omega

theorem mem_places {model : Model} {declaredIn : Option String} {d : ElementDeclaration}
    (howner : ∀ name ∈ declaredIn, name ∈ model.allTypeNames)
    (hd : d.declared.Sublist model.declared) : (declaredIn, d) ∈ places model := by
  refine List.mem_product.mpr ⟨?_, ?_⟩
  · cases declaredIn with
    | none => exact List.mem_cons_self
    | some owner => exact List.mem_cons_of_mem _ (List.mem_map_of_mem (howner owner rfl))
  · exact model.mem_allElements (hd.subset d.mem_declared)

/-- The bound leaves room for what may still be entered: `r` places, all groups but those entered,
and `k` elements inside of each other before the next of these. -/
structure Room (model : Model) (r : Nat) (groups : List String) (k bound : Nat) : Prop where
  followed : Followed model.groups groups
  bound : (r + (model.groups.length - groups.length)) * (model.declarations + 1) + k < bound

section
variable {model : Model} {r : Nat} {groups : List String} {k k' bound : Nat}

theorem Room.weaken (h : Room model r groups k bound) (hk : k' ≤ k) :
    Room model r groups k' bound :=
  ⟨h.followed, by have := h.bound; omega⟩

theorem Room.inside (h : Room model r groups (k + 1) (bound + 1)) : Room model r groups k bound :=
  ⟨h.followed, by have := h.bound; omega⟩

theorem Room.remember (h : Room model (r + 1) groups k (bound + 1)) (hk : k' ≤ model.declarations) :
    Room model r groups k' bound := by
  refine ⟨h.followed, ?_⟩
  have hbound := h.bound
  rw [Nat.add_right_comm, Nat.succ_mul] at hbound
  omega

theorem Room.enter (h : Room model r groups k (bound + 1)) {name : String}
    (hfound : (find model.groups name).isSome) (hnew : ¬ groups.contains name = true)
    (hk : k' ≤ model.declarations) : Room model r (name :: groups) k' bound := by
  have hcons := h.followed.cons hfound hnew
  have hlength := hcons.length_le
  refine ⟨hcons, ?_⟩
  have hbound := h.bound
  rw [List.length_cons] at hlength ⊢
  rw [show model.groups.length - groups.length =
    model.groups.length - (groups.length + 1) + 1 by omega, ← Nat.add_assoc, Nat.succ_mul] at hbound
  omega

end

/-- A property that is not lost when more local elements are remembered. -/
def Stable (P : Catalog → Prop) : Prop :=
  ∀ ⦃c c' : Catalog⦄, c.ExtendedBy c' → P c → P c'

theorem stable_extendedBy (c : Catalog) : Stable c.ExtendedBy :=
  fun _ _ h h' => h'.trans h

theorem stable_vacant (model : Model) (r : Nat) : Stable fun c => c.vacant model ≤ r :=
  fun _ _ h hr => Nat.le_trans (h.vacant_le model) hr

theorem stable_remembered (memorable : Prop) (declaredIn : Option String) (d : ElementDeclaration)
    (className : String) :
    Stable fun c => memorable → rememberedElement c declaredIn d = some className :=
  fun _ _ h hc hm => h _ _ _ (hc hm)

section
variable {E : BindingError → Prop} {P Q : Catalog → Prop}

theorem Stable.and (hP : Stable P) (hQ : Stable Q) : Stable fun c => P c ∧ Q c :=
  fun _ _ h ⟨hp, hq⟩ => ⟨hP h hp, hQ h hq⟩

theorem Stable.frame (hP : Stable P) (hE : ∀ e : BindingError, e.Proper → E e) : Frame E P :=
  ⟨fun e h => hE e h.proper, fun _ _ ht hi _ => hP fun declaredIn d _ h =>
    (rememberedElement_congr ht hi declaredIn d).trans h⟩

theorem Stable.addClass (hP : Stable P) (k : ElementClass) : SettlesAll E P (addClass k) := by
  refine ends_modify fun c hc => ⟨?_, trivial⟩
  have hext : c.ExtendedBy { c with classes := c.classes ++ [k] } := fun declaredIn d _ h =>
    (rememberedElement_congr rfl rfl declaredIn d).trans h
  exact hP hext hc

theorem Frame.and_unmet (hP : Frame E P) (declaredIn : Option String) (d : ElementDeclaration) :
    Frame E fun c => P c ∧ rememberedElement c declaredIn d = none :=
  ⟨hP.plain, fun c c' ht hi hk ⟨hc, hnew⟩ =>
    ⟨hP.elements c c' ht hi hk hc, (rememberedElement_congr ht hi declaredIn d).trans hnew⟩⟩

variable {model : Model}

/-- What is known of a group that is referred to: whenever there is room for it, its membership is
built. -/
def GroupSettles (E : BindingError → Prop) (model : Model) (bound : Nat) : Prop :=
  ∀ (P : Catalog → Prop) (r : Nat) (groups : List String) (declaredIn : Option String)
    (owner name : String) (minimum : Nat) (m : MaxOccurs), Stable P →
    (∀ n ∈ declaredIn, n ∈ model.allTypeNames) →
    (∀ e, E e) ∨ Room model r groups 0 bound →
    SettlesAll E (fun c => P c ∧ c.vacant model ≤ r)
      (referredGroupWithin model bound groups declaredIn owner name minimum m)

/-- The same of a local element, which moreover is remembered afterwards. -/
def ElementSettles (E : BindingError → Prop) (model : Model) (bound : Nat) : Prop :=
  ∀ (P : Catalog → Prop) (r : Nat) (groups : List String) (declaredIn : Option String)
    (owner : String) (d : ElementDeclaration), Stable P →
    (∀ n ∈ declaredIn, n ∈ model.allTypeNames) → d.declared.Sublist model.declared →
    (∀ e, E e) ∨ Room model r groups (declaredIn.elim d.declarations fun _ => 0) bound →
    Ends E (fun c => P c ∧ c.vacant model ≤ r)
      (localElementWithin model bound groups declaredIn owner d) fun className c =>
        (P c ∧ c.vacant model ≤ r) ∧
          (Memorable declaredIn d → rememberedElement c declaredIn d = some className)

/-- Where there is room for all that a particle declares, there is for each element. -/
theorem ElementSettles.of_placed {bound : Nat} (he : ElementSettles E model bound) (hP : Stable P)
    {r k : Nat} {groups : List String} (hroom : (∀ e, E e) ∨ Room model r groups k bound)
    (declaredIn : Option String) (owner : String) (d : ElementDeclaration)
    (hd : Placed model k declaredIn (Term.element d).declared) :
    SettlesAll E (fun c => P c ∧ c.vacant model ≤ r)
      (localElementWithin model bound groups declaredIn owner d) := by
  rw [Term.declared] at hd
  refine (he P r groups declaredIn owner d hP hd.owner hd.part ?_).consequence (fun _ => id)
    fun _ _ h => ⟨h.1, trivial⟩
  refine hroom.imp_right fun h => h.weaken ?_
  cases declaredIn with
  | some owner => exact Nat.zero_le k
  | none =>
    rw [Option.elim_none, ← d.length_declared]
    exact hd.depth rfl

theorem GroupSettles.of_placed {bound : Nat} (hg : GroupSettles E model bound) (hP : Stable P)
    {r k : Nat} {groups : List String} (hroom : (∀ e, E e) ∨ Room model r groups k bound)
    (declaredIn : Option String) (owner name : String) (minimum : Nat) (m : MaxOccurs)
    (hname : Placed model k declaredIn (Term.groupRef name).declared) :
    SettlesAll E (fun c => P c ∧ c.vacant model ≤ r)
      (referredGroupWithin model bound groups declaredIn owner name minimum m) :=
  hg P r groups declaredIn owner name minimum m hP hname.owner
    (hroom.imp_right fun h => h.weaken (Nat.zero_le k))

theorem declarations_le_of_sublist {inside : List Declared}
    (h : inside.Sublist model.declared) : inside.length ≤ model.declarations :=
  model.length_declared ▸ h.length_le

theorem referredGroup_settles (hE : ∀ e : BindingError, e.Proper → E e) {bound : Nat}
    (he : ElementSettles E model bound) (hg : GroupSettles E model bound) :
    GroupSettles E model (bound + 1) := by
  intro P r groups declaredIn owner name minimum m hP howner hroom
  have hframe := (hP.and (stable_vacant model r)).frame hE
  rw [referredGroupWithin]
  split
  · exact ends_fail (hE _ nofun)
  · next g hfound =>
    split
    · exact ends_fail (hE _ nofun)
    · next hnew =>
      have hpart : g.group.declared.Sublist model.declared :=
        model.sublist_of_group (mem_of_find hfound)
      have hk := declarations_le_of_sublist hpart
      have hroom' : (∀ e, E e) ∨ Room model r (name :: groups) g.group.declared.length bound :=
        hroom.imp_right fun h => h.enter (by rw [← Model.group, hfound]; rfl) hnew hk
      refine buildGroup_settles hframe.plain (passesDown_placed model _ declaredIn)
        (he.of_placed hP hroom' declaredIn owner) (hg.of_placed hP hroom' declaredIn owner)
        minimum m g.group ?_
      rw [Term.declared]
      exact ⟨howner, hpart, fun _ => Nat.le_refl _⟩

/-- The class of an element is built while the element is remembered. -/
theorem buildElementClass_settles (hE : ∀ e : BindingError, e.Proper → E e) (hm : model.Keyed)
    {bound : Nat} (he : ElementSettles E model bound) (hg : GroupSettles E model bound)
    (hP : Stable P) {r : Nat} {groups : List String} {d : ElementDeclaration}
    (hd : d.type.declared.Sublist model.declared)
    (hroom : (∀ e, E e) ∨ Room model r groups d.type.declared.length bound) (origin : Origin)
    (className : String) :
    SettlesAll E (fun c => P c ∧ c.vacant model ≤ r)
      (buildClass model
        (buildMembership (localElementWithin model bound groups)
          (referredGroupWithin model bound groups)) origin className d) := by
  have hstable := hP.and (stable_vacant model r)
  have hframe := hstable.frame hE
  refine buildClass_settles model hframe hm hd (fun owner t draft _ hdraft _ => ?_)
    hstable.addClass _ _
  exact buildMembership_settles hframe.plain (passesDown_placed model _) (he.of_placed hP hroom)
    (hg.of_placed hP hroom) owner fun p hp _ => hdraft p hp

/-- Remembering an element takes a place. One that cannot be remembered holds more elements than its
type does. -/
theorem exists_room_of_remember (hP : Stable P) {declaredIn : Option String}
    {d : ElementDeclaration} (howner : ∀ n ∈ declaredIn, n ∈ model.allTypeNames)
    (hd : d.declared.Sublist model.declared) {r bound : Nat} {groups : List String}
    (hroom : (∀ e, E e) ∨
      Room model r groups (declaredIn.elim d.declarations fun _ => 0) (bound + 1))
    {c : Catalog} (hr : c.vacant model ≤ r) (hnew : rememberedElement c declaredIn d = none)
    (className : String) :
    ∃ r' ≤ r, ((∀ e, E e) ∨ Room model r' groups d.type.declared.length bound) ∧
      Ends E (fun c => (P c ∧ c.vacant model ≤ r) ∧ rememberedElement c declaredIn d = none)
        (rememberElement declaredIn d className) fun _ c =>
          (P c ∧ (Memorable declaredIn d → rememberedElement c declaredIn d = some className)) ∧
            c.vacant model ≤ r' := by
  have hplace := mem_places howner hd
  have htype : d.type.declared.length + 1 = d.declarations := by
    rw [← d.length_declared, d.declared_eq, List.length_cons]
  have hle : d.declarations ≤ model.declarations :=
    d.length_declared ▸ declarations_le_of_sublist hd
  by_cases hmem : Memorable declaredIn d
  · have hpos : 0 < c.vacant model :=
      List.countP_pos_iff.mpr ⟨_, hplace, Option.isNone_iff_eq_none.mpr hnew⟩
    obtain ⟨r', rfl⟩ : ∃ r', r = r' + 1 := ⟨r - 1, by omega⟩
    refine ⟨r', Nat.le_succ r', hroom.imp_right fun h => h.remember (by omega), ?_⟩
    refine rememberElement_ends fun c c' ⟨hc, hr⟩ hnone hext hsome => ⟨⟨hP hext hc, hsome⟩, ?_⟩
    have hlt := hext.vacant_lt hplace hnone (by rw [hsome hmem]; rfl)
    omega
  · refine ⟨r, Nat.le_refl r, hroom.imp_right fun h => ?_, ?_⟩
    · have hnone : declaredIn = none := by
        by_contra hne
        exact hmem (.inr hne)
      rw [hnone, Option.elim_none, ← htype] at h
      exact h.inside
    · exact rememberElement_ends fun c c' ⟨hc, hr⟩ _ hext hsome =>
        ⟨⟨hP hext hc, hsome⟩, stable_vacant model r hext hr⟩

theorem localElement_settles (hE : ∀ e : BindingError, e.Proper → E e) (hm : model.Keyed)
    {bound : Nat} (he : ElementSettles E model bound) (hg : GroupSettles E model bound) :
    ElementSettles E model (bound + 1) := by
  intro P r groups declaredIn owner d hP howner hd hroom
  have hframe := (hP.and (stable_vacant model r)).frame hE
  have htype : d.type.declared.Sublist model.declared := d.sublist_type.trans hd
  rw [localElementWithin]
  refine ends_get_bind fun c ⟨hc, hr⟩ => ?_
  split
  · next className hknown =>
    exact ends_pure fun c' hc' => hc' ▸ ⟨⟨hc, hr⟩, fun _ => hknown⟩
  · next hnew =>
    refine Ends.bind ((reserveElement_settles (hframe.and_unmet declaredIn d) declaredIn owner
      d).consequence (fun c' hc' => hc' ▸ ⟨⟨hc, hr⟩, hnew⟩) fun _ _ h => h.1) fun className => ?_
    obtain ⟨r', hr', hroom', hremember⟩ :=
      exists_room_of_remember hP howner hd hroom hr hnew className
    refine hremember.bind fun _ => ?_
    refine Ends.bind (buildElementClass_settles hE hm he hg
      (hP.and (stable_remembered _ declaredIn d className)) htype hroom' _ _) fun _ => ?_
    exact ends_pure fun c h => ⟨⟨h.1.1.1, Nat.le_trans h.1.2 hr'⟩, h.1.1.2⟩

theorem within_settles (hE : ∀ e : BindingError, e.Proper → E e) (hm : model.Keyed)
    (bound : Nat) : ElementSettles E model bound ∧ GroupSettles E model bound := by
  induction bound with
  | zero =>
    constructor
    · intro P r groups declaredIn owner d _ _ _ hroom
      rw [localElementWithin]
      rcases hroom with hE | hroom
      · exact ends_fail (hE _)
      · exact absurd hroom.bound (Nat.not_lt_zero _)
    · intro P r groups declaredIn owner name minimum m _ _ hroom
      rw [referredGroupWithin]
      rcases hroom with hE | hroom
      · exact ends_fail (hE _)
      · exact absurd hroom.bound (Nat.not_lt_zero _)
  | succ bound ih =>
    exact ⟨localElement_settles hE hm ih.1 ih.2, referredGroup_settles hE ih.1 ih.2⟩

end

/-! ## The whole schema -/

section
variable {model : Model} (hm : model.Keyed)

/-- The bound of a schema leaves room for all places, all groups and all elements. -/
theorem room_nestingBound (model : Model) :
    Room model (places model).length [] model.declarations (nestingBound model) := by
  refine ⟨followed_nil _, ?_⟩
  have hplaces := Nat.mul_le_mul_right (model.declarations + 1)
    (Nat.add_le_add_left (length_places_le model) model.groups.length)
  rw [nestingBound, List.length_nil, Nat.sub_zero, Nat.succ_mul, Nat.add_comm (places model).length]
  omega

/-- However many places there are, no more than all of them are vacant. -/
def AnyVacant (model : Model) (c : Catalog) : Prop :=
  True ∧ c.vacant model ≤ (places model).length

theorem anyVacant (model : Model) (c : Catalog) : AnyVacant model c :=
  ⟨trivial, List.countP_le_length⟩

theorem frame_anyVacant (model : Model) : Frame BindingError.Proper (AnyVacant model) :=
  ⟨fun _ h => h.proper, fun _ c _ _ _ _ => anyVacant model c⟩

theorem addClass_settles (model : Model) (k : ElementClass) :
    SettlesAll BindingError.Proper (AnyVacant model) (addClass k) :=
  ends_modify fun _ _ => ⟨anyVacant model _, trivial⟩

include hm

theorem membershipOf_settles (owner : String) {ps : List DeclaredParticle}
    (hps : ∀ p ∈ ps, Placed model model.declarations p.declaredIn p.particle.term.declared) :
    SettlesAll BindingError.Proper (AnyVacant model) (membershipOf model owner ps) := by
  obtain ⟨he, hg⟩ := within_settles (fun _ => id) hm (nestingBound model)
  have hstable : Stable fun _ => True := fun _ _ _ h => h
  have hroom := Or.inr (a := ∀ e : BindingError, e.Proper) (room_nestingBound model)
  exact buildMembership_settles (frame_anyVacant model).plain (passesDown_placed model _)
    (he.of_placed hstable hroom) (hg.of_placed hstable hroom) owner fun p hp _ => hps p hp

theorem buildComplexType_settles {p : String × ComplexType} (hp : p ∈ model.complexTypes) :
    SettlesAll BindingError.Proper (AnyVacant model) (buildComplexType model p.1 p.2) := by
  have hframe := frame_anyVacant model
  refine (typeScope_settles hframe.plain p.1).bind fun scope _ => ?_
  split
  · exact hframe.modify (fun _ => rfl) (fun _ => rfl) fun _ => rfl
  · have hplaced := placed_of_complexType model hm hp model.declarations
    refine (derive_settles model (hframe.serves model) hm scope hplaced).bind fun draft hdraft => ?_
    refine (membershipOf_settles hm _ hdraft).bind fun membership _ => ?_
    exact addClass_settles model _

theorem buildElement_settles {p : String × ElementDeclaration} (hp : p ∈ model.elements) :
    SettlesAll BindingError.Proper (AnyVacant model) (buildElement model p.1 p.2) := by
  have hframe := frame_anyVacant model
  have htype : p.2.type.declared.Sublist model.declared :=
    p.2.sublist_type.trans (model.sublist_of_element hp)
  refine (referredElement_settles hframe.plain p.1).bind fun className _ => ?_
  refine buildClass_settles model hframe hm htype (fun owner t draft _ hdraft _ => ?_)
    (addClass_settles model) _ _
  refine membershipOf_settles hm owner fun q hq => ?_
  have hplaced := hdraft q hq
  exact ⟨hplaced.owner, hplaced.part, fun hn =>
    Nat.le_trans (hplaced.depth hn) (declarations_le_of_sublist htype)⟩

end

/-- The construction of a module ends, and not because a bound was reached. -/
theorem Module.ofModel_ends {model : Model} (hm : model.Keyed) :
    (∃ m, ofModel model = .ok m) ∨ ∃ e, ofModel model = .error e ∧ e.Proper := by
  rw [ofModel]
  rcases buildAll_settles (frame_anyVacant model) (fun _ => buildComplexType_settles hm)
    (fun _ => buildElement_settles hm) {} (anyVacant model {}) with
    ⟨e, he, hproper⟩ | ⟨_, catalog, hok, -⟩
  · rw [he]
    exact .inr ⟨e, rfl, hproper⟩
  · rw [hok]
    exact .inl ⟨_, rfl⟩

end XmlBinding.Binding
