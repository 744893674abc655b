import XmlBinding.Proofs.Schema.Keys

/-! # The contents of complex types as they are read

A complex type is read child by child, and so is a derivation inside of its content. Each child adds
to the parts that the type has so far, and what every such step keeps is kept by all of them.
-/
namespace XmlBinding.Xml

/-- An element and all that is inside of it. -/
inductive Element.Contains (e : Element) : Element → Prop
  | self : e.Contains e
  | child {d c : Element} (hd : e.Contains d) (hc : c ∈ d.elements) : e.Contains c

variable {e d c : Element}

theorem Element.Contains.trans (h : e.Contains d) (h' : d.Contains c) : e.Contains c := by
  induction h' with
  | self => exact h
  | child _ hc ih => exact ih.child hc

theorem Element.Contains.sizeOf_le (h : e.Contains d) : sizeOf d ≤ sizeOf e := by
  induction h with
  | self => exact Nat.le_refl _
  | child _ hc ih => exact Nat.le_trans (Nat.le_of_lt (sizeOf_lt_of_mem hc)) ih

theorem Element.Contains.sizeOf_lt (h : e.Contains d) (hc : c ∈ d.elements) :
    sizeOf c < sizeOf e :=
  Nat.lt_of_lt_of_le (sizeOf_lt_of_mem hc) h.sizeOf_le

end XmlBinding.Xml

namespace XmlBinding.Schema
open Xml

/-! ## Readers -/

/-- If there is a result then `P` holds of it. -/
def Yields {α : Type} (x : Result α) (P : α → Prop) : Prop := ∀ a, x = .ok a → P a

section
variable {α β : Type} {x : Result α} {P : α → Prop} {Q : β → Prop}

theorem yields_ok {a : α} (h : P a) : Yields (.ok a) P := by
  rintro b hb
  cases hb
  exact h

theorem yields_error {e : SchemaError} : Yields (.error e) P := nofun

theorem Yields.bind {f : α → Result β} (hx : Yields x P) (hf : ∀ a, P a → Yields (f a) Q) :
    Yields (x >>= f) Q := by
  intro b hb
  obtain ⟨a, ha, hb⟩ := ok_of_bind hb
  exact hf a (hx a ha) b hb

/-- Where nothing needs to be known of what is read first. -/
theorem yields_bind {f : α → Result β} (hf : ∀ a, Yields (f a) Q) : Yields (x >>= f) Q :=
  Yields.bind (P := fun _ => True) (fun _ _ => trivial) fun a _ => hf a

theorem yields_mapM {f : α → Result β} {xs : List α} (hf : ∀ a, Yields (f a) Q) :
    Yields (xs.mapM f) fun bs => ∀ b ∈ bs, Q b := by
  induction xs with
  | nil => exact yields_ok (by simp)
  | cons a xs ih =>
    rw [List.mapM_cons]
    exact (hf a).bind fun b hb => ih.bind fun bs hbs =>
      yields_ok (List.forall_mem_cons.mpr ⟨hb, hbs⟩)

theorem yields_foldlM {f : α → β → Result α} {xs : List β} {a : α}
    (hf : ∀ a b, P a → Yields (f a b) P) (ha : P a) : Yields (xs.foldlM f a) P :=
  fun _ h => foldlM_induction (fun a a' b _ ha => hf a b ha a') ha h

end

/-! ## Contents -/

/-- `P` holds at the start of a complex type, and every step of reading one keeps it, if the
particles are as `T` says. -/
structure ContentParts.Kept (P : ContentParts → Prop) (T : Particle → Prop) : Prop where
  start : ∀ mixed, P { mixed }
  mixed : ∀ {parts : ContentParts} mixed, P parts → P { parts with mixed }
  uses : ∀ {parts : ContentParts} uses, P parts → P { parts with uses }
  particle : ∀ {parts : ContentParts} {p}, P parts → T p → P { parts with particle := some p }
  simpleExtension : ∀ {parts : ContentParts} base, P parts →
    P { parts with content := some (.simpleExtension base) }
  simpleRestriction : ∀ {parts : ContentParts} {d r}, readRestriction d = .ok r → P parts →
    P { parts with content := some (.simpleRestriction r) }
  extension : ∀ {parts : ContentParts} base, P parts →
    P { parts with particle := none, content := some (.extension base parts.particle) }
  restriction : ∀ {parts : ContentParts}, P parts →
    P { parts with particle := none, content := some (parts.particle.elim .empty .particle) }

namespace ContentParts.Kept
variable {P : ContentParts → Prop} {T : Particle → Prop} {e : Element} {parts : ContentParts}

theorem readContentChild (hP : Kept P T) {parent : String}
    (hT : Yields (readParticle parent e) T) (h : P parts) :
    Yields (readContentChild parent e parts) P := by
  rw [Schema.readContentChild]
  split
  · exact yields_ok h
  · exact yields_ok h
  · exact yields_bind fun use => yields_ok (hP.uses _ h)
  · exact yields_bind fun use => yields_ok (hP.uses _ h)
  · split
    · exact hT.bind fun p hp => yields_ok (hP.particle h hp)
    · exact yields_error

theorem readDerivation (hP : Kept P T) (hT : ∀ c ∈ e.elements, Yields (readParticle e.tag c) T)
    (h : P parts) : Yields (readDerivation e parts) P := by
  rw [Schema.readDerivation]
  refine yields_foldlM (fun parts c hparts => ?_) h
  obtain ⟨c, hc⟩ := c
  dsimp only
  split
  · exact yields_ok hparts
  · exact hP.readContentChild (hT c hc) hparts

theorem readSimpleContent (hP : Kept P T)
    (hT : ∀ d ∈ e.elements, ∀ c ∈ d.elements, Yields (readParticle d.tag c) T) (h : P parts) :
    Yields (readSimpleContent e parts) P := by
  rw [Schema.readSimpleContent]
  split
  · exact yields_error
  · next d hd =>
    have hd := hT d (mem_of_derivation? hd)
    split
    · exact yields_bind fun base => hP.readDerivation hd (hP.simpleExtension base h)
    · exact Yields.bind (fun r hr => hr) fun r hr =>
        hP.readDerivation hd (hP.simpleRestriction hr h)

theorem readComplexContent (hP : Kept P T)
    (hT : ∀ d ∈ e.elements, ∀ c ∈ d.elements, Yields (readParticle d.tag c) T) (h : P parts) :
    Yields (readComplexContent e parts) P := by
  rw [Schema.readComplexContent]
  refine yields_bind fun mixed => ?_
  split
  · exact yields_error
  · next d hd =>
    refine yields_bind fun base => ?_
    refine (hP.readDerivation (hT d (mem_of_derivation? hd)) (hP.mixed _ h)).bind
      fun parts hparts => yields_ok ?_
    split
    · exact hP.extension base hparts
    · exact hP.restriction hparts

/-- The content of a type is made of parts that have been kept. -/
theorem readComplexType (hP : Kept P T)
    (hT : ∀ parent d c, e.Contains d → c ∈ d.elements → Yields (readParticle parent c) T) :
    Yields (readComplexType e) fun t => t.documentation = documentation e ∧ ∃ parts, P parts ∧
      t.content = parts.content.getD (parts.particle.elim .empty .particle) := by
  rw [Schema.readComplexType]
  refine yields_bind fun isAbstract => yields_bind fun mixed => ?_
  refine Yields.bind (yields_foldlM (P := P) (fun parts c hparts => ?_) (hP.start _))
    fun parts hparts => yields_ok ⟨rfl, parts, hparts, rfl⟩
  obtain ⟨c, hc⟩ := c
  have hinside (d : Element) (hd : d ∈ c.elements) (c' : Element) (hc' : c' ∈ d.elements) :
      Yields (readParticle d.tag c') T :=
    hT d.tag d c' (.child (.child .self hc) hd) hc'
  dsimp only
  split
  · exact yields_ok hparts
  · exact hP.readSimpleContent hinside hparts
  · exact hP.readComplexContent hinside hparts
  · exact yields_error
  · exact yields_error
  · exact hP.readContentChild (hT e.tag e c .self hc) hparts

end ContentParts.Kept

end XmlBinding.Schema
