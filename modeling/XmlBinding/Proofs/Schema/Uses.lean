import Mathlib.Data.List.Forall2
import XmlBinding.Proofs.Schema.Sources

/-! # Attribute uses as they are read

A complex type and an attribute group state uses of attributes by elements: children, or children of
the derivation in a content. One use is read from each of them, in order, unless it is prohibited.
-/
namespace XmlBinding.Schema
open Xml

/-- Whether an element states the use of an attribute or of an attribute group. -/
def statesUse (c : Element) : Bool :=
  c.tag = "attributeGroup" || c.tag = "attribute" && c.attribute? "use" ≠ some "prohibited"

/-- The elements that state uses in the derivation inside of a content. -/
def derivedUses (e : Element) : List Element :=
  (derivation? e).elim [] fun d => d.elements.filter statesUse

/-- The elements that state uses in a child of a complex type, or the child itself. -/
def usesIn (c : Element) : List Element :=
  if c.tag = "simpleContent" ∨ c.tag = "complexContent" then derivedUses c
  else [c].filter statesUse

/-- The elements by which a complex type states its attribute uses. -/
def statedUses (e : Element) : List Element := e.elements.flatMap usesIn

/-- Uses are read from these elements, one from each. -/
abbrev ReadFrom (es : List Element) (uses : List AttributeUse) : Prop :=
  List.Forall₂ (fun e use => readAttributeUse e = .ok (some use)) es uses

theorem isSome_readAttributeUse (c : Element) :
    Yields (readAttributeUse c) fun r => r.isSome = statesUse c := by
  unfold readAttributeUse
  split
  · next htag =>
    split
    · next huse => exact yields_ok (by simp [statesUse, htag, huse])
    · next huse =>
      have hstates : statesUse c = true := by simp [statesUse, htag, huse]
      rw [hstates]
      refine yields_bind fun name => ?_
      split
      · exact yields_ok rfl
      · exact yields_bind fun d => yields_ok rfl
  · next htag =>
    have hstates : statesUse c = true := by simp [statesUse, htag]
    rw [hstates]
    exact yields_bind fun name => yields_ok rfl
  · exact yields_error

/-- One use is read of an element, or none if it is prohibited. -/
theorem readAttributeUse_readFrom (c : Element) :
    Yields (readAttributeUse c) fun r => ReadFrom ([c].filter statesUse) r.toList := by
  intro r hr
  have hstates := isSome_readAttributeUse c r hr
  cases r with
  | none => simp [ReadFrom, ← hstates]
  | some use => simp [ReadFrom, ← hstates, hr]

/-- The uses read of these elements have been added. -/
def ContentParts.Adds (es : List Element) (parts parts' : ContentParts) : Prop :=
  ∃ uses, ReadFrom es uses ∧ parts'.uses = parts.uses ++ uses

theorem adds_nil {parts parts' : ContentParts} (h : parts'.uses = parts.uses) :
    parts.Adds [] parts' :=
  ⟨[], .nil, by rw [h, List.append_nil]⟩

theorem ContentParts.Adds.trans {es es' : List Element} {p q r : ContentParts}
    (h : p.Adds es q) (h' : q.Adds es' r) : p.Adds (es ++ es') r := by
  obtain ⟨uses, huses, hq⟩ := h
  obtain ⟨uses', huses', hr⟩ := h'
  exact ⟨uses ++ uses', List.rel_append huses huses', by rw [hr, hq, List.append_assoc]⟩

theorem foldlM_adds {α : Type} {f : ContentParts → α → Result ContentParts}
    (g : α → List Element) (hf : ∀ parts a, Yields (f parts a) (parts.Adds (g a))) (xs : List α)
    (parts : ContentParts) : Yields (xs.foldlM f parts) (parts.Adds (xs.flatMap g)) := by
  induction xs generalizing parts with
  | nil => exact yields_ok (adds_nil rfl)
  | cons x xs ih =>
    rw [List.foldlM_cons, List.flatMap_cons]
    exact (hf parts x).bind fun p hp r hr => hp.trans (ih p r hr)

theorem mapM_readFrom {α : Type} {f : α → Result (Option AttributeUse)} (g : α → List Element)
    (hf : ∀ a, Yields (f a) fun r => ReadFrom (g a) r.toList) (xs : List α) :
    Yields (xs.mapM f) fun rs => ReadFrom (xs.flatMap g) (rs.filterMap id) := by
  induction xs with
  | nil => exact yields_ok .nil
  | cons x xs ih =>
    rw [List.mapM_cons, List.flatMap_cons]
    refine (hf x).bind fun r hr => ih.bind fun rs hrs => yields_ok ?_
    have hconcat : (r :: rs).filterMap id = r.toList ++ rs.filterMap id := by cases r <;> rfl
    rw [hconcat]
    exact List.rel_append hr hrs

/-- Children are gone through with the knowledge that they are children. -/
theorem flatMap_attach {α β : Type} (xs : List α) (f : α → List β) :
    (xs.attach.flatMap fun x => f x.1) = xs.flatMap f := by
  rw [← List.flatMap_map, List.attach_map_subtype_val]

theorem flatMap_filter_singleton {α : Type} (p : α → Bool) (xs : List α) :
    (xs.flatMap fun x => [x].filter p) = xs.filter p := by
  induction xs with
  | nil => rfl
  | cons x xs ih => rw [List.flatMap_cons, ih, ← List.filter_append, List.singleton_append]

theorem statesUse_iff {c : Element} : statesUse c = true ↔ c.tag = "attributeGroup" ∨
    c.tag = "attribute" ∧ c.attribute? "use" ≠ some "prohibited" := by
  simp [statesUse]

theorem filter_statesUse {c : Element} (h : c.tag ≠ "attribute" ∧ c.tag ≠ "attributeGroup") :
    [c].filter statesUse = [] := by
  simp [statesUse_iff, h]

theorem readContentChild_adds (parent : String) (c : Element) (parts : ContentParts) :
    Yields (readContentChild parent c parts) (parts.Adds ([c].filter statesUse)) := by
  rw [readContentChild]
  split
  · next htag =>
    rw [filter_statesUse (by simp [htag])]
    exact yields_ok (adds_nil rfl)
  · next htag =>
    rw [filter_statesUse (by simp [htag])]
    exact yields_ok (adds_nil rfl)
  · exact (readAttributeUse_readFrom c).bind fun r hr => yields_ok ⟨_, hr, rfl⟩
  · exact (readAttributeUse_readFrom c).bind fun r hr => yields_ok ⟨_, hr, rfl⟩
  · next hattribute hgroup =>
    rw [filter_statesUse ⟨hattribute, hgroup⟩]
    split
    · exact yields_bind fun p => yields_ok (adds_nil rfl)
    · exact yields_error

theorem readDerivation_adds (d : Element) (parts : ContentParts) :
    Yields (readDerivation d parts) (parts.Adds (d.elements.filter statesUse)) := by
  rw [readDerivation, ← flatMap_filter_singleton, ← flatMap_attach]
  refine foldlM_adds _ (fun parts c => ?_) _ parts
  obtain ⟨c, -⟩ := c
  dsimp only
  split
  · next htag =>
    rw [filter_statesUse]
    · exact yields_ok (adds_nil rfl)
    · constructor <;>
      · intro h
        rw [h] at htag
        exact absurd htag (by decide)
  · exact readContentChild_adds d.tag c parts

theorem readSimpleContent_adds (e : Element) (parts : ContentParts) :
    Yields (readSimpleContent e parts) (parts.Adds (derivedUses e)) := by
  rw [readSimpleContent]
  split
  · exact yields_error
  · next d hd =>
    rw [derivedUses, hd]
    split
    · exact yields_bind fun base => readDerivation_adds d _
    · exact yields_bind fun r => readDerivation_adds d _

theorem readComplexContent_adds (e : Element) (parts : ContentParts) :
    Yields (readComplexContent e parts) (parts.Adds (derivedUses e)) := by
  rw [readComplexContent]
  refine yields_bind fun mixed => ?_
  split
  · exact yields_error
  · next d hd =>
    rw [derivedUses, hd]
    exact yields_bind fun base => (readDerivation_adds d _).bind fun p hp => yields_ok hp

/-- A complex type has the uses that its element states. -/
theorem readComplexType_readFrom (e : Element) :
    Yields (readComplexType e) fun t => ReadFrom (statedUses e) t.attributes := by
  rw [readComplexType]
  refine yields_bind fun isAbstract => yields_bind fun mixed => ?_
  rw [statedUses, ← flatMap_attach]
  refine (foldlM_adds (fun c => usesIn c.1) (fun parts c => ?_) _ _).bind
    fun parts hparts => yields_ok ?_
  · obtain ⟨c, -⟩ := c
    dsimp only [usesIn]
    split
    · next htag =>
      rw [if_neg (by simp [htag]), filter_statesUse (by simp [htag])]
      exact yields_ok (adds_nil rfl)
    · next htag =>
      rw [if_pos (.inl htag)]
      exact readSimpleContent_adds c parts
    · next htag =>
      rw [if_pos (.inr htag)]
      exact readComplexContent_adds c parts
    · exact yields_error
    · exact yields_error
    · next hsimple hcomplex _ _ =>
      rw [if_neg (not_or.mpr ⟨hsimple, hcomplex⟩)]
      exact readContentChild_adds e.tag c parts
  · obtain ⟨uses, huses, hparts⟩ := hparts
    rwa [hparts]

/-- An attribute group has the uses that its children state. -/
theorem readAttributeGroup_readFrom (e : Element) :
    Yields (readAttributeGroup e) fun g => ReadFrom (e.elements.filter statesUse) g.uses := by
  unfold readAttributeGroup
  rw [← flatMap_filter_singleton]
  refine yields_bind fun name => ?_
  refine (mapM_readFrom (fun c => [c].filter statesUse) (fun c => ?_) _).bind
    fun rs hrs => yields_ok hrs
  split
  · next htag =>
    rw [filter_statesUse (by simp [htag])]
    exact yields_ok .nil
  · next htag =>
    rw [filter_statesUse (by simp [htag])]
    exact yields_ok .nil
  · exact readAttributeUse_readFrom c
  · exact readAttributeUse_readFrom c
  · exact yields_error

end XmlBinding.Schema
