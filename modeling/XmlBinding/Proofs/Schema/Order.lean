import Mathlib.Data.List.Forall2
import XmlBinding.Proofs.Schema.Keys

/-! # Elements in the order of the document

A schema lists its elements as they are declared, whatever is declared between them.
-/
namespace XmlBinding.Schema
open Xml

/-- A table with the elements that are declared by children of a schema, in order. -/
def ListsElements (cs : List Element) (table : List (String × ElementDeclaration)) : Prop :=
  List.Forall₂ (fun c e => readElement c = .ok e.2) (cs.filter (·.tag = "element")) table

section
variable {schema c : Element} {m m' : Model}

theorem ListsElements.append {cs ds : List Element}
    {table more : List (String × ElementDeclaration)} (h : ListsElements cs table)
    (h' : ListsElements ds more) : ListsElements (cs ++ ds) (table ++ more) := by
  unfold ListsElements
  rw [List.filter_append]
  exact List.rel_append h h'

/-- Components other than elements leave the table of elements as it is. -/
theorem Model.elements_add {component : Component} (hother : ∀ d, component ≠ .element d)
    (h : m.add component = .ok m') : m'.elements = m.elements := by
  cases component with
  | element d => exact absurd rfl (hother d)
  | _ =>
    obtain ⟨table, -, h⟩ := ok_of_bind h
    cases h
    rfl

/-- No child but one of this tag declares an element. -/
theorem tag_of_readComponent {d : ElementDeclaration}
    (h : readComponent schema c = .ok (some (.element d))) : c.tag = "element" := by
  have h : (Component.element d).DeclaredBy c := declaredBy_of_readComponent h
  cases h with
  | element htag _ => exact htag

/-- A child adds the element that it declares, if it declares one. -/
theorem exists_listsElements_of_readChild (h : readChild schema m c = .ok m') :
    ∃ new, m'.elements = m.elements ++ new ∧ ListsElements [c] new := by
  obtain ⟨component, hcomponent, h⟩ := ok_of_bind h
  by_cases htag : c.tag = "element"
  · have hread : readComponent schema c = (do return some (.element (← readElement c))) := by
      simp [readComponent, htag]
    rw [hread] at hcomponent
    obtain ⟨d, hd, hcomponent⟩ := ok_of_bind hcomponent
    cases hcomponent
    obtain ⟨table, htable, h⟩ := ok_of_bind h
    cases h
    refine ⟨[(d.name, d)], ?_, by simp [ListsElements, htag, hd]⟩
    rw [insertNew] at htable
    split at htable
    · cases htable
    · cases htable
      rfl
  · refine ⟨[], ?_, by simp [ListsElements, htag]⟩
    rw [List.append_nil]
    cases component with
    | none =>
      cases h
      rfl
    | some component =>
      exact Model.elements_add (fun d hd => htag (tag_of_readComponent (hd ▸ hcomponent))) h

theorem listsElements_of_foldlM {cs before : List Element} (hm : ListsElements before m.elements)
    (h : cs.foldlM (readChild schema) m = .ok m') : ListsElements (before ++ cs) m'.elements := by
  induction cs generalizing before m with
  | nil =>
    cases h
    simpa using hm
  | cons c cs ih =>
    rw [List.foldlM_cons] at h
    obtain ⟨next, hnext, h⟩ := ok_of_bind h
    obtain ⟨new, hnew, hlists⟩ := exists_listsElements_of_readChild hnext
    have hstep : ListsElements (before ++ [c]) next.elements := by
      rw [hnew]
      exact hm.append hlists
    simpa using ih hstep h

theorem listsElements_of_readModel (h : readModel schema = .ok m) :
    ListsElements schema.elements m.elements := by
  rw [readModel] at h
  split at h
  · cases h
  · obtain ⟨m', hread, h⟩ := ok_of_bind h
    have hnone : ListsElements [] [] := .nil
    have hlists : ListsElements ([] ++ schema.elements) m'.elements :=
      listsElements_of_foldlM hnone hread
    split at h
    · cases h
    · cases h
      exact hlists

end

end XmlBinding.Schema
