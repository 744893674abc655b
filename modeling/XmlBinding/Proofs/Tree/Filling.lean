import Mathlib.Data.List.Forall2
import XmlBinding.Proofs.Tree.Building

/-! # What a loader sees of an element

A loader looks at the local name of an element, at its attributes, at its text as far as that is
content, and at its child elements in order. Documents that differ in nothing else at any depth are
loaded alike: as the same tree into the same store, or with the same error.
-/
namespace XmlBinding.Tree
open Schema Binding Value Xml

namespace Loader

variable {l : Loader}

theorem fillContent_eq (id : Nat) (content : List Content) (s : Store) :
    l.fillContent id content s =
      (content.filterMap Content.element?).foldlM (fun s e => l.fillItem id (.element e) s) s := by
  induction content generalizing s with
  | nil => rfl
  | cons c content ih =>
    cases c with
    | element e =>
      have hcons : (Content.element e :: content).filterMap Content.element? =
          e :: content.filterMap Content.element? := rfl
      rw [fillContent, hcons, List.foldlM_cons]
      exact bind_congr ih
    | _ => exact ih s

theorem fill_eq (id : Nat) (e : Xml.Element) (s : Store) :
    l.fill id e s = (do
      let s ← setAttributes id e.attributes s
      let s ← l.fillContent id e.content s
      match contentText e.content with
      | none => return s
      | some text => s.setValue id contentName text) := by
  cases e
  exact fill.eq_1 ..

/-- Elements that look alike to a loader, given which child elements do. -/
structure LooksAlike (R : Xml.Element → Xml.Element → Prop) (e e' : Xml.Element) : Prop where
  tag : e.tag = e'.tag
  attributes : e.attributes = e'.attributes
  text : contentText e.content = contentText e'.content
  elements : List.Forall₂ R e.elements e'.elements

section
variable {R : Xml.Element → Xml.Element → Prop}

theorem foldlM_eq_of_forall₂ {f f' : Store → Xml.Element → Except TreeError Store}
    {es es' : List Xml.Element} (h : List.Forall₂ R es es')
    (hf : ∀ e ∈ es, ∀ e', R e e' → ∀ s, f s e = f' s e') (s : Store) :
    es.foldlM f s = es'.foldlM f' s := by
  induction h generalizing s with
  | nil => rfl
  | cons he hes ih =>
    rw [List.foldlM_cons, List.foldlM_cons, hf _ List.mem_cons_self _ he]
    apply bind_congr
    intro s
    apply ih
    intro e hmem
    exact hf e (List.mem_cons_of_mem _ hmem)

/-- What looks alike at every depth is filled in alike. -/
theorem fill_eq_of_looksAlike (hR : ∀ e e', R e e' → LooksAlike R e e') {e e' : Xml.Element}
    (h : R e e') (id : Nat) (s : Store) : l.fill id e s = l.fill id e' s := by
  have hlook := hR e e' h
  have hitem : ∀ c ∈ e.elements, ∀ c', R c c' → ∀ s,
      l.fillItem id (.element c) s = l.fillItem id (.element c') s := by
    intro c hc c' hcc s
    have hfill (child : Nat) (s : Store) : l.fill child c s = l.fill child c' s :=
      fill_eq_of_looksAlike hR hcc child s
    simp only [fillItem, (hR c c' hcc).tag, hfill]
  have hcontent (s : Store) : l.fillContent id e.content s = l.fillContent id e'.content s := by
    rw [fillContent_eq, fillContent_eq]
    exact foldlM_eq_of_forall₂ hlook.elements hitem s
  rw [fill_eq, fill_eq, hlook.attributes, hlook.text]
  simp only [hcontent]
termination_by sizeOf e
decreasing_by exact Element.sizeOf_lt_of_mem hc

/-- Documents whose elements look alike are loaded alike. -/
theorem load_eq_of_looksAlike (hR : ∀ e e', R e e' → LooksAlike R e e') {text text' : String}
    {e e' : Xml.Element} (h : readDocument l.allowDoctype text = .ok e)
    (h' : readDocument l.allowDoctype text' = .ok e') (he : R e e') (s : Store) :
    l.load text s = l.load text' s := by
  rw [load_of_readDocument h, load_of_readDocument h', (hR e e' he).tag]
  simp only [fill_eq_of_looksAlike hR he]

end

end Loader

end XmlBinding.Tree
