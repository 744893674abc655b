import Mathlib.Logic.Relation
import XmlBinding.Proofs.Tree.Indentation
import XmlBinding.Proofs.Xml.Remarking

/-! # Comments and instructions are no data

A loader sees of an element no more than its gist. So documents are loaded alike that differ only in
comments and instructions, wherever these stand: in the prolog, between elements, in empty elements,
behind the document element and in the middle of text, but for its seams.
-/
namespace XmlBinding.Tree
open Schema Binding Value Xml

namespace Loader

theorem contentText_eq_bind (content : List Content) : contentText content =
    (joinedText content).bind fun text =>
      if (content.filterMap Content.element?).length != 0 && Text.allBlank text then none
      else some text := by
  rw [contentText, joinedText]
  split <;> rfl

theorem looksAlike_of_gist_eq (e e' : Xml.Element) (h : e.gist = e'.gist) :
    LooksAlike (fun e e' => e.gist = e'.gist) e e' := by
  rw [Element.gist_eq, Element.gist_eq e'] at h
  injection h with hname hattributes htext hchildren
  refine ⟨congrArg ExpandedName.localName hname, hattributes, ?_, ?_⟩
  · have hlength := congrArg List.length hchildren
    rw [List.length_map, List.length_map] at hlength
    change (e.content.filterMap Content.element?).length =
      (e'.content.filterMap Content.element?).length at hlength
    rw [contentText_eq_bind, contentText_eq_bind, htext, hlength]
  · have hgists : List.Forall₂ (· = ·) (e.elements.map Element.gist)
        (e'.elements.map Element.gist) := by
      rw [hchildren]
      exact List.forall₂_refl _
    exact List.forall₂_map_left_iff.mp (List.forall₂_map_right_iff.mp hgists)

end Loader

/-- Documents that differ in remarks only, put in or taken out one after the other. -/
def SameButRemarks : String → String → Prop :=
  Relation.EqvGen fun text text' => DocumentRemarked text.toList text'.toList

/-- A remark more is not seen. -/
theorem load_eq_of_documentRemarked (l : Loader) {text text' : String}
    (h : DocumentRemarked text.toList text'.toList) (s : Store) :
    l.load text s = l.load text' s := by
  rcases readDocument_remarked l.allowDoctype h with
    ⟨err, hread, hread'⟩ | ⟨e, e', hread, hread', he⟩
  · rw [load_of_malformed hread, load_of_malformed hread']
  · exact Loader.load_eq_of_looksAlike Loader.looksAlike_of_gist_eq hread hread' he s

/-- Documents that differ in remarks only are loaded as the same, or fail with the same error. -/
theorem load_sameButRemarks (l : Loader) {text text' : String} (h : SameButRemarks text text')
    (s : Store) : l.load text s = l.load text' s := by
  induction h with
  | rel _ _ h => exact load_eq_of_documentRemarked l h s
  | refl => rfl
  | symm _ _ _ ih => exact ih.symm
  | trans _ _ _ _ _ ih ih' => exact ih.trans ih'

def noteTag : StartTag := ⟨"Note".toList, [], [], false⟩

def emptyTag : StartTag := ⟨"Em".toList, [], [], true⟩

theorem proper_noteTag : noteTag.Proper where
  named := by decide
  name := List.all_eq_true.mp (by decide)
  attributes := by simp [noteTag]
  gap := by simp [noteTag]

theorem proper_emptyTag : emptyTag.Proper where
  named := by decide
  name := List.all_eq_true.mp (by decide)
  attributes := by simp [emptyTag]
  gap := by simp [emptyTag]

/-- A comment in a word, one in an empty element and an instruction in front of all. -/
theorem load_sameButRemarks_note :
    SameButRemarks "<Note>good<Em/></Note>" "<?go on?><Note>go<!-- -->od<Em><!-- --></Em></Note>" ∧
      (moduleLoader "notes" noteModule).load "<Note>good<Em/></Note>" [] =
        (moduleLoader "notes" noteModule).load
          "<?go on?><Note>go<!-- -->od<Em><!-- --></Em></Note>" [] ∧
      ((moduleLoader "notes" noteModule).load "<Note>good<Em/></Note>" []).isOk = true := by
  have hcomment : IsRemark "<!-- -->".toList :=
    @IsRemark.comment " ".toList (by decide) (by decide) (by decide)
  have hinstruction : IsRemark "<?go on?>".toList :=
    @IsRemark.instruction "go".toList " on".toList (by decide) (by decide) (by simp) (by decide)
      (by decide) (unmarked_of_not_mem (by decide))
  have hword : Divides "go".toList "od".toList :=
    ⟨by decide, by decide, by decide, by simp [isTorn, textItems_char, textItems, tears], by decide⟩
  have hfilled : SameButRemarks "<Note>good<Em/></Note>" "<Note>good<Em><!-- --></Em></Note>" :=
    .rel _ _ (.plain (by decide) (.plain (by decide) (.tag proper_noteTag
      (@Remarked.text 0 "good".toList _ _ (by decide) (by decide)
        (.filled proper_emptyTag rfl hcomment "</Note>".toList)))))
  have hinside : SameButRemarks "<Note>good<Em><!-- --></Em></Note>"
      "<Note>go<!-- -->od<Em><!-- --></Em></Note>" :=
    .rel _ _ (.plain (by decide) (.plain (by decide) (.tag proper_noteTag
      (.inside (s := "Em><!-- --></Em></Note>".toList) hcomment hword))))
  have hbefore : SameButRemarks "<Note>go<!-- -->od<Em><!-- --></Em></Note>"
      "<?go on?><Note>go<!-- -->od<Em><!-- --></Em></Note>" :=
    .rel _ _ (.plain (by decide) (.plain (by decide) (.here hinstruction _)))
  have h := (hfilled.trans _ _ _ hinside).trans _ _ _ hbefore
  exact ⟨h, load_sameButRemarks _ h [], by decide +kernel⟩

/-- What notes of some text are loaded as, if they are. -/
def noteValues (text : String) : Option (List (List (Option Held))) :=
  ((moduleLoader "notes" noteModule).load ("<Note>" ++ text ++ "</Note>") []).toOption.map
    (·.1.map (·.values))

/-- Places where text is not read in two pieces as in one: in a line end of two characters, beside
carriage returns that a reference keeps from being line ends, and in a mark that is refused. -/
def seams : List (String × String) :=
  [("to\r", "\ngo"), ("to\r", "&#103;o"), ("&#116;\r", "go"), ("g&#111;", "\r"), ("go]]", ">")]

/-- A comment at a seam is seen. -/
theorem noteValues_ne_of_comment : ∃ p, IsRemark p.toList ∧
    noteValues "to\r\ngo" = some [[some (.datum (.string "to\ngo"))]] ∧
      noteValues ("to\r" ++ p ++ "\ngo") = some [[some (.datum (.string "to\n\ngo"))]] ∧
        ∀ q ∈ seams, noteValues (q.1 ++ q.2) ≠ noteValues (q.1 ++ p ++ q.2) := by
  have hcomment : IsRemark "<!---->".toList := @IsRemark.comment [] rfl rfl nofun
  exact ⟨"<!---->", hcomment, by decide +kernel, by decide +kernel, by decide +kernel⟩

end XmlBinding.Tree
