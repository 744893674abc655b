import XmlBinding.Text.Quoted
import XmlBinding.Value.Fault
/-!
# What can go wrong with element trees
-/
namespace XmlBinding.Tree
open Text

/-- Why a file could not be read as text. -/
inductive FileFault where
  | missing
  | directory
  | notUtf8
  | denied
  | noParentDirectory
  | other (reason : String)
deriving DecidableEq, Repr

def FileFault.message : FileFault → String
  | .missing => "No such file or directory (os error 2)"
  | .directory => "Is a directory (os error 21)"
  | .notUtf8 => "stream did not contain valid UTF-8"
  | .denied => "Permission denied (os error 13)"
  | .noParentDirectory => "Not a directory (os error 20)"
  | .other reason => reason

inductive TreeError where
  | invalidValue (name value : String) (fault : ValueFault)
  | invalidChildName (parent child : String)
  | choiceViolation (child : String)
  | maxOccursExceeded (child : String)
  | notAChild (child : String)
  | noRootElement
  | noCorrespondingType (name : String)
  | notAChildFactory (name : String)
  | notAParent (name : String)
  | attributeOutsideStartTag (name : String)
  | unbalancedEndElement
  | malformedDocument
  | file (fault : FileFault)
deriving DecidableEq, Repr

def TreeError.message : TreeError → String
  | .invalidValue name value fault =>
    "invalid value " ++ quoted value ++ " for " ++ name ++ ": " ++ fault.message
  | .invalidChildName parent child => child ++ " is not a valid child name for " ++ parent
  | .choiceViolation child =>
    child ++ " cannot be added: another branch of an exclusive choice is already occupied"
  | .maxOccursExceeded child =>
    child ++ " cannot be added: the maximum number of occurrences is reached"
  | .notAChild child => child ++ " is not a child of this element"
  | .noRootElement => "the document has no root element"
  | .noCorrespondingType name => "XML element " ++ name ++ " does not have a corresponding type"
  | .notAChildFactory name => name ++ " cannot create child elements"
  | .notAParent name => name ++ " cannot hold child elements"
  | .attributeOutsideStartTag name => "attribute " ++ name ++ " written outside of a start tag"
  | .unbalancedEndElement => "end_element called without an open element"
  | .malformedDocument => "the document is not well-formed"
  | .file fault => fault.message

/-- Names the parent in a refusal raised by a collection, which does not know whose it is. -/
def TreeError.inParent (parent : String) : TreeError → TreeError
  | .invalidChildName "" child => .invalidChildName parent child
  | e => e

/-- A parent once named stays. -/
theorem TreeError.inParent_inParent {p q : String} (h : p ≠ "") (e : TreeError) :
    (e.inParent p).inParent q = e.inParent p := by
  cases e with
  | invalidChildName parent child =>
    by_cases hp : parent = ""
    · subst hp
      simp [inParent, h]
    · simp [inParent, hp]
  | _ => rfl

end XmlBinding.Tree
