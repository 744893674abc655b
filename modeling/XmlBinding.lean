import XmlBinding.Main
import XmlBinding.Samples.Catalog
import XmlBinding.Samples.Kinds
import XmlBinding.Tree.Loading
import XmlBinding.Tree.Writing
import XmlBinding.Proofs.Collection.FirstFit
import XmlBinding.Proofs.Collection.Rivals
import XmlBinding.Proofs.Collection.Removal
import XmlBinding.Proofs.Collection.Invariant
import XmlBinding.Proofs.Collection.Reordering
import XmlBinding.Proofs.Collection.Undoing
import XmlBinding.Proofs.Binding.Steps
import XmlBinding.Proofs.Content.Language
import XmlBinding.Proofs.Content.Membership
import XmlBinding.Proofs.Content.Branches
import XmlBinding.Proofs.Content.Placement
import XmlBinding.Proofs.Content.Opening
import XmlBinding.Proofs.Content.Admission
import XmlBinding.Proofs.Content.Attribution
import XmlBinding.Proofs.Xml.Outline
import XmlBinding.Proofs.Xml.Tokens
import XmlBinding.Proofs.Xml.Escaping
import XmlBinding.Proofs.Xml.Resolving
import XmlBinding.Proofs.Xml.Namespaces
import XmlBinding.Proofs.Text.Blanks
import XmlBinding.Proofs.Value.Numerals
import XmlBinding.Proofs.Binding.Literals
import XmlBinding.Proofs.Value.Calendar
import XmlBinding.Proofs.Schema.Names
import XmlBinding.Proofs.Tree.Values
import XmlBinding.Proofs.Binding.Conformity
import XmlBinding.Proofs.Tree.Trees
import XmlBinding.Proofs.Tree.Blueprints
import XmlBinding.Proofs.Tree.Writing
import XmlBinding.Proofs.Tree.Building
import XmlBinding.Proofs.Tree.Restoring
import XmlBinding.Proofs.Tree.Reloading
import XmlBinding.Proofs.Tree.RoundTrip
import XmlBinding.Proofs.Tree.Strings
import XmlBinding.Proofs.Xml.Characters
import XmlBinding.Proofs.Xml.Layouts
import XmlBinding.Proofs.Xml.Spacing
import XmlBinding.Proofs.Tree.Indentation
import XmlBinding.Proofs.Tree.Forest
import XmlBinding.Proofs.Content.Loading
import XmlBinding.Proofs.Xml.Paths
import XmlBinding.Proofs.Tree.Counterparts
import XmlBinding.Proofs.Binding.Cycles
import XmlBinding.Proofs.Binding.Closure
import XmlBinding.Proofs.Binding.Documents
import XmlBinding.Proofs.Code.TypeNames
import XmlBinding.Proofs.Code.ReaderNames
import XmlBinding.Proofs.Schema.Bounds
import XmlBinding.Proofs.Content.Multiplicity
import XmlBinding.Proofs.Binding.Drafts
import XmlBinding.Proofs.Binding.Classes
import XmlBinding.Proofs.Binding.Circularity
import XmlBinding.Proofs.Code.PlainEnumerations
import XmlBinding.Proofs.Code.FlagReaders
import XmlBinding.Proofs.Tree.Registration
import XmlBinding.Proofs.Tree.Setting
import XmlBinding.Proofs.Xml.Calls
import XmlBinding.Proofs.Binding.Restrictions
import XmlBinding.Proofs.Binding.Requests
import XmlBinding.Proofs.Code.Numbering
import XmlBinding.Proofs.Tree.AttributeOrder
import XmlBinding.Proofs.Binding.Namesakes
import XmlBinding.Proofs.Tree.Lookup
import XmlBinding.Proofs.Code.Accessors
import XmlBinding.Proofs.Tree.Padding
import XmlBinding.Proofs.Tree.Remarks
import XmlBinding.Proofs.Schema.Tables
import XmlBinding.Proofs.Xml.Equality
import XmlBinding.Proofs.Schema.Likeness
import XmlBinding.Proofs.Schema.Prefixes
import XmlBinding.Proofs.Schema.Padding
import XmlBinding.Proofs.Binding.Identifiers
import XmlBinding.Proofs.Code.Identifiers
import XmlBinding.Proofs.Text.Lines
import XmlBinding.Proofs.Schema.Documentation
import XmlBinding.Proofs.Schema.Documented
import XmlBinding.Proofs.Binding.Documentation
import XmlBinding.Proofs.Code.Pages
import XmlBinding.Proofs.Code.Documentation
import XmlBinding.Proofs.Code.Paths
import XmlBinding.Proofs.Code.Uses
import XmlBinding.Proofs.Code.Shadowing
