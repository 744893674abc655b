import XmlBinding.Binding.Construction
import XmlBinding.Code.Source
import XmlBinding.Code.SupportPath
import XmlBinding.Schema.Document
/-!
# From a schema to source code
-/
namespace XmlBinding

/-- Without a path for the support library the default one is taken. -/
structure Options where
  modulePath : Option String := none
  support : Option String := none
  allowDoctype : Bool := false
deriving DecidableEq, Repr

inductive GenerationError where
  | schema (e : Schema.SchemaError)
  | binding (e : Binding.BindingError)
  | supportPath (path : String)
deriving DecidableEq, Repr

def GenerationError.message : GenerationError → String
  | .schema e => e.message
  | .binding e => e.message
  | .supportPath path =>
    Text.quoted path ++ " is not a valid Rust path for the runtime crate"

/-- The module bound to the schema in a text. -/
def bindSchema (text : String) (allowDoctype : Bool) : Except GenerationError Binding.Module := do
  let model ← (Schema.readSchema allowDoctype text).mapError .schema
  (Binding.Module.ofModel model).mapError .binding

section
variable {text : String} {allow : Bool}

theorem bindSchema_eq_ok {m : Binding.Module} : bindSchema text allow = .ok m ↔
    ∃ model, Schema.readSchema allow text = .ok model ∧ Binding.Module.ofModel model = .ok m := by
  unfold bindSchema
  cases Schema.readSchema allow text with
  | error e => exact ⟨nofun, nofun⟩
  | ok model =>
    change (Binding.Module.ofModel model).mapError GenerationError.binding = .ok m ↔ _
    constructor
    · intro h
      refine ⟨model, rfl, ?_⟩
      cases hbound : Binding.Module.ofModel model with
      | error e =>
        rw [hbound] at h
        cases h
      | ok m' =>
        rw [hbound] at h
        cases h
        rfl
    · rintro ⟨_, hmodel, hbound⟩
      cases hmodel
      rw [hbound]
      rfl

theorem bindSchema_eq_error {e : Binding.BindingError} :
    bindSchema text allow = .error (.binding e) ↔
      ∃ model, Schema.readSchema allow text = .ok model ∧
        Binding.Module.ofModel model = .error e := by
  unfold bindSchema
  cases Schema.readSchema allow text with
  | error e => exact ⟨nofun, nofun⟩
  | ok model =>
    change (Binding.Module.ofModel model).mapError GenerationError.binding = _ ↔ _
    constructor
    · intro h
      refine ⟨model, rfl, ?_⟩
      cases hbound : Binding.Module.ofModel model with
      | error e' =>
        rw [hbound] at h
        cases h
        rfl
      | ok m =>
        rw [hbound] at h
        cases h
    · rintro ⟨_, hmodel, hbound⟩
      cases hmodel
      rw [hbound]
      rfl

end

def supportPath (options : Options) : Except GenerationError String :=
  match options.support with
  | none => .ok Code.defaultSupportPath
  | some path => match Code.supportPath? path with
    | some plain => .ok plain
    | none => .error (.supportPath path)

/-- The source text of the module bound to the schema in a text. -/
def generate (text : String) (options : Options) : Except GenerationError String := do
  let bound ← bindSchema text options.allowDoctype
  let support ← supportPath options
  let modules := (options.modulePath.map Binding.modulePath).getD []
  return (Code.sourceFile bound modules support).text

end XmlBinding
