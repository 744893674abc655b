import XmlBinding.Code.Source
import XmlBinding.Proofs.Text.Quoting

/-! # The code of the registry

Outside of its types a generated file has one function. That gives a new registry after having told
it of every registered class, in their order.
-/
namespace XmlBinding.Code
open Binding Text

/-- What a registry is told of a class: two names and the function that makes an instance. -/
structure Listing where
  xmlName : String
  typeName : String
  maker : String
deriving DecidableEq

def listing (k : ElementClass) : Listing := ⟨k.xmlName, k.name, written k.name ++ "::new"⟩

/-- The function that a closure calls for a new element. -/
def Expr.maker? : Expr → Option String
  | .call (.word "meta::into_element_ref") [.call (.word maker) []] => some maker
  | _ => none

/-- What a new registry is told, call by call. -/
def Expr.listings? : Expr → Option (List Listing)
  | .call (.word "meta::Registry::new") [] => some []
  | .method e "with" [] [.word xmlName, .word typeName, .closure [] made] => do
    let listings ← e.listings?
    return listings ++ [⟨← readLiteral xmlName, ← readLiteral typeName, ← made.maker?⟩]
  | _ => none

/-- What a function tells the registry that it gives back. -/
def Function.listings? (f : Function) : Option (List Listing) :=
  match f.body with
  | [.result e] => e.listings?
  | _ => none

def Item.function? : Item → Option Function
  | .function f => some f
  | _ => none

/-- The functions that belong to no type. -/
def File.functions (f : File) : List Function := f.items.filterMap Item.function?

theorem functions_enumerationItems (e : Enumeration) :
    (enumerationItems e).filterMap Item.function? = [] := by
  unfold enumerationItems
  split <;> rfl

theorem functions_containerItems (readers : List Associated) :
    (containerItems readers).filterMap Item.function? = [] := by
  unfold containerItems
  split <;> rfl

theorem functions_classItems (s : Surroundings) (c : ElementClass) (readers : List Associated) :
    (s.classItems c readers).filterMap Item.function? = [] := by
  have hmarkers : (c.markers.map fun m => Item.impl (some (written m)) (written c.name)
      []).filterMap Item.function? = [] := by
    simp [Item.function?]
  have hparent : (c.membership.elim [] (Surroundings.parentItems c)).filterMap Item.function? =
      [] := by
    cases c.membership <;> rfl
  unfold Surroundings.classItems
  simp only [List.filterMap_append, hmarkers, hparent]
  rfl

/-- Call by call, the registry is told of every registered class. -/
theorem listings?_foldl (e : Expr) (ls : List Listing) (ks : List ElementClass)
    (he : e.listings? = some ls) :
    (ks.foldl (fun e k => methodOf e "with" [stringLiteral k.xmlName, stringLiteral k.name,
      .closure [] (Surroundings.newElement k.name)]) e).listings? =
        some (ls ++ ks.map listing) := by
  induction ks generalizing e ls with
  | nil => simpa using he
  | cons k ks ih =>
    rw [List.foldl_cons, ih _ (ls ++ [listing k])]
    · simp
    · simp [methodOf, stringLiteral, Expr.listings?, he, readLiteral_literal,
        Surroundings.newElement, callOf, Expr.maker?, listing]

/-- The one function of a file gives a registry of the registered classes. -/
theorem functions_sourceFile (m : Module) (modules : List String) (support : String) :
    ∃ f, (sourceFile m modules support).functions = [f] ∧ f.name = "registry" ∧
      f.listings? = some (m.registered.map listing) := by
  have hitems : (sourceFile m modules support).functions =
      (moduleItems m).filterMap Item.function? := rfl
  have henumerations :
      (m.enumerations.flatMap enumerationItems).filterMap Item.function? = [] := by
    rw [List.filterMap_flatMap]
    simp [functions_enumerationItems]
  have hmarkers : (m.markers.map markerItem).filterMap Item.function? = [] := by
    simp [markerItem, Item.function?]
  have hclasses (s : Surroundings) : (m.classes.flatMap fun c =>
      s.classItems c (readersOf m (some c.name))).filterMap Item.function? = [] := by
    rw [List.filterMap_flatMap]
    simp [functions_classItems]
  rw [hitems, moduleItems]
  simp only [List.filterMap_append, henumerations, functions_containerItems, hmarkers, hclasses]
  exact ⟨_, rfl, rfl, listings?_foldl _ [] m.registered rfl⟩

end XmlBinding.Code
