import Mathlib.Data.List.Nodup
import Mathlib.Data.List.Perm.Basic
import XmlBinding.Code.Source

/-! # What the code of a module declares

Items refer to each other by names. Of each item the features are listed that such references lead
to or start from; the items of a module have those of its enumerations, markers and classes, and
nothing twice.
-/
namespace XmlBinding.Code
open Binding

/-- A declaration, a function that reads texts with the type that holds it, an arm of a function
of a trait, or a marker with what bears it. -/
inductive Feature where
  | record (name : String)
  | trait (name : String)
  | enumeration (name : String)
  | reader (home : String) (member : Associated)
  | arm (trait name : String) (arm : Arm)
  | marked (trait name : String)

/-- A text is all it works on. -/
def Associated.isReader : Associated → Bool
  | .function f => match f.params with
    | [.typed _ _] => true
    | _ => false
  | _ => false

/-- The arms of the selection a function starts with. -/
def Function.arms (f : Function) : List Arm :=
  match f.body with
  | .result (.select _ arms) :: _ => arms
  | _ => []

def Item.features : Item → List Feature
  | .record _ name _ => [.record name]
  | .unit _ name => [.record name]
  | .trait _ name _ => [.trait name]
  | .enumeration _ name _ => [.enumeration name]
  | .wrapper _ name _ => [.enumeration name]
  | .impl none name members => (members.filter Associated.isReader).map (.reader name)
  | .impl (some bound) name [] => [.marked bound name]
  | .impl (some bound) name [.function f] => f.arms.map (.arm bound name)
  | _ => []

/-- The type that holds the functions reading an enumeration. -/
def homeName (m : Module) (e : Enumeration) : String :=
  written ((m.home? e).getD containerName)

def surroundingsOf (m : Module) : Surroundings :=
  ⟨m.enumerations, homeName m, m.targetNamespace⟩

/-- How a class makes a child. -/
def createArm (child : String × String) : Arm :=
  ⟨.word (Text.literal child.1), callOf "Ok" [Surroundings.newElement child.2]⟩

def refuseArm : Arm :=
  ⟨.word "_", callOf "Err" [callOf "meta::Error::invalid_child_name" [ownName, .word "name"]]⟩

def ignoreArm : Arm := ⟨.word "_", .block []⟩

/-- A class is a record that makes the children it declares, sets its values and bears its
markers. -/
def classFeatures (s : Surroundings) (c : ElementClass) : List Feature :=
  .record (written c.name) ::
    (c.membership.elim [] fun ms =>
      (ms.creatable.map createArm ++ [refuseArm]).map (.arm "meta::ChildFactory" (written c.name)))
    ++ (c.values.map s.setArm ++ [ignoreArm]).map (.arm "meta::SetAttributes" (written c.name))
    ++ c.markers.map fun name => .marked (written name) (written c.name)

/-- The container of the functions that no class holds is there if it is needed. -/
def containerFeatures (m : Module) : List Feature :=
  if (readersOf m none).isEmpty then [] else [.record (written containerName)]

/-- Everything the code of a module should declare. -/
def moduleFeatures (m : Module) : List Feature :=
  m.enumerations.map (fun e => .enumeration (written e.name)) ++
    (containerFeatures m ++ (m.markers.map (fun k => .trait (written k.name)) ++
      (m.classes.flatMap (classFeatures (surroundingsOf m)) ++
        m.enumerations.flatMap fun e => (enumerationReaders e).map (.reader (homeName m e)))))

theorem isReader_of_enumerationReaders {e : Enumeration} :
    ∀ a ∈ enumerationReaders e, a.isReader = true := by
  unfold enumerationReaders
  split
  · simp [plainReaders, Associated.isReader, valueParam]
  · simp [flagsReaders, Associated.isReader, valueParam]

theorem features_enumerationItems (e : Enumeration) :
    (enumerationItems e).flatMap Item.features = [.enumeration (written e.name)] := by
  unfold enumerationItems
  split
  · simp [plainItems, Item.features, Associated.isReader]
  · have hconstants : (e.members.map flagConstant).filter Associated.isReader = [] := by
      simp [flagConstant, Associated.isReader]
    simp [flagsItems, flagsToText, Item.features, Associated.isReader, hconstants, Function.arms]

theorem features_readers {name : String} {readers : List Associated}
    (h : ∀ a ∈ readers, a.isReader = true) :
    Item.features (.impl none name readers) = readers.map (.reader name) := by
  rw [Item.features, List.filter_eq_self.mpr h]

theorem isReader_of_readersOf {m : Module} {owner : Option String} :
    ∀ a ∈ readersOf m owner, a.isReader = true := by
  intro a ha
  obtain ⟨e, -, ha⟩ := List.mem_flatMap.mp ha
  exact isReader_of_enumerationReaders a ha

theorem features_containerItems (m : Module) :
    (containerItems (readersOf m none)).flatMap Item.features =
      containerFeatures m ++ (readersOf m none).map (.reader (written containerName)) := by
  rw [containerItems, containerFeatures]
  split
  · next hempty => rw [List.isEmpty_iff.mp hempty, List.flatMap_nil, List.map_nil, List.append_nil]
  · rw [List.flatMap_cons, List.flatMap_singleton, features_readers isReader_of_readersOf]
    rfl

theorem isReader_accessors (s : Surroundings) (f : Field) :
    (s.accessors f).filter Associated.isReader = [] := by
  unfold Surroundings.accessors
  split <;> simp [Associated.isReader]

theorem features_parentItems (c : ElementClass) (ms : Membership) :
    (Surroundings.parentItems c ms).flatMap Item.features =
      (ms.creatable.map createArm ++ [refuseArm]).map
        (.arm "meta::ChildFactory" (written c.name)) := by
  simp only [Surroundings.parentItems, List.flatMap_cons, List.flatMap_nil, Item.features,
    Function.arms]
  simp [createArm, refuseArm]

/-- What a class holds of its own are no readers. -/
theorem readers_ownMembers (s : Surroundings) (c : ElementClass) :
    (([.constant [] "ELEMENT_NAME" (.reference false (some "'static") (.path "str"))
        (stringLiteral c.xmlName), Surroundings.construction c] ++
      (if c.membership.isSome then [Surroundings.childrenOf] else []) ++
      c.values.flatMap s.accessors).filter Associated.isReader) = [] := by
  rw [List.filter_append, List.filter_append, List.filter_flatMap]
  simp only [isReader_accessors, List.append_eq_nil_iff, List.flatMap_eq_nil_iff, implies_true,
    and_true]
  constructor
  · rfl
  · split <;> rfl

theorem flatMap_features_map {α : Type} {f : α → Item} {g : α → Feature}
    (h : ∀ x, (f x).features = [g x]) (xs : List α) :
    (xs.map f).flatMap Item.features = xs.map g := by
  rw [List.flatMap_map, List.map_eq_flatMap]
  simp only [h]

theorem features_classItems (s : Surroundings) (c : ElementClass) {readers : List Associated}
    (h : ∀ a ∈ readers, a.isReader = true) :
    ((s.classItems c readers).flatMap Item.features).Perm
      (classFeatures s c ++ readers.map (.reader (written c.name))) := by
  let creation := c.membership.elim [] fun ms =>
    (ms.creatable.map createArm ++ [refuseArm]).map
      (Feature.arm "meta::ChildFactory" (written c.name))
  let setting := (c.values.map s.setArm ++ [ignoreArm]).map
    (Feature.arm "meta::SetAttributes" (written c.name))
  let marks := c.markers.map fun name => Feature.marked (written name) (written c.name)
  have hinherent (members : List Associated) (hm : members.filter Associated.isReader = []) :
      Item.features (.impl none (written c.name) (members ++ readers)) =
        readers.map (.reader (written c.name)) := by
    rw [Item.features, List.filter_append, hm, List.nil_append, List.filter_eq_self.mpr h]
  have hparent : (c.membership.elim [] (Surroundings.parentItems c)).flatMap Item.features =
      creation := by
    cases hms : c.membership with
    | none => simp [creation, hms]
    | some ms => simpa [creation, hms] using features_parentItems c ms
  have hitems : (s.classItems c readers).flatMap Item.features =
      .record (written c.name) ::
        (readers.map (.reader (written c.name)) ++ (creation ++ setting ++ marks)) := by
    unfold Surroundings.classItems
    simp only [List.flatMap_append, List.flatMap_cons, List.flatMap_nil]
    rw [hinherent _ (readers_ownMembers s c), hparent,
      flatMap_features_map (g := fun name => .marked (written name) (written c.name))
        fun _ => rfl]
    simp [setting, marks, Item.features, Function.arms, ignoreArm, Surroundings.elementImpl]
  rw [hitems, classFeatures, List.cons_append, List.cons_append, List.cons_append]
  exact .cons _ List.perm_append_comm

/-- What is sorted by its key is there once if every key is. -/
theorem perm_flatMap_filter {α κ : Type} [DecidableEq κ] {keys : List κ} (hkeys : keys.Nodup)
    (key : α → κ) (xs : List α) (h : ∀ x ∈ xs, key x ∈ keys) :
    (keys.flatMap fun k => xs.filter fun x => key x = k).Perm xs := by
  induction xs with
  | nil => simp
  | cons x xs ih =>
    obtain ⟨hx, hxs⟩ := List.forall_mem_cons.mp h
    obtain ⟨before, after, rfl⟩ := List.append_of_mem hx
    have hother (ks : List κ) (hks : key x ∉ ks) :
        (ks.flatMap fun k => (x :: xs).filter fun x => key x = k) =
          ks.flatMap fun k => xs.filter fun x => key x = k := by
      refine List.flatMap_congr fun k hk => List.filter_cons_of_neg ?_
      rw [decide_eq_true_eq]
      rintro rfl
      exact hks hk
    obtain ⟨-, hafter, hdisjoint⟩ := List.nodup_append.mp hkeys
    have hbefore : key x ∉ before := fun hb => hdisjoint _ hb _ List.mem_cons_self rfl
    have ih := ih hxs
    rw [List.flatMap_append, List.flatMap_cons] at ih ⊢
    rw [hother before hbefore, hother after (List.nodup_cons.mp hafter).1,
      List.filter_cons_of_pos (by simp), List.cons_append]
    exact List.perm_middle.trans (ih.cons x)

theorem map_readersOf (m : Module) (owner : Option String) :
    (readersOf m owner).map (Feature.reader (written (owner.getD containerName))) =
      (m.enumerations.filter fun e => m.home? e = owner).flatMap fun e =>
        (enumerationReaders e).map (.reader (homeName m e)) := by
  rw [readersOf, List.map_flatMap]
  refine List.flatMap_congr fun e he => ?_
  have howner : m.home? e = owner := by simpa using (List.mem_filter.mp he).2
  rw [homeName, howner]

/-- The functions that read an enumeration are held by one class or by none. -/
theorem home?_mem (m : Module) (e : Enumeration) :
    m.home? e ∈ none :: m.classes.map fun c => some c.name := by
  rw [Module.home?]
  cases howner : e.owner with
  | none => exact List.mem_cons_self
  | some owner =>
    by_cases h : m.classes.any (·.name = owner) = true
    · obtain ⟨c, hc, hname⟩ := List.any_eq_true.mp h
      rw [decide_eq_true_eq] at hname
      rw [Option.filter_some, if_pos h]
      exact List.mem_cons_of_mem _ (List.mem_map.mpr ⟨c, hc, congrArg some hname⟩)
    · rw [Option.filter_some, if_neg h]
      exact List.mem_cons_self

theorem readers_perm {m : Module} (hnames : (m.classes.map (·.name)).Nodup) :
    ((readersOf m none).map (Feature.reader (written containerName)) ++
      m.classes.flatMap fun c : ElementClass =>
        (readersOf m (some c.name)).map (Feature.reader (written c.name))).Perm
      (m.enumerations.flatMap fun e => (enumerationReaders e).map (.reader (homeName m e))) := by
  have hkeys : (none :: m.classes.map fun c => some c.name).Nodup := by
    refine List.nodup_cons.mpr ⟨by simp, ?_⟩
    simpa only [List.map_map, Function.comp_def] using hnames.map fun _ _ => Option.some.inj
  have hperm := (perm_flatMap_filter hkeys m.home? m.enumerations
    fun e _ => home?_mem m e).flatMap_right
      fun e => (enumerationReaders e).map (Feature.reader (homeName m e))
  rw [List.flatMap_assoc, List.flatMap_cons, List.flatMap_map] at hperm
  simp only [← map_readersOf] at hperm
  exact hperm

/-- The items of a module declare what they should, each once, if its classes have different
names. -/
theorem features_moduleItems {m : Module} (hnames : (m.classes.map (·.name)).Nodup) :
    ((moduleItems m).flatMap Item.features).Perm (moduleFeatures m) := by
  have henumerations : (m.enumerations.flatMap enumerationItems).flatMap Item.features =
      m.enumerations.map fun e => .enumeration (written e.name) := by
    rw [List.flatMap_assoc, List.map_eq_flatMap]
    exact List.flatMap_congr fun e _ => features_enumerationItems e
  have hmarkers : (m.markers.map markerItem).flatMap Item.features =
      m.markers.map fun k => .trait (written k.name) :=
    flatMap_features_map (fun _ => rfl) m.markers
  have hclasses : ((m.classes.flatMap fun c => (surroundingsOf m).classItems c
      (readersOf m (some c.name))).flatMap Item.features).Perm
      (m.classes.flatMap (classFeatures (surroundingsOf m)) ++
        m.classes.flatMap fun c => (readersOf m (some c.name)).map (.reader (written c.name))) := by
    rw [List.flatMap_assoc]
    refine (List.Perm.flatMap_left _ fun c _ => ?_).trans (List.flatMap_append_perm _ _ _).symm
    exact features_classItems _ c isReader_of_readersOf
  have hitems : (moduleItems m).flatMap Item.features =
      m.enumerations.map (fun e => .enumeration (written e.name)) ++
        (containerFeatures m ++ ((readersOf m none).map (.reader (written containerName)) ++
          (m.markers.map (fun k => .trait (written k.name)) ++
            (m.classes.flatMap fun c => (surroundingsOf m).classItems c
              (readersOf m (some c.name))).flatMap Item.features))) := by
    have hregistry : [registryItem m].flatMap Item.features = [] := rfl
    rw [← henumerations, ← hmarkers, ← List.append_assoc (containerFeatures m),
      ← features_containerItems, moduleItems, List.flatMap_append, List.flatMap_append,
      List.flatMap_append, List.flatMap_append, hregistry, List.append_nil, List.append_assoc,
      List.append_assoc]
    rfl
  rw [hitems, moduleFeatures]
  refine .append_left _ (.append_left _ ?_)
  refine (List.perm_append_comm_assoc _ _ _).trans (.append_left _ ?_)
  refine (hclasses.append_left _).trans ((List.perm_append_comm_assoc _ _ _).trans ?_)
  exact (readers_perm hnames).append_left _

/-! ## Functions that read texts -/

/-- The name of such a function after that of the type that holds it. -/
def Feature.readerPath? : Feature → Option (String × String)
  | .reader home (.function f) => some (home, f.name)
  | _ => none

/-- The paths under which the code of a module holds functions that read texts. -/
def readerPaths (m : Module) : List (String × String) :=
  ((moduleItems m).flatMap Item.features).filterMap Feature.readerPath?

def readerNames (e : Enumeration) : List String :=
  match e.form with
  | .plain => [e.tryParseName, e.parseName]
  | .flags => [e.tryParseName]

theorem filterMap_readerPath?_enumerationReaders (home : String) (e : Enumeration) :
    (((enumerationReaders e).map (Feature.reader home)).filterMap Feature.readerPath?) =
      (readerNames e).map (home, ·) := by
  rw [enumerationReaders, readerNames]
  cases e.form <;> rfl

theorem filterMap_readerPath?_classFeatures (s : Surroundings) (c : ElementClass) :
    (classFeatures s c).filterMap Feature.readerPath? = [] := by
  rw [List.filterMap_eq_nil_iff]
  intro f hf
  simp only [classFeatures, List.cons_append, List.mem_cons, List.mem_append, List.mem_map] at hf
  rcases hf with rfl | (hf | ⟨_, _, rfl⟩) | ⟨_, _, rfl⟩
  · rfl
  · cases hms : c.membership with
    | none => simp [hms] at hf
    | some ms =>
      rw [hms, Option.elim_some] at hf
      obtain ⟨_, _, rfl⟩ := List.mem_map.mp hf
      rfl
  · rfl
  · rfl

theorem readerPaths_perm {m : Module} (hnames : (m.classes.map (·.name)).Nodup) :
    (readerPaths m).Perm
      (m.enumerations.flatMap fun e => (readerNames e).map (homeName m e, ·)) := by
  refine ((features_moduleItems hnames).filterMap _).trans ?_
  have hcontainer : (containerFeatures m).filterMap Feature.readerPath? = [] := by
    rw [containerFeatures]
    split <;> rfl
  have hclasses : (m.classes.flatMap (classFeatures (surroundingsOf m))).filterMap
      Feature.readerPath? = [] := by
    simp [List.filterMap_flatMap, filterMap_readerPath?_classFeatures]
  have hothers : (m.enumerations.map fun e => Feature.enumeration (written e.name)).filterMap
        Feature.readerPath? = [] ∧
      (m.markers.map fun k => Feature.trait (written k.name)).filterMap
        Feature.readerPath? = [] := by
    constructor <;> simp [Feature.readerPath?]
  simp only [moduleFeatures, List.filterMap_append, hcontainer, hclasses, hothers,
    List.nil_append, List.filterMap_flatMap, filterMap_readerPath?_enumerationReaders]
  exact .refl _

end XmlBinding.Code
