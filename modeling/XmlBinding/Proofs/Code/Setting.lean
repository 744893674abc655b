import Mathlib.Data.List.Flatten
import XmlBinding.Proofs.Binding.FieldTypes
import XmlBinding.Proofs.Code.Emission
import XmlBinding.Proofs.Code.Literals

/-! # What the code does that sets values by name

A class sets its values in one function, which goes by the name it is given. The function puts what
it reads into one member of the record, and leaves the record as it is if nothing can be read. How
texts are read makes no difference to that.
-/
namespace XmlBinding.Code
open Binding Text

/-! ## Functions that change a record -/

/-- The values of a record by the names of its members. -/
abbrev Members (β : Type) := String → Option β

/-- What becomes of a record, and whether the function that changes it fails. -/
structure Change (ε β : Type) where
  result : Except ε Unit
  members : Members β

/-- The meaning of the expressions that read a value. One that leaves its function fails. -/
abbrev Reading (ε β : Type) := Expr → Vars → Except ε β

section
variable {ε β : Type}

/-- Puts what has been read into a member. -/
def Members.store (members : Members β) (member : String) (read : Except ε β) : Change ε β :=
  match read with
  | .ok x => ⟨.ok (), Function.update members member (some x)⟩
  | .error fault => ⟨.error fault, members⟩

/-- What an expression does to the record: it sets a member to what is read, or does nothing. -/
def Expr.act (reads : Reading ε β) (vars : Vars) (members : Members β) :
    Expr → Option (Change ε β)
  | .assign (.field (.word "self") member) (.call (.word "Some") [e]) =>
    some (members.store member (reads e vars))
  | .block [] => some ⟨.ok (), members⟩
  | _ => none

/-- The body of the first arm that matches, with the variables that its pattern binds. -/
def takenArm (arms : List Arm) (x : Object) : Option (Vars × Expr) :=
  arms.findSome? fun a => (a.pat.bind .initial x).map (·, a.body)

/-- What a function does to its record that acts by one of its arguments and has no result. -/
def Function.set? (f : Function) (reads : Reading ε β) (given : List Object)
    (members : Members β) : Option (Change ε β) :=
  match f.params, f.body with
  | .self "&mut self" :: params,
      [.result (.select (.word chosen) arms), .result (.call (.word "Ok") [.tuple []])] => do
    let vars := (params.map Param.variable).zip given
    let taken ← takenArm arms (← Naming.initial.word vars chosen)
    taken.2.act reads (taken.1 ++ vars) members
  | _, _ => none

/-- What the record is after calls of the function. Calls that fail are passed over. -/
def Function.setAll? (f : Function) (reads : Reading ε β) :
    List (String × String) → Members β → Option (Members β)
  | [], members => some members
  | (name, value) :: calls, members =>
    (f.set? reads [.text name, .text value] members).bind fun change =>
      f.setAll? reads calls change.members

end

/-! ## The functions of a module -/

/-- The function by which a type has its values set. -/
def Item.setter? : Item → Option (String × Function)
  | .impl (some "meta::SetAttributes") name [.function f] => some (name, f)
  | _ => none

/-- The functions that set values, each with the name of its type. -/
def File.setters (f : File) : List (String × Function) := f.items.filterMap Item.setter?

/-- How a value of a type is read. -/
def Surroundings.readExpr (s : Surroundings) : FieldType → Expr
  | .primitive p => parsed p
  | .enumeration place => (s.enumerations[place]?).elim (.word "") s.parsedEnumeration

def Surroundings.setter (s : Surroundings) (k : ElementClass) : Function where
  name := "set_attribute"
  params := [.self "&mut self", .typed "name" textRef, .typed "value" textRef]
  output := some unitOrError
  body := [.result (.select (.word "name") (k.values.map s.setArm ++ [ignoreArm])), done]

theorem setArm_eq (s : Surroundings) (f : Field) :
    s.setArm f = ⟨.word (literal f.xmlName),
      .assign (.field self (written f.member)) (callOf "Some" [s.readExpr f.type])⟩ := rfl

theorem setters_enumerationItems (e : Enumeration) :
    (enumerationItems e).filterMap Item.setter? = [] := by
  unfold enumerationItems
  split
  · simp [plainItems, Item.setter?]
  · simp [flagsItems, flagsToText, Item.setter?]

theorem setters_classItems (s : Surroundings) (k : ElementClass) (readers : List Associated) :
    (s.classItems k readers).filterMap Item.setter? = [(written k.name, s.setter k)] := by
  have hmarks : (k.markers.map fun m => Item.impl (some (written m)) (written k.name)
      []).filterMap Item.setter? = [] := by
    simp [Item.setter?]
  have hparent : (k.membership.elim [] (Surroundings.parentItems k)).filterMap Item.setter? =
      [] := by
    cases k.membership <;> rfl
  unfold Surroundings.classItems
  simp only [List.filterMap_append, hmarks, hparent]
  simp [Item.setter?, Surroundings.elementImpl, Surroundings.setter, ignoreArm]

/-- Every class has its function, and nothing else has one. -/
theorem setters_sourceFile (m : Module) (modules : List String) (support : String) :
    (sourceFile m modules support).setters =
      m.classes.map fun k => (written k.name, (surroundingsOf m).setter k) := by
  have henumerations : (m.enumerations.flatMap enumerationItems).filterMap Item.setter? = [] := by
    simp [List.filterMap_flatMap, setters_enumerationItems]
  have hcontainer : (containerItems (readersOf m none)).filterMap Item.setter? = [] := by
    rw [containerItems]
    split <;> rfl
  have hmarkers : (m.markers.map markerItem).filterMap Item.setter? = [] := by
    simp [markerItem, Item.setter?]
  have hclasses : (m.classes.flatMap fun k => (surroundingsOf m).classItems k
      (readersOf m (some k.name))).filterMap Item.setter? =
        m.classes.map fun k => (written k.name, (surroundingsOf m).setter k) := by
    rw [List.filterMap_flatMap, List.map_eq_flatMap]
    exact List.flatMap_congr fun k _ => setters_classItems _ k _
  have hregistry : [registryItem m].filterMap Item.setter? = [] := rfl
  have hitems : (moduleItems m).filterMap Item.setter? =
      m.classes.map fun k => (written k.name, (surroundingsOf m).setter k) := by
    rw [moduleItems, List.filterMap_append, List.filterMap_append, List.filterMap_append,
      List.filterMap_append, henumerations, hcontainer, hmarkers, hregistry, List.append_nil]
    exact hclasses
  exact hitems

/-! ## One call -/

section
variable {ε β : Type} (reads : Reading ε β)

/-- What is known when a value is read. -/
def givenVars (name value : String) : Vars := [("name", .text name), ("value", .text value)]

theorem clear_initial : Naming.initial.Clear := ⟨List.nodup_nil, by simp [Naming.initial]⟩

theorem bind_setArm (s : Surroundings) (f : Field) (name : String) :
    (s.setArm f).pat.bind .initial (.text name) = if f.xmlName = name then some [] else none := by
  rw [setArm_eq, Pat.bind, Naming.bindWord_literal clear_initial]
  simp [Object.text?, eq_comm]

/-- The first value of the name has its arm taken. -/
theorem takenArm_setter (s : Surroundings) (fields : List Field) (name : String) :
    takenArm (fields.map s.setArm ++ [ignoreArm]) (.text name) =
      some ([], ((fields.find? (·.xmlName = name)).elim ignoreArm s.setArm).body) := by
  induction fields with
  | nil => simp [takenArm, ignoreArm, Pat.bind, Naming.bindWord_any]
  | cons f fields ih =>
    rw [List.map_cons, List.cons_append, takenArm, List.findSome?_cons, bind_setArm]
    by_cases hf : f.xmlName = name
    · simp [hf]
    · rw [if_neg hf, Option.map_none, List.find?_cons_of_neg (by simpa using hf)]
      exact ih

/-- The value to which a name leads is read and stored; a name that leads to none is passed over. -/
theorem set?_setter (s : Surroundings) (k : ElementClass) (name value : String)
    (members : Members β) :
    (s.setter k).set? reads [.text name, .text value] members =
      some ((k.values.find? (·.xmlName = name)).elim ⟨.ok (), members⟩ fun f =>
        members.store (written f.member) (reads (s.readExpr f.type) (givenVars name value))) := by
  have hname : Naming.initial.word (givenVars name value) "name" = some (.text name) :=
    Naming.word_name (by decide) rfl
  have hset : (s.setter k).set? reads [.text name, .text value] members =
      (takenArm (k.values.map s.setArm ++ [ignoreArm]) (.text name)).bind fun taken =>
        taken.2.act reads (taken.1 ++ givenVars name value) members := by
    simp only [Function.set?, Surroundings.setter, done, callOf, List.map_cons, List.map_nil,
      Param.variable, List.zip_cons_cons, List.zip_nil_right]
    change (Naming.initial.word (givenVars name value) "name").bind _ = _
    rw [hname]
    rfl
  rw [hset, takenArm_setter, Option.bind_some]
  cases k.values.find? (·.xmlName = name) <;> rfl

end

/-! ## The values of a class -/

/-- The members of a record that hold no values. -/
def linkMembers : List String := ["this", "parent", "children"]

/-- Attributes have different names, and all members do. -/
structure ValuesApart (k : ElementClass) : Prop where
  names : (k.fields.map (·.xmlName)).Nodup
  members : ((linkMembers ++ k.values.map (·.member)).map written).Nodup

/-- The attribute is named like the text, and there is text beside it. -/
def IsHidden (k : ElementClass) (f : Field) : Prop :=
  f ∈ k.fields ∧ f.xmlName = contentName ∧ k.content.isSome = true

instance (k : ElementClass) (f : Field) : Decidable (IsHidden k f) :=
  inferInstanceAs (Decidable (_ ∧ _ ∧ _))

section
variable {k : ElementClass} {f g : Field}

theorem ValuesApart.nodup (hk : ValuesApart k) :
    (k.values.map fun f => written f.member).Nodup := by
  have hmembers := hk.members
  rw [List.map_append, List.map_map] at hmembers
  exact (List.nodup_append.mp hmembers).2.1

theorem ValuesApart.eq_of_written (hk : ValuesApart k) (hf : f ∈ k.values) (hg : g ∈ k.values)
    (h : written f.member = written g.member) : f = g :=
  List.inj_on_of_nodup_map hk.nodup hf hg h

theorem mem_values : f ∈ k.values ↔ f ∈ k.contentField? ∨ f ∈ k.fields := by
  simp [ElementClass.values]

theorem xmlName_of_contentField? (h : f ∈ k.contentField?) : f.xmlName = contentName := by
  obtain ⟨t, -, rfl⟩ := Option.map_eq_some_iff.mp h
  rfl

theorem isSome_contentField? : k.contentField?.isSome = k.content.isSome := Option.isSome_map

/-- The name of the text leads to the text. -/
theorem find_text (h : f ∈ k.contentField?) :
    k.values.find? (·.xmlName = f.xmlName) = some f := by
  rw [ElementClass.values, Option.mem_def.mp h, Option.toList_some, List.singleton_append,
    List.find?_cons_of_pos (by simp)]

theorem find_of_nodup {fields : List Field} (h : (fields.map (·.xmlName)).Nodup)
    (hf : f ∈ fields) : fields.find? (·.xmlName = f.xmlName) = some f := by
  obtain ⟨before, after, rfl⟩ := List.append_of_mem hf
  rw [List.map_append, List.map_cons, List.nodup_append] at h
  have hbefore : before.find? (·.xmlName = f.xmlName) = none := by
    rw [List.find?_eq_none]
    intro g hg
    simpa using h.2.2 _ (List.mem_map_of_mem hg) _ List.mem_cons_self
  rw [List.find?_append, hbefore, Option.none_or, List.find?_cons_of_pos (by simp)]

/-- The name of an attribute that is not hidden leads to the attribute. -/
theorem find_attribute (hk : ValuesApart k) (hf : f ∈ k.fields) (h : ¬ IsHidden k f) :
    k.values.find? (·.xmlName = f.xmlName) = some f := by
  have htext : k.contentField?.toList.find? (·.xmlName = f.xmlName) = none := by
    rw [List.find?_eq_none]
    intro g hg hname
    rw [Option.mem_toList] at hg
    rw [decide_eq_true_eq, xmlName_of_contentField? hg] at hname
    apply h
    refine ⟨hf, hname.symm, ?_⟩
    exact isSome_contentField?.symm.trans (Option.isSome_of_mem hg)
  rw [ElementClass.values, List.find?_append, htext, Option.none_or, find_of_nodup hk.names hf]

/-- A name leads to the value of that name, unless the value is hidden. -/
theorem find_eq_some_iff (hk : ValuesApart k) (hf : f ∈ k.values) {name : String} :
    k.values.find? (·.xmlName = name) = some f ↔ name = f.xmlName ∧ ¬ IsHidden k f := by
  constructor
  · intro hfind
    obtain rfl : f.xmlName = name := by simpa using List.find?_some hfind
    refine ⟨rfl, fun ⟨hfield, hname, hcontent⟩ => ?_⟩
    obtain ⟨t, ht⟩ : ∃ t, k.contentField? = some t :=
      Option.isSome_iff_exists.mp (isSome_contentField?.trans hcontent)
    have htext := find_text ht
    rw [xmlName_of_contentField? ht, ← hname, hfind] at htext
    obtain rfl := Option.some.inj htext
    have hvalues : k.values.Nodup := hk.nodup.of_map _
    rw [ElementClass.values, ht, Option.toList_some, List.singleton_append] at hvalues
    exact (List.nodup_cons.mp hvalues).1 hfield
  · rintro ⟨rfl, hshown⟩
    rcases mem_values.mp hf with htext | hfield
    · exact find_text htext
    · exact find_attribute hk hfield hshown

theorem not_isHidden_text (hk : ValuesApart k) (hf : f ∈ k.contentField?) : ¬ IsHidden k f :=
  ((find_eq_some_iff hk (mem_values.mpr (.inl hf))).mp (find_text hf)).2

/-! ### Members of the code of a class -/

theorem members_eq (k : ElementClass) : linkMembers ++ k.values.map (·.member) =
    (linkMembers ++ k.contentField?.toList.map (·.member)) ++ k.fields.map (·.member) := by
  rw [ElementClass.values, List.map_append, List.append_assoc]

/-- What a class has of its own is reserved. -/
theorem ownMembers_sublist (k : ElementClass) :
    (linkMembers ++ k.contentField?.toList.map (·.member)).Sublist reservedMembers := by
  rw [ElementClass.contentField?]
  cases k.content with
  | none => exact of_decide_eq_true rfl
  | some t => exact of_decide_eq_true rfl

theorem members_sublist (k : ElementClass) :
    (linkMembers ++ k.values.map (·.member)).Sublist (takenMembers k.fields) := by
  have hfields : (k.fields.map (·.member)).Sublist
      (k.fields.flatMap fun f => [f.member, setterName f.member]) := by
    rw [List.map_eq_flatMap]
    apply List.Sublist.flatMap_right
    intro f _
    simp
  rw [members_eq]
  exact (ownMembers_sublist k).append hfields

theorem plain_members (h : MembersDiffer k.fields) :
    ∀ member ∈ linkMembers ++ k.values.map (·.member), Plain member := by
  rw [members_eq]
  intro member hmember
  rcases List.mem_append.mp hmember with hmember | hmember
  · have hreserved : ∀ name ∈ reservedMembers, Plain name := by decide
    exact hreserved member ((ownMembers_sublist k).subset hmember)
  · obtain ⟨f, hf, rfl⟩ := List.mem_map.mp hmember
    exact h.plain f hf

/-- The members that are taken by a class and by its attributes are its own. -/
theorem valuesApart_of_valuedFor {model : Schema.Model} {es : List Enumeration}
    (h : k.ValuedFor model es) : ValuesApart k := by
  obtain ⟨attributes, hfields⟩ := h.fieldsFor
  have hplain := plain_members hfields.members
  have hnodup := hfields.members.nodup.sublist (members_sublist k)
  refine ⟨hfields.nodup, hnodup.map_on fun a ha b hb => ?_⟩
  exact (hplain a ha).written_inj (hplain b hb)

end

/-! ## Calls by name -/

/-- Called by the name of a value, a function sets that value alone to what it reads. -/
structure Stores (s : Surroundings) (f : Function) (x : Field) : Prop where
  read : ∀ {ε β : Type} (reads : Reading ε β) (value : String) (members : Members β) (v : β),
    reads (s.readExpr x.type) (givenVars x.xmlName value) = .ok v →
      f.set? reads [.text x.xmlName, .text value] members =
        some ⟨.ok (), Function.update members (written x.member) (some v)⟩
  failed : ∀ {ε β : Type} (reads : Reading ε β) (value : String) (members : Members β) (fault : ε),
    reads (s.readExpr x.type) (givenVars x.xmlName value) = .error fault →
      f.set? reads [.text x.xmlName, .text value] members = some ⟨.error fault, members⟩

/-- What a value has been set to by the last of the calls that did set it. -/
def lastRead {ε β : Type} (reads : Reading ε β) (s : Surroundings) (x : Field) :
    List (String × String) → Option β
  | [] => none
  | (name, value) :: calls => (lastRead reads s x calls).or
    (if name = x.xmlName then
      (reads (s.readExpr x.type) (givenVars name value)).toOption
    else none)

/-- A function sets the values of a class by their names, one at a time. An attribute that is hidden
behind the text is never set. -/
structure SetsNamed (s : Surroundings) (k : ElementClass) (f : Function) : Prop where
  apart : ValuesApart k
  named : ∀ x ∈ k.fields, ¬ IsHidden k x → Stores s f x
  text : ∀ x ∈ k.contentField?, Stores s f x
  unknown : ∀ name, name ∉ k.values.map (·.xmlName) → ∀ {ε β : Type} (reads : Reading ε β)
    (value : String) (members : Members β),
    f.set? reads [.text name, .text value] members = some ⟨.ok (), members⟩
  failure : ∀ {ε β : Type} (reads : Reading ε β) (name value : String)
    (members after : Members β) (fault : ε),
    f.set? reads [.text name, .text value] members = some ⟨.error fault, after⟩ → after = members
  calls : ∀ {ε β : Type} (reads : Reading ε β) (calls : List (String × String))
    (members : Members β), ∃ after, f.setAll? reads calls members = some after ∧
      ∀ x ∈ k.values, after (written x.member) =
        (if IsHidden k x then none else lastRead reads s x calls).or (members (written x.member))

section
variable {ε β : Type} (reads : Reading ε β) {s : Surroundings} {k : ElementClass} {x : Field}

theorem stores_of_find (h : k.values.find? (·.xmlName = x.xmlName) = some x) :
    Stores s (s.setter k) x := by
  constructor
  · intro ε β reads value members v hv
    rw [set?_setter, h, Option.elim_some, hv]
    rfl
  · intro ε β reads value members fault hfault
    rw [set?_setter, h, Option.elim_some, hfault]
    rfl

theorem Members.store_failed {members : Members β} {member : String} {read : Except ε β}
    {after : Members β} {fault : ε} (h : members.store member read = ⟨.error fault, after⟩) :
    after = members := by
  cases read with
  | ok v => cases h
  | error e =>
    cases h
    rfl

theorem Members.store_other (members : Members β) {member other : String} (h : other ≠ member)
    (read : Except ε β) : (members.store member read).members other = members other := by
  cases read with
  | ok v => exact Function.update_of_ne h _ _
  | error e => rfl

theorem Members.store_self (members : Members β) (member : String) (read : Except ε β) :
    (members.store member read).members member = read.toOption.or (members member) := by
  cases read with
  | ok v => exact Function.update_self _ _ _
  | error e => rfl

/-- A call changes the value to which its name leads and no other one. -/
theorem set?_member (hk : ValuesApart k) (hx : x ∈ k.values) (name value : String)
    (members : Members β) {change : Change ε β}
    (h : (s.setter k).set? reads [.text name, .text value] members = some change) :
    change.members (written x.member) =
      (if name = x.xmlName ∧ ¬ IsHidden k x then
        (reads (s.readExpr x.type) (givenVars name value)).toOption
      else none).or (members (written x.member)) := by
  rw [set?_setter, Option.some_inj] at h
  subst h
  simp only [← find_eq_some_iff hk hx]
  cases hfind : k.values.find? (·.xmlName = name) with
  | none => rfl
  | some y =>
    rw [Option.elim_some]
    by_cases hxy : y = x
    · rw [hxy, if_pos rfl, Members.store_self]
    · have hmember : written x.member ≠ written y.member := fun h =>
        hxy (hk.eq_of_written hx (List.mem_of_find?_eq_some hfind) h).symm
      rw [if_neg (fun h => hxy (Option.some.inj h)), Members.store_other _ hmember, Option.none_or]

/-- After any calls a value is what it has been set to last, and a hidden one is as before. -/
theorem exists_setAll?_setter (hk : ValuesApart k) (calls : List (String × String))
    (members : Members β) :
    ∃ after, (s.setter k).setAll? reads calls members = some after ∧
      ∀ x ∈ k.values, after (written x.member) =
        (if IsHidden k x then none else lastRead reads s x calls).or
          (members (written x.member)) := by
  induction calls generalizing members with
  | nil => exact ⟨members, rfl, fun x _ => by split <;> rfl⟩
  | cons call calls ih =>
    obtain ⟨name, value⟩ := call
    have hset := set?_setter reads s k name value members
    generalize (k.values.find? (·.xmlName = name)).elim _ _ = change at hset
    obtain ⟨after, hafter, hvalues⟩ := ih change.members
    refine ⟨after, ?_, fun x hx => ?_⟩
    · rw [Function.setAll?, hset]
      exact hafter
    · rw [hvalues x hx, set?_member reads hk hx name value members hset]
      by_cases hhidden : IsHidden k x
      · simp [hhidden]
      · simp [hhidden, lastRead, Option.or_assoc]

theorem setsNamed_setter (hk : ValuesApart k) : SetsNamed s k (s.setter k) where
  apart := hk
  named x hx hshown := stores_of_find (find_attribute hk hx hshown)
  text x hx := stores_of_find (find_text hx)
  unknown name hname ε β reads value members := by
    have hfind : k.values.find? (·.xmlName = name) = none := by
      refine List.find?_eq_none.mpr fun x hx => ?_
      rw [decide_eq_true_eq]
      rintro rfl
      exact hname (List.mem_map_of_mem hx)
    rw [set?_setter, hfind, Option.elim_none]
  failure reads name value members after fault h := by
    rw [set?_setter, Option.some_inj] at h
    cases hfind : k.values.find? (·.xmlName = name) with
    | none => simp [hfind] at h
    | some x =>
      rw [hfind, Option.elim_some] at h
      exact Members.store_failed h
  calls reads calls members := exists_setAll?_setter reads hk calls members

/-- Called by the name of a hidden attribute, the function sets the text in its place. -/
theorem SetsNamed.hidden {f : Function} (h : SetsNamed s k f) (hx : IsHidden k x) :
    ∃ t ∈ k.contentField?, t.xmlName = x.xmlName ∧ Stores s f t ∧
      written x.member ≠ written t.member := by
  obtain ⟨t, ht⟩ : ∃ t, k.contentField? = some t :=
    Option.isSome_iff_exists.mp (isSome_contentField?.trans hx.2.2)
  refine ⟨t, ht, (xmlName_of_contentField? ht).trans hx.2.1.symm, h.text t ht, fun heq => ?_⟩
  obtain rfl := h.apart.eq_of_written (mem_values.mpr (.inr hx.1)) (mem_values.mpr (.inl ht)) heq
  exact not_isHidden_text h.apart ht hx

end
end XmlBinding.Code
