import XmlBinding.Proofs.Binding.MemberNames
import XmlBinding.Proofs.Code.ReaderNames

/-! # Functions that get and set values

Attributes ask for fields one after another, and the first one of each name gets a field. A field is
read by one function and set by another. The names of all these functions are different as they are
written, and so are the names they stand for where a keyword is marked as raw.
-/
namespace XmlBinding.Binding
open Code Schema Text

/-- An attribute that asks for a field. -/
structure FieldRequest where
  xmlName : String
  type : FieldType
  documentation : Option String
deriving DecidableEq, Repr

/-- What a field was asked for with. -/
def Field.request (f : Field) : FieldRequest := ⟨f.xmlName, f.type, f.documentation⟩

/-- The fields that some attributes get in turn. -/
def addFields (requests : List FieldRequest) : List Field :=
  requests.foldl (fun fields r => addField fields r.xmlName r.type r.documentation) []

/-! ### The first attribute of each name -/

section
variable {requests : List FieldRequest} {r : FieldRequest}

theorem addFields_append_singleton (requests : List FieldRequest) (r : FieldRequest) :
    addFields (requests ++ [r]) =
      addField (addFields requests) r.xmlName r.type r.documentation := by
  simp [addFields]

theorem eraseDups_append_singleton (names : List String) (name : String) :
    (names ++ [name]).eraseDups =
      if name ∈ names then names.eraseDups else names.eraseDups ++ [name] := by
  by_cases h : name ∈ names <;> simp [List.eraseDups_append, List.removeAll, List.eraseDups_cons, h]

theorem map_xmlName_addField (fields : List Field) (xmlName : String) (type : FieldType)
    (documentation : Option String) :
    (addField fields xmlName type documentation).map (·.xmlName) =
      if xmlName ∈ fields.map (·.xmlName) then fields.map (·.xmlName)
      else fields.map (·.xmlName) ++ [xmlName] := by
  by_cases h : ∃ f ∈ fields, f.xmlName = xmlName <;> simp [addField, h]

/-- Every name that is asked for has one field, in the order in which the names come up. -/
theorem map_xmlName_addFields (requests : List FieldRequest) :
    (addFields requests).map (·.xmlName) = (requests.map (·.xmlName)).eraseDups := by
  induction requests using List.reverseRecOn with
  | nil => rfl
  | append_singleton requests r ih =>
    rw [addFields_append_singleton, map_xmlName_addField, ih, List.map_append, List.map_singleton,
      eraseDups_append_singleton]
    simp [List.mem_eraseDups]

/-- A field is kept as it was asked for first. -/
theorem find?_of_mem_addFields (requests : List FieldRequest) :
    ∀ f ∈ addFields requests, requests.find? (·.xmlName = f.xmlName) = some f.request := by
  induction requests using List.reverseRecOn with
  | nil => simp [addFields]
  | append_singleton requests r ih =>
    have hnames := map_xmlName_addFields requests
    intro f hf
    rw [addFields_append_singleton, addField] at hf
    rw [List.find?_append]
    split at hf
    · simp [ih f hf]
    · next hnew =>
      rcases List.mem_append.mp hf with hf | hf
      · simp [ih f hf]
      · have hnone : requests.find? (·.xmlName = r.xmlName) = none := by
          have hmem : r.xmlName ∉ (addFields requests).map (·.xmlName) := by simpa using hnew
          simpa [hnames] using hmem
        obtain rfl := List.mem_singleton.mp hf
        simp [hnone, Field.request]

theorem membersDiffer_addFields (requests : List FieldRequest) :
    MembersDiffer (addFields requests) := by
  induction requests using List.reverseRecOn with
  | nil => exact membersDiffer_nil
  | append_singleton requests r ih =>
    rw [addFields_append_singleton]
    exact ih.addField r.xmlName r.type r.documentation

end

/-! ### Names as they are written -/

/-- The name that an identifier stands for: the mark of a raw one is no part of it. -/
def denoted (name : String) : String :=
  if "r#".toList.isPrefixOf name.toList then String.ofList (name.toList.drop 2) else name

section
variable {name a b : String}

theorem denoted_of_notMem (h : '#' ∉ name.toList) : denoted name = name := by
  apply if_neg
  intro hprefix
  obtain ⟨rest, hrest⟩ := List.isPrefixOf_iff_prefix.mp hprefix
  simp [← hrest] at h

theorem denoted_raw (name : String) : denoted ("r#" ++ name) = name := by
  simp [denoted]

/-- A plain name is written as it is, with its mark, or with an underscore. -/
theorem Plain.denoted_written (h : Plain name) :
    denoted (written name) = name ∨ denoted (written name) = name ++ "_" := by
  have hended : '#' ∉ (name ++ "_").toList := by simpa using h.unmarked
  rcases written_cases name with hw | hw | hw
  · exact .inl (by rw [hw, denoted_of_notMem h.unmarked])
  · exact .inr (by rw [hw, denoted_of_notMem hended])
  · exact .inl (by rw [hw, denoted_raw])

theorem Plain.denoted_written_inj (ha : Plain a) (hb : Plain b)
    (h : denoted (written a) = denoted (written b)) : a = b := by
  have hended {a b : String} (hb : Plain b) : b ≠ a ++ "_" := by
    rintro rfl
    exact hb.unended (by simp)
  rcases ha.denoted_written with hwa | hwa <;> rcases hb.denoted_written with hwb | hwb <;>
    rw [hwa, hwb] at h
  · exact h
  · exact absurd h (hended ha)
  · exact absurd h.symm (hended hb)
  · exact (String.append_left_inj "_").mp h

/-- No keyword sets anything. -/
theorem written_setterName (member : String) : written (setterName member) = setterName member := by
  have hkeyword : ∀ k ∈ pathKeywords ++ keywords ++ contextualKeywords,
      ¬ "set_".toList <+: k.toList := by decide
  have hother : ∀ k ∈ pathKeywords ++ keywords ++ contextualKeywords, setterName member ≠ k := by
    rintro k hk rfl
    exact hkeyword _ hk (by simp [setterName])
  have hpath : setterName member ∉ pathKeywords := fun h => hother _ (by simp [h]) rfl
  have hword : setterName member ∉ keywords := fun h => hother _ (by simp [h]) rfl
  have hcontextual : setterName member ∉ contextualKeywords := fun h => hother _ (by simp [h]) rfl
  simp [written, hpath, hword, hcontextual]

theorem Plain.setterName (h : Plain name) (hne : name ≠ "") : Plain (setterName name) := by
  have hlist : name.toList ≠ [] := by simpa using hne
  constructor
  · simpa [Binding.setterName] using h.unmarked
  · rw [Binding.setterName, String.toList_append, List.getLast?_append_of_ne_nil _ hlist]
    exact h.unended

theorem leadingLetter_ne_empty {fallback : String} (h : fallback ≠ "") (name : String) :
    leadingLetter fallback name ≠ "" := by
  unfold leadingLetter
  split
  · exact h
  · next hname =>
    split
    · rintro rfl
      simp at hname
    · simp

theorem memberName_ne_empty (xmlName : String) : memberName xmlName ≠ "" := by
  have hfallback : "value" ≠ "" := by decide
  exact leadingLetter_ne_empty hfallback _

theorem chooseMember_ne_empty {base : String} (h : base ≠ "") (taken : List String) :
    chooseMember taken base ≠ "" := by
  rcases chooseMember_cases taken base with heq | heq | ⟨k, heq⟩ <;> rw [heq]
  · exact h
  · simp [h]
  · simp [numbered, h]

theorem member_ne_empty_of_mem_addFields (requests : List FieldRequest) :
    ∀ f ∈ addFields requests, f.member ≠ "" := by
  induction requests using List.reverseRecOn with
  | nil => simp [addFields]
  | append_singleton requests r ih =>
    have hne := chooseMember_ne_empty (memberName_ne_empty r.xmlName)
      (takenMembers (addFields requests))
    intro f hf
    rw [addFields_append_singleton, addField] at hf
    generalize chooseMember (takenMembers (addFields requests)) (memberName r.xmlName) = member
      at hf hne
    split at hf
    · exact ih f hf
    · rcases List.mem_append.mp hf with hf | hf
      · exact ih f hf
      · rw [List.mem_singleton.mp hf]
        exact hne

end

/-- The names that the functions of some fields are written with. -/
def accessorNames (s : Surroundings) (fields : List Field) : List String :=
  fields.flatMap fun f => functionNames (s.accessors f)

theorem map_written_takenMembers (s : Surroundings) (fields : List Field) :
    (takenMembers fields).map written = reservedMembers ++ accessorNames s fields := by
  have hreserved : reservedMembers.map written = reservedMembers := by decide
  rw [takenMembers, List.map_append, hreserved, accessorNames, List.map_flatMap]
  simp only [List.map_cons, List.map_nil, written_setterName, functionNames_accessors]
  rfl

/-- The functions of the fields that attributes ask for have names of their own. -/
structure AccessorsDiffer (s : Surroundings) (requests : List FieldRequest) : Prop where
  /-- There is a field for each name, in the order in which the names come up, -/
  names : (addFields requests).map (·.xmlName) = (requests.map (·.xmlName)).eraseDups
  /-- with what its attribute asked for first. -/
  first : ∀ f ∈ addFields requests, requests.find? (·.xmlName = f.xmlName) = some f.request
  /-- What gets and sets the values is written with names that differ from each other and from
  those of all other members, -/
  written : (reservedMembers ++ accessorNames s (addFields requests)).Nodup
  /-- also when raw identifiers are taken for what they stand for. -/
  denoted : ((reservedMembers ++ accessorNames s (addFields requests)).map denoted).Nodup

theorem accessorsDiffer (s : Surroundings) (requests : List FieldRequest) :
    AccessorsDiffer s requests := by
  have hdiffer := membersDiffer_addFields requests
  have hplain : ∀ name ∈ takenMembers (addFields requests), Plain name := by
    have hreserved : ∀ name ∈ reservedMembers, Plain name := by decide
    simp only [takenMembers, List.mem_append, List.mem_flatMap, List.mem_pair]
    rintro name (h | ⟨f, hf, rfl | rfl⟩)
    · exact hreserved name h
    · exact hdiffer.plain f hf
    · exact (hdiffer.plain f hf).setterName (member_ne_empty_of_mem_addFields requests f hf)
  constructor
  · exact map_xmlName_addFields requests
  · exact find?_of_mem_addFields requests
  · rw [← map_written_takenMembers]
    apply hdiffer.nodup.map_on
    intro a ha b hb h
    exact (hplain a ha).written_inj (hplain b hb) h
  · rw [← map_written_takenMembers, List.map_map]
    apply hdiffer.nodup.map_on
    intro a ha b hb h
    exact (hplain a ha).denoted_written_inj (hplain b hb) h

/-- What sets `x` would be called like what gets `set-x`. -/
example : (addFields [⟨"set-x", .primitive .string, none⟩, ⟨"x", .primitive .string, none⟩]).map
    (·.member) = ["set_x", "x_attr"] := by
  decide +kernel

end XmlBinding.Binding
