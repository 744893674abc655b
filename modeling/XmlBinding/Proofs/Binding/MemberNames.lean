import XmlBinding.Binding.Fields
import XmlBinding.Proofs.Binding.Members

/-! # Members of classes

A field and the function that sets it have names that no other member has. Of the numbered names
that come last there are twice as many as names are taken, and a name that is taken can be in the
way of two of them: of itself, and of the one that is set by it.
-/
namespace XmlBinding.Binding
open Text

theorem identifier_snakeCase (s : String) : Identifier (snakeCase s) := by
  apply identifier_intercalate
  simp only [List.mem_map]
  rintro word ⟨w, hw, rfl⟩
  constructor
  · rw [Ne, List.map_eq_nil_iff]
    rintro rfl
    exact nil_notMem_nameWords s hw
  · simp only [List.mem_map]
    rintro c ⟨d, hd, rfl⟩
    exact isAlphanum_toLower (isAlphanum_of_mem_nameWords hw d hd)

theorem identifier_memberName (xmlName : String) : Identifier (memberName xmlName) :=
  (identifier_snakeCase _).leadingLetter (by decide)

/-- The mark of an attribute ends in a letter. -/
theorem Identifier.marked {name : String} (h : Identifier name) : Identifier (name ++ "_attr") := by
  constructor
  · have hmark : ∀ c ∈ "_attr".toList, isNamePart c = true := List.all_eq_true.mp (by decide)
    intro c hc
    rw [String.toList_append, List.mem_append] at hc
    exact hc.elim (h.parts c) (hmark c)
  · have hmark : "_attr".toList ≠ [] := by decide
    rw [String.toList_append, List.getLast?_append_of_ne_nil _ hmark]
    decide

/-- A member is named as it would be by itself, or with a mark behind, or with a number too. -/
theorem chooseMember_cases (taken : List String) (base : String) :
    chooseMember taken base = base ∨ chooseMember taken base = base ++ "_attr" ∨
      ∃ k, chooseMember taken base = numbered (base ++ "_attr") k := by
  unfold chooseMember
  simp only
  split
  · exact .inl rfl
  · split
    · exact .inr (.inl rfl)
    · exact .inr (.inr ⟨_, rfl⟩)

theorem Identifier.chooseMember {base : String} (h : Identifier base) (taken : List String) :
    Identifier (chooseMember taken base) := by
  rcases chooseMember_cases taken base with heq | heq | ⟨k, heq⟩ <;> rw [heq]
  · exact h
  · exact h.marked
  · exact h.marked.numbered k

/-- What is set by a function of this name. -/
def unsetterName (setter : String) : String := String.ofList (setter.toList.drop 4)

theorem unsetterName_setterName (member : String) : unsetterName (setterName member) = member := by
  have hset : "set_".toList.length = 4 := by decide
  rw [unsetterName, setterName, String.toList_append, ← hset, List.drop_left, String.ofList_toList]

theorem memberIsFree_iff {taken : List String} {member : String} :
    memberIsFree taken member = true ↔ member ∉ taken ∧ setterName member ∉ taken := by
  simp [memberIsFree]

/-- A member that is chosen is free, and so is the function that sets it. -/
theorem chooseMember_free (taken : List String) (base : String) :
    memberIsFree taken (chooseMember taken base) = true := by
  unfold chooseMember
  simp only
  split
  · assumption
  · split
    · assumption
    · have hinjective : Function.Injective fun i => numbered (base ++ "_attr") (2 + i) :=
        fun i j h => Nat.add_left_cancel (numbered_injective _ h)
      obtain ⟨i, hi, hnew⟩ := exists_not_mem hinjective (taken ++ taken.map unsetterName)
      rw [List.mem_append, not_or] at hnew
      have hfree : memberIsFree taken (numbered (base ++ "_attr") (2 + i)) = true := by
        refine memberIsFree_iff.mpr ⟨hnew.1, fun hset => hnew.2 ?_⟩
        exact List.mem_map.mpr ⟨_, hset, unsetterName_setterName _⟩
      have hbound : i < 2 * taken.length + 1 := by
        simp only [List.length_append, List.length_map] at hi
        omega
      exact @firstFree_free (fun k => memberIsFree taken (numbered (base ++ "_attr") k)) _ 2
        ⟨i, hbound, hfree⟩

/-- Members differ from each other and from what a class has of its own, whether they are read or
set. -/
structure MembersDiffer (fields : List Field) : Prop where
  nodup : (takenMembers fields).Nodup
  plain : ∀ f ∈ fields, Plain f.member

theorem membersDiffer_nil : MembersDiffer [] where
  nodup := by decide
  plain := by simp

theorem setterName_ne (member : String) : member ≠ setterName member := by
  intro h
  have hlength := congrArg String.length h
  rw [setterName, String.length_append] at hlength
  have hset : "set_".length = 4 := by decide
  omega

/-- A field whose member is free can be added. -/
theorem MembersDiffer.snoc {fields : List Field} (h : MembersDiffer fields) {f : Field}
    (hfree : memberIsFree (takenMembers fields) f.member = true) (hf : Plain f.member) :
    MembersDiffer (fields ++ [f]) where
  nodup := by
    obtain ⟨hmember, hsetter⟩ := memberIsFree_iff.mp hfree
    have htaken : takenMembers (fields ++ [f]) =
        takenMembers fields ++ [f.member, setterName f.member] := by
      simp [takenMembers]
    have hpair : [f.member, setterName f.member].Nodup := by
      simpa using setterName_ne f.member
    rw [htaken, List.nodup_append]
    refine ⟨h.nodup, hpair, fun name hname other hother => ?_⟩
    rintro rfl
    rcases List.mem_pair.mp hother with rfl | rfl
    · exact hmember hname
    · exact hsetter hname
  plain := by
    intro g hg
    rcases List.mem_append.mp hg with hg | hg
    · exact h.plain g hg
    · exact List.mem_singleton.mp hg ▸ hf

theorem MembersDiffer.addField {fields : List Field} (h : MembersDiffer fields) (xmlName : String)
    (type : FieldType) (documentation : Option String) :
    MembersDiffer (addField fields xmlName type documentation) := by
  unfold Binding.addField
  split
  · exact h
  · have hfree := chooseMember_free (takenMembers fields) (memberName xmlName)
    have hplain := ((identifier_memberName xmlName).chooseMember (takenMembers fields)).plain
    generalize chooseMember (takenMembers fields) (memberName xmlName) = member at hfree hplain ⊢
    exact h.snoc hfree hplain

end XmlBinding.Binding
