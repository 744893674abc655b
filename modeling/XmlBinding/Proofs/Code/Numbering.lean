import XmlBinding.Proofs.Binding.Promotion
import XmlBinding.Proofs.Code.FlagEnumerations

/-! # Numbers and names of members

The values of the facets become members in the order of their first occurrence, after the
sentinels: in the plain form they are counted, in the form of flags each has a bit. No two members
have one number, and no two are declared by one name, whatever the values are.
-/
namespace XmlBinding.Binding
open Schema Text Code

/-- The values of facets, each where it occurs first. -/
def distinctValues (facets : List Facet) : List String := (facets.map (·.value)).eraseDups

/-- Values are dropped before or after the facets that repeat them. -/
theorem values_filter_distinctLiterals (keep : String → Bool) (facets : List Facet) :
    ((distinctLiterals facets).filter fun f => keep f.value).map (·.value) =
      ((facets.map (·.value)).filter keep).eraseDups := by
  induction facets generalizing keep with
  | nil => rfl
  | cons f r ih =>
    have hrest (keep' : String → Bool) (h : ∀ v, keep' v = (!v == f.value && keep v)) :
        (((distinctLiterals r).filter fun g => g.value ≠ f.value).filter fun g =>
          keep g.value).map (·.value) = ((r.map (·.value)).filter keep').eraseDups := by
      rw [← ih keep', List.filter_filter]
      refine congrArg _ (List.filter_congr fun g _ => ?_)
      rw [h, decide_not, beq_eq_decide, Bool.and_comm]
    rw [distinctLiterals, List.map_cons]
    cases hf : keep f.value with
    | true =>
      have hrest := hrest _ fun v => rfl
      rw [← List.filter_filter] at hrest
      rw [List.filter_cons_of_pos (by simpa using hf), List.filter_cons_of_pos hf, List.map_cons,
        List.eraseDups_cons, hrest]
    | false =>
      rw [List.filter_cons_of_neg (by simp [hf]), List.filter_cons_of_neg (by simp [hf])]
      refine hrest keep fun v => ?_
      by_cases hv : v = f.value
      · simp [hv, hf]
      · simp [hv]

theorem values_distinctLiterals (facets : List Facet) :
    (distinctLiterals facets).map (·.value) = distinctValues facets := by
  have hall := values_filter_distinctLiterals (fun _ => true) facets
  rwa [List.filter_true, List.filter_true] at hall

theorem length_distinctLiterals (facets : List Facet) :
    (distinctLiterals facets).length = (distinctValues facets).length := by
  rw [← values_distinctLiterals, List.length_map]

/-- Literals are numbered by their places. -/
theorem numbers_literalMembers (convert : String → String) (number : Nat → Nat)
    (taken : List String) (i : Nat) (fs : List Facet) :
    (literalMembers convert number taken i fs).map (fun m => (m.symbol, m.number)) =
      ((fs.map (·.value)).zipIdx i).map fun p => (.literal p.1, (number p.2 : Int)) := by
  induction fs generalizing taken i with
  | nil => rfl
  | cons f fs ih =>
    rw [literalMembers, List.map_cons, ih, List.map_cons, List.zipIdx_cons, List.map_cons]

end XmlBinding.Binding

namespace XmlBinding.Code
open Binding

/-- The variants and constants that an item declares. -/
def Item.memberNames : Item → List String
  | .enumeration _ _ variants => variants.map (·.2.1)
  | .impl _ _ items => items.filterMap fun
    | .constant _ name _ _ => some name
    | _ => none
  | _ => []

theorem memberNames_enumerationItems (e : Enumeration) :
    (enumerationItems e).flatMap Item.memberNames = e.members.map fun m => written m.name := by
  have hconstants (ms : List Member) : (ms.map flagConstant).filterMap (fun
      | .constant _ name _ _ => some name
      | _ => none) = ms.map fun m => written m.name := by
    rw [List.filterMap_map]
    exact congrFun List.filterMap_eq_map ms
  rw [enumerationItems]
  split
  · simp [plainItems, Item.memberNames, variantOf, Function.comp_def]
  · simp [flagsItems, Item.memberNames, List.filterMap_append, hconstants]

end XmlBinding.Code

namespace XmlBinding.Binding.Enumeration
open Schema Text Code

/-- How `values` become members after sentinels, each of which has a name and a number of its own,
and how they are declared. -/
structure Numbers (e : Enumeration) (sentinels : List (Symbol × String × Int))
    (number : Nat → Nat) (values : List String) : Prop where
  members : ∃ literals, e.members.map (fun m => (m.symbol, m.name, m.number)) =
      sentinels ++ literals ∧
    literals.map (fun p => (p.1, p.2.2)) =
      values.zipIdx.map fun p => (.literal p.1, (number p.2 : Int))
  declared : (enumerationItems e).flatMap Item.memberNames = e.members.map fun m => written m.name
  names : ((enumerationItems e).flatMap Item.memberNames).Nodup

variable {e : Enumeration} {convert : String → String}
  {number : Nat → Nat} {taken : List String}

theorem numbers_of_members (sentinels : List Member)
    (he : e.members = sentinels ++ literalMembers convert number taken 0 e.literals) :
    e.Numbers (sentinels.map fun m => (m.symbol, m.name, m.number)) number
      (e.literals.map (·.value)) where
  members := by
    refine ⟨_, by rw [he, List.map_append], ?_⟩
    rw [List.map_map]
    exact numbers_literalMembers _ _ _ _ _
  declared := memberNames_enumerationItems e
  names := memberNames_enumerationItems e ▸ e.nodup_written_members

/-- Members have different numbers if places have, and none is that of a sentinel. -/
theorem nodup_numbers (sentinels : List Member)
    (he : e.members = sentinels ++ literalMembers convert number taken 0 e.literals)
    (hsentinels : (sentinels.map (·.number)).Nodup) (hnumber : Function.Injective number)
    (hother : ∀ m ∈ sentinels, ∀ i < e.literals.length, m.number ≠ number i) :
    (e.members.map (·.number)).Nodup := by
  have hnumbers := congrArg (List.map Prod.snd)
    (numbers_literalMembers convert number taken 0 e.literals)
  have hplaces : ((e.literals.map (·.value)).zipIdx.map Prod.snd) =
      List.range e.literals.length := by
    rw [List.zipIdx_map_snd, List.length_map, List.range_eq_range']
  rw [List.map_map, List.map_map] at hnumbers
  have hrange : (literalMembers convert number taken 0 e.literals).map (·.number) =
      (List.range e.literals.length).map fun i => (number i : Int) := by
    rw [← hplaces, List.map_map]
    exact hnumbers
  rw [he, List.map_append, hrange, List.nodup_append]
  refine ⟨hsentinels, List.nodup_range.map fun i j hij => hnumber (Int.ofNat_inj.mp hij), ?_⟩
  rintro _ hm _ hi rfl
  obtain ⟨m, hm, hmi⟩ := List.mem_map.mp hm
  obtain ⟨i, hi, hii⟩ := List.mem_map.mp hi
  exact hother m hm i (List.mem_range.mp hi) (hmi.trans hii.symm)

/-- Whatever the facets are, the members are the sentinels of the form and the values of the facets
where they occur first. In the plain form they are counted, as flags they have the powers of two,
which is refused exactly for more values than there are bits. -/
theorem numbers_ofFacets (name : String) (documentation owner : Option String)
    (facets : List Facet) :
    (∃ e : Enumeration,
      Descriptor.create .plain name documentation owner facets = .ok e.descriptor ∧
      e.Numbers [(.illegal, "IllegalValue", 2 ^ 31 - 1), (.notSet, "NotSet", -1)] (fun i => i)
        (distinctValues facets) ∧
      ((distinctValues facets).length < 2 ^ 31 - 1 → (e.members.map (·.number)).Nodup)) ∧
    (32 < (distinctValues facets).length →
      Descriptor.create .flags name documentation owner facets =
        .error (.tooManyFlags name (distinctValues facets).length)) ∧
    ((distinctValues facets).length ≤ 32 → ∃ e : Enumeration,
      Descriptor.create .flags name documentation owner facets = .ok e.descriptor ∧
      e.Numbers [(.empty, "NONE", 0)] (fun i => 2 ^ i) (distinctValues facets) ∧
      (e.members.map (·.number)).Nodup) := by
  refine ⟨⟨ofFacets name documentation owner facets, create_plain _ _ _ _, ?_, fun hfew => ?_⟩,
    fun hmany => ?_, fun hfew => ?_⟩
  · rw [← values_distinctLiterals]
    exact numbers_of_members [illegalMember, notSetMember] rfl
  · rw [← length_distinctLiterals] at hfew
    refine nodup_numbers [illegalMember, notSetMember] rfl (by decide)
      Function.injective_id fun m hm i hi => ?_
    have hi : i < (distinctLiterals facets).length := hi
    rcases List.mem_pair.mp hm with rfl | rfl
    · have hnumber : illegalMember.number = 2 ^ 31 - 1 := rfl
      simp only [hnumber, id]
      omega
    · have hnumber : notSetMember.number = -1 := rfl
      simp only [hnumber, id]
      omega
  · rw [← length_distinctLiterals] at hmany ⊢
    have hlimit : flagLimit < (distinctLiterals facets).length := hmany
    rw [Descriptor.create, Descriptor.assemble, assignMembers, if_pos hlimit]
    rfl
  · rw [← length_distinctLiterals] at hfew
    let e : Enumeration := ⟨name, documentation, owner, .flags, distinctLiterals facets⟩
    refine ⟨e, ?_, ?_, ?_⟩
    · have hlimit : ¬flagLimit < (distinctLiterals facets).length := Nat.not_lt.mpr hfew
      rw [Descriptor.create, Descriptor.assemble, assignMembers, if_neg hlimit]
      rfl
    · rw [← values_distinctLiterals]
      exact numbers_of_members (e := e) [emptyMember] rfl
    · refine nodup_numbers (e := e) [emptyMember] rfl (by decide)
        (Nat.pow_right_injective le_rfl) fun m hm i hi => ?_
      obtain rfl := List.mem_singleton.mp hm
      have hnumber : emptyMember.number = 0 := rfl
      have hpos : 0 < 2 ^ i := Nat.two_pow_pos i
      rw [hnumber]
      exact_mod_cast hpos.ne

/-- Neither sentinels nor literals that are converted alike are mixed up. -/
example : (ofFacets "Odd" none none [⟨"NotSet", none⟩, ⟨"a-b", none⟩, ⟨"a_b", none⟩,
    ⟨"a-b", none⟩]).members.map (fun m => (m.name, m.number)) =
      [("IllegalValue", 2147483647), ("NotSet", -1), ("NotSet2", 0), ("AB", 1), ("AB2", 2)] := by
  cbv

end XmlBinding.Binding.Enumeration
