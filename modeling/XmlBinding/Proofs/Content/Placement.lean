import XmlBinding.Proofs.Collection.Rivals
import XmlBinding.Proofs.Content.Branches
import Mathlib.Data.List.Count
import Mathlib.Data.List.Forall2

/-! # Placing an allowed word into the slots of its model

A derivation of a word tells for every name the slot of the particle it comes from. Such a placement
keeps within the effective maxima, uses no two rivals, and once it is past a choice with effective
maximum 1 it never comes back: all groups around such a choice occur only once.
-/
namespace XmlBinding.Schema.MaxOccurs

/-- Whether a maximum lets something occur `n` times, where the greatest count stands for any. -/
def Covers : MaxOccurs → Nat → Prop
  | .unbounded, _ => True
  | .count m, n => n ≤ m ∨ countLimit ≤ m

theorem covers_mul {outer maximum : MaxOccurs} {k l : Nat} (hne : maximum ≠ .count 0)
    (hk : outer.Covers k) (hl : maximum.Admits l) : (maximum.mul outer).Covers (k * l) := by
  cases maximum with
  | unbounded =>
    cases outer with
    | unbounded => trivial
    | count b =>
      cases b with
      | zero =>
        have hk0 : k = 0 := by simpa [Covers, countLimit] using hk
        simp [mul, Covers, hk0]
      | succ b => trivial
  | count a =>
    have ha : a ≠ 0 := fun h => hne (by rw [h])
    cases outer with
    | unbounded =>
      rw [mul_comm]
      cases a with
      | zero => exact absurd rfl ha
      | succ a => trivial
    | count b =>
      simp only [Admits] at hl
      rw [count_mul_count, Covers]
      rcases hk with hk | hk
      · have hle : k * l ≤ a * b := Nat.mul_comm a b ▸ Nat.mul_le_mul hk hl
        omega
      · have hle : b ≤ a * b := Nat.le_mul_of_pos_left b (Nat.pos_of_ne_zero ha)
        omega

theorem covers_of_admits {maximum : MaxOccurs} {k l : Nat} (hk : one.Covers k)
    (hl : maximum.Admits l) : maximum.Covers (k * l) := by
  have hk1 : k ≤ 1 := by simpa [one, Covers, countLimit] using hk
  cases maximum with
  | unbounded => trivial
  | count a =>
    refine .inl ?_
    calc k * l ≤ 1 * l := Nat.mul_le_mul_right l hk1
      _ = l := Nat.one_mul l
      _ ≤ a := hl

theorem mul_eq_one {a b : MaxOccurs} : a.mul b = .one ↔ a = .one ∧ b = .one := by
  cases a with
  | unbounded =>
    cases b with
    | unbounded => simp [mul, one]
    | count b => cases b <;> simp [mul, one]
  | count a =>
    cases b with
    | unbounded => cases a <;> simp [mul, one]
    | count b =>
      cases a with
      | zero => simp [mul, one]
      | succ a =>
        cases b with
        | zero => simp [mul, one]
        | succ b =>
          have hmin : min ((a + 1) * (b + 1)) countLimit = 1 ↔ (a + 1) * (b + 1) = 1 := by
            unfold countLimit
            omega
          have hone : (a + 1) * (b + 1) = 1 ↔ a = 0 ∧ b = 0 := by
            constructor
            · intro h
              have ha := Nat.eq_one_of_mul_eq_one_right h
              have hb := Nat.eq_one_of_mul_eq_one_left h
              omega
            · rintro ⟨rfl, rfl⟩
              rfl
          simp [mul, one, hmin, hone]

end XmlBinding.Schema.MaxOccurs

namespace XmlBinding.Binding
open Schema XmlBinding.Tree

def slotName (slots : List Slot) (i : Nat) : Option String := (slots[i]?).bind (·.name)

/-- A placement `d` of the word `w` into slots. The room suffices for as many words as `outer`
covers, were they all placed alike. -/
structure Fits (slots : List Slot) (rival : Nat → Nat → Prop) (outer : MaxOccurs)
    (w : List String) (d : List Nat) : Prop where
  names : List.Forall₂ (fun n i => ∃ s, slots[i]? = some s ∧ s.name = some n) w d
  room : ∀ k, outer.Covers k → ∀ i s m, slots[i]? = some s → s.maximum = some m →
    k * d.count i ≤ m ∨ countLimit ≤ m
  apart : ∀ i ∈ d, ∀ j ∈ d, ¬ rival i j
  passed : d.Pairwise fun t u =>
    ∀ r j, rival r j → ¬ rival r t → ¬ rival j t → j < t → r < u

namespace Fits

variable {slots : List Slot} {rival : Nat → Nat → Prop} {outer : MaxOccurs} {w : List String}
  {d : List Nat}

theorem nil : Fits slots rival outer [] [] where
  names := .nil
  room k _ i s m _ _ := .inl (by simp)
  apart := by simp
  passed := .nil

theorem lt (h : Fits slots rival outer w d) : ∀ i ∈ d, i < slots.length := by
  obtain ⟨names, -, -, -⟩ := h
  induction names with
  | nil => simp
  | cons hn _ ih =>
    obtain ⟨s, hs, -⟩ := hn
    intro i hi
    rcases List.mem_cons.mp hi with rfl | hi
    · exact (List.getElem?_eq_some_iff.mp hs).1
    · exact ih i hi

/-- A placed word starts with the name of the first slot used. -/
theorem head?_eq {q : Nat} {name : String} (h : Fits slots rival outer w (q :: d))
    (hq : slotName slots q = some name) : name ∈ w.head? := by
  obtain ⟨names, -, -, -⟩ := h
  cases names with
  | cons hn _ =>
    obtain ⟨s, hs, hn⟩ := hn
    rw [slotName, hs, Option.bind_some, hn, Option.some.injEq] at hq
    exact hq ▸ rfl

theorem exists_name {i : Nat} (h : Fits slots rival outer w d) (hi : i ∈ d) :
    ∃ name ∈ w, slotName slots i = some name := by
  obtain ⟨names, -, -, -⟩ := h
  induction names with
  | nil => cases hi
  | cons hn _ ih =>
    rcases List.mem_cons.mp hi with rfl | hi
    · obtain ⟨s, hs, hn⟩ := hn
      exact ⟨_, List.mem_cons_self, by rw [slotName, hs, Option.bind_some, hn]⟩
    · obtain ⟨name, hname, hslot⟩ := ih hi
      exact ⟨name, List.mem_cons_of_mem _ hname, hslot⟩

/-- Placements depend on the names and maxima of slots only. -/
theorem congr {slots' : List Slot} (h : Fits slots rival outer w d)
    (hs : slots'.map Slot.emptied = slots.map Slot.emptied) : Fits slots' rival outer w d := by
  refine ⟨h.names.imp fun n i hn => ?_, fun k hk i s m hi hm => ?_, h.apart, h.passed⟩
  · obtain ⟨s, hi, hn⟩ := hn
    obtain ⟨t, ht, hname, -⟩ := exists_getElem?_of_emptied hs.symm hi
    exact ⟨t, ht, hname.trans hn⟩
  · obtain ⟨t, ht, -, hmax⟩ := exists_getElem?_of_emptied hs hi
    exact h.room k hk i t m ht (hmax.trans hm)

section
variable {x : Bool} {e : Entry} {es : List Entry} {u v : List String} {c d : List Nat}
  (hc : Fits e.slots e.Rival outer u c)
  (hd : Fits (slotsOfEntries es) (entriesRival x es) outer v d)
include hc hd

theorem names_append : List.Forall₂
    (fun a i => ∃ s, (slotsOfEntries (e :: es))[i]? = some s ∧ s.name = some a) (u ++ v)
    (c ++ d.map (e.slots.length + ·)) := by
  apply List.rel_append
  · refine hc.names.imp fun a i ⟨s, hs, hname⟩ => ⟨s, ?_, hname⟩
    rw [slotsOfEntries, List.getElem?_append_left (List.getElem?_eq_some_iff.mp hs).1, hs]
  · rw [List.forall₂_map_right_iff]
    refine hd.names.imp fun a i ⟨s, hs, hname⟩ => ⟨s, ?_, hname⟩
    rw [slotsOfEntries, List.getElem?_append_right (by omega)]
    simpa using hs

theorem room_append {k : Nat} (hk : outer.Covers k) {i m : Nat} {s : Slot}
    (hi : (slotsOfEntries (e :: es))[i]? = some s) (hm : s.maximum = some m) :
    k * (c ++ d.map (e.slots.length + ·)).count i ≤ m ∨ countLimit ≤ m := by
  rw [List.count_append]
  by_cases hin : i < e.slots.length
  · have hzero : (d.map (e.slots.length + ·)).count i = 0 := List.count_eq_zero.mpr fun h => by
      obtain ⟨j, -, rfl⟩ := List.mem_map.mp h
      omega
    rw [slotsOfEntries, List.getElem?_append_left hin] at hi
    simpa [hzero] using hc.room k hk i s m hi hm
  · have hzero : c.count i = 0 := List.count_eq_zero.mpr fun h => hin (hc.lt i h)
    have hcount : (d.map (e.slots.length + ·)).count i = d.count (i - e.slots.length) := by
      obtain ⟨j, rfl⟩ := Nat.exists_eq_add_of_le (Nat.le_of_not_lt hin)
      rw [Nat.add_sub_cancel_left]
      exact List.count_map_of_injective d _ (fun a b h => Nat.add_left_cancel h) j
    rw [slotsOfEntries, List.getElem?_append_right (by omega)] at hi
    simpa [hzero, hcount] using hd.room k hk _ s m hi hm

variable (hx : x = true → c = [] ∨ d = [])
include hx

omit hc hd in
theorem false_of_mem_of_mem {a b : Nat} (ha : a ∈ c) (hb : b ∈ d) (hxt : x = true) : False := by
  rcases hx hxt with rfl | rfl
  · cases ha
  · cases hb

theorem apart_append {i j : Nat} (hi : i ∈ c ++ d.map (e.slots.length + ·))
    (hj : j ∈ c ++ d.map (e.slots.length + ·)) : ¬ entriesRival x (e :: es) i j := by
  intro hr
  rcases List.mem_append.mp hi with hi | hi <;> rcases List.mem_append.mp hj with hj | hj
  · have hi' := hc.lt i hi
    have hj' := hc.lt j hj
    rcases hr with ⟨-, -, hr⟩ | ⟨-, -, hnj, -⟩ | ⟨-, -, hni, -⟩ | ⟨hni, -, -⟩
    · exact hc.apart i hi j hj hr
    all_goals omega
  · obtain ⟨b, hb, rfl⟩ := List.mem_map.mp hj
    have hi' := hc.lt i hi
    rcases hr with ⟨-, hnb, -⟩ | ⟨hxt, -⟩ | ⟨hxt, -⟩ | ⟨hni, -, -⟩
    · omega
    · exact false_of_mem_of_mem hx hi hb hxt
    · exact false_of_mem_of_mem hx hi hb hxt
    · omega
  · obtain ⟨b, hb, rfl⟩ := List.mem_map.mp hi
    have hj' := hc.lt j hj
    rcases hr with ⟨hnb, -, -⟩ | ⟨hxt, -⟩ | ⟨hxt, -⟩ | ⟨-, hnj, -⟩
    · omega
    · exact false_of_mem_of_mem hx hj hb hxt
    · exact false_of_mem_of_mem hx hj hb hxt
    · omega
  · obtain ⟨a, ha, rfl⟩ := List.mem_map.mp hi
    obtain ⟨b, hb, rfl⟩ := List.mem_map.mp hj
    rcases hr with ⟨hna, -, -⟩ | ⟨-, hna, -, -⟩ | ⟨-, hnb, -, -⟩ | ⟨-, -, hr⟩
    · omega
    · omega
    · omega
    · exact hd.apart a ha b hb (by simpa using hr)

theorem passed_append : (c ++ d.map (e.slots.length + ·)).Pairwise fun t u =>
    ∀ r j, entriesRival x (e :: es) r j → ¬ entriesRival x (e :: es) r t →
      ¬ entriesRival x (e :: es) j t → j < t → r < u := by
  rw [List.pairwise_append, List.pairwise_map]
  refine ⟨hc.passed.imp_of_mem fun {t u} ht hu h r j hr hrt hjt hlt => ?_,
    hd.passed.imp_of_mem fun {t u} ht hu h r j hr hrt hjt hlt => ?_,
    fun t ht u hu r j hr hrt hjt hlt => ?_⟩
  · -- both in the head: so are the rivals, or one of them rivals `t`
    have ht' := hc.lt t ht
    have hu' := hc.lt u hu
    rcases hr with ⟨hrn, hjn, hr⟩ | ⟨-, -, hnj, -⟩ | ⟨hxt, hjn, hnr, hrm⟩ | ⟨-, hnj, -⟩
    · exact h r j hr (fun hr' => hrt (.inl ⟨hrn, ht', hr'⟩))
        (fun hj' => hjt (.inl ⟨hjn, ht', hj'⟩)) hlt
    · omega
    · exact absurd (.inr (.inr (.inl ⟨hxt, ht', hnr, hrm⟩))) hrt
    · omega
  · -- both in the tail
    have ht' := hd.lt t ht
    rcases hr with ⟨hrn, -, -⟩ | ⟨-, hrn, -, -⟩ | ⟨hxt, hjn, -, -⟩ | ⟨hnr, hnj, hr⟩
    · omega
    · omega
    · exact absurd (.inr (.inl ⟨hxt, hjn, by omega, by omega⟩)) hjt
    · have hlt' := h (r - e.slots.length) (j - e.slots.length) hr
        (fun hr' => hrt (.inr (.inr (.inr ⟨hnr, by omega, by simpa using hr'⟩))))
        (fun hj' => hjt (.inr (.inr (.inr ⟨hnj, by omega, by simpa using hj'⟩))))
        (by omega)
      omega
  · -- from the head to the tail
    obtain ⟨b, hb, rfl⟩ := List.mem_map.mp hu
    have ht' := hc.lt t ht
    rcases hr with ⟨hrn, -, -⟩ | ⟨-, hrn, -, -⟩ | ⟨hxt, -⟩ | ⟨-, hnj, -⟩
    · omega
    · omega
    · exact (false_of_mem_of_mem hx ht hb hxt).elim
    · omega

/-- Words placed into the head and into the tail of some entries. Both may be used at once unless
the entries are the branches of an exclusive choice. -/
theorem append : Fits (slotsOfEntries (e :: es)) (entriesRival x (e :: es)) outer (u ++ v)
    (c ++ d.map (e.slots.length + ·)) where
  names := names_append hc hd
  room _ hk _ _ _ hi hm := room_append hc hd hk hi hm
  apart _ hi _ hj := apart_append hc hd hx hi hj
  passed := passed_append hc hd hx

end

theorem count_flatten_le {ds : List (List Nat)} {i top : Nat} (h : ∀ d ∈ ds, d.count i ≤ top) :
    ds.flatten.count i ≤ ds.length * top := by
  induction ds with
  | nil => simp
  | cons d ds ih =>
    obtain ⟨hd, hds⟩ := List.forall_mem_cons.mp h
    have := ih hds
    rw [List.flatten_cons, List.count_append, List.length_cons, Nat.succ_mul]
    omega

/-- Some word uses a slot most often. -/
theorem exists_max_count {m : MaxOccurs} {ws : List (List String)} {ds : List (List Nat)}
    (h : List.Forall₂ (Fits slots rival m) ws ds) (i : Nat) :
    ∃ top, (top = 0 ∨ ∃ w d, Fits slots rival m w d ∧ d.count i = top) ∧
      ∀ d ∈ ds, d.count i ≤ top := by
  induction h with
  | nil => exact ⟨0, .inl rfl, by simp⟩
  | @cons w d ws ds hw _ ih =>
    obtain ⟨top, htop, hmax⟩ := ih
    by_cases hle : d.count i ≤ top
    · exact ⟨top, htop, List.forall_mem_cons.mpr ⟨hle, hmax⟩⟩
    · exact ⟨d.count i, .inr ⟨w, d, hw, rfl⟩,
        List.forall_mem_cons.mpr ⟨Nat.le_refl _, fun d' hd' =>
          Nat.le_trans (hmax d' hd') (by omega)⟩⟩

/-- A word of the head alone. -/
theorem head (x : Bool) {e : Entry} (es : List Entry) (h : Fits e.slots e.Rival outer w d) :
    Fits (slotsOfEntries (e :: es)) (entriesRival x (e :: es)) outer w d := by
  have hnil : Fits (slotsOfEntries es) (entriesRival x es) outer [] [] := nil
  simpa using h.append hnil fun _ => .inr rfl

/-- A word of the tail alone. -/
theorem tail {x : Bool} (e : Entry) {es : List Entry}
    (h : Fits (slotsOfEntries es) (entriesRival x es) outer w d) :
    Fits (slotsOfEntries (e :: es)) (entriesRival x (e :: es)) outer w
      (d.map (e.slots.length + ·)) := by
  have hnil : Fits e.slots e.Rival outer [] [] := nil
  simpa using hnil.append h fun _ => .inl rfl

/-- Words placed one after the other into the same slots, `m` being a maximum for all of them. Where
more than one may come there are no rivals. -/
theorem flatten {m : MaxOccurs} {ws : List (List String)} {ds : List (List Nat)}
    (h : List.Forall₂ (Fits slots rival m) ws ds)
    (hm : ∀ k, outer.Covers k → m.Covers (k * ws.length))
    (hone : m = .one → ws.length ≤ 1) (hrival : m ≠ .one → ∀ i j, ¬ rival i j) :
    Fits slots rival outer ws.flatten ds.flatten := by
  have hnames : List.Forall₂ (fun n i => ∃ s, slots[i]? = some s ∧ s.name = some n)
      ws.flatten ds.flatten := by
    clear hm hone
    induction h with
    | nil => exact .nil
    | cons hw _ ih => exact List.rel_append hw.names ih
  have hroom : ∀ k, outer.Covers k → ∀ i s b, slots[i]? = some s → s.maximum = some b →
      k * ds.flatten.count i ≤ b ∨ countLimit ≤ b := by
    intro k hk i s b hi hb
    obtain ⟨top, htop, hmax⟩ := exists_max_count h i
    have hle : k * ds.flatten.count i ≤ k * ws.length * top := by
      rw [Nat.mul_assoc, h.length_eq]
      exact Nat.mul_le_mul_left k (count_flatten_le hmax)
    rcases htop with rfl | ⟨w, d, hd, rfl⟩
    · exact .inl (Nat.le_trans hle (Nat.zero_le b))
    · exact (hd.room _ (hm k hk) i s b hi hb).imp_left (Nat.le_trans hle)
  by_cases hm1 : m = .one
  · have hlen := hone hm1
    rcases h with _ | ⟨hw, hrest⟩
    · exact ⟨hnames, hroom, by simp, .nil⟩
    · obtain rfl : _ = [] := List.length_eq_zero_iff.mp (by simpa using hlen)
      cases hrest
      exact ⟨hnames, hroom, by simpa using hw.apart, by simpa using hw.passed⟩
  · exact ⟨hnames, hroom, fun i _ j _ => hrival hm1 i j,
      List.pairwise_of_forall fun t u r j hr => absurd hr (hrival hm1 r j)⟩

end Fits

variable {model : Model}

/-- A group is exclusive iff it is a choice that may occur once. -/
theorem isExclusive_iff (compositor : Schema.Compositor) (minimum : Nat) (m : MaxOccurs)
    (entries : List Entry) :
    Collection.isExclusive ⟨compositorOf compositor, minimum, m.count?, entries⟩ = true ↔
      compositor = .choice ∧ m = .one := by
  have hone : m.count? = some 1 ↔ m = .one := by
    cases m <;> simp [MaxOccurs.count?, MaxOccurs.one]
  simp only [Collection.isExclusive, Bool.and_eq_true, beq_iff_eq, hone]
  cases compositor <;> simp [compositorOf]

mutual

/-- Rivals stand in groups that occur once. -/
theorem SlotsFor.not_rival {outer : MaxOccurs} (ho : outer ≠ .one) :
    ∀ {ps : List Particle} {ss : List MemberSlot}, SlotsFor model outer ps ss →
      ∀ i j, ¬ entriesRival false (slotEntries ss) i j
  | _, _, .nil, _, _, h => h
  | _, _, .prohibited hs, i, j, h => hs.not_rival ho i j h
  | _, _, .cons _ hslot hs, i, j, h => by
    rcases h with ⟨-, -, h⟩ | ⟨hx, -⟩ | ⟨hx, -⟩ | ⟨-, -, h⟩
    · exact hslot.not_rival (fun hm => ho (MaxOccurs.mul_eq_one.mp hm).2) i j h
    · cases hx
    · cases hx
    · exact hs.not_rival ho _ _ h

theorem SlotFor.not_rival {minimum : Nat} {m : MaxOccurs} (hm : m ≠ .one) :
    ∀ {t : Term} {s : MemberSlot}, SlotFor model minimum m t s → ∀ i j, ¬ s.entry.Rival i j
  | _, _, .element _ _, _, _, h => h
  | _, _, .elementRef _ _, _, _, h => h
  | _, _, .group hms, i, j, h => hms.not_rival hm i j h
  | _, _, .groupRef _ hms, i, j, h => hms.not_rival hm i j h
  | _, _, .wildcard, _, _, h => h

theorem MembershipFor.not_rival {minimum : Nat} {m : MaxOccurs} (hm : m ≠ .one) :
    ∀ {g : ModelGroup} {ms : Membership}, MembershipFor model minimum m g ms →
      ∀ i j, ¬ ms.collection.Rival i j
  | _, _, .intro hs, i, j, h => by
    rw [Membership.collection, Collection.Rival,
      Bool.eq_false_iff.mpr fun hx => hm ((isExclusive_iff _ _ _ _).mp hx).2] at h
    exact hs.not_rival hm i j h

end

/-- A name placed into the only slot there is. -/
theorem fits_slot {m : MaxOccurs} (n : String) :
    Fits [⟨some n, m.count?, []⟩] (fun _ _ => False) m [n] [0] where
  names := .cons ⟨_, rfl, rfl⟩ .nil
  room k hk i s b hi hb := by
    obtain rfl : i = 0 := by
      have := (List.getElem?_eq_some_iff.mp hi).1
      simpa using this
    cases hi
    cases m with
    | unbounded => cases hb
    | count a =>
      cases hb
      simpa [MaxOccurs.Covers] using hk
  apart := by simp
  passed := by simp

end XmlBinding.Binding
