import XmlBinding.Proofs.Content.Placement

/-! # How placements open branches

If the branches of choices are announced, the name that a placement opens a branch with has no slot
before that branch, unless the branch has no name in common with earlier ones. So elements that go
to the first slot of their name go to the branch that the placement uses.
-/
namespace XmlBinding.Binding
open Schema XmlBinding.Tree

/-- `j` stands in an earlier branch than one that the placement `d` uses, and a slot used there has
the name of `j` too. -/
def Contested (slots : List Slot) (rival : Nat → Nat → Prop) (d : List Nat) (j : Nat) : Prop :=
  ∃ k ∈ d, j < k ∧ rival j k ∧ slotName slots j = slotName slots k

/-- The first slot used beside a contested one has a name that is not among those in `before`, and
that no slot has up to there but other rivals of the contested one. -/
def Opens (slots : List Slot) (rival : Nat → Nat → Prop) (before : String → Prop)
    (d : List Nat) : Prop :=
  ∀ done q rest, d = done ++ q :: rest → ∀ j, Contested slots rival d j → rival j q →
    (∀ t ∈ done, ¬ rival j t) → ∀ name, slotName slots q = some name →
      ¬ before name ∧ ∀ g ≤ q, slotName slots g = some name → rival j g

/-- Whether a slot has this name. -/
def Names (slots : List Slot) (name : String) : Prop := ∃ s ∈ slots, s.name = some name

theorem names_of_slotName {slots : List Slot} {i : Nat} {name : String}
    (h : slotName slots i = some name) : Names slots name := by
  obtain ⟨s, hs, hn⟩ := Option.bind_eq_some_iff.mp h
  exact ⟨s, List.mem_of_getElem? hs, hn⟩

theorem slotName_left {ss ts : List Slot} {i : Nat} (h : i < ss.length) :
    slotName (ss ++ ts) i = slotName ss i := by
  rw [slotName, slotName, List.getElem?_append_left h]

theorem slotName_right {ss ts : List Slot} {i : Nat} (h : ss.length ≤ i) :
    slotName (ss ++ ts) i = slotName ts (i - ss.length) := by
  rw [slotName, slotName, List.getElem?_append_right h]

namespace Opens

variable {slots : List Slot} {rival : Nat → Nat → Prop} {before : String → Prop}

theorem nil : Opens slots rival before [] := by
  intro done q rest h
  cases done <;> cases h

theorem of_not_rival (h : ∀ i j, ¬ rival i j) (d : List Nat) : Opens slots rival before d :=
  fun _ q _ _ j _ hr => absurd hr (h j q)

theorem mono {before' : String → Prop} {d : List Nat} (h : Opens slots rival before' d)
    (hsub : ∀ name, before name → before' name) : Opens slots rival before d := by
  intro done q rest hd j hj hr hfirst name hname
  obtain ⟨hnot, hg⟩ := h done q rest hd j hj hr hfirst name hname
  exact ⟨fun hb => hnot (hsub name hb), hg⟩

/-- Words one after the other, if one at most may come where there are rivals. -/
theorem flatten {m : MaxOccurs} {ws : List (List String)} {ds : List (List Nat)}
    (h : List.Forall₂ (fun _ d => Opens slots rival before d) ws ds)
    (hone : m = .one → ws.length ≤ 1) (hrival : m ≠ .one → ∀ i j, ¬ rival i j) :
    Opens slots rival before ds.flatten := by
  by_cases hm : m = .one
  · rcases h with _ | ⟨hw, hrest⟩
    · exact nil
    · obtain rfl : _ = [] := List.length_eq_zero_iff.mp (by simpa using hone hm)
      cases hrest
      simpa using hw
  · exact of_not_rival (hrival hm) _

/-- A place in the one of two lists or in the other. -/
theorem split_append_map {c d done rest : List Nat} {n q : Nat}
    (h : c ++ d.map (n + ·) = done ++ q :: rest) : (∃ r, c = done ++ q :: r) ∨
      ∃ d₁ q' d₂, d = d₁ ++ q' :: d₂ ∧ done = c ++ d₁.map (n + ·) ∧ q = n + q' := by
  rcases List.append_eq_append_iff.mp h with ⟨a, rfl, hd⟩ | ⟨a, rfl, hd⟩
  · obtain ⟨d₁, d₂, rfl, rfl, h₂⟩ := List.map_eq_append_iff.mp hd
    obtain ⟨q', d₃, rfl, rfl, -⟩ := List.map_eq_cons_iff.mp h₂
    exact .inr ⟨d₁, q', d₃, rfl, rfl, rfl⟩
  · cases a with
    | nil =>
      obtain ⟨q', d₃, rfl, rfl, -⟩ := List.map_eq_cons_iff.mp hd.symm
      exact .inr ⟨[], q', d₃, rfl, by simp, rfl⟩
    | cons q' a =>
      obtain ⟨rfl, -⟩ := List.cons.inj hd
      exact .inl ⟨a, rfl⟩

section
variable {x : Bool} {e : Entry} {es : List Entry} {outer : MaxOccurs} {u v : List String}
  {c d : List Nat} {j q : Nat} {name : String}

/-- What is contested in the head is so by the word of the head. -/
theorem contested_head (hc : Fits e.slots e.Rival outer u c) (hx : x = true → c = [] ∨ d = [])
    (hne : c ≠ []) (hj : j < e.slots.length)
    (h : Contested (slotsOfEntries (e :: es)) (entriesRival x (e :: es))
      (c ++ d.map (e.slots.length + ·)) j) : Contested e.slots e.Rival c j := by
  obtain ⟨k, hk, hjk, hr, hn⟩ := h
  rw [slotsOfEntries, slotName_left hj] at hn
  rcases List.mem_append.mp hk with hk | hk
  · have hkn := hc.lt k hk
    rw [slotName_left hkn] at hn
    rcases hr with ⟨-, -, hr⟩ | ⟨-, -, hnk, -⟩ | ⟨-, -, hnj, -⟩ | ⟨hnj, -, -⟩
    · exact ⟨k, hk, hjk, hr, hn⟩
    all_goals omega
  · obtain ⟨b, hb, rfl⟩ := List.mem_map.mp hk
    rcases hr with ⟨-, hkn, -⟩ | ⟨hxt, -⟩ | ⟨hxt, -⟩ | ⟨hnj, -, -⟩
    · omega
    · exact absurd ((hx hxt).resolve_left hne) (List.ne_nil_of_mem hb)
    · exact absurd ((hx hxt).resolve_left hne) (List.ne_nil_of_mem hb)
    · omega

/-- What is contested in the tail is so by the word of the tail. -/
theorem contested_tail (hc : Fits e.slots e.Rival outer u c) (hj : e.slots.length ≤ j)
    (h : Contested (slotsOfEntries (e :: es)) (entriesRival x (e :: es))
      (c ++ d.map (e.slots.length + ·)) j) :
    Contested (slotsOfEntries es) (entriesRival x es) d (j - e.slots.length) := by
  obtain ⟨k, hk, hjk, hr, hn⟩ := h
  rw [slotsOfEntries, slotName_right hj, slotName_right (by omega)] at hn
  rcases List.mem_append.mp hk with hk | hk
  · have := hc.lt k hk
    omega
  · obtain ⟨b, hb, rfl⟩ := List.mem_map.mp hk
    rw [Nat.add_sub_cancel_left] at hn
    rcases hr with ⟨hjn, -, -⟩ | ⟨-, hjn, -, -⟩ | ⟨-, hkn, -, -⟩ | ⟨-, -, hr⟩
    · omega
    · omega
    · omega
    · exact ⟨b, hb, by omega, by simpa using hr, hn⟩

/-- Where a branch is contested from an earlier one, its word has a name of that one. -/
theorem contested_across (hc : Fits e.slots e.Rival outer u c)
    (hd : Fits (slotsOfEntries es) (entriesRival x es) outer v d) (hcd : c = [] ∨ d = [])
    (hj : j < e.slots.length) (hne : d ≠ [])
    (h : Contested (slotsOfEntries (e :: es)) (entriesRival x (e :: es))
      (c ++ d.map (e.slots.length + ·)) j) : ∃ name ∈ v, Names e.slots name := by
  obtain rfl := hcd.resolve_right hne
  obtain ⟨k, hk, -, -, hn⟩ := h
  obtain ⟨b, hb, rfl⟩ := List.mem_map.mp (by simpa using hk)
  obtain ⟨name, hname, hslot⟩ := hd.exists_name hb
  rw [slotsOfEntries, slotName_left hj, slotName_right (by omega), Nat.add_sub_cancel_left,
    hslot] at hn
  exact ⟨name, hname, names_of_slotName hn⟩

/-- Words of the head and of the tail of some entries, the tail being opened after the head. If the
entries are the branches of an exclusive choice, a word of the tail is announced, or has no name in
common with the head. -/
theorem append (hc : Fits e.slots e.Rival outer u c)
    (hd : Fits (slotsOfEntries es) (entriesRival x es) outer v d)
    (hx : x = true → c = [] ∨ d = []) (oc : Opens e.slots e.Rival before c)
    (od : Opens (slotsOfEntries es) (entriesRival x es)
      (fun name => before name ∨ Names e.slots name) d)
    (hann : x = true → (∀ name ∈ v, ¬ Names e.slots name) ∨
      ∀ name ∈ v.head?, ¬ before name ∧ ¬ Names e.slots name) :
    Opens (slotsOfEntries (e :: es)) (entriesRival x (e :: es)) before
      (c ++ d.map (e.slots.length + ·)) := by
  intro done q rest hsplit j hj hr hfirst name hname
  rcases split_append_map hsplit with ⟨r, rfl⟩ | ⟨d₁, q, d₂, rfl, rfl, rfl⟩
  · -- in the head: so is the contested slot
    have hqn := hc.lt q (by simp)
    rw [slotsOfEntries, slotName_left hqn] at hname
    rcases hr with ⟨hjn, -, hr⟩ | ⟨-, -, hnq, -⟩ | ⟨hxt, -, hnj, -⟩ | ⟨-, hnq, -⟩
    · have hj' := contested_head hc hx (by simp) hjn hj
      obtain ⟨hnot, hg⟩ := oc done q r rfl j hj' hr (fun t ht hr' =>
        hfirst t ht (.inl ⟨hjn, hc.lt t (by simp [ht]), hr'⟩)) name hname
      refine ⟨hnot, fun g hgq hgn => ?_⟩
      have hglt : g < e.slots.length := by omega
      rw [slotsOfEntries, slotName_left hglt] at hgn
      exact .inl ⟨hjn, hglt, hg g hgq hgn⟩
    · omega
    · -- what contests a slot of the tail stands in the tail too
      obtain ⟨k, hk, -⟩ := contested_tail hc hnj hj
      exact (Fits.false_of_mem_of_mem hx (a := q) (by simp) hk hxt).elim
    · omega
  · have hqn := hd.lt q (by simp)
    rw [slotsOfEntries, slotName_right (by omega), Nat.add_sub_cancel_left] at hname
    rcases hr with ⟨-, hqn, -⟩ | ⟨hxt, hjn, -, -⟩ | ⟨-, hqn, -⟩ | ⟨hnj, -, hr⟩
    · omega
    · -- from a branch to a later one, which the word opens with its first name
      have hd₁ : d₁ = [] := List.eq_nil_iff_forall_not_mem.mpr fun t ht => by
        have htn := hd.lt t (by simp [ht])
        exact hfirst (e.slots.length + t) (by simp [ht])
          (.inr (.inl ⟨hxt, hjn, by omega, by omega⟩))
      subst hd₁
      obtain ⟨n, hn, hnames⟩ := contested_across hc hd (hx hxt) hjn (by simp) hj
      obtain ⟨hnot, hfree⟩ := (hann hxt).resolve_left (fun h => h n hn hnames) name
        (hd.head?_eq hname)
      refine ⟨hnot, fun g hgq hgn => ?_⟩
      by_cases hgl : g < e.slots.length
      · rw [slotsOfEntries, slotName_left hgl] at hgn
        exact absurd (names_of_slotName hgn) hfree
      · exact .inr (.inl ⟨hxt, hjn, by omega, by omega⟩)
    · omega
    · have hj' := contested_tail hc hnj hj
      obtain ⟨hnot, hg⟩ := od d₁ q d₂ rfl _ hj' (by simpa using hr) (fun t ht hr' =>
        hfirst (e.slots.length + t) (by simp [ht])
          (.inr (.inr (.inr ⟨hnj, by omega, by simpa using hr'⟩)))) name hname
      refine ⟨fun hb => hnot (.inl hb), fun g hgq hgn => ?_⟩
      by_cases hgl : g < e.slots.length
      · rw [slotsOfEntries, slotName_left hgl] at hgn
        exact absurd (.inr (names_of_slotName hgn)) hnot
      · rw [slotsOfEntries, slotName_right (by omega)] at hgn
        exact .inr (.inr (.inr ⟨hnj, by omega, hg _ (by omega) hgn⟩))

/-- A word of the head alone. -/
theorem head (x : Bool) (es : List Entry) (hc : Fits e.slots e.Rival outer u c)
    (oc : Opens e.slots e.Rival before c) :
    Opens (slotsOfEntries (e :: es)) (entriesRival x (e :: es)) before c := by
  have hnil : Fits (slotsOfEntries es) (entriesRival x es) outer [] [] := .nil
  simpa using append hc hnil (fun _ => .inr rfl) oc nil fun _ => .inl (by simp)

/-- A word of the tail alone. -/
theorem tail (hd : Fits (slotsOfEntries es) (entriesRival x es) outer v d)
    (od : Opens (slotsOfEntries es) (entriesRival x es)
      (fun name => before name ∨ Names e.slots name) d)
    (hann : x = true → (∀ name ∈ v, ¬ Names e.slots name) ∨
      ∀ name ∈ v.head?, ¬ before name ∧ ¬ Names e.slots name) :
    Opens (slotsOfEntries (e :: es)) (entriesRival x (e :: es)) before
      (d.map (e.slots.length + ·)) := by
  have hnil : Fits e.slots e.Rival outer [] [] := .nil
  simpa using append hnil hd (fun _ => .inl rfl) nil od hann

end

end Opens

variable {model : Model}

/-- Whether a particle of a list mentions the name. -/
def MentionedIn (model : Model) (ps : List Particle) (name : String) : Prop :=
  ∃ p ∈ ps, p.Mentions model name

/-- A placement that fits and opens branches with names not mentioned before. -/
structure FitsAfter (model : Model) (before : List Particle) (slots : List Slot)
    (rival : Nat → Nat → Prop) (outer : MaxOccurs) (w : List String) (d : List Nat) : Prop where
  fits : Fits slots rival outer w d
  opens : Opens slots rival (MentionedIn model before) d

theorem fitsAfter_nil {before : List Particle} {slots : List Slot} {rival : Nat → Nat → Prop}
    {outer : MaxOccurs} : FitsAfter model before slots rival outer [] [] :=
  ⟨.nil, .nil⟩

theorem FitsAfter.mono {before before' : List Particle} {slots : List Slot}
    {rival : Nat → Nat → Prop} {outer : MaxOccurs} {w : List String} {d : List Nat}
    (h : FitsAfter model before' slots rival outer w d) (hsub : before ⊆ before') :
    FitsAfter model before slots rival outer w d :=
  ⟨h.fits, h.opens.mono fun _ ⟨p, hp, hpn⟩ => ⟨p, hsub hp, hpn⟩⟩

/-- The slot of a particle has names only that the particle mentions. -/
theorem SlotFor.mentions_of_names {p : Particle} {m : MaxOccurs} {s : MemberSlot}
    (h : SlotFor model p.minimum m p.term s) (hmax : p.maximum ≠ .count 0) {name : String}
    (hn : Names s.entry.slots name) : p.Mentions model name := by
  obtain ⟨minimum, maximum, t⟩ := p
  obtain ⟨slot, hslot, hname⟩ := hn
  exact (h.standsFor hmax slot hslot).mentions hname

section
variable {x : Bool} {outer m : MaxOccurs} {before qs rs ps : List Particle} {p : Particle}
  {w u v : List String} {ss : List MemberSlot} {s : MemberSlot} {c d : List Nat}

theorem FitsAfter.tail (hs : SlotFor model p.minimum m p.term s) (hmax : p.maximum ≠ .count 0)
    (hd : FitsAfter model (before ++ [p]) (slotsOfEntries (slotEntries ss))
      (entriesRival x (slotEntries ss)) outer w d)
    (hann : x = true → (∀ name ∈ w, ¬ p.Mentions model name) ∨
      ∀ name ∈ w.head?, ¬ MentionedIn model (before ++ [p]) name) :
    FitsAfter model before (slotsOfEntries (slotEntries (s :: ss)))
      (entriesRival x (slotEntries (s :: ss))) outer w (d.map (s.entry.slots.length + ·)) := by
  have hmention {name : String} (hn : Names s.entry.slots name) : p.Mentions model name :=
    hs.mentions_of_names hmax hn
  have hin {name : String} (h : MentionedIn model before name ∨ Names s.entry.slots name) :
      MentionedIn model (before ++ [p]) name := by
    rcases h with ⟨q, hq, hqn⟩ | hn
    · exact ⟨q, List.mem_append_left _ hq, hqn⟩
    · exact ⟨p, List.mem_append_right _ List.mem_cons_self, hmention hn⟩
  refine ⟨hd.fits.tail s.entry, Opens.tail hd.fits (hd.opens.mono fun _ => hin) fun hxt => ?_⟩
  refine (hann hxt).imp (fun h name hname hn => h name hname (hmention hn)) fun h name hname => ?_
  exact ⟨fun hb => h name hname (hin (.inl hb)), fun hn => h name hname (hin (.inr hn))⟩

theorem FitsAfter.append (hs : SlotFor model p.minimum m p.term s) (hmax : p.maximum ≠ .count 0)
    (hc : FitsAfter model before s.entry.slots s.entry.Rival outer u c)
    (hd : FitsAfter model (before ++ [p]) (slotsOfEntries (slotEntries ss))
      (entriesRival false (slotEntries ss)) outer v d) :
    FitsAfter model before (slotsOfEntries (slotEntries (s :: ss)))
      (entriesRival false (slotEntries (s :: ss))) outer (u ++ v)
      (c ++ d.map (s.entry.slots.length + ·)) := by
  refine ⟨hc.fits.append hd.fits fun hx => (by cases hx), Opens.append hc.fits hd.fits
    (fun hx => by cases hx) hc.opens (hd.opens.mono fun name h => ?_) fun hx => by cases hx⟩
  rcases h with ⟨q, hq, hqn⟩ | hn
  · exact ⟨q, List.mem_append_left _ hq, hqn⟩
  · exact ⟨p, List.mem_append_right _ List.mem_cons_self, hs.mentions_of_names hmax hn⟩

/-- A word that a branch allows goes to the slot of that branch, if the branch is announced. -/
theorem fits_of_branch (hw : ParticleAllows model p w)
    (ih : ∀ s, p.maximum ≠ .count 0 → SlotFor model p.minimum (p.maximum.mul outer) p.term s →
      ∃ d, FitsAfter model (before ++ qs) s.entry.slots s.entry.Rival outer w d)
    (hann : x = true → (∀ q ∈ qs, q.DisjointFrom model p) ∨
      ∀ name v, ParticleAllows model p (name :: v) → ¬ MentionedIn model (before ++ qs) name)
    (hss : SlotsFor model outer (qs ++ p :: rs) ss) :
    ∃ d, FitsAfter model before (slotsOfEntries (slotEntries ss))
      (entriesRival x (slotEntries ss)) outer w d := by
  induction qs generalizing before ss with
  | nil =>
    rw [List.append_nil] at ih
    cases hss with
    | prohibited =>
      rw [eq_nil_of_prohibited hw]
      exact ⟨[], fitsAfter_nil⟩
    | @cons _ _ _ _ _ s ss hmax hslot =>
      obtain ⟨d, hd⟩ := ih s hmax hslot
      exact ⟨d, hd.fits.head x (slotEntries ss), hd.opens.head x (slotEntries ss) hd.fits⟩
  | cons q qs ihq =>
    rw [List.append_cons] at ih
    have hann' (hx : x = true) : (∀ r ∈ qs, r.DisjointFrom model p) ∨ ∀ name v,
        ParticleAllows model p (name :: v) → ¬ MentionedIn model (before ++ [q] ++ qs) name := by
      rw [← List.append_cons]
      exact (hann hx).imp_left fun h r hr => h r (List.mem_cons_of_mem _ hr)
    cases hss with
    | prohibited h =>
      obtain ⟨d, hd⟩ := ihq ih hann' h
      exact ⟨d, hd.mono (List.subset_append_left _ _)⟩
    | @cons _ _ _ _ _ s ss hmax hslot h =>
      obtain ⟨d, hd⟩ := ihq ih hann' h
      refine ⟨_, FitsAfter.tail (p := ⟨_, _, _⟩) hslot hmax hd fun hx => ?_⟩
      refine (hann hx).imp (fun hdisjoint name hname hq => ?_) fun hfresh name hname hb => ?_
      · exact hdisjoint _ List.mem_cons_self name hq (hw.mentions hname)
      · cases w with
        | nil => cases hname
        | cons n v =>
          obtain rfl : n = name := by simpa using hname
          obtain ⟨r, hr, hrn⟩ := hb
          refine hfresh n v hw ⟨r, ?_, hrn⟩
          rw [List.append_cons]
          exact List.mem_append_left _ hr

end

theorem exists_placements {P : List String → List Nat → Prop} {ws : List (List String)}
    (h : ∀ w ∈ ws, ∃ d, P w d) : ∃ ds, List.Forall₂ P ws ds := by
  induction ws with
  | nil => exact ⟨[], .nil⟩
  | cons w ws ih =>
    obtain ⟨⟨d, hd⟩, hws⟩ := List.forall_mem_cons.mp h
    obtain ⟨ds, hds⟩ := ih hws
    exact ⟨d :: ds, .cons hd hds⟩

/-- Words of a term one after the other. -/
theorem FitsAfter.flatten {outer m : MaxOccurs} {before : List Particle} {slots : List Slot}
    {rival : Nat → Nat → Prop} {ws : List (List String)} {ds : List (List Nat)}
    (h : List.Forall₂ (FitsAfter model before slots rival m) ws ds)
    (hm : ∀ k, outer.Covers k → m.Covers (k * ws.length))
    (hone : m = .one → ws.length ≤ 1) (hrival : m ≠ .one → ∀ i j, ¬ rival i j) :
    FitsAfter model before slots rival outer ws.flatten ds.flatten :=
  ⟨Fits.flatten (h.imp fun _ _ h => h.fits) hm hone hrival,
    Opens.flatten (h.imp fun _ _ h => h.opens) hone hrival⟩

mutual

/-- Every allowed word has a placement that opens branches as announced. -/
theorem fits_of_term {outer maximum m : MaxOccurs} {minimum : Nat} {before : List Particle}
    (hm : m = maximum.mul outer) (hmax : maximum ≠ .count 0) :
    ∀ {t : Term} {w : List String}, TermAllows model t w →
      BranchesAnnounced model outer before [⟨minimum, maximum, t⟩] → ∀ {s : MemberSlot},
        SlotFor model minimum m t s → ∃ d, FitsAfter model before s.entry.slots s.entry.Rival m w d
  | _, _, .element d, _, _, .element _ _ =>
    ⟨_, fits_slot d.name, .of_not_rival (fun _ _ h => h) _⟩
  | _, _, .elementRef name, _, _, .elementRef _ _ =>
    ⟨_, fits_slot name, .of_not_rival (fun _ _ h => h) _⟩
  | _, _, .group h, hb, _, .group hms => by
    subst hm
    exact fits_of_group h (hb.inside (meets_group minimum hmax))
      (hb _ _ _ (meets_group minimum hmax)) hms
  | _, _, .groupRef hd h, hb, _, .groupRef hd' hms => by
    obtain rfl := Option.some.inj (hd.symm.trans hd')
    subst hm
    exact fits_of_group h (hb.inside (meets_groupRef minimum hmax hd))
      (hb _ _ _ (meets_groupRef minimum hmax hd)) hms

theorem fits_of_group {m : MaxOccurs} {minimum : Nat} {before : List Particle} :
    ∀ {g : ModelGroup} {w : List String}, GroupAllows model g w →
      BranchesAnnounced model m before g.particles →
      (g.compositor = .choice → m = .one → g.Announced model before) → ∀ {ms : Membership},
        MembershipFor model minimum m g ms →
          ∃ d, FitsAfter model before ms.collection.slots ms.collection.Rival m w d
  | _, _, .sequence h, hb, _, _, .intro hs => fits_of_sequence h hb hs
  | _, _, @GroupAllows.choice _ ps p _ hp h, hb, hg, _, .intro hs => by
    obtain ⟨qs, rs, rfl⟩ := List.append_of_mem hp
    have hb' : BranchesAnnounced model m (before ++ qs) [p] := hb.drop.head
    refine fits_of_branch h (fun s hmax hslot => fits_of_particle h hb' hmax hslot)
      (fun hx => ?_) hs
    obtain ⟨-, hone⟩ := (isExclusive_iff _ _ _ _).mp hx
    exact (hg rfl hone qs p rs rfl).imp_right fun h name v hv ⟨q, hq, hqn⟩ => h name v hv q hq hqn

theorem fits_of_sequence {outer : MaxOccurs} {before : List Particle} :
    ∀ {ps : List Particle} {w : List String}, SequenceAllows model ps w →
      BranchesAnnounced model outer before ps → ∀ {ss : List MemberSlot},
        SlotsFor model outer ps ss → ∃ d, FitsAfter model before
          (slotsOfEntries (slotEntries ss)) (entriesRival false (slotEntries ss)) outer w d
  | _, _, .nil, _, _, .nil => ⟨[], fitsAfter_nil⟩
  | _, _, .cons h hs, hb, _, .prohibited hss => by
    rw [eq_nil_of_prohibited h]
    obtain ⟨d, hd⟩ := fits_of_sequence hs hb.tail hss
    exact ⟨d, hd.mono (List.subset_append_left _ _)⟩
  | _, _, .cons h hs, hb, _, .cons hmax hslot hss => by
    obtain ⟨c, hc⟩ := fits_of_particle h hb.head hmax hslot
    obtain ⟨d, hd⟩ := fits_of_sequence hs hb.tail hss
    exact ⟨_, FitsAfter.append (p := ⟨_, _, _⟩) hslot hmax hc hd⟩

theorem fits_of_particle {outer : MaxOccurs} {before : List Particle} :
    ∀ {p : Particle} {w : List String}, ParticleAllows model p w →
      BranchesAnnounced model outer before [p] → p.maximum ≠ .count 0 → ∀ {s : MemberSlot},
        SlotFor model p.minimum (p.maximum.mul outer) p.term s →
          ∃ d, FitsAfter model before s.entry.slots s.entry.Rival outer w d
  | ⟨_, maximum, _⟩, _, .repeated _ hadmits h, hb, hmax, s, hslot => by
    obtain ⟨ds, hds⟩ := exists_placements fun w hw => fits_of_term rfl hmax (h w hw) hb hslot
    refine ⟨_, FitsAfter.flatten hds (fun k hk => MaxOccurs.covers_mul hmax hk hadmits)
      (fun hone => ?_) fun hone => hslot.not_rival hone⟩
    obtain rfl := (MaxOccurs.mul_eq_one.mp hone).1
    exact hadmits

end

/-- Whether branches are announced depends on the maximum around them only as far as that is 1. -/
theorem exists_meets_of_one {outer outer' m : MaxOccurs} {before before' ps : List Particle}
    {g : ModelGroup} (h : Meets model outer before ps g m before')
    (ho : outer = .one → outer' = .one) :
    ∃ m', Meets model outer' before ps g m' before' ∧ (m = .one → m' = .one) := by
  induction h generalizing outer' with
  | group hmax =>
    refine ⟨_, .group hmax, fun hm => ?_⟩
    obtain ⟨h, h'⟩ := MaxOccurs.mul_eq_one.mp hm
    exact MaxOccurs.mul_eq_one.mpr ⟨h, ho h'⟩
  | groupRef hmax hd =>
    refine ⟨_, .groupRef hmax hd, fun hm => ?_⟩
    obtain ⟨h, h'⟩ := MaxOccurs.mul_eq_one.mp hm
    exact MaxOccurs.mul_eq_one.mpr ⟨h, ho h'⟩
  | inside _ _ ih ih' =>
    obtain ⟨m, hm, hone⟩ := ih ho
    obtain ⟨m', hm', hone'⟩ := ih' hone
    exact ⟨m', hm.inside hm', hone'⟩

theorem branchesAnnounced_of_one {outer outer' : MaxOccurs} {before ps : List Particle}
    (h : BranchesAnnounced model outer before ps) (ho : outer' = .one → outer = .one) :
    BranchesAnnounced model outer' before ps := by
  intro g m before' hg hc hm
  obtain ⟨m', hg', hone⟩ := exists_meets_of_one hg ho
  exact h g m' before' hg' hc (hone hm)

/-- Every word that a content model allows has a placement into the slots of its membership. -/
theorem ContentMembership.fits {ps : List Particle} {ms : Membership} {w : List String}
    (h : ContentMembership model ps (some ms)) (hb : BranchesAnnounced model .one [] ps)
    (hw : SequenceAllows model ps w) :
    ∃ d, FitsAfter model [] ms.collection.slots ms.collection.Rival .one w d := by
  cases h with
  | @group minimum maximum g _ hps hms =>
    obtain ⟨hp, hmax⟩ := mem_of_filter_eq_singleton hps
    obtain ⟨qs, rs, rfl⟩ := List.append_of_mem hp
    have hw := SequenceAllows.filter hw
    rw [hps] at hw
    obtain @⟨⟩ | @⟨_, _, _, _, hp, ⟨⟩⟩ := hw
    obtain ⟨_, hadmits, hterm⟩ := hp
    rw [List.append_nil]
    have hmeets : Meets model .one [] (qs ++ ⟨minimum, maximum, .group g⟩ :: rs) g
      (maximum.mul .one) qs := .group hmax
    have hone : maximum = .one → maximum.mul .one = .one := fun h =>
      MaxOccurs.mul_eq_one.mpr ⟨h, rfl⟩
    obtain ⟨ds, hds⟩ := exists_placements fun w hw => by
      obtain ⟨⟩ | ⟨⟩ | ⟨hgroup⟩ | ⟨⟩ := hterm w hw
      exact fits_of_group hgroup (branchesAnnounced_of_one (hb.inside hmeets) hone)
        (fun hc hm => hb _ _ _ hmeets hc (hone hm)) hms
    refine ⟨_, (FitsAfter.flatten hds (fun k hk => MaxOccurs.covers_of_admits hk hadmits)
      (fun hone => ?_) hms.not_rival).mono (List.nil_subset _)⟩
    subst hone
    exact hadmits
  | sequence hs => exact fits_of_sequence hw hb hs

end XmlBinding.Binding
