import XmlBinding.Tree.Loading

/-! # Several registries act as one

A loader goes through its registries twice, first for an entry of the very name and then for one
that ends with it. This comes to a single look at all their entries in a row.
-/
namespace XmlBinding.Tree

/-- The earliest entry that has some property. -/
def Registry.Earliest (r : Registry) (p : RegistryEntry → Prop) (e : RegistryEntry) : Prop :=
  p e ∧ ∃ before after, r = before ++ e :: after ∧ ∀ x ∈ before, ¬ p x

/-- The name of the type or that of its elements ends with `name`. -/
def RegistryEntry.EndsWith (name : String) (e : RegistryEntry) : Prop :=
  name.toList <:+ e.typeName.toList ∨ name.toList <:+ e.xmlName.toList

/-- The entry that counts for a name: the earliest of this very name or, where there is none, the
earliest that ends with it. -/
inductive Registry.Answers (r : Registry) (name : String) (e : RegistryEntry) : Prop
  | exact (h : r.Earliest (·.xmlName = name) e)
  | suffix (hnone : ∀ x ∈ r, x.xmlName ≠ name) (h : r.Earliest (·.EndsWith name) e)

section
variable {r : Registry} {name : String} {e : RegistryEntry}

theorem RegistryEntry.hasSuffix_iff : e.hasSuffix name = true ↔ e.EndsWith name := by
  simp [hasSuffix, endsWith, EndsWith]

theorem Registry.findExact_eq_some_iff :
    r.findExact name = some e ↔ r.Earliest (·.xmlName = name) e := by
  simp [findExact, Earliest, List.find?_eq_some_iff_append]

theorem Registry.findSuffix_eq_some_iff :
    r.findSuffix name = some e ↔ r.Earliest (·.EndsWith name) e := by
  simp [findSuffix, Earliest, List.find?_eq_some_iff_append, ← RegistryEntry.hasSuffix_iff]

theorem Registry.findExact_eq_none_iff : r.findExact name = none ↔ ∀ x ∈ r, x.xmlName ≠ name := by
  simp [findExact]

theorem Registry.lookup_eq_some_iff : r.lookup name = some e ↔ r.Answers name e := by
  rw [lookup, Option.or_eq_some_iff]
  constructor
  · rintro (h | ⟨hnone, h⟩)
    · exact .exact (findExact_eq_some_iff.mp h)
    · exact .suffix (findExact_eq_none_iff.mp hnone) (findSuffix_eq_some_iff.mp h)
  · rintro (h | ⟨hnone, h⟩)
    · exact .inl (findExact_eq_some_iff.mpr h)
    · exact .inr ⟨findExact_eq_none_iff.mpr hnone, findSuffix_eq_some_iff.mpr h⟩

theorem Registry.lookup_eq_none_iff :
    r.lookup name = none ↔ ∀ x ∈ r, x.xmlName ≠ name ∧ ¬ x.EndsWith name := by
  simp [lookup, findExact, findSuffix, ← RegistryEntry.hasSuffix_iff, forall_and]

/-- Two passes over several lists find what one look-up finds in all of them. -/
theorem lookupAll_eq_lookup (rs : List Registry) (name : String) :
    lookupAll rs name = Registry.lookup rs.flatten name := by
  simp only [lookupAll, Registry.lookup, Registry.findExact, Registry.findSuffix,
    List.find?_flatten]

end

namespace Loader

/-- Every kind that a registry lists exists. -/
def Supplied (l : Loader) : Prop :=
  ∀ r ∈ l.registries, ∀ e ∈ r, ∃ b, l.blueprints.get? e.kind = some b

/-- For a name a loader makes what a single registry of all entries has for it. -/
structure CreatesAsOne (l : Loader) (name : String) : Prop where
  /-- The entry is found that is found in all registries in a row, -/
  lookup : lookupAll l.registries name = Registry.lookup l.registries.flatten name
  /-- which is the earliest of this name or else the earliest that ends with it, -/
  answer : ∀ e, Registry.lookup l.registries.flatten name = some e ↔
    Registry.Answers l.registries.flatten name e
  /-- and the element is made of its kind, as that registry makes it. -/
  made : ∀ e, Registry.Answers l.registries.flatten name e →
    ∃ b, l.blueprints.get? e.kind = some b ∧ ∀ s, l.create name s = .ok (s.create b) ∧
      Registry.create l.registries.flatten l.blueprints name s = some (s.create b)
  /-- Where nothing has or ends with the name, and nowhere else, there is no type for it. -/
  refused : ∀ s, l.create name s = .error (.noCorrespondingType name) ↔
    ∀ e ∈ l.registries.flatten, e.xmlName ≠ name ∧ ¬ e.EndsWith name

theorem createsAsOne {l : Loader} (hl : l.Supplied) (name : String) : l.CreatesAsOne name := by
  have hlookup := lookupAll_eq_lookup l.registries name
  have hmade (e : RegistryEntry) (he : Registry.Answers l.registries.flatten name e) :
      ∃ b, l.blueprints.get? e.kind = some b ∧ ∀ s, l.create name s = .ok (s.create b) ∧
        Registry.create l.registries.flatten l.blueprints name s = some (s.create b) := by
    have hfound := Registry.lookup_eq_some_iff.mpr he
    have hmem : e ∈ l.registries.flatten := by
      rcases he with ⟨-, _, _, hr, -⟩ | ⟨-, -, _, _, hr, -⟩ <;> simp [hr]
    obtain ⟨r, hr, her⟩ := List.mem_flatten.mp hmem
    obtain ⟨b, hb⟩ := hl r hr e her
    refine ⟨b, hb, fun s => ?_⟩
    simp [create, make, Registry.create, hlookup, hfound, hb]
  constructor
  · exact hlookup
  · intro e
    exact Registry.lookup_eq_some_iff
  · exact hmade
  · intro s
    rw [← Registry.lookup_eq_none_iff]
    cases hfound : Registry.lookup l.registries.flatten name with
    | none => simp [create, hlookup, hfound]
    | some e =>
      obtain ⟨b, -, hb⟩ := hmade e (Registry.lookup_eq_some_iff.mp hfound)
      simp [(hb s).1]

/-- Frames that three registries list. -/
def gallery : Loader where
  blueprints := [("Print", "PrintFrame"), ("Plain", "Frame"), ("Gilt", "Frame")].map fun p =>
    (⟨"gallery", p.1⟩, ⟨p.1, p.2, none, none, none, .recorded⟩)
  registries := [[⟨"PrintFrame", "Print", ⟨"gallery", "Print"⟩⟩],
    [⟨"Frame", "PlainElement", ⟨"gallery", "Plain"⟩⟩], [⟨"Frame", "Gilt", ⟨"gallery", "Gilt"⟩⟩]]

/-- A frame is found in the second registry, whatever ends with this name in the first one. -/
theorem createsAsOne_gallery : gallery.Supplied ∧ gallery.CreatesAsOne "Frame" ∧
    gallery.CreatesAsOne "me" ∧ (lookupAll gallery.registries "Frame").map (·.kind.name) =
      some "Plain" ∧ (lookupAll gallery.registries "me").map (·.kind.name) = some "Print" ∧
        lookupAll gallery.registries "Door" = none := by
  have hsupplied : gallery.Supplied := by
    simp [Supplied, gallery, Blueprints.get?]
  exact ⟨hsupplied, createsAsOne hsupplied "Frame", createsAsOne hsupplied "me", by decide,
    by decide, by decide⟩

end Loader

end XmlBinding.Tree
