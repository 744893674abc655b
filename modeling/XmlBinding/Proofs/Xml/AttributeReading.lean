import XmlBinding.Proofs.Xml.AttributeOrder

/-! # Attributes are read in any order

What a start tag declares and the attributes it has do not depend on the order in which they are
written. References to entities are counted, and each attribute adds its own to the count. So
builders that take in tokens with their attributes in another order stay alike, or both fail.
-/
namespace XmlBinding.Xml

/-! ### The count of references -/

/-- Counts `n` references. -/
def charge (levels : Nat) : Nat → Nat → Option Nat
  | 0, count => some count
  | n + 1, count => (countReference levels count).bind (charge levels n)

/-- Outside of entities nothing has been counted. -/
def Steady (levels count : Nat) : Prop := levels = entityLevels → count = 0

/-- Some text is read, or not, whatever the count is, and adds to it what it costs. -/
def Priced (levels : Nat) (f : Nat → Option (List Char × Nat)) : Prop :=
  ∃ o : Option (List Char × Nat), ∀ count, Steady levels count →
    f count = o.bind fun p => (charge levels p.2 count).map (p.1, ·)

section
variable {levels count c m n : Nat} {f g : Nat → Option (List Char × Nat)}

theorem charge_add (levels m n count : Nat) :
    charge levels (m + n) count = (charge levels m count).bind (charge levels n) := by
  induction m generalizing count with
  | zero => rw [Nat.zero_add]; rfl
  | succ m ih =>
    rw [Nat.succ_add, charge, charge, Option.bind_assoc]
    exact congrArg _ (funext ih)

theorem charge_outermost (n count : Nat) : charge entityLevels n count = some count := by
  induction n with
  | zero => rfl
  | succ n ih => exact ih

/-- Inside of entities the level makes no difference. -/
theorem charge_inside {levels levels' : Nat} (h : levels ≠ entityLevels)
    (h' : levels' ≠ entityLevels) (n count : Nat) :
    charge levels n count = charge levels' n count := by
  have hcount : countReference levels = countReference levels' := by
    funext count
    rw [countReference, countReference, if_neg h, if_neg h']
  induction n generalizing count with
  | zero => rfl
  | succ n ih =>
    rw [charge, charge, hcount]
    exact congrArg _ (funext ih)

theorem Steady.charge (h : Steady levels count) (hc : charge levels n count = some c) :
    Steady levels c := by
  rintro rfl
  rw [charge_outermost] at hc
  exact Option.some.inj hc ▸ h rfl

/-- Characters without a reference to an entity cost nothing. -/
theorem priced_map (levels : Nat) (o : Option (List Char)) :
    Priced levels fun count => o.map (·, count) := by
  refine ⟨o.map (·, 0), fun count _ => ?_⟩
  cases o <;> rfl

/-- One text after the other, as they are read. -/
def followedBy (f g : Nat → Option (List Char × Nat)) (count : Nat) : Option (List Char × Nat) := do
  let (s, count) ← f count
  let (rest, count) ← g count
  some (s ++ rest, count)

theorem Priced.followedBy (hf : Priced levels f) (hg : Priced levels g) :
    Priced levels (followedBy f g) := by
  obtain ⟨o, ho⟩ := hf
  obtain ⟨q, hq⟩ := hg
  refine ⟨o.bind fun p => q.map fun r => (p.1 ++ r.1, p.2 + r.2), fun count hcount => ?_⟩
  rw [Xml.followedBy, ho count hcount]
  cases o with
  | none => rfl
  | some p =>
    cases hc : charge levels p.2 count with
    | none => cases q <;> simp [hc, charge_add]
    | some c =>
      have hg := hq c (hcount.charge hc)
      cases q with
      | none => simp [hc, hg]
      | some r => cases hr : charge levels r.2 c <;> simp [hc, hg, hr, charge_add]

theorem priced_attributeOfItems (inside : Bool) {entity : String → Nat → Option (List Char × Nat)}
    (h : ∀ name, Priced levels (entity name)) (items : List TextItem) :
    Priced levels (attributeOfItems inside entity items) := by
  induction items with
  | nil => exact priced_map levels (some [])
  | cons item items ih =>
    obtain ⟨first, hfirst, heq⟩ : ∃ first, Priced levels first ∧
        attributeOfItems inside entity (item :: items) =
          followedBy first (attributeOfItems inside entity items) := by
      cases item with
      | entity name => exact ⟨entity name, h name, rfl⟩
      | char c =>
        obtain ⟨next, hnext⟩ : ∃ next, attributeOfItems inside entity (.char c :: items) =
            followedBy (fun count => (if inside && c == '<' then none
              else some (attributeChar c next).toList).map (·, count))
              (attributeOfItems inside entity items) := by
          apply Exists.intro
          funext count
          simp only [attributeOfItems, followedBy]
          split <;> rfl
        exact ⟨_, priced_map levels _, hnext⟩
      | reference c =>
        refine ⟨_, priced_map levels (if !inside then some [c] else if c == '<' then none
          else some (attributeChar c none).toList), ?_⟩
        funext count
        simp only [attributeOfItems, followedBy]
        split
        · rfl
        · split <;> rfl
    rw [heq]
    exact hfirst.followedBy ih

/-- An entity costs what its text costs and the reference to it, but nothing when it is left. -/
theorem priced_entity {levels : Nat} (hlevels : levels < entityLevels)
    (h : Priced levels f) :
    Priced (levels + 1) fun count => do
      let count ← countReference (levels + 1) count
      let (chars, count) ← f count
      return (chars, countAfter (levels + 1) count) := by
  obtain ⟨o, ho⟩ := h
  have ho (count : Nat) := ho count fun heq => absurd heq hlevels.ne
  by_cases hlast : levels + 1 = entityLevels
  · refine ⟨o.bind fun p => (charge levels p.2 0).map fun _ => (p.1, 0), fun count hcount => ?_⟩
    obtain rfl := hcount hlast
    have hcount : countReference (levels + 1) 0 = some 0 := if_pos hlast
    simp only [hcount, bind, Option.bind_some, ho]
    cases o with
    | none => rfl
    | some p =>
      cases hc : charge levels p.2 0 <;> simp [hc, countAfter, hlast, charge]
  · refine ⟨o.map fun p => (p.1, p.2 + 1), fun count _ => ?_⟩
    have hafter (count : Nat) : countAfter (levels + 1) count = count := if_neg hlast
    have hcharge (n count : Nat) : charge levels n count = charge (levels + 1) n count :=
      charge_inside hlevels.ne hlast n count
    simp only [bind, ho, hcharge, hafter]
    cases hc : countReference (levels + 1) count with
    | none => cases o <;> simp [charge, hc]
    | some c =>
      cases o with
      | none => rfl
      | some p =>
        cases hp : charge (levels + 1) p.2 c <;> simp [charge, hc, hp]

/-- The value of an attribute does not depend on what has been counted before it. -/
theorem priced_attributeValue (entities : List Entity) {levels : Nat} (h : levels ≤ entityLevels)
    (raw : List Char) : Priced levels (attributeValue entities levels raw) := by
  have hnone (levels : Nat) : Priced levels fun _ => none := priced_map levels none
  induction levels generalizing raw with
  | zero =>
    cases hitems : textItems raw with
    | none => simpa [attributeValue, hitems] using hnone 0
    | some items =>
      have hpriced := priced_attributeOfItems true (fun _ => hnone 0) items
      simpa [attributeValue, hitems] using hpriced
  | succ levels ih =>
    cases hitems : textItems raw with
    | none => simpa [attributeValue, hitems] using hnone (levels + 1)
    | some items =>
      have hentity (name : String) : Priced (levels + 1) fun count => do
          let value ← findEntity entities name
          let count ← countReference (levels + 1) count
          let (chars, count) ← attributeValue entities levels value count
          return (chars, countAfter (levels + 1) count) := by
        cases findEntity entities name with
        | none => exact hnone _
        | some value => exact priced_entity h (ih (Nat.le_of_lt h) value)
      have hpriced := priced_attributeOfItems (levels + 1 != entityLevels) hentity items
      simpa [attributeValue, hitems] using hpriced

end

/-! ### What a start tag declares -/

namespace Declared

def prefixes (d : Declared) : List (Option String) := d.bindings.map (·.1)

@[simp] theorem prefixes_nil (attributes : List (String × String × String)) :
    prefixes ⟨[], attributes⟩ = [] := rfl

@[simp] theorem prefixes_singleton (b : Option String × String)
    (attributes : List (String × String × String)) : prefixes ⟨[b], attributes⟩ = [b.1] := rfl

/-- What a single attribute declares: nothing that is not known anyway, one prefix, or itself.
Reserved prefixes and namespaces are refused. -/
def single (pfx localName value : String) : Option Declared :=
  if pfx == "xmlns" then
    if value == xmlnsUri || (localName == "xml") != (value == xmlUri) then none
    else if value == xmlUri then some ⟨[], []⟩
    else some ⟨[(some localName, value)], []⟩
  else if localName == "xmlns" then
    if value == xmlUri || value == xmlnsUri then none else some ⟨[(none, value)], []⟩
  else some ⟨[], [(pfx, localName, value)]⟩

def append (d e : Declared) : Declared :=
  ⟨d.bindings ++ e.bindings, d.attributes ++ e.attributes⟩

@[simp] theorem prefixes_append (d e : Declared) :
    (d.append e).prefixes = d.prefixes ++ e.prefixes := List.map_append

theorem append_assoc (d e f : Declared) : (d.append e).append f = d.append (e.append f) := by
  simp [append]

/-- All that several attributes declare. -/
def all : List Declared → Declared
  | [] => ⟨[], []⟩
  | d :: ds => d.append (all ds)

/-- No prefix is bound twice, and the reserved one is not bound. -/
structure Sound (d : Declared) : Prop where
  nodup : d.prefixes.Nodup
  reserved : some "xml" ∉ d.prefixes

variable {d : Declared} {pfx localName value : String}

theorem any_bindings (d : Declared) (pfx : Option String) :
    d.bindings.any (·.1 == pfx) = decide (pfx ∈ d.prefixes) := by
  rw [Bool.eq_iff_iff, List.any_eq_true, decide_eq_true_eq, prefixes, List.mem_map]
  simp only [beq_iff_eq]

/-- What an attribute declares is added, unless it binds a prefix that is bound. -/
theorem add_eq (h : some "xml" ∉ d.prefixes) (pfx localName value : String) :
    d.add pfx localName value = (single pfx localName value).bind fun e =>
      if ∃ p ∈ e.prefixes, p ∈ d.prefixes then none else some (d.append e) := by
  rw [add, single, any_bindings, any_bindings]
  split
  · cases hrefused : value == xmlnsUri || (localName == "xml") != (value == xmlUri) with
    | true => rfl
    | false =>
      cases hvalue : value == xmlUri with
      | true =>
        obtain rfl : localName = "xml" := by
          rw [hvalue] at hrefused
          simp_all
        simp [h, append]
      | false =>
        by_cases hbound : some localName ∈ d.prefixes <;> simp [hbound, append]
  · split
    · cases hrefused : value == xmlUri || value == xmlnsUri with
      | true => rfl
      | false => by_cases hbound : none ∈ d.prefixes <;> simp [hbound, append]
    · simp [append]

theorem sound_single {e : Declared} (h : single pfx localName value = some e) : e.Sound := by
  unfold single at h
  split at h
  · split at h
    · cases h
    · next hok =>
      split at h
      · obtain rfl := Option.some.inj h
        exact ⟨List.nodup_nil, by simp⟩
      · next hvalue =>
        obtain rfl := Option.some.inj h
        refine ⟨by simp, ?_⟩
        rw [prefixes_singleton, List.mem_singleton]
        rintro ⟨rfl⟩
        simp [hvalue] at hok
  · split at h
    · split at h
      · cases h
      · obtain rfl := Option.some.inj h
        exact ⟨by simp, by simp⟩
    · obtain rfl := Option.some.inj h
      exact ⟨List.nodup_nil, by simp⟩

/-- Reads one attribute of a start tag. -/
def read (entities : List Entity) (levels : Nat) (s : Declared × Nat) (a : RawAttribute) :
    Option (Declared × Nat) := do
  let (value, count) ← attributeValue entities levels a.value s.2
  let d ← s.1.add a.pfx a.localName (String.ofList value)
  some (d, count)

/-- What attributes declare, and what that costs. -/
structure Prices (entities : List Entity) (levels : Nat)
    (price : RawAttribute → Option (Declared × Nat)) : Prop where
  sound : ∀ a, ∀ e ∈ price a, e.1.Sound
  read : ∀ (d : Declared) (count : Nat), d.Sound → Steady levels count → ∀ a,
    read entities levels (d, count) a = (price a).bind fun e =>
      (charge levels e.2 count).bind fun c =>
        if ∃ p ∈ e.1.prefixes, p ∈ d.prefixes then none else some (d.append e.1, c)

theorem exists_prices (entities : List Entity) {levels : Nat} (h : levels ≤ entityLevels) :
    ∃ price, Prices entities levels price := by
  choose o ho using priced_attributeValue entities h
  refine ⟨fun a => (o a.value).bind fun p =>
    (single a.pfx a.localName (String.ofList p.1)).map (·, p.2), ?_, fun d count hd hcount a => ?_⟩
  · intro a e he
    obtain ⟨p, -, hp⟩ := Option.bind_eq_some_iff.mp he
    obtain ⟨d, hd, rfl⟩ := Option.map_eq_some_iff.mp hp
    exact sound_single hd
  · rw [Declared.read, ho a.value count hcount]
    cases o a.value with
    | none => rfl
    | some p =>
      have hadd := add_eq hd.reserved a.pfx a.localName (String.ofList p.1)
      simp only [Option.bind_some]
      generalize single a.pfx a.localName (String.ofList p.1) = declared at hadd
      cases hc : charge levels p.2 count with
      | none => cases declared <;> simp [hc]
      | some c =>
        cases declared with
        | none => simp [hadd]
        | some e =>
          by_cases hbound : ∃ q ∈ e.prefixes, q ∈ d.prefixes
          · simp [hadd, hc, if_pos hbound]
          · simp [hadd, hc, if_neg hbound]

theorem Sound.append (hd : d.Sound) {e : Declared} (he : e.Sound)
    (h : ¬ ∃ p ∈ e.prefixes, p ∈ d.prefixes) : (d.append e).Sound := by
  refine ⟨?_, ?_⟩
  · rw [prefixes_append, List.nodup_append]
    exact ⟨hd.nodup, he.nodup, fun p hp q hq heq => h ⟨q, hq, heq ▸ hp⟩⟩
  · rw [prefixes_append, List.mem_append, not_or]
    exact ⟨hd.reserved, he.reserved⟩

/-- All attributes of a tag are read if each can be read for itself, there are not too many
references, and no prefix is bound twice. -/
theorem Prices.foldlM_read {entities : List Entity} {levels : Nat}
    {price : RawAttribute → Option (Declared × Nat)} (h : Prices entities levels price)
    (attributes : List RawAttribute) (hd : d.Sound) {count : Nat} (hcount : Steady levels count) :
    attributes.foldlM (Declared.read entities levels) (d, count) =
      (attributes.mapM price).bind fun es =>
        (charge levels ((es.map (·.2)).foldr (· + ·) 0) count).bind fun c =>
          if (d.prefixes ++ (all (es.map (·.1))).prefixes).Nodup then
            some (d.append (all (es.map (·.1))), c)
          else none := by
  induction attributes generalizing d count with
  | nil => simp [charge, all, append, hd.nodup]
  | cons a attributes ih =>
    rw [List.foldlM_cons, h.read d count hd hcount, List.mapM_cons]
    cases he : price a with
    | none => rfl
    | some e =>
      cases hc : charge levels e.2 count with
      | none => cases attributes.mapM price <;> simp [hc, charge_add]
      | some c =>
        by_cases hbound : ∃ p ∈ e.1.prefixes, p ∈ d.prefixes
        · have htwice (es : List Declared) :
              ¬ (d.prefixes ++ (all (e.1 :: es)).prefixes).Nodup := by
            obtain ⟨p, hp, hpd⟩ := hbound
            rw [List.nodup_append]
            exact fun hn => hn.2.2 p hpd p (by simp [all, hp]) rfl
          cases attributes.mapM price with
          | none => simp [hc, if_pos hbound]
          | some es => simp [hc, if_pos hbound, charge_add, htwice]
        · have ih := ih (hd.append (h.sound a e he) hbound) (hcount.charge hc)
          simp only [bind, Option.bind_some, hc, if_neg hbound, ih]
          cases attributes.mapM price with
          | none => rfl
          | some es => simp [hc, charge_add, all, append_assoc]

theorem bindings_all (ds : List Declared) : (all ds).bindings = ds.flatMap (·.bindings) := by
  induction ds with
  | nil => rfl
  | cons d ds ih => rw [all, append, List.flatMap_cons, ih]

theorem attributes_all (ds : List Declared) : (all ds).attributes = ds.flatMap (·.attributes) := by
  induction ds with
  | nil => rfl
  | cons d ds ih => rw [all, append, List.flatMap_cons, ih]

/-- The same declarations and attributes in some order. -/
structure Alike (d d' : Declared) : Prop where
  nodup : d.prefixes.Nodup
  bindings : d.bindings.Perm d'.bindings
  attributes : d.attributes.Perm d'.attributes

/-- The order of attributes makes no difference to what is declared. -/
theorem foldlM_read_perm (entities : List Entity) {levels count : Nat} (h : levels ≤ entityLevels)
    (hcount : Steady levels count) {attributes attributes' : List RawAttribute}
    (hperm : attributes.Perm attributes') :
    Option.Rel (fun p p' => p.1.Alike p'.1 ∧ p.2 = p'.2 ∧ Steady levels p.2)
      (attributes.foldlM (Declared.read entities levels) (⟨[], []⟩, count))
      (attributes'.foldlM (Declared.read entities levels) (⟨[], []⟩, count)) := by
  obtain ⟨price, hprice⟩ := exists_prices entities h
  have hsound : Sound ⟨[], []⟩ := ⟨List.nodup_nil, by simp⟩
  rw [hprice.foldlM_read attributes hsound hcount, hprice.foldlM_read attributes' hsound hcount]
  refine optionRel_bind (mapM_perm price hperm) fun es es' hes => ?_
  have hbindings : (all (es.map (·.1))).bindings.Perm (all (es'.map (·.1))).bindings := by
    rw [bindings_all, bindings_all]
    exact (hes.map _).flatMap_right _
  have hattributes : (all (es.map (·.1))).attributes.Perm (all (es'.map (·.1))).attributes := by
    rw [attributes_all, attributes_all]
    exact (hes.map _).flatMap_right _
  have hprefixes : (all (es.map (·.1))).prefixes.Perm (all (es'.map (·.1))).prefixes :=
    hbindings.map _
  rw [(hes.map _).foldr_eq]
  cases hc : charge levels ((es'.map (·.2)).foldr (· + ·) 0) count with
  | none => exact .none
  | some c =>
    have hiff := (hprefixes.append_left (prefixes ⟨[], []⟩)).nodup_iff
    rw [Option.bind_some, Option.bind_some]
    by_cases hnodup : (prefixes ⟨[], []⟩ ++ (all (es.map (·.1))).prefixes).Nodup
    · rw [if_pos hnodup, if_pos (hiff.mp hnodup)]
      exact .some ⟨⟨hnodup, hbindings, hattributes⟩, rfl, hcount.charge hc⟩
    · rw [if_neg hnodup, if_neg (mt hiff.mpr hnodup)]
      exact .none

end Declared

/-! ### Names in a scope -/

/-- Scopes in which every prefix stands for the same. -/
def Scope.Alike (scope scope' : Scope) : Prop := ∀ pfx, scope.lookup pfx = scope'.lookup pfx

section
variable {scope scope' own own' : Scope}

theorem lookup_eq_some_iff (h : (own.map (·.1)).Nodup) {pfx : Option String} {uri : String} :
    own.lookup pfx = some uri ↔ (pfx, uri) ∈ own := by
  induction own with
  | nil => simp [Scope.lookup]
  | cons b own ih =>
    rw [List.map_cons, List.nodup_cons] at h
    rw [Scope.lookup] at ih ⊢
    by_cases hb : b.1 = pfx
    · have hother : (pfx, uri) ∉ own := fun hmem => h.1 (hb ▸ List.mem_map_of_mem hmem)
      rw [List.find?_cons_of_pos (by simpa using hb), Option.map_some, Option.some.injEq,
        List.mem_cons, or_iff_left hother, ← hb, Prod.ext_iff]
      simp [eq_comm]
    · have hne : (pfx, uri) ≠ b := fun heq => hb (heq ▸ rfl)
      rw [List.find?_cons_of_neg (by simpa using hb), ih h.2, List.mem_cons, or_iff_right hne]

theorem lookup_inner (own outer : Scope) (pfx : Option String) :
    (own.inner outer).lookup pfx = (own.lookup pfx).or (outer.lookup pfx) := by
  rw [Scope.lookup, Scope.inner, List.find?_append, Scope.lookup, Scope.lookup]
  cases hfind : own.find? (·.1 == pfx) with
  | some b => rfl
  | none =>
    have hhidden : (outer.filter fun b => !own.any (·.1 == b.1)).find? (·.1 == pfx) =
        outer.find? (·.1 == pfx) := by
      rw [List.find?_filter]
      refine congrArg (List.find? · outer) (funext fun b => ?_)
      by_cases hb : b.1 = pfx
      · have hnone : own.any (·.1 == b.1) = false := by
          rw [hb, List.any_eq_false]
          exact List.find?_eq_none.mp hfind
        rw [hnone]
        simp only [Bool.not_false, true_and, Bool.decide_eq_true]
      · simp [hb]
    rw [hhidden]
    rfl

/-- Declarations in another order, around them scopes that are alike. -/
theorem Scope.Alike.inner (h : scope.Alike scope') (hnodup : (own.map (·.1)).Nodup)
    (hperm : own.Perm own') : Scope.Alike (own.inner scope) (own'.inner scope') := by
  intro pfx
  have hown : own.lookup pfx = own'.lookup pfx := by
    refine Option.ext fun uri => ?_
    rw [lookup_eq_some_iff hnodup, lookup_eq_some_iff ((hperm.map _).nodup_iff.mp hnodup),
      hperm.mem_iff]
  rw [lookup_inner, lookup_inner, hown, h pfx]

theorem Scope.Alike.attributeName_eq (h : scope.Alike scope') (pfx localName : String) :
    attributeName scope pfx localName = attributeName scope' pfx localName := by
  rw [attributeName, attributeName, h]

theorem Scope.Alike.elementName_eq (h : scope.Alike scope') (pfx localName : String) :
    elementName scope pfx localName = elementName scope' pfx localName := by
  rw [elementName, elementName, h, h]

end

/-- An attribute under its expanded name. -/
def resolved (scope : Scope) (a : String × String × String) : Option Attribute :=
  (attributeName scope a.1 a.2.1).map (⟨·, a.2.2⟩)

theorem resolveAttributes_eq_mapM (scope : Scope) (as : List (String × String × String))
    (done : List Attribute) :
    resolveAttributes scope as done = (as.mapM (resolved scope)).bind fun rs =>
      if (rs.map (·.name)).Nodup ∧ ∀ r ∈ rs, ∀ d ∈ done, d.name ≠ r.name then
        some (done.reverse ++ rs) else none := by
  induction as generalizing done with
  | nil => simp [resolveAttributes]
  | cons a as ih =>
    obtain ⟨pfx, localName, value⟩ := a
    rw [resolveAttributes, List.mapM_cons, resolved]
    cases hname : attributeName scope pfx localName with
    | none => rfl
    | some name =>
      simp only [bind, Option.map_some, Option.bind_some, ih]
      cases hrest : as.mapM (resolved scope) with
      | none => split <;> rfl
      | some rs =>
        by_cases hdone : done.any (·.name == name)
        · have htwice : ¬ ∀ d ∈ done, d.name ≠ name := by simpa using hdone
          simp [hdone, htwice]
        · have hnew : ∀ d ∈ done, d.name ≠ name := by simpa using hdone
          have hiff : ((rs.map (·.name)).Nodup ∧
              ∀ r ∈ rs, ∀ d ∈ ⟨name, value⟩ :: done, d.name ≠ r.name) ↔
              ((⟨name, value⟩ :: rs).map (·.name)).Nodup ∧
                ∀ r ∈ ⟨name, value⟩ :: rs, ∀ d ∈ done, d.name ≠ r.name := by
            rw [List.map_cons, List.nodup_cons, List.forall_mem_cons]
            constructor
            · rintro ⟨hnodup, hrs⟩
              refine ⟨⟨fun hmem => ?_, hnodup⟩, hnew, fun r hr d hd =>
                hrs r hr d (List.mem_cons_of_mem _ hd)⟩
              obtain ⟨r, hr, heq⟩ := List.mem_map.mp hmem
              exact hrs r hr _ List.mem_cons_self heq.symm
            · rintro ⟨⟨hname, hnodup⟩, -, hrs⟩
              refine ⟨hnodup, fun r hr => List.forall_mem_cons.mpr ⟨fun heq => hname ?_, hrs r hr⟩⟩
              exact heq ▸ List.mem_map_of_mem hr
          rw [if_neg hdone, Option.bind_some, if_congr hiff rfl rfl]
          simp

/-- Attributes have the same names in whatever order they stand. -/
theorem resolveAttributes_perm {scope scope' : Scope} (h : scope.Alike scope')
    {as as' : List (String × String × String)} (hperm : as.Perm as') :
    Option.Rel List.Perm (resolveAttributes scope as []) (resolveAttributes scope' as' []) := by
  have hresolved : resolved scope = resolved scope' := by
    funext a
    rw [resolved, resolved, h.attributeName_eq]
  rw [resolveAttributes_eq_mapM, resolveAttributes_eq_mapM, hresolved]
  refine optionRel_bind (mapM_perm _ hperm) fun rs rs' hrs => ?_
  simp only [(hrs.map _).nodup_iff, List.not_mem_nil, false_imp_iff, implies_true, and_true,
    List.reverse_nil, List.nil_append]
  split
  · exact .some hrs
  · exact .none

end XmlBinding.Xml
