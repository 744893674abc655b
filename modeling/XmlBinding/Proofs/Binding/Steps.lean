import XmlBinding.Binding.Construction

/-! # Reasoning about steps of the construction

A step ensures a property if it holds of whatever the step returns and of the catalog it leaves,
provided the step succeeds and the catalog before it was right. Steps are put together by rules of
their own, so that no proof about a step unfolds the state behind it.
-/
namespace XmlBinding.Binding

/-- From a catalog with `P` the step, if it succeeds, ends in a result and a catalog with `Q`. -/
def Ensures {α : Type} (P : Catalog → Prop) (x : Build α) (Q : α → Catalog → Prop) : Prop :=
  ∀ c a c', P c → x.run c = .ok (a, c') → Q a c'

section
variable {α β : Type} {P : Catalog → Prop} {x : Build α} {Q R : α → Catalog → Prop}

theorem Ensures.weaken (h : Ensures P x Q) (hqr : ∀ a c, Q a c → R a c) : Ensures P x R :=
  fun c a c' hp hx => hqr a c' (h c a c' hp hx)

theorem Ensures.strengthen {P' : Catalog → Prop} (h : Ensures P x Q) (hp : ∀ c, P' c → P c) :
    Ensures P' x Q :=
  fun c a c' hc => h c a c' (hp c hc)

theorem ensures_exists {ι : Type} {P : ι → Catalog → Prop} (h : ∀ i, Ensures (P i) x Q) :
    Ensures (fun c => ∃ i, P i c) x Q :=
  fun c a c' ⟨i, hc⟩ => h i c a c' hc

/-- Where nothing is asked of a step. -/
theorem ensures_true : Ensures P x fun _ _ => True :=
  fun _ _ _ _ _ => trivial

theorem ensures_pure {a : α} (h : ∀ c, P c → Q a c) : Ensures P (pure a : Build α) Q := by
  intro c b c' hp hx
  cases hx
  exact h _ hp

theorem Ensures.bind {f : α → Build β} {S : β → Catalog → Prop} (hx : Ensures P x Q)
    (hf : ∀ a, Ensures (Q a) (f a) S) : Ensures P (x >>= f) S := by
  intro c b c' hp hb
  rw [StateT.run_bind] at hb
  cases hr : x.run c with
  | error e => simp [hr, Bind.bind, Except.bind] at hb
  | ok r =>
    refine hf r.1 r.2 b c' (hx c r.1 r.2 hp hr) ?_
    simpa [hr, Bind.bind, Except.bind] using hb

/-- What is known of a result, whatever the catalog is like, is known all along. -/
theorem Ensures.bind_of_result {R : α → Prop} {f : α → Build β} {S : β → Catalog → Prop}
    (hx : Ensures P x fun a _ => R a) (hf : ∀ a, R a → Ensures (fun _ => True) (f a) S) :
    Ensures P (x >>= f) S :=
  hx.bind fun a c b c' ha hb => hf a ha c b c' trivial hb

theorem ensures_fail {e : BindingError} : Ensures P (fail e : Build α) Q := by
  intro c a c' _ hx
  cases hx

theorem ensures_get {Q : Catalog → Catalog → Prop} (h : ∀ c, P c → Q c c) :
    Ensures P (get : Build Catalog) Q := by
  intro c a c' hp hx
  cases hx
  exact h _ hp

theorem ensures_get_bind {k : Catalog → Build α} (h : ∀ c, P c → Ensures (· = c) (k c) Q) :
    Ensures P (get >>= k) Q :=
  fun c a c' hp hx => h c hp c a c' rfl hx

theorem ensures_set {d : Catalog} {Q : PUnit → Catalog → Prop} (h : ∀ c, P c → Q ⟨⟩ d) :
    Ensures P (set d : Build PUnit) Q := by
  intro c a c' hp hx
  cases hx
  exact h _ hp

theorem ensures_modify {f : Catalog → Catalog} {Q : PUnit → Catalog → Prop}
    (h : ∀ c, P c → Q ⟨⟩ (f c)) : Ensures P (modify f : Build PUnit) Q := by
  intro c a c' hp hx
  cases hx
  exact h _ hp

theorem ensures_lift {r : Except BindingError α} (h : ∀ a c, r = .ok a → P c → Q a c) :
    Ensures P (liftM r : Build α) Q := by
  intro c a c' hp hx
  cases r with
  | error e => cases hx
  | ok b =>
    obtain ⟨rfl, rfl⟩ : b = a ∧ c = c' := by
      injection hx with hx
      exact ⟨congrArg Prod.fst hx, congrArg Prod.snd hx⟩
    exact h b c rfl hp

end

/-- An invariant of what has been gone through. -/
theorem forM_ensures {α : Type} {f : α → Build PUnit} {xs : List α} {P : List α → Catalog → Prop}
    (h : ∀ before, ∀ x ∈ xs, Ensures (P before) (f x) fun _ => P (before ++ [x])) :
    Ensures (P []) (xs.forM f) fun _ => P xs := by
  suffices hrest : ∀ before after, after ⊆ xs →
      Ensures (P before) (after.forM f) fun _ => P (before ++ after) from
    hrest [] xs (List.Subset.refl _)
  intro before after hxs
  induction after generalizing before with
  | nil =>
    rw [List.append_nil]
    exact ensures_pure fun _ hc => hc
  | cons x after ih =>
    obtain ⟨hx, hxs⟩ := List.cons_subset.mp hxs
    rw [← List.singleton_append, ← List.append_assoc]
    exact (h before x hx).bind fun _ => ih (before ++ [x]) hxs

/-! ## What is remembered -/

theorem mem_of_remembered {κ α : Type} [DecidableEq κ] {table : List (κ × α)} {key : κ} {a : α}
    (h : remembered table key = some a) : (key, a) ∈ table := by
  rw [remembered, Option.map_eq_some_iff] at h
  obtain ⟨⟨k, b⟩, hfind, rfl⟩ := h
  have hkey : k = key := by simpa using List.find?_some hfind
  exact hkey ▸ List.mem_of_find?_eq_some hfind

theorem remembered_cons {κ α : Type} [DecidableEq κ] (key key' : κ) (a : α)
    (table : List (κ × α)) :
    remembered ((key, a) :: table) key' = if key = key' then some a else remembered table key' := by
  rw [remembered, List.find?_cons]
  by_cases h : key = key' <;> simp [h, remembered]

/-- A value that is noted under a new key hides no other. -/
theorem remembered_cons_of_new {κ α : Type} [DecidableEq κ] {key key' : κ} {a a' : α}
    {table : List (κ × α)} (hnew : remembered table key = none)
    (h : remembered table key' = some a') : remembered ((key, a) :: table) key' = some a' := by
  rw [remembered_cons, if_neg]
  · exact h
  · rintro rfl
    rw [hnew] at h
    cases h

/-! ## The whole construction -/

/-- A module is what the construction leaves in the catalog. -/
theorem exists_catalog_of_ofModel {model : Schema.Model} {m : Module}
    (h : Module.ofModel model = .ok m) :
    ∃ u catalog, (buildAll model).run {} = .ok (u, catalog) ∧
      m = ⟨model.targetNamespace, catalog.enumerations, catalog.markers, catalog.classes⟩ := by
  rw [Module.ofModel] at h
  cases hr : (buildAll model).run {} with
  | error e =>
    rw [hr] at h
    cases h
  | ok r =>
    rw [hr] at h
    cases h
    exact ⟨r.1, r.2, rfl, rfl⟩

end XmlBinding.Binding
