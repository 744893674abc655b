import XmlBinding.Proofs.Xml.AttributeOrder

/-! # Character data in two pieces

Character data is read in two pieces as in one, wherever it is cut, but inside of a reference and
beside some carriage returns: a carriage return becomes a line feed, together with a line feed that
follows it, or stays what it is, which depends on what stands on both sides of it.
-/
namespace XmlBinding.Xml

/-! ### Places that are no good -/

/-- Whether no reference is left open. -/
def referencesEnd : List Char → Bool
  | [] => true
  | c :: r => (c != '&' || r.contains ';') && referencesEnd r

/-- Whether items are read otherwise if the text ends between these and those. A carriage return at
the end is a line end of its own, but behind a character by reference (`asIs`) it is taken as it is
if the text ends there, and in no other case. -/
def tears (asIs : Bool) : List TextItem → List TextItem → Bool
  | [], _ => false
  | [.char c], after => c == '\r' && match after with
    | .char d :: _ => asIs || d == '\n'
    | _ => !asIs
  | [.reference _], after => after == [.char '\r']
  | item :: items, after => tears (item matches .reference _) items after

def isTorn (run rest : List Char) : Bool :=
  match textItems run, textItems rest with
  | some items, some after => tears false items after
  | _, _ => false

/-! ### References -/

section
variable {p : Char → Bool} {d : Char} {s t r : List Char}

theorem takeNumber_append {base : Nat} (hd : p d = false) (s r : List Char) :
    takeNumber base p (s ++ d :: r) = (takeNumber base p s).map fun n => (n.1, n.2 ++ d :: r) := by
  have hdrop : (s ++ d :: r).drop (s.takeWhile p).length =
      s.drop (s.takeWhile p).length ++ d :: r :=
    List.drop_append_of_le_length (List.takeWhile_prefix p).length_le
  simp only [takeNumber, takeWhile_append_cons hd, hdrop]
  split
  · rfl
  · rw [Option.map_map]
    rfl

theorem takeName_append (hd : isNameChar d = false) (s r : List Char) :
    takeName (s ++ d :: r) = (takeName s).map fun n => (n.1, n.2 ++ d :: r) := by
  cases s with
  | nil =>
    have hstart : isNameStart d = false := by
      cases hstart : isNameStart d with
      | false => rfl
      | true => rw [isNameChar_of_isNameStart hstart] at hd; cases hd
    simp [takeName, hstart]
  | cons c s =>
    rw [List.cons_append, takeName, takeName, takeWhile_append_cons hd, dropWhile_append_cons hd]
    split <;> rfl

theorem takeReferenceItem_decimal (h : s.head? ≠ some 'x') : takeReferenceItem ('#' :: s) =
    (takeNumber 10 Char.isDigit s).map fun n => (.reference n.1, n.2) := by
  rw [takeReferenceItem]
  rintro r rfl
  exact h rfl

theorem takeReferenceItem_name (h : s.head? ≠ some '#') : takeReferenceItem s =
    (takeName s).map fun n => ((predefined n.1).elim (.entity n.1) .reference, n.2) := by
  rw [takeReferenceItem]
  · rintro r rfl
    exact h rfl
  · rintro r rfl
    exact h rfl

theorem takeReferenceItem_append (s r : List Char) : takeReferenceItem (s ++ ';' :: r) =
    (takeReferenceItem s).map fun p => (p.1, p.2 ++ ';' :: r) := by
  have hhead (c : Char) (hc : c ≠ ';') (q : List Char) (hq : q.head? ≠ some c) :
      (q ++ ';' :: r).head? ≠ some c := by
    cases q with
    | nil => simpa using hc.symm
    | cons d q => exact hq
  by_cases hs : s.head? = some '#'
  · obtain ⟨q, rfl⟩ := List.head?_eq_some_iff.mp hs
    by_cases hq : q.head? = some 'x'
    · obtain ⟨q, rfl⟩ := List.head?_eq_some_iff.mp hq
      have hdigits := @takeNumber_append isHexDigit ';' 16 (by decide) q r
      simp only [List.cons_append, takeReferenceItem, hdigits, Option.map_map]
      rfl
    · rw [List.cons_append, takeReferenceItem_decimal hq,
        takeReferenceItem_decimal (hhead 'x' (by decide) q hq), takeNumber_append (by decide),
        Option.map_map, Option.map_map]
      rfl
  · rw [takeReferenceItem_name hs, takeReferenceItem_name (hhead '#' (by decide) s hs),
      takeName_append (by decide), Option.map_map, Option.map_map]
    rfl

/-- A reference ends at the latest where it can be closed. -/
theorem takeReference_append (h : ';' ∈ s) (rest : List Char) :
    takeReference (s ++ rest) = (takeReference s).map fun p => (p.1, p.2 ++ rest) := by
  obtain ⟨a, b, rfl, -⟩ := List.eq_append_cons_of_mem h
  have hsemicolon (q r : List Char) : expect [';'] (q ++ ';' :: (b ++ r)) =
      (expect [';'] (q ++ ';' :: b)).map (· ++ r) := by
    cases q with
    | nil => simp [expect]
    | cons c q =>
      by_cases hc : ';' = c <;> simp [expect, hc]
  rw [takeReference, takeReference, List.append_assoc, List.cons_append, takeReferenceItem_append,
    takeReferenceItem_append]
  cases takeReferenceItem a with
  | none => rfl
  | some p =>
    simp only [Option.map_some, bind, Option.bind_some, hsemicolon]
    cases expect [';'] (p.2 ++ ';' :: b) <;> rfl

theorem suffix_of_takeNumber {base : Nat} {c : Char} (h : takeNumber base p s = some (c, r)) :
    r <:+ s := by
  simp only [takeNumber, Option.ite_none_left_eq_some, Option.map_eq_some_iff, Prod.mk.injEq] at h
  obtain ⟨-, _, -, -, rfl⟩ := h
  exact List.drop_suffix _ _

theorem suffix_of_takeName {name : String} (h : takeName s = some (name, r)) : r <:+ s := by
  cases s with
  | nil => cases h
  | cons c s =>
    simp only [takeName, Option.ite_none_right_eq_some, Option.some.injEq, Prod.mk.injEq] at h
    obtain ⟨-, -, rfl⟩ := h
    exact (List.dropWhile_suffix _).trans (List.suffix_cons c s)

theorem suffix_of_takeReferenceItem {item : TextItem} (h : takeReferenceItem s = some (item, r)) :
    r <:+ s := by
  unfold takeReferenceItem at h
  split at h <;> simp only [Option.map_eq_some_iff, Prod.exists, Prod.mk.injEq] at h <;>
    obtain ⟨_, _, hn, -, rfl⟩ := h
  · exact (suffix_of_takeNumber hn).trans ((List.suffix_cons _ _).trans (List.suffix_cons _ _))
  · exact (suffix_of_takeNumber hn).trans (List.suffix_cons _ _)
  · exact suffix_of_takeName hn

theorem suffix_of_takeReference {item : TextItem} (h : takeReference s = some (item, r)) :
    r <:+ s := by
  simp only [takeReference, bind, Option.bind_eq_some_iff, Prod.exists, Option.some.injEq,
    Prod.mk.injEq] at h
  obtain ⟨_, q, hitem, _, hend, -, rfl⟩ := h
  have hq := eq_append_of_expect hend
  exact (List.suffix_append _ _).trans (hq ▸ suffix_of_takeReferenceItem hitem)

theorem textItems_reference (s : List Char) : textItems ('&' :: s) =
    (takeReference s).bind fun p => (textItems p.2).map (p.1 :: ·) := by
  rw [textItems]
  split <;> simp_all

theorem textItems_char {c : Char} (hc : c ≠ '&') (s : List Char) :
    textItems (c :: s) = (textItems s).map (.char c :: ·) := by
  rw [textItems]
  exact hc

theorem referencesEnd_of_suffix (h : r <:+ s) (hs : referencesEnd s = true) :
    referencesEnd r = true := by
  induction s with
  | nil => rwa [List.suffix_nil.mp h]
  | cons c s ih =>
    rcases List.suffix_cons_iff.mp h with rfl | h
    · exact hs
    · simp only [referencesEnd, Bool.and_eq_true] at hs
      exact ih h hs.2

/-- A text whose references are closed is cut into items before more text is. -/
theorem textItems_append (h : referencesEnd s = true) (rest : List Char) :
    textItems (s ++ rest) =
      (textItems s).bind fun items => (textItems rest).map (items ++ ·) := by
  have hcons (item : TextItem) (o : Option (List TextItem)) (o' : Option (List TextItem)) :
      (o.bind fun items => o'.map (items ++ ·)).map (item :: ·) =
        (o.map (item :: ·)).bind fun items => o'.map (items ++ ·) := by
    cases o <;> cases o' <;> rfl
  have hend (s : List Char) (hs : referencesEnd ('&' :: s) = true) : ';' ∈ s := by
    simp only [referencesEnd, bne_self_eq_false, Bool.false_or, Bool.and_eq_true] at hs
    exact List.contains_iff_mem.mp hs.1
  fun_induction textItems s with
  | case1 => simp
  | case2 s hnone =>
    rw [List.cons_append, textItems_reference, takeReference_append (hend s h), hnone]
    rfl
  | case3 s item r hsome hlt ih =>
    have hr : referencesEnd r = true :=
      referencesEnd_of_suffix ((suffix_of_takeReference hsome).trans (List.suffix_cons _ _)) h
    rw [List.cons_append, textItems_reference, takeReference_append (hend s h), hsome,
      Option.map_some, Option.bind_some, ih hr, hcons]
  | case4 c s hc ih =>
    have hs : referencesEnd s = true := referencesEnd_of_suffix (List.suffix_cons c s) h
    rw [List.cons_append, textItems_char hc, ih hs, hcons]

theorem textItems_ne_nil {items : List TextItem} (hne : s ≠ []) (h : textItems s = some items) :
    items ≠ [] := by
  rintro rfl
  fun_induction textItems s with
  | case1 => exact hne rfl
  | case2 => cases h
  | case3 | case4 =>
    rw [Option.map_eq_some_iff] at h
    obtain ⟨_, -, h⟩ := h
    cases h

end

/-! ### Runs -/

theorem addContent_text_text (content : List Content) (s t : String) :
    addContent (addContent content (.text s)) (.text t) = addContent content (.text (s ++ t)) := by
  cases content with
  | nil => rfl
  | cons c content =>
    cases c with
    | text r => simp [addContent, String.append_assoc]
    | _ => rfl

theorem add_text_text (b : Builder) (s t : String) :
    (b.add (.text s)).add (.text t) = b.add (.text (s ++ t)) := by
  obtain ⟨opened, outside, count⟩ := b
  cases opened <;> simp [Builder.add, addContent_text_text]

/-- A run can be added in two pieces. -/
theorem addRun_addRun (b : Builder) (run more : List Char) :
    (b.addRun run).addRun more = b.addRun (more ++ run) := by
  cases run with
  | nil => simp [Builder.addRun]
  | cons c run =>
    cases more with
    | nil => simp [Builder.addRun]
    | cons d more =>
      simp only [Builder.addRun, List.isEmpty_cons, List.cons_append, Bool.false_eq_true, if_false]
      rw [add_text_text, ← String.ofList_append, ← List.reverse_append, List.cons_append]

section
variable {entity : String → Builder → Option Builder}

theorem pushText_append {run : List Char} (hne : run ≠ []) (before : List Char) (c : Char)
    (atEnd : Bool) : pushText (run ++ before) c atEnd = pushText run c atEnd ++ before := by
  obtain ⟨d, run, rfl⟩ := List.exists_cons_of_ne_nil hne
  by_cases hd : d = '\r'
  · subst hd
    simp only [List.cons_append, pushText]
    split
    · rfl
    · split <;> rfl
  · have hhead (r : List Char) : (d :: r).head? ≠ some '\r' := fun heq => hd (Option.some.inj heq)
    rw [List.cons_append, pushText_of_head? (hhead _), pushText_of_head? (hhead _)]
    rfl

theorem pushText_ne_nil (run : List Char) (c : Char) (atEnd : Bool) :
    pushText run c atEnd ≠ [] := by
  unfold pushText
  split
  · dsimp only
    split
    · simp
    · split <;> simp
  · simp

/-- What stands further back in a run can be added before. -/
theorem addItems_append_run (items : List TextItem) {run : List Char} (hne : run ≠ [])
    (before : List Char) (asIs : Bool) (b : Builder) :
    Builder.addItems false entity items (run ++ before) asIs b =
      Builder.addItems false entity items run asIs (b.addRun before) := by
  induction items generalizing run asIs with
  | nil => rw [Builder.addItems, Builder.addItems, addRun_addRun]
  | cons item items ih =>
    cases item with
    | char c =>
      rw [Builder.addItems, Builder.addItems]
      cases asIs with
      | true => exact ih (List.cons_ne_nil c run) false
      | false =>
        simp only [Bool.false_eq_true, if_false, pushText_append hne]
        exact ih (pushText_ne_nil _ _ _) false
    | reference c =>
      rw [Builder.addItems, Builder.addItems, if_neg (by simp), if_neg (by simp)]
      exact ih (List.cons_ne_nil c run) true
    | entity name => rw [Builder.addItems, Builder.addItems, addRun_addRun]

/-- A text may end before an item that does not look back. -/
theorem addItems_cons_cut {item : TextItem} {run : List Char}
    (h : run.head? ≠ some '\r' ∨ ∀ c, item ≠ .char c) (items : List TextItem) (b : Builder) :
    Builder.addItems false entity (item :: items) run false b =
      Builder.addItems false entity (item :: items) [] false (b.addRun run) := by
  cases item with
  | char c =>
    have hhead : run.head? ≠ some '\r' := h.resolve_right fun hne => hne c rfl
    have hnil : ([] : List Char).head? ≠ some '\r' := by simp
    rw [Builder.addItems, Builder.addItems]
    simp only [Bool.false_eq_true, if_false, pushText_of_head? hhead, pushText_of_head? hnil]
    exact addItems_append_run items (List.cons_ne_nil _ []) run false b
  | reference c =>
    rw [Builder.addItems, Builder.addItems, if_neg (by simp), if_neg (by simp)]
    exact addItems_append_run items (List.cons_ne_nil c []) run true b
  | entity name => rw [Builder.addItems, Builder.addItems, addRun_addRun, List.nil_append]

theorem head?_pushText {c : Char} (hc : c ≠ '\r') (run : List Char) (atEnd : Bool) :
    (pushText run c atEnd).head? ≠ some '\r' := by
  unfold pushText
  split
  · by_cases hfeed : c = '\n' <;> simp [hc, hfeed]
  · simp [hc]

theorem pushText_of_ne_return {c : Char} (hc : c ≠ '\r') (run : List Char) (atEnd : Bool) :
    pushText run c atEnd = pushText run c false := by
  unfold pushText
  split <;> simp [hc]

/-- Only at the end of a text a carriage return becomes a line feed at once. -/
theorem exists_pushText_return (run : List Char) :
    ∃ before, pushText run '\r' false = '\r' :: before ∧
      pushText run '\r' true = '\n' :: before := by
  unfold pushText
  split
  · exact ⟨_, rfl, rfl⟩
  · exact ⟨_, rfl, rfl⟩

theorem pushText_return {c : Char} (hc : c ≠ '\n') (before : List Char) (atEnd : Bool) :
    pushText ('\r' :: before) c atEnd = pushText ('\n' :: before) c atEnd := by
  by_cases hreturn : (atEnd && c == '\r') = true <;> simp [pushText, hc, hreturn]

/-- The last item before the end of a text, which another text follows. -/
theorem addItems_singleton_append {item : TextItem} {after : List TextItem} (hafter : after ≠ [])
    {asIs : Bool} (h : tears asIs [item] after = false) (run : List Char) (b : Builder) :
    Builder.addItems false entity (item :: after) run asIs b =
      (Builder.addItems false entity [item] run asIs b).bind
        (Builder.addItems false entity after [] false) := by
  obtain ⟨next, after, rfl⟩ := List.exists_cons_of_ne_nil hafter
  cases item with
  | char c =>
    rw [Builder.addItems, Builder.addItems, Builder.addItems, Option.bind_some, List.isEmpty_cons,
      List.isEmpty_nil]
    by_cases hc : c = '\r'
    · subst hc
      cases asIs with
      | true =>
        refine addItems_cons_cut (.inr fun d hd => ?_) after b
        simp [tears, hd] at h
      | false =>
        obtain ⟨before, hopen, hend⟩ := exists_pushText_return run
        cases next with
        | char d =>
          have hd : d ≠ '\n' := by simpa [tears] using h
          have hline : Builder.addItems false entity (.char d :: after) ('\r' :: before) false b =
              Builder.addItems false entity (.char d :: after) ('\n' :: before) false b := by
            rw [Builder.addItems, Builder.addItems]
            simp only [Bool.false_eq_true, if_false, pushText_return hd]
          simp only [Bool.false_eq_true, if_false, hopen, hend, hline]
          exact addItems_cons_cut (.inl (by simp)) after b
        | reference => simp [tears] at h
        | entity => simp [tears] at h
    · rw [pushText_of_ne_return hc run true]
      apply addItems_cons_cut
      cases asIs with
      | true => exact .inl fun heq => hc (Option.some.inj heq)
      | false => exact .inl (head?_pushText hc run false)
  | reference c =>
    have hlast : Builder.addItems false entity [.reference c] run asIs b =
        some (b.addRun (c :: run)) := rfl
    have hnext : Builder.addItems false entity (.reference c :: next :: after) run asIs b =
        Builder.addItems false entity (next :: after) (c :: run) true b := rfl
    rw [hlast, hnext, Option.bind_some]
    cases next with
    | char d =>
      have hpush : pushText [] d after.isEmpty = [d] := by
        cases after with
        | nil =>
          have hd : d ≠ '\r' := by simpa [tears] using h
          simp [pushText, hd]
        | cons => rfl
      rw [Builder.addItems, Builder.addItems]
      simp only [if_true, Bool.false_eq_true, if_false, hpush]
      exact addItems_append_run after (List.cons_ne_nil d []) (c :: run) false b
    | reference d =>
      exact addItems_append_run after (List.cons_ne_nil d []) (c :: run) true b
    | entity name => rw [Builder.addItems, Builder.addItems, addRun_addRun, List.nil_append]
  | entity name =>
    rw [Builder.addItems, Builder.addItems]
    cases entity name (b.addRun run) <;> rfl

theorem tears_cons {items : List TextItem} (hne : items ≠ []) (asIs : Bool) (item : TextItem)
    (after : List TextItem) :
    tears asIs (item :: items) after = tears (item matches .reference _) items after := by
  obtain ⟨next, items, rfl⟩ := List.exists_cons_of_ne_nil hne
  cases item <;> rfl

/-- Items are added in two pieces as in one. -/
theorem addItems_append {items after : List TextItem} (hne : items ≠ []) (hafter : after ≠ [])
    {asIs : Bool} (h : tears asIs items after = false) (run : List Char) (b : Builder) :
    Builder.addItems false entity (items ++ after) run asIs b =
      (Builder.addItems false entity items run asIs b).bind
        (Builder.addItems false entity after [] false) := by
  induction items generalizing run asIs b with
  | nil => exact absurd rfl hne
  | cons item items ih =>
    by_cases hitems : items = []
    · subst hitems
      exact addItems_singleton_append hafter h run b
    · rw [tears_cons hitems] at h
      have hempty : (items ++ after).isEmpty = items.isEmpty := by
        rw [Bool.eq_iff_iff]
        simp [hitems]
      cases item with
      | char c =>
        rw [List.cons_append, Builder.addItems, Builder.addItems, hempty]
        exact ih hitems h _ b
      | reference c =>
        rw [List.cons_append, Builder.addItems, Builder.addItems, if_neg (by simp),
          if_neg (by simp)]
        exact ih hitems h _ b
      | entity name =>
        rw [List.cons_append, Builder.addItems, Builder.addItems]
        cases entity name (b.addRun run) with
        | none => rfl
        | some d => exact ih hitems h [] d

end

end XmlBinding.Xml
