import XmlBinding.Proofs.Xml.AttributeOrder

/-! # Relations that builders keep

A relation between builders that is kept when content is added and when elements are opened and
closed is kept by whole lists of tokens, also where these refer to entities, which have content of
their own.
-/
namespace XmlBinding.Xml

/-- Whether a token opens an element. -/
def Token.opens : Token → Bool
  | .start .. => true
  | _ => false

/-- What one token does. -/
def Builder.addToken (entities : List Entity) (levels : Nat)
    (entity : String → Builder → Option Builder) (t : Token) (started : Bool) (b : Builder) :
    Option Builder :=
  match t with
  | .start pfx localName attributes empty => do
    let b ← b.openTag entities levels pfx localName attributes
    if empty then b.closeTag else some b
  | .close pfx localName => if started then b.closeNamed pfx localName else none
  | .text raw => do b.addItems (levels != entityLevels) entity (← textItems raw) [] false
  | .literal raw => some (b.add (.text (String.ofList (literalRun [] raw))))
  | .comment value => some (b.add (.comment value))
  | .instruction target value => some (b.add (.instruction target value))

theorem addTokens_cons (entities : List Entity) {levels : Nat}
    {entity : String → Builder → Option Builder} (t : Token) (ts : List Token) (started : Bool)
    (b : Builder) : Builder.addTokens entities levels entity (t :: ts) started b =
      (b.addToken entities levels entity t started).bind
        (Builder.addTokens entities levels entity ts (started || t.opens)) := by
  cases t with
  | start pfx localName attributes empty =>
    cases hopen : b.openTag entities levels pfx localName attributes with
    | none => simp [Builder.addTokens, Builder.addToken, hopen]
    | some c =>
      cases empty <;> simp [Builder.addTokens, Builder.addToken, Token.opens, hopen]
  | close pfx localName => cases started <;> rfl
  | text raw =>
    cases hitems : textItems raw with
    | none => simp [Builder.addTokens, Builder.addToken, hitems]
    | some items => simp [Builder.addTokens, Builder.addToken, Token.opens, hitems]
  | _ => rfl

/-- An end tag closes the innermost elements if these bear the same name. -/
theorem Builder.closeNamed_rel {B : Builder → Builder → Prop} {F : Frame → Frame → Prop}
    {b b' : Builder} (hopened : List.Forall₂ F b.opened b'.opened)
    (hF : ∀ f f', F f f' → f.pfx = f'.pfx ∧ f.name = f'.name)
    (hclose : Option.Rel B b.closeTag b'.closeTag) (pfx localName : String) :
    Option.Rel B (b.closeNamed pfx localName) (b'.closeNamed pfx localName) := by
  have hnames : (b.opened.head?.any fun f => f.pfx == pfx && f.name.localName == localName) =
      b'.opened.head?.any fun f => f.pfx == pfx && f.name.localName == localName := by
    obtain ⟨opened, outside, count⟩ := b
    obtain ⟨opened', outside', count'⟩ := b'
    cases hopened with
    | nil => rfl
    | cons hf _ => simp [hF _ _ hf]
  rw [closeNamed, closeNamed, hnames]
  split
  · exact hclose
  · exact .none

/-- What entities add to related builders leaves them related. -/
def Keeps (R : Builder → Builder → Prop) (entity : String → Builder → Option Builder) : Prop :=
  ∀ name b b', R b b' → Option.Rel R (entity name b) (entity name b')

/-- A relation between builders inside of entities that leave room for so many levels more, kept by
each of the steps that tokens are made of. -/
structure Congruence (B : Nat → Builder → Builder → Prop) : Prop where
  add {levels : Nat} {b b' : Builder} (h : B levels b b') {c : Content} (hc : c.element? = none) :
    B levels (b.add c) (b'.add c)
  openTag {levels : Nat} {b b' : Builder} (h : B levels b b') (entities : List Entity)
    (hlevels : levels ≤ entityLevels) (pfx localName : String) (attributes : List RawAttribute) :
    Option.Rel (B levels) (b.openTag entities levels pfx localName attributes)
      (b'.openTag entities levels pfx localName attributes)
  closeTag {levels : Nat} {b b' : Builder} (h : B levels b b') :
    Option.Rel (B levels) b.closeTag b'.closeTag
  closeNamed {levels : Nat} {b b' : Builder} (h : B levels b b') (pfx localName : String) :
    Option.Rel (B levels) (b.closeNamed pfx localName) (b'.closeNamed pfx localName)
  count {levels : Nat} {b b' : Builder} (h : B levels b b') : b.count = b'.count
  enter {levels : Nat} {b b' : Builder} (h : B (levels + 1) b b') (hlevels : levels < entityLevels)
    (count : Nat) : B levels { b with count } { b' with count }
  leave {levels : Nat} {b b' : Builder} (h : B levels b b') :
    B (levels + 1) { b with count := countAfter (levels + 1) b.count }
      { b' with count := countAfter (levels + 1) b'.count }

namespace Congruence

variable {B : Nat → Builder → Builder → Prop} {levels : Nat} {b b' : Builder}
  {entity : String → Builder → Option Builder}

theorem addRun (hB : Congruence B) (h : B levels b b') (run : List Char) :
    B levels (b.addRun run) (b'.addRun run) := by
  rw [Builder.addRun, Builder.addRun]
  split
  · exact h
  · exact hB.add h rfl

theorem addItems (hB : Congruence B) (hentity : Keeps (B levels) entity) (inside : Bool)
    (items : List TextItem) (run : List Char) (asIs : Bool) (h : B levels b b') :
    Option.Rel (B levels) (Builder.addItems inside entity items run asIs b)
      (Builder.addItems inside entity items run asIs b') := by
  induction items generalizing run asIs b b' with
  | nil => exact .some (hB.addRun h run)
  | cons item items ih =>
    cases item with
    | char c =>
      rw [Builder.addItems, Builder.addItems]
      exact ih _ _ h
    | reference c =>
      rw [Builder.addItems, Builder.addItems]
      split
      · exact ih _ _ h
      · exact ih _ _ h
    | entity name =>
      rw [Builder.addItems, Builder.addItems]
      exact optionRel_bind (hentity name _ _ (hB.addRun h run)) fun _ _ hb => ih _ _ hb

theorem addToken (hB : Congruence B) (entities : List Entity) (hlevels : levels ≤ entityLevels)
    (hentity : Keeps (B levels) entity) (t : Token) (started : Bool) (h : B levels b b') :
    Option.Rel (B levels) (b.addToken entities levels entity t started)
      (b'.addToken entities levels entity t started) := by
  cases t with
  | start pfx localName attributes empty =>
    apply optionRel_bind (hB.openTag h entities hlevels pfx localName attributes)
    intro c c' hc
    cases empty with
    | true => exact hB.closeTag hc
    | false => exact .some hc
  | close pfx localName =>
    rw [Builder.addToken, Builder.addToken]
    split
    · exact hB.closeNamed h pfx localName
    · exact .none
  | text raw =>
    rw [Builder.addToken, Builder.addToken]
    apply optionRel_bind (R := Eq) (optionRel_self _ fun _ _ => rfl)
    rintro items _ rfl
    exact hB.addItems hentity _ items [] false h
  | literal raw => exact .some (hB.add h rfl)
  | comment value => exact .some (hB.add h rfl)
  | instruction target value => exact .some (hB.add h rfl)

theorem addTokens (hB : Congruence B) (entities : List Entity) (hlevels : levels ≤ entityLevels)
    (hentity : Keeps (B levels) entity) (ts : List Token) (started : Bool) (h : B levels b b') :
    Option.Rel (B levels) (Builder.addTokens entities levels entity ts started b)
      (Builder.addTokens entities levels entity ts started b') := by
  induction ts generalizing started b b' with
  | nil => exact .some h
  | cons t ts ih =>
    rw [addTokens_cons, addTokens_cons]
    exact optionRel_bind (hB.addToken entities hlevels hentity t started h) fun _ _ hb => ih _ hb

/-- An entity adds its content to both, and what is counted inside of it is counted for both. -/
theorem keeps_addEntity (hB : Congruence B) (entities : List Entity)
    (hlevels : levels ≤ entityLevels) :
    Keeps (B levels) (Builder.addEntity entities levels) := by
  induction levels with
  | zero => exact fun name b b' h => .none
  | succ levels ih =>
    intro name b b' h
    have hle : levels ≤ entityLevels := Nat.le_of_lt hlevels
    rw [Builder.addEntity, Builder.addEntity, ← hB.count h]
    apply optionRel_bind (R := Eq) (optionRel_self _ fun _ _ => rfl)
    rintro value _ rfl
    apply optionRel_bind (R := Eq) (optionRel_self _ fun _ _ => rfl)
    rintro count _ rfl
    apply optionRel_bind (R := Eq) (optionRel_self _ fun _ _ => rfl)
    rintro p _ rfl
    have hinside := hB.enter h hlevels count
    exact optionRel_bind (hB.addTokens entities hle (ih hle) p.1 false hinside)
      fun c c' hc => .some (hB.leave hc)

end Congruence

/-- Document elements are related if the builders that take in their tokens are. -/
theorem readRoot_rel {entities : List Entity} {B : Builder → Builder → Prop}
    {R : Element → Element → Prop} {s s' : List Char}
    (h : Option.Rel (fun p p' =>
      Option.Rel (fun r r' => r.isEmpty = r'.isEmpty) (skipMisc p.2) (skipMisc p'.2) ∧
        Option.Rel B
          (Builder.addTokens entities entityLevels (Builder.addEntity entities entityLevels) p.1
            false {})
          (Builder.addTokens entities entityLevels (Builder.addEntity entities entityLevels) p'.1
            false {})) (takeRoot s) (takeRoot s'))
    (hopened : ∀ b b', B b b' → b.opened.length = b'.opened.length)
    (hR : ∀ b b', B b b' → Option.Rel R (b.outside.reverse.filterMap Content.element?).head?
      (b'.outside.reverse.filterMap Content.element?).head?) :
    Option.Rel R (readRoot entities s) (readRoot entities s') := by
  rw [readRoot, readRoot]
  apply optionRel_bind h
  rintro p p' ⟨hrest, hbuilt⟩
  apply optionRel_bind hrest
  intro r r' hr
  rw [hr]
  cases r'.isEmpty with
  | false => exact .none
  | true =>
    apply optionRel_bind hbuilt
    intro b b' hb
    have hempty : b.opened.isEmpty = b'.opened.isEmpty := by
      rw [Bool.eq_iff_iff, List.isEmpty_iff, List.isEmpty_iff, ← List.length_eq_zero_iff,
        ← List.length_eq_zero_iff, hopened b b' hb]
    rw [hempty]
    cases b'.opened.isEmpty with
    | false => exact .none
    | true => exact hR b b' hb

end XmlBinding.Xml
