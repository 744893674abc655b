import XmlBinding.Generation
import XmlBinding.Proofs.Schema.Likeness
import XmlBinding.Proofs.Xml.Equality

/-! # Names count, prefixes do not

A schema can be written with any prefixes for its namespaces, and with a default namespace in place
of a prefix. What is read depends only on the namespaces and local names that the tags and the
qualified names in attributes denote.
-/
namespace XmlBinding.Schema
open Text Xml

/-! ## Qualified names -/

/-- What a qualified name denotes where prefixes are bound as in `scope`. A name without a prefix
is in the default namespace, and the prefix `xml` is bound everywhere. -/
inductive Denotes (scope : Scope) : String → ExpandedName → Prop
  | unprefixed {name : String} (h : ':' ∉ name.toList) :
      Denotes scope name ⟨scope.lookup none, name⟩
  | xml (localName : String) : Denotes scope ("xml" ++ ":" ++ localName) ⟨some xmlUri, localName⟩
  | prefixed {pfx uri : String} (localName : String) (h : ':' ∉ pfx.toList) (hxml : pfx ≠ "xml")
      (huri : scope.lookup (some pfx) = some uri) :
      Denotes scope (pfx ++ ":" ++ localName) ⟨some uri, localName⟩

section
variable {scope scope' : Scope} {s pfx localName : String} {n : ExpandedName} {c : Char}
  {before after : List Char}

theorem splitFirst_eq_none (h : c ∉ before) : splitFirst c before = none := by
  have hall : before.dropWhile (· != c) = [] := by
    rw [List.dropWhile_eq_nil_iff]
    intro d hd
    exact bne_iff_ne.mpr fun hdc => h (hdc ▸ hd)
  rw [splitFirst, hall]

theorem splitFirst_append (h : c ∉ before) :
    splitFirst c (before ++ c :: after) = some (before, after) := by
  have hbefore : ∀ d ∈ before, (d != c) = true :=
    fun d hd => bne_iff_ne.mpr fun hdc => h (hdc ▸ hd)
  rw [splitFirst, List.dropWhile_append_of_pos hbefore, List.takeWhile_append_of_pos hbefore]
  simp

theorem resolveName_unprefixed (h : ':' ∉ s.toList) :
    resolveName scope s = .ok ⟨scope.lookup none, s⟩ := by
  rw [resolveName, splitFirst_eq_none h]

theorem resolveName_prefixed (h : ':' ∉ pfx.toList) :
    resolveName scope (pfx ++ ":" ++ localName) =
      (if pfx = "xml" then some xmlUri else scope.lookup (some pfx)).elim
        (.error (.unboundPrefix pfx)) fun uri => .ok ⟨some uri, localName⟩ := by
  have hsplit : splitFirst ':' (pfx ++ ":" ++ localName).toList =
      some (pfx.toList, localName.toList) := by
    rw [String.toList_append, String.toList_append, List.append_assoc]
    exact splitFirst_append h
  rw [resolveName, hsplit]
  simp only [String.ofList_toList]
  generalize (if pfx = "xml" then some xmlUri else scope.lookup (some pfx)) = uri
  cases uri <;> rfl

/-- A name with a colon has a prefix. -/
theorem exists_prefix (h : ':' ∈ s.toList) :
    ∃ pfx localName : String, ':' ∉ pfx.toList ∧ s = pfx ++ ":" ++ localName := by
  obtain ⟨before, after, hs, hbefore⟩ := List.eq_append_cons_of_mem h
  refine ⟨String.ofList before, String.ofList after, by simpa using hbefore, ?_⟩
  rw [← String.toList_inj, hs]
  simp

/-- Names are resolved to what they denote. -/
theorem resolveName_eq_ok : resolveName scope s = .ok n ↔ Denotes scope s n := by
  constructor
  · intro h
    by_cases hcolon : ':' ∈ s.toList
    · obtain ⟨pfx, localName, hpfx, rfl⟩ := exists_prefix hcolon
      rw [resolveName_prefixed hpfx] at h
      by_cases hxml : pfx = "xml"
      · subst hxml
        obtain rfl := Except.ok.inj h
        exact .xml localName
      · rw [if_neg hxml] at h
        cases huri : scope.lookup (some pfx) with
        | none => rw [huri] at h; cases h
        | some uri =>
          rw [huri] at h
          obtain rfl := Except.ok.inj h
          exact .prefixed localName hpfx hxml huri
    · rw [resolveName_unprefixed hcolon] at h
      obtain rfl := Except.ok.inj h
      exact .unprefixed hcolon
  · rintro (hcolon | localName | ⟨localName, hpfx, hxml, huri⟩)
    · exact resolveName_unprefixed hcolon
    · rw [resolveName_prefixed (by decide), if_pos rfl, Option.elim_some]
    · rw [resolveName_prefixed hpfx, if_neg hxml, huri, Option.elim_some]

end

/-! ## Other prefixes -/

/-- The same namespace and local name. The empty namespace name stands for none. -/
def SameName (n n' : ExpandedName) : Prop :=
  n.uri.getD "" = n'.uri.getD "" ∧ n.localName = n'.localName

/-- A qualified name that denotes in one scope what another one denotes in another scope, if they
denote anything. -/
def Renamed (scope scope' : Scope) (s s' : String) : Prop :=
  (∀ n, Denotes scope s n → ∃ n', Denotes scope' s' n' ∧ SameName n n') ∧
    ∀ n', Denotes scope' s' n' → ∃ n, Denotes scope s n ∧ SameName n n'

/-- The attributes with qualified names for values. -/
def nameAttributes : List String := "memberTypes" :: referenceAttributes

/-- Attributes that differ only in prefixes. Inside of an annotation any attribute may be what it
was. -/
inductive AttributeRenamed : (remark : Bool) → Scope → Scope → Attribute → Attribute → Prop
  | same {remark : Bool} {scope scope' : Scope} (a : Attribute)
      (h : remark = true ∨ ∀ name ∈ nameAttributes, a.name ≠ ⟨none, name⟩) :
      AttributeRenamed remark scope scope' a a
  | reference {remark : Bool} {scope scope' : Scope} {name v v' : String}
      (hname : name ∈ referenceAttributes) (h : Renamed scope scope' v v') :
      AttributeRenamed remark scope scope' ⟨⟨none, name⟩, v⟩ ⟨⟨none, name⟩, v'⟩
  | references {remark : Bool} {scope scope' : Scope} {v v' : String}
      (h : List.Forall₂ (Renamed scope scope') (asciiWords v) (asciiWords v')) :
      AttributeRenamed remark scope scope' ⟨⟨none, "memberTypes"⟩, v⟩ ⟨⟨none, "memberTypes"⟩, v'⟩

/-- How documents differ that are the same but for the prefixes chosen: tags and attributes have the
same names, prefixes are bound in any way, and qualified names denote the same. -/
def otherPrefixes : Likeness where
  name := SameName
  scope _ _ := True
  attributes := AttributeRenamed

section
variable {scope scope' : Scope} {s s' v v' name : String} {n n' : ExpandedName}

theorem SameName.sameReference (h : SameName n n') : SameReference n n' := by
  have huri : n.uri = some schemaUri ↔ n'.uri = some schemaUri := by
    have hne (uri : Option String) : uri = some schemaUri ↔ uri.getD "" = schemaUri := by
      cases uri with
      | none => simp [schemaUri]
      | some uri => simp
    rw [hne, hne, h.1]
  unfold SameReference TypeName.ofExpanded
  simp only [huri, h.2]

theorem Renamed.resolveName (h : Renamed scope scope' s s') :
    Alike (fun _ _ => True) SameReference (resolveName scope s) (resolveName scope' s') := by
  cases hs : Schema.resolveName scope s with
  | ok n =>
    obtain ⟨n', hn', hsame⟩ := h.1 n (resolveName_eq_ok.mp hs)
    rw [resolveName_eq_ok.mpr hn']
    exact .ok hsame.sameReference
  | error f =>
    cases hs' : Schema.resolveName scope' s' with
    | ok n' =>
      obtain ⟨n, hn, -⟩ := h.2 n' (resolveName_eq_ok.mp hs')
      rw [resolveName_eq_ok.mpr hn] at hs
      cases hs
    | error f' => exact .error trivial

/-- Other attributes have the values that they had. -/
theorem eq_of_values_otherPrefixes (hname : name ∉ nameAttributes)
    (h : otherPrefixes.Values name scope scope' v v') : v = v' := by
  obtain ⟨-, h⟩ := h
  cases h with
  | same => rfl
  | reference hreference => exact absurd (List.mem_cons_of_mem _ hreference) hname
  | references => exact absurd List.mem_cons_self hname

theorem readAlike_otherPrefixes : otherPrefixes.ReadAlike fun _ _ => True where
  refl _ := trivial
  localName h := h.2
  attributeName h := by cases h <;> rfl
  text hname h := by
    have hother : ∀ name ∈ textAttributes, name ∉ nameAttributes := by decide
    exact eq_of_values_otherPrefixes (hother _ hname) h
  flag hname h tag := by
    have hother : ∀ name ∈ ["abstract", "mixed"], name ∉ nameAttributes := by decide
    rw [eq_of_values_otherPrefixes (hother _ hname) h]
    exact alike_self (fun _ => trivial) _
  count hname h tag := by
    have hother : ∀ name ∈ ["minOccurs", "maxOccurs"], name ∉ nameAttributes := by decide
    rw [eq_of_values_otherPrefixes (hother _ hname) h]
    exact alike_self (fun _ => trivial) _
  unbounded h := by rw [eq_of_values_otherPrefixes (by decide) h]
  reference hname h tag := by
    obtain ⟨-, h⟩ := h
    refine alike_valueAs (F := fun _ _ => True) ?_ fun _ _ _ => trivial
    cases h with
    | same _ hother => exact absurd rfl (hother.resolve_left nofun _ (List.mem_cons_of_mem _ hname))
    | reference _ h => exact h.resolveName
    | references => exact absurd hname (by decide)
  references h tag := by
    obtain ⟨-, h⟩ := h
    refine alike_valueAs (F := fun _ _ => True) ?_ fun _ _ _ => trivial
    cases h with
    | same _ hother => exact absurd rfl (hother.resolve_left nofun _ List.mem_cons_self)
    | reference hname => exact absurd hname (by decide)
    | references h => exact alike_mapM h fun _ _ => Renamed.resolveName

/-- Schemas that differ only in prefixes are read as the same schema, for which the same code is
generated, or both are refused. -/
theorem readSchema_renamed {text text' : String} (options : Options) {root root' : Element}
    (h : readDocument options.allowDoctype text = .ok root)
    (h' : readDocument options.allowDoctype text' = .ok root')
    (hrenamed : otherPrefixes.Elements false root root') :
    (∃ m, readSchema options.allowDoctype text = .ok m ∧
      readSchema options.allowDoctype text' = .ok m ∧
        generate text options = generate text' options) ∨
    (∃ e e', readSchema options.allowDoctype text = .error e ∧
      readSchema options.allowDoctype text' = .error e') := by
  have hread : readSchema options.allowDoctype text = readModel root := by
    unfold readSchema
    rw [h]
  have hread' : readSchema options.allowDoctype text' = readModel root' := by
    unfold readSchema
    rw [h']
  rw [hread, hread']
  have halike := readModel_alike readAlike_otherPrefixes hrenamed
  generalize readModel root = x at halike hread ⊢
  generalize readModel root' = y at halike hread' ⊢
  cases halike with
  | error => exact .inr ⟨_, _, rfl, rfl⟩
  | ok hm =>
    refine .inl ⟨_, rfl, congrArg _ hm.symm, ?_⟩
    unfold generate bindSchema
    rw [hread, hread', hm]

theorem Renamed.of_resolveName (h : Schema.resolveName scope s = .ok n)
    (h' : Schema.resolveName scope' s' = .ok n) : Renamed scope scope' s s' := by
  constructor
  · intro m hm
    obtain rfl := Except.ok.inj (h.symm.trans (resolveName_eq_ok.mpr hm))
    exact ⟨n, resolveName_eq_ok.mp h', rfl, rfl⟩
  · intro m hm
    obtain rfl := Except.ok.inj (h'.symm.trans (resolveName_eq_ok.mpr hm))
    exact ⟨n, resolveName_eq_ok.mp h, rfl, rfl⟩

end

/-- A schema with a prefix for each namespace. -/
def prefixedText : String :=
  "<x:schema xmlns:x=\"http://www.w3.org/2001/XMLSchema\" xmlns:t=\"urn:t\">" ++
    "<x:element name=\"e\" type=\"t:T\"/>" ++
    "<x:simpleType name=\"T\"><x:union memberTypes=\"x:string t:U\"/></x:simpleType></x:schema>"

/-- The same schema with default namespaces, and with other prefixes inside. -/
def unprefixedText : String :=
  "<schema xmlns=\"http://www.w3.org/2001/XMLSchema\">" ++
    "<y:element xmlns:y=\"http://www.w3.org/2001/XMLSchema\" xmlns=\"urn:t\" name=\"e\" " ++
      "type=\"T\"/>" ++
    "<simpleType name=\"T\"><union xmlns:x=\"urn:t\" memberTypes=\"string x:U\"/></simpleType>" ++
    "</schema>"

def schemaName (tag : String) : ExpandedName := ⟨some schemaUri, tag⟩

def prefixedScope : Scope := [(some "x", schemaUri), (some "t", "urn:t")]

def prefixedElement : Element :=
  ⟨schemaName "element", [⟨⟨none, "name"⟩, "e"⟩, ⟨⟨none, "type"⟩, "t:T"⟩], prefixedScope, []⟩

def prefixedUnion : Element :=
  ⟨schemaName "union", [⟨⟨none, "memberTypes"⟩, "x:string t:U"⟩], prefixedScope, []⟩

def prefixedType : Element :=
  ⟨schemaName "simpleType", [⟨⟨none, "name"⟩, "T"⟩], prefixedScope, [.element prefixedUnion]⟩

def prefixedRoot : Element :=
  ⟨schemaName "schema", [], prefixedScope, [.element prefixedElement, .element prefixedType]⟩

def unprefixedElement : Element :=
  ⟨schemaName "element", [⟨⟨none, "name"⟩, "e"⟩, ⟨⟨none, "type"⟩, "T"⟩],
    [(some "y", schemaUri), (none, "urn:t")], []⟩

def unprefixedUnion : Element :=
  ⟨schemaName "union", [⟨⟨none, "memberTypes"⟩, "string x:U"⟩],
    [(some "x", "urn:t"), (none, schemaUri)], []⟩

def unprefixedRoot : Element :=
  ⟨schemaName "schema", [], [(none, schemaUri)],
    [.element unprefixedElement,
      .element ⟨schemaName "simpleType", [⟨⟨none, "name"⟩, "T"⟩], [(none, schemaUri)],
        [.element unprefixedUnion]⟩]⟩

theorem attributeRenamed_name (scope scope' : Scope) (value : String) :
    AttributeRenamed false scope scope' ⟨⟨none, "name"⟩, value⟩ ⟨⟨none, "name"⟩, value⟩ := by
  have hother : ∀ name ∈ nameAttributes, (⟨none, "name"⟩ : ExpandedName) ≠ ⟨none, name⟩ := by
    decide
  exact .same _ (.inr hother)

theorem renamed_prefixedElement : otherPrefixes.Elements false prefixedElement unprefixedElement := by
  have hdenotes : Renamed prefixedScope unprefixedElement.scope "t:T" "T" :=
    .of_resolveName (n := ⟨some "urn:t", "T"⟩) (by decide +kernel) (by decide +kernel)
  refine .intro ⟨rfl, rfl⟩ trivial (.cons (attributeRenamed_name ..) (.cons ?_ .nil)) .nil
  exact .reference (by decide) hdenotes

theorem renamed_prefixedUnion : otherPrefixes.Elements false prefixedUnion unprefixedUnion := by
  have hwords : asciiWords "x:string t:U" = ["x:string", "t:U"] := by decide +kernel
  have hwords' : asciiWords "string x:U" = ["string", "x:U"] := by decide +kernel
  have hbuiltin : Renamed prefixedScope unprefixedUnion.scope "x:string" "string" :=
    .of_resolveName (n := schemaName "string") (by decide +kernel) (by decide +kernel)
  have hschema : Renamed prefixedScope unprefixedUnion.scope "t:U" "x:U" :=
    .of_resolveName (n := ⟨some "urn:t", "U"⟩) (by decide +kernel) (by decide +kernel)
  refine .intro ⟨rfl, rfl⟩ trivial (.cons (.references ?_) .nil) .nil
  rw [hwords, hwords']
  exact .cons hbuiltin (.cons hschema .nil)

theorem renamed_prefixedRoot : otherPrefixes.Elements false prefixedRoot unprefixedRoot := by
  refine .intro ⟨rfl, rfl⟩ trivial .nil (.element renamed_prefixedElement (.element ?_ .nil))
  exact .intro ⟨rfl, rfl⟩ trivial (.cons (attributeRenamed_name ..) .nil)
    (.element renamed_prefixedUnion .nil)

theorem readElement_prefixedElement :
    readElement prefixedElement = .ok ⟨"e", none, .named (.schema "T"), false⟩ := by
  have hname : requiredText prefixedElement "name" = .ok "e" := by decide +kernel
  have habstract : boolAttribute prefixedElement "abstract" = .ok none := by decide +kernel
  have htype : nameAttribute prefixedElement "type" = .ok (some ⟨some "urn:t", "T"⟩) := by
    decide +kernel
  have hschema : TypeName.ofExpanded ⟨some "urn:t", "T"⟩ = .schema "T" := by decide +kernel
  have hdocumentation : documentation prefixedElement = none := by decide +kernel
  rw [readElement, hname, habstract, htype, hdocumentation]
  simp only [hschema, bind, Except.bind]
  rfl

theorem readUnion_prefixedUnion :
    readUnion prefixedUnion = .ok [.named (.builtin "string"), .named (.schema "U")] := by
  have hnames : attributeAs (resolveNames prefixedScope) prefixedUnion "memberTypes" =
      .ok (some [⟨some schemaUri, "string"⟩, ⟨some "urn:t", "U"⟩]) := by decide +kernel
  have hschema : TypeName.ofExpanded ⟨some "urn:t", "U"⟩ = .schema "U" := by decide +kernel
  have hbuiltin : TypeName.ofExpanded ⟨some schemaUri, "string"⟩ = .builtin "string" := by
    decide +kernel
  rw [readUnion]
  change (attributeAs (resolveNames prefixedScope) prefixedUnion "memberTypes" >>= _) = _
  rw [hnames]
  simp [prefixedUnion, Element.elements, bind, Except.bind, hschema, hbuiltin, pure, Except.pure]

theorem readSimpleType_prefixedType : readSimpleType prefixedType =
    .ok ⟨some "T", none, .union [.named (.builtin "string"), .named (.schema "U")]⟩ := by
  have hvariety : readVariety "simpleType" prefixedUnion =
      .ok (.union [.named (.builtin "string"), .named (.schema "U")]) := by
    rw [readVariety, readUnion_prefixedUnion]
    rfl
  have hunion : prefixedUnion.tag ≠ "annotation" := by decide
  have htag : prefixedType.tag = "simpleType" := rfl
  have hattach : prefixedType.elements.attach = [⟨prefixedUnion, List.mem_cons_self⟩] := rfl
  have hdocumentation : documentation prefixedType = none := by decide +kernel
  have hname : prefixedType.attribute? "name" = some "T" := by decide +kernel
  rw [readSimpleType, hdocumentation, hname]
  simp [hattach, hunion, hvariety, htag, bind, Except.bind, pure, Except.pure]

theorem exists_readModel_prefixedRoot : ∃ m, readModel prefixedRoot = .ok m := by
  have helement : readComponent prefixedRoot prefixedElement =
      .ok (some (.element ⟨"e", none, .named (.schema "T"), false⟩)) := by
    change (do return some (Component.element (← readElement prefixedElement))) = _
    rw [readElement_prefixedElement]
    rfl
  have hname : requiredText prefixedType "name" = .ok "T" := by decide +kernel
  have htype : readComponent prefixedRoot prefixedType = .ok (some (.simpleType "T"
      ⟨some "T", none, .union [.named (.builtin "string"), .named (.schema "U")]⟩)) := by
    change (do
      let t ← readSimpleType prefixedType
      return some (Component.simpleType (← requiredText prefixedType "name") t)) = _
    rw [readSimpleType_prefixedType, hname]
    rfl
  have htag : prefixedRoot.tag = "schema" := rfl
  have helements : prefixedRoot.elements = [prefixedElement, prefixedType] := rfl
  rw [readModel, helements]
  simp [htag, readChild, helement, htype, Model.add, insertNew, Model.sharedTypeName?, bind,
    Except.bind, pure, Except.pure]

theorem readSchema_renamed_prefixedText :
    readDocument false prefixedText = .ok prefixedRoot ∧
    readDocument false unprefixedText = .ok unprefixedRoot ∧
    otherPrefixes.Elements false prefixedRoot unprefixedRoot ∧
    ∃ m, readSchema false prefixedText = .ok m ∧ readSchema false unprefixedText = .ok m ∧
      generate prefixedText {} = generate unprefixedText {} := by
  have hread : readDocument false prefixedText = .ok prefixedRoot := by decide +kernel
  have hread' : readDocument false unprefixedText = .ok unprefixedRoot := by decide +kernel
  refine ⟨hread, hread', renamed_prefixedRoot, ?_⟩
  rcases readSchema_renamed {} hread hread' renamed_prefixedRoot with
    hsame | ⟨e, -, herror, -⟩
  · exact hsame
  · obtain ⟨m, hm⟩ := exists_readModel_prefixedRoot
    have hok : readSchema false prefixedText = .ok m := readSchema_eq_ok.mpr ⟨_, hread, hm⟩
    cases hok.symm.trans herror

end XmlBinding.Schema
