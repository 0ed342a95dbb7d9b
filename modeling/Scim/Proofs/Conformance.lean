import Scim.Resource.Reader
import Scim.Proofs.AttributeMap
import Scim.Proofs.Outcome

set_option autoImplicit false

/-!
# Conformance to a resource type

What the reader guarantees about the resources it accepts: each attribute carries the descriptor
that its resource type has for it, has values of the right number and kind, and no entry is empty
or names a sub-attribute twice.

## Main definitions

* `Scim.DataType.Holds` — the scalars of a data type.
* `Scim.Entry.Conforms`, `Scim.Attribute.Conforms` — an entry or attribute fits a descriptor.
* `Scim.AttributeMap.Conforms` — a map fits a resource type.

## Main results

* `Scim.ResourceType.readMember_cases` — what one member of a document is read as.
* `Scim.AttributeMap.conforms_of_ofJson` — what is read from JSON conforms to its type.
* `Scim.Attribute.Conforms.uniqueNames` — conforming trees have unique names, so that equality
  is an equivalence among them.
-/

namespace Scim

/-- The scalars of a data type. -/
def DataType.Holds : DataType → Json → Prop
  | .string, .string _ => True
  | .binary, .string _ => True
  | .reference, .string _ => True
  | .dateTime, .string text => DateTime.isValid text = true
  | .boolean, .bool _ => True
  | .integer, .number (.integer _) => True
  | .decimal, .number _ => True
  | _, _ => False

/-- A list of values has the number that a descriptor allows: at least one, and exactly one when
it is single-valued. -/
structure Descriptor.Arity (d : Descriptor) (values : List Value) : Prop where
  ne_nil : values ≠ []
  single : d.isMultiValued = false → values.length = 1

/-- An attribute holds scalars of the type of a descriptor. -/
structure Attribute.ConformsSimple (d : Descriptor) (a : Attribute) : Prop where
  descriptor_eq : a.descriptor = d
  arity : d.Arity a.values
  scalars : ∀ v ∈ a.values, ∃ j, v = .simple j ∧ d.type.Holds j

/-- An entry has a sub-attribute, each name once, and each as the descriptor of its attribute
defines it. -/
structure Entry.Conforms (d : Descriptor) (e : Entry) : Prop where
  ne_nil : e.subAttributes ≠ []
  nodup : (e.subAttributes.map Attribute.nameKey).Nodup
  subs : ∀ a ∈ e.subAttributes, ∃ sub, d.sub? a.name = some sub ∧ sub.isComplex = false ∧
    a.ConformsSimple sub

/-- An attribute has values of the number and kind that a descriptor asks for. -/
structure Attribute.Conforms (d : Descriptor) (a : Attribute) : Prop where
  descriptor_eq : a.descriptor = d
  arity : d.Arity a.values
  scalars : d.isComplex = false → ∀ v ∈ a.values, ∃ j, v = .simple j ∧ d.type.Holds j
  entries : d.isComplex = true → ∀ v ∈ a.values, ∃ e, v = .complex e ∧ e.Conforms d

/-- A map is well formed, and each attribute fits the descriptor that a resource type has for
it. -/
structure AttributeMap.Conforms (t : ResourceType) (m : AttributeMap) : Prop where
  wellFormed : m.WellFormed
  described : ∀ a ∈ m.toList, t.attribute? a.schema a.name = some a.descriptor
  attributes : ∀ a ∈ m.toList, a.Conforms a.descriptor

/-! ## Reading -/

namespace Descriptor

variable {d : Descriptor}

/-- A scalar that is read is kept as it is and of the type of its descriptor. -/
lemma readScalar_ok {value : Json} {v : Value} (h : d.readScalar value = .ok v) :
    v = .simple value ∧ d.type.Holds value := by
  unfold readScalar at h
  split at h
  case h_4 text hd =>
    split at h
    · rename_i hvalid
      cases h
      exact ⟨rfl, by rw [hd]; exact hvalid⟩
    · cases h
  case h_8 => cases h
  all_goals
    rename_i hd
    cases h
    exact ⟨rfl, by rw [hd]; trivial⟩

/-- Values that are read one by one make an attribute of the right number of values. -/
lemma readValues_ok {read : Json → Except ResourceError (Option Value)} {value : Json}
    {a : Attribute} (h : d.readValues read value = .ok (some a)) :
    a.descriptor = d ∧ d.Arity a.values ∧
      ∀ v ∈ a.values, ∃ item, read item = .ok (some v) := by
  -- the attribute is made of the values, if there are any
  have hmake : ∀ values : List Value,
      (pure (if values.isEmpty then none else some ⟨d, values⟩) :
        Except ResourceError (Option Attribute)) = .ok (some a) →
      values ≠ [] ∧ a = ⟨d, values⟩ := by
    intro values hpure
    have hne : values ≠ [] := by
      rintro rfl
      cases hpure
    rw [if_neg (by simpa using hne)] at hpure
    cases hpure
    exact ⟨hne, rfl⟩
  unfold readValues at h
  cases hmulti : d.isMultiValued with
  | true =>
    rw [hmulti, if_pos rfl] at h
    split at h
    · rename_i items
      obtain ⟨values, hvalues, h⟩ := Outcome.bind_eq_ok_iff.mp h
      obtain ⟨hne, rfl⟩ := hmake values h
      have hnot : d.isMultiValued ≠ false := fun hm =>
        Bool.false_ne_true (hm.symm.trans hmulti)
      refine ⟨rfl, ⟨hne, fun hm => absurd hm hnot⟩, fun v hv => ?_⟩
      obtain ⟨item, -, hitem⟩ := Outcome.exists_of_mem_filterMapM hvalues v hv
      exact ⟨item, hitem⟩
    · cases h
  | false =>
    rw [hmulti, if_neg Bool.false_ne_true] at h
    split at h
    · cases h
    · cases hread : read value with
      | error e => rw [hread] at h; cases h
      | ok o =>
        rw [hread] at h
        obtain ⟨hne, rfl⟩ := hmake o.toList h
        cases o with
        | none => exact absurd rfl hne
        | some v =>
          refine ⟨rfl, ⟨hne, fun _ => rfl⟩, fun w hw => ⟨value, ?_⟩⟩
          rw [hread, List.mem_singleton.mp hw]

/-- A simple attribute that is read holds scalars of its type. -/
lemma readSimple_ok {value : Json} {a : Attribute} (h : d.readSimple value = .ok (some a)) :
    a.ConformsSimple d := by
  obtain ⟨hd, harity, hvalues⟩ := readValues_ok h
  refine ⟨hd, harity, fun v hv => ?_⟩
  obtain ⟨item, hitem⟩ := hvalues v hv
  cases hscalar : d.readScalar item with
  | error e => rw [hscalar] at hitem; cases hitem
  | ok w =>
    rw [hscalar] at hitem
    cases hitem
    exact ⟨item, readScalar_ok hscalar⟩

/-- The sub-attribute found for a name has that name. -/
lemma sameName_of_sub? {name : String} {sub : Descriptor} (h : d.sub? name = some sub) :
    SameName sub.name name := by
  obtain ⟨x, hx, rfl⟩ := Option.map_eq_some_iff.mp h
  exact of_decide_eq_true (List.find?_some hx :)

/-- Sub-attributes are found regardless of case. -/
lemma sub?_congr {m n : String} (h : SameName m n) : d.sub? m = d.sub? n := by
  unfold sub? AttributeDefinition.sub?
  congr 2
  funext x
  exact decide_eq_decide.mpr ⟨fun hx => hx.trans h, fun hx => hx.trans h.symm⟩

/-- The sub-attribute found for a name is the one found for its own. -/
lemma sub?_self {name : String} {sub : Descriptor} (h : d.sub? name = some sub) :
    d.sub? sub.name = some sub :=
  (sub?_congr (sameName_of_sub? h)).trans h

/-- A sub-attribute that is read is as its descriptor defines it. -/
lemma readSub_ok {key : String} {value : Json} {a : Attribute}
    (h : d.readSub key value = .ok (some a)) :
    ∃ sub, d.sub? a.name = some sub ∧ sub.isComplex = false ∧ a.ConformsSimple sub := by
  rw [readSub] at h
  split at h
  · cases h
  · split at h
    · cases h
    · rename_i sub hsub
      split at h
      · cases h
      · rename_i hcomplex
        have hconforms := readSimple_ok h
        have hname : a.name = sub.name := by rw [Attribute.name, hconforms.descriptor_eq]
        refine ⟨sub, ?_, by simpa using hcomplex, hconforms⟩
        rw [hname]
        exact sub?_self hsub

/-- An entry that is read conforms to the descriptor of its attribute. -/
lemma readEntry_ok {value : Json} {v : Value} (h : d.readEntry value = .ok (some v)) :
    ∃ e, v = .complex e ∧ e.Conforms d := by
  unfold readEntry at h
  split at h
  · obtain ⟨subs, hsubs, h⟩ := Outcome.bind_eq_ok_iff.mp h
    have hne : subs ≠ [] := by
      rintro rfl
      cases h
    rw [if_neg (by simpa using hne)] at h
    cases h
    refine ⟨.ofList subs, rfl, fun hnil => hne (Keyed.ofList_eq_nil_iff.mp hnil),
      Keyed.nodup_ofList subs, fun a ha => ?_⟩
    obtain ⟨m, -, hm⟩ := Outcome.exists_of_mem_filterMapM hsubs a (Keyed.mem_ofList ha)
    exact readSub_ok hm
  · cases h

/-- An attribute that is read conforms to its descriptor. -/
lemma readAttribute_ok {value : Json} {a : Attribute}
    (h : d.readAttribute value = .ok (some a)) : a.Conforms d := by
  rw [readAttribute] at h
  cases hcomplex : d.isComplex with
  | true =>
    rw [hcomplex, if_pos rfl] at h
    obtain ⟨hd, harity, hvalues⟩ := readValues_ok h
    refine ⟨hd, harity, fun hc => absurd (hc.symm.trans hcomplex) Bool.false_ne_true,
      fun _ v hv => ?_⟩
    obtain ⟨item, hitem⟩ := hvalues v hv
    exact readEntry_ok hitem
  | false =>
    rw [hcomplex, if_neg Bool.false_ne_true] at h
    obtain ⟨hd, harity, hscalars⟩ := readSimple_ok h
    exact ⟨hd, harity, fun _ => hscalars,
      fun hc => absurd (hcomplex.symm.trans hc) Bool.false_ne_true⟩

end Descriptor

/-- Descriptors are found regardless of case. -/
lemma ResourceType.attribute?_congr (t : ResourceType) {schema schema' name name' : String}
    (hschema : SameName schema schema') (hname : SameName name name') :
    t.attribute? schema name = t.attribute? schema' name' := by
  unfold attribute?
  congr 1
  funext x
  exact decide_eq_decide.mpr
    ⟨fun hx => ⟨hx.1.trans hschema, hx.2.trans hname⟩,
      fun hx => ⟨hx.1.trans hschema.symm, hx.2.trans hname.symm⟩⟩

/-- The descriptor found for a schema and name is the one found for its own. -/
lemma ResourceType.attribute?_self {t : ResourceType} {schema name : String} {d : Descriptor}
    (h : t.attribute? schema name = some d) : t.attribute? d.schema d.name = some d := by
  have hd : SameName d.schema schema ∧ SameName d.name name := by
    simpa using List.find?_some h
  exact (t.attribute?_congr hd.1 hd.2).trans h

namespace ResourceType

variable {t : ResourceType} {schema key : String} {value : Json} {a : Attribute}
  {as : List Attribute}

/-- An attribute that is read has the schema and the name that were asked for. -/
lemma sameName_of_readIn (h : t.readIn schema key value = .ok (some a)) :
    SameName a.schema schema ∧ SameName a.name key := by
  rw [readIn] at h
  split at h
  · cases h
  · rename_i d hd
    rw [Attribute.schema, Attribute.name, (Descriptor.readAttribute_ok h).descriptor_eq]
    simpa using List.find?_some hd

/-- An attribute that is read is one of the resource type and conforms to it. -/
lemma readIn_ok (h : t.readIn schema key value = .ok (some a)) :
    t.attribute? a.schema a.name = some a.descriptor ∧ a.Conforms a.descriptor := by
  rw [readIn] at h
  split at h
  · cases h
  · rename_i d hd
    have hconforms := Descriptor.readAttribute_ok h
    have heq := hconforms.descriptor_eq
    rw [Attribute.schema, Attribute.name, heq]
    exact ⟨t.attribute?_self hd, hconforms⟩

/-- What a member is read as: nothing, the attributes of an extension, or an attribute of the core
schema. -/
lemma readMember_cases (h : t.readMember key value = .ok as) : as = [] ∨
    (∃ extension members, t.extension? key = some extension ∧ value = .object members ∧
      members.filterMapM (fun m => if m.2.isNull then .ok none else t.readIn extension m.1 m.2) =
        .ok as) ∨
    t.extension? key = none ∧ ∃ a, as = [a] ∧ t.readIn t.core key value = .ok (some a) := by
  unfold readMember at h
  split at h
  · cases h
    exact .inl rfl
  · split at h
    · rename_i extension hextension
      split at h
      · rename_i members _
        exact .inr (.inl ⟨extension, members, hextension, rfl, h⟩)
      · cases h
    · rename_i hextension
      cases hread : t.readIn t.core key value with
      | error e => rw [hread] at h; cases h
      | ok o =>
        rw [hread] at h
        cases h
        cases o with
        | none => exact .inl rfl
        | some a => exact .inr (.inr ⟨hextension, a, rfl, rfl⟩)

/-- Each attribute that a member holds is read in the part of the extension that the key names, or
else of the core schema. -/
lemma exists_readIn_of_mem (h : t.readMember key value = .ok as) : ∀ a ∈ as, ∃ name v,
    t.readIn ((t.extension? key).getD t.core) name v = .ok (some a) := by
  intro a ha
  rcases readMember_cases h with
    rfl | ⟨extension, members, hextension, -, hrun⟩ | ⟨hcore, b, rfl, hread⟩
  · cases ha
  · obtain ⟨m, -, hm⟩ := Outcome.exists_of_mem_filterMapM hrun a ha
    split at hm
    · cases hm
    · exact ⟨m.1, m.2, by rw [hextension]; exact hm⟩
  · rw [List.mem_singleton.mp ha, hcore]
    exact ⟨key, value, hread⟩

end ResourceType

namespace AttributeMap

variable {t : ResourceType} {document : Json} {m : AttributeMap}

/-- A map built from attributes that conform to a resource type conforms to it. -/
lemma conforms_ofList {as : List Attribute} (h : ∀ a ∈ as,
    t.attribute? a.schema a.name = some a.descriptor ∧ a.Conforms a.descriptor) :
    (ofList as).Conforms t := by
  have hwf := wellFormed_ofList as
  have hmem : ∀ a ∈ (ofList as).toList, a ∈ as := fun a ha =>
    mem_of_lookup_ofList (hwf.lookup_eq_some_iff.mpr ⟨ha, rfl⟩)
  exact ⟨hwf, fun a ha => (h a (hmem a ha)).1, fun a ha => (h a (hmem a ha)).2⟩

/-- What is read from JSON is built from attributes that conform to the resource type. -/
lemma exists_of_ofJson (h : ofJson t document = .ok m) : ∃ as, m = ofList as ∧ ∀ a ∈ as,
    t.attribute? a.schema a.name = some a.descriptor ∧ a.Conforms a.descriptor := by
  unfold ofJson at h
  split at h
  · obtain ⟨as, has, h⟩ := Outcome.bind_eq_ok_iff.mp h
    cases h
    refine ⟨as, rfl, fun a ha => ?_⟩
    obtain ⟨x, -, ys, hys, hy⟩ := Outcome.exists_of_mem_flatMapM has a ha
    obtain ⟨name, v, hread⟩ := ResourceType.exists_readIn_of_mem hys a hy
    exact ResourceType.readIn_ok hread
  · cases h

/-- **What is read from JSON conforms to its type.** -/
theorem conforms_of_ofJson (h : ofJson t document = .ok m) : m.Conforms t := by
  obtain ⟨as, rfl, has⟩ := exists_of_ofJson h
  exact conforms_ofList has

end AttributeMap

/-! ## Unique names -/

/-- Scalars hold no entries. -/
lemma Attribute.ConformsSimple.uniqueNames {d : Descriptor} {a : Attribute}
    (h : a.ConformsSimple d) : a.UniqueNames := by
  rw [Attribute.uniqueNames_iff]
  intro v hv
  obtain ⟨j, rfl, -⟩ := h.scalars v hv
  exact Value.uniqueNames_simple j

/-- A conforming entry has unique names. -/
lemma Entry.Conforms.uniqueNames {d : Descriptor} {e : Entry} (h : e.Conforms d) :
    e.UniqueNames := by
  rw [Entry.uniqueNames_iff]
  refine ⟨h.nodup, fun a ha => ?_⟩
  obtain ⟨sub, -, -, hconforms⟩ := h.subs a ha
  exact hconforms.uniqueNames

/-- A conforming attribute has unique names. -/
lemma Attribute.Conforms.uniqueNames {d : Descriptor} {a : Attribute} (h : a.Conforms d) :
    a.UniqueNames := by
  rw [Attribute.uniqueNames_iff]
  intro v hv
  cases hcomplex : d.isComplex with
  | true =>
    obtain ⟨e, rfl, he⟩ := h.entries hcomplex v hv
    exact (Value.uniqueNames_complex e).mpr he.uniqueNames
  | false =>
    obtain ⟨j, rfl, -⟩ := h.scalars hcomplex v hv
    exact Value.uniqueNames_simple j

end Scim
