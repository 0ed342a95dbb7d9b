import Scim.Resource
import Scim.Proofs.RoundTrip

set_option autoImplicit false

/-!
# The structural check

Reading and checking are two programs about the same descriptors.  The reader goes through a
document and leaves out what is `null` or empty; the check goes through the tree that comes out and
refuses what is empty or undefined.  This module shows that the check never refuses what the reader
accepts, as both follow from one description of the trees that conform to a resource type.

## Main results

* `Scim.ResourceType.check_of_conforms` — what conforms to a resource type passes its check.
* `Scim.AttributeMap.fits_of_ofJson` — what is read from JSON conforms and passes.
* `Scim.Resource.ofJson_eq` — reading a resource fails only where reading its attributes does.
-/

namespace Scim

/-! ## Conforming trees pass -/

/-- The right number of values passes. -/
lemma Descriptor.Arity.check {d : Descriptor} {values : List Value} (h : d.Arity values) :
    d.definition.checkArity values = .ok () := by
  rcases values with _ | ⟨v, _ | ⟨w, values⟩⟩
  · exact absurd rfl h.ne_nil
  · rfl
  · cases hmulti : d.isMultiValued with
    | true => exact if_pos hmulti
    | false => simpa using h.single hmulti

/-- Values that each pass pass. -/
lemma AttributeDefinition.checkValues_eq_ok {d : AttributeDefinition} {values : List Value}
    (h : ∀ v ∈ values, d.checkValue v = .ok ()) : d.checkValues values = .ok () := by
  induction values with
  | nil => rw [checkValues]
  | cons v vs ih =>
    rw [List.forall_mem_cons] at h
    rw [checkValues]
    exact Outcome.bind_eq_ok_iff.mpr ⟨(), h.1, ih h.2⟩

/-- A scalar passes where no entries are asked for. -/
lemma AttributeDefinition.checkValue_simple {d : AttributeDefinition} (h : d.isComplex = false)
    (j : Json) : d.checkValue (.simple j) = .ok () := by
  rw [checkValue, h]
  rfl

/-- Values of the right number that each pass make an attribute that passes. -/
lemma AttributeDefinition.check_eq_ok {d : Descriptor} {a : Attribute} (harity : d.Arity a.values)
    (hvalues : ∀ v ∈ a.values, d.definition.checkValue v = .ok ()) :
    d.definition.check a = .ok () := by
  cases a
  rw [check]
  exact Outcome.bind_eq_ok_iff.mpr ⟨(), harity.check, checkValues_eq_ok hvalues⟩

/-- A conforming sub-attribute passes. -/
lemma Attribute.ConformsSimple.check {d : Descriptor} {a : Attribute} (h : a.ConformsSimple d)
    (hcomplex : d.isComplex = false) : d.definition.check a = .ok () := by
  refine AttributeDefinition.check_eq_ok h.arity fun v hv => ?_
  obtain ⟨j, rfl, -⟩ := h.scalars v hv
  exact AttributeDefinition.checkValue_simple hcomplex j

/-- Conforming sub-attributes pass. -/
lemma AttributeDefinition.checkSubs_eq_ok {d : Descriptor} {subs : List Attribute}
    (h : ∀ a ∈ subs, ∃ sub, d.sub? a.name = some sub ∧ sub.isComplex = false ∧
      a.ConformsSimple sub) : d.definition.checkSubs subs = .ok () := by
  induction subs with
  | nil => rw [checkSubs]
  | cons a as ih =>
    rw [List.forall_mem_cons] at h
    obtain ⟨⟨sub, hsub, hcomplex, hconforms⟩, has⟩ := h
    rw [Descriptor.sub?, Option.map_eq_some_iff] at hsub
    obtain ⟨x, hx, rfl⟩ := hsub
    rw [checkSubs, hx]
    exact Outcome.bind_eq_ok_iff.mpr ⟨(), hconforms.check hcomplex, ih has⟩

/-- A conforming attribute passes. -/
lemma Attribute.Conforms.check {d : Descriptor} {a : Attribute} (h : a.Conforms d) :
    d.definition.check a = .ok () := by
  refine AttributeDefinition.check_eq_ok h.arity fun v hv => ?_
  cases hcomplex : d.isComplex with
  | false =>
    obtain ⟨j, rfl, -⟩ := h.scalars hcomplex v hv
    exact AttributeDefinition.checkValue_simple hcomplex j
  | true =>
    obtain ⟨⟨subs⟩, rfl, he⟩ := h.entries hcomplex v hv
    have hdefinition : d.definition.isComplex = true := hcomplex
    rw [AttributeDefinition.checkValue, if_pos hdefinition]
    exact AttributeDefinition.checkSubs_eq_ok he.subs

/-- **What conforms to a resource type passes its check.** -/
theorem ResourceType.check_of_conforms {t : ResourceType} {m : AttributeMap} (hbuilt : t.IsBuilt)
    (hm : m.Conforms t) : t.check m = .ok () := by
  refine Outcome.forM_eq_ok fun g hg => ?_
  obtain ⟨schema, hschema, hsame⟩ := hm.exists_schema hbuilt hg
  have hknown : t.hasSchema g.schema = true :=
    List.any_eq_true.mpr ⟨schema, hschema, decide_eq_true hsame⟩
  rw [checkGroup, if_pos hknown]
  refine Outcome.forM_eq_ok fun a ha => ?_
  have hmem : a ∈ m.toList := List.mem_flatMap.mpr ⟨g, hg, ha⟩
  have hfound : t.attribute? g.schema a.name = some a.descriptor := by
    rw [attribute?_eq_descriptor?]
    have hkey : caseKey a.schema = caseKey g.schema := hm.wellFormed.schema_eq g hg a ha
    rw [← hkey]
    exact hm.descriptor?_key hmem
  rw [checkAttribute, hfound]
  exact (hm.attributes a hmem).check

/-- A map that passes the check makes a resource. -/
lemma Resource.ofAttributes_eq_ok {t : ResourceType} {m : AttributeMap} (h : t.check m = .ok ()) :
    ofAttributes t m = .ok ⟨t, m, h⟩ := by
  unfold ofAttributes
  split
  · rfl
  · rename_i e he
    rw [h] at he
    cases he

/-! ## What is read passes -/

namespace AttributeMap

variable {t : ResourceType} {document : Json} {m : AttributeMap}

/-- **What is read from JSON is well formed.**  For every resource type that is made of schema
documents, registered or not, and every document that it accepts, the structural check accepts the
attributes that are read.  Each of them carries the descriptor that the type has for its schema and
name, has a value, and exactly one if it is single-valued.  Each value of a complex attribute is an
entry that has a sub-attribute, no name twice, and no complex sub-attribute.  Each scalar is of the
JSON type that its descriptor asks for.

**Proof sketch.**  The reader drops an attribute without values and an entry without sub-attributes
as soon as it would make one, so what it returns conforms to the type; and a conforming tree meets
every condition of the check, since the descriptor that the reader found under some spelling of a
name is the one that the check finds under the name itself. -/
theorem fits_of_ofJson (hbuilt : t.IsBuilt) (h : ofJson t document = .ok m) :
    t.check m = .ok () ∧ m.Conforms t := by
  have hm := conforms_of_ofJson h
  exact ⟨ResourceType.check_of_conforms hbuilt hm, hm⟩

/-- A type of parcels: a date, two kinds of numbers, and a complex attribute that is defined again
as a text, which nothing finds. -/
def parcelType : ResourceType :=
  .ofSchemas "Parcel" "Parcels"
    ⟨"urn:parcel", "Parcel", "", [Standard.plain "sent" .dateTime, Standard.plain "weight" .decimal,
      Standard.plain "floor" .integer, Standard.entries "stops" Standard.contactSubs,
      Standard.plain "STOPS"]⟩
    [⟨"urn:customs", "Customs", "", [Standard.plain "label"]⟩]

/-- A parcel with parts that count as absent on three levels, and with a name in two spellings. -/
def parcelJson : Json :=
  .object [("Floor", .number (.integer 3)), ("URN:CUSTOMS", .object [("Label", .null)]),
    ("floor", .number (.integer 4)), ("sent", .string "2026-02-28T23:59:60Z"),
    ("stops", .array [.object [], .object [("Value", .string "a"), ("primary", .null)]]),
    ("weight", .null)]

/-- A parcel is read as three attributes, which conform to its type and pass its check. -/
theorem fits_of_ofJson_parcel : ∃ m, ofJson parcelType parcelJson = .ok m ∧ m.size = 3 ∧
    parcelType.check m = .ok () ∧ m.Conforms parcelType := by
  obtain ⟨m, hm⟩ : ∃ m, ofJson parcelType parcelJson = .ok m := ⟨_, rfl⟩
  have hsize : (ofJson parcelType parcelJson).map size = .ok 3 := by rfl
  rw [hm] at hsize
  exact ⟨m, hm, Except.ok.inj hsize, fits_of_ofJson ⟨_, _, _, _, rfl⟩ hm⟩

end AttributeMap

/-- **Reading a resource fails only where reading its attributes does.**  The structural check that
follows refuses nothing. -/
theorem Resource.ofJson_eq {t : ResourceType} (hbuilt : t.IsBuilt) (document : Json) :
    (Resource.ofJson t document).map attributes = AttributeMap.ofJson t document := by
  unfold Resource.ofJson
  cases h : AttributeMap.ofJson t document with
  | error e => rfl
  | ok m =>
    have hcheck := t.check_of_conforms hbuilt (AttributeMap.conforms_of_ofJson h)
    show (Resource.ofAttributes t m).map attributes = .ok m
    rw [ofAttributes_eq_ok hcheck]
    rfl

end Scim
