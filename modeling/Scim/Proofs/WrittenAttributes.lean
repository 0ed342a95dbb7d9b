import Scim.Resource.Writer
import Scim.Proofs.Conformance
import Scim.Proofs.Entries
import Scim.Proofs.JsonMembers

set_option autoImplicit false

/-!
# Attributes, written and read back

A conforming attribute is read back from what is written of it.  Scalars come back as they were.
The sub-attributes of an entry come back by ascending name, so that the attribute is the same only
up to the order in its entries, which no look-up and no written form shows.

## Main definitions

* `Scim.Value.Same`, `Scim.Attribute.Same` — equality up to the order of sub-attributes.

## Main results

* `Scim.Attribute.exists_filterMapM_members` — the members of an object are read back.
* `Scim.Descriptor.readSimple_toJson` — a simple attribute is read back.
* `Scim.Descriptor.exists_readEntry` — an entry is read back with the same look-ups.
* `Scim.Descriptor.exists_readAttribute` — so is every conforming attribute.
* `Scim.Value.Same.ofList` — entries made of the same sub-attributes are the same.
* `Scim.Attribute.Same.beq`, `Same.toJson_eq` — attributes that are the same up to the order of
  sub-attributes are equal and are written alike.
-/

namespace Scim

/-! ## Written forms -/

/-- The written members of attributes. -/
lemma Attribute.listToMembers_eq_map (as : List Attribute) :
    listToMembers as = as.map fun a => (a.name, a.toJson) := by
  induction as with
  | nil => rfl
  | cons a as ih => rw [listToMembers, ih, List.map_cons]

/-- The written items of values. -/
lemma Value.listToJson_eq_map (vs : List Value) : listToJson vs = vs.map toJson := by
  induction vs with
  | nil => rfl
  | cons v vs ih => rw [listToJson, ih, List.map_cons]

/-- A written scalar. -/
@[simp] lemma Value.toJson_simple (j : Json) : (Value.simple j).toJson = j := by rw [toJson]

/-- A written entry. -/
lemma Value.toJson_complex (e : Entry) : (Value.complex e).toJson =
    Json.ofMembers (e.subAttributes.map fun a => (a.name, a.toJson)) := by
  obtain ⟨subs⟩ := e
  rw [toJson, Attribute.listToMembers_eq_map]

/-- A written attribute. -/
lemma Attribute.toJson_eq (a : Attribute) : a.toJson =
    if a.isMultiValued then .array (a.values.map Value.toJson)
    else (a.values.map Value.toJson).headD .null := by
  obtain ⟨d, values⟩ := a
  rw [toJson, Value.listToJson_eq_map]
  rfl

/-- Names without repeated keys are not repeated. -/
lemma Attribute.nodup_members {as : List Attribute} (h : (as.map Attribute.nameKey).Nodup) :
    ((as.map fun a => (a.name, a.toJson)).map Prod.fst).Nodup := by
  have hkeys : ((as.map Attribute.name).map caseKey).Nodup := by
    rw [List.map_map]
    exact h
  rw [List.map_map]
  exact hkeys.of_map caseKey

/-- **Written members are read back one by one.**  When each member is read as an attribute that is
related to the one it was written from, the object made of them is read as attributes related to
the written ones, though in another order. -/
lemma Attribute.exists_filterMapM_members
    (read : String × Json → Except ResourceError (Option Attribute))
    {R : Attribute → Attribute → Prop} {as : List Attribute}
    (hnodup : (as.map Attribute.nameKey).Nodup)
    (hread : ∀ a ∈ as, ∃ b, read (a.name, a.toJson) = .ok (some b) ∧ R a b) :
    ∃ bs, (Json.putAll [] (as.map fun a => (a.name, a.toJson))).filterMapM read = .ok bs ∧
      (∀ b ∈ bs, ∃ a ∈ as, R a b) ∧ ∀ a ∈ as, ∃ b ∈ bs, R a b := by
  have hmem : ∀ m, m ∈ Json.putAll [] (as.map fun a => (a.name, a.toJson)) ↔
      ∃ a ∈ as, (a.name, a.toJson) = m := by
    intro m
    rw [Json.mem_putAll (nodup_members hnodup), List.mem_map]
  have hsteps : ∀ m ∈ Json.putAll [] (as.map fun a => (a.name, a.toJson)),
      ∃ o, read m = .ok o := by
    intro m hm
    obtain ⟨a, ha, rfl⟩ := (hmem m).mp hm
    obtain ⟨b, hb, -⟩ := hread a ha
    exact ⟨_, hb⟩
  obtain ⟨bs, hrun, hbs⟩ := Outcome.exists_filterMapM hsteps
  refine ⟨bs, hrun, fun b hb => ?_, fun a ha => ?_⟩
  · obtain ⟨m, hm, hmb⟩ := (hbs b).mp hb
    obtain ⟨a, ha, rfl⟩ := (hmem m).mp hm
    obtain ⟨b', hb', hR⟩ := hread a ha
    rw [hb'] at hmb
    cases hmb
    exact ⟨a, ha, hR⟩
  · obtain ⟨b, hb, hR⟩ := hread a ha
    exact ⟨b, (hbs b).mpr ⟨_, (hmem _).mpr ⟨a, ha, rfl⟩, hb⟩, hR⟩

/-! ## Scalars -/

/-- No data type holds `null`. -/
lemma DataType.not_holds_null (type : DataType) : ¬ type.Holds .null := by
  cases type <;> exact id

/-- No data type holds an array. -/
lemma DataType.not_holds_array (type : DataType) (items : List Json) :
    ¬ type.Holds (.array items) := by
  cases type <;> exact id

namespace Descriptor

variable {d : Descriptor}

/-- A scalar of the right type is read. -/
lemma readScalar_of_holds {j : Json} (h : d.type.Holds j) : d.readScalar j = .ok (.simple j) := by
  unfold readScalar
  cases hd : d.type <;> rw [hd] at h <;> cases j
  case integer.number n =>
    cases n with
    | integer n => rfl
    | decimal x => exact h.elim
  case dateTime.string text => exact if_pos h
  case string.string | binary.string | reference.string | boolean.bool | decimal.number => rfl
  all_goals exact h.elim

/-! ## Simple attributes -/

/-- **Values are read back one by one** as related ones, when none of them is written as an
array. -/
lemma exists_readValues (read : Json → Except ResourceError (Option Value))
    {R : Value → Value → Prop} {values : List Value} (harity : d.Arity values)
    (harray : ∀ v ∈ values, ∀ items, v.toJson ≠ .array items)
    (hread : ∀ v ∈ values, ∃ w, read v.toJson = .ok (some w) ∧ R v w) :
    ∃ ws, d.readValues read (⟨d, values⟩ : Attribute).toJson = .ok (some ⟨d, ws⟩) ∧
      List.Forall₂ R values ws := by
  rw [Attribute.toJson_eq, Attribute.isMultiValued]
  dsimp only
  cases hmulti : d.isMultiValued with
  | true =>
    obtain ⟨ws, hws, hall⟩ := Outcome.exists_filterMapM_map hread
    have hne : ¬ ws.isEmpty = true := by
      rw [List.isEmpty_iff_length_eq_zero, ← hall.length_eq, List.length_eq_zero_iff]
      exact harity.ne_nil
    refine ⟨ws, ?_, hall⟩
    unfold readValues
    rw [if_pos rfl, hmulti, if_pos rfl]
    exact Outcome.bind_eq_ok_iff.mpr ⟨ws, hws, congrArg Except.ok (if_neg hne)⟩
  | false =>
    obtain ⟨v, rfl⟩ := List.length_eq_one_iff.mp (harity.single hmulti)
    obtain ⟨w, hw, hvw⟩ := hread v List.mem_cons_self
    refine ⟨[w], ?_, .cons hvw .nil⟩
    unfold readValues
    rw [if_neg Bool.false_ne_true, hmulti, if_neg Bool.false_ne_true, List.map_cons,
      List.headD_cons]
    split
    · rename_i items hitems
      exact absurd hitems (harray v List.mem_cons_self items)
    · rw [hw]
      rfl

/-- **A simple attribute is read back as it was.** -/
lemma readSimple_toJson {a : Attribute} (h : a.ConformsSimple d) :
    d.readSimple a.toJson = .ok (some a) := by
  obtain ⟨d', values⟩ := a
  obtain rfl : d' = d := h.descriptor_eq
  have hread : ∀ v ∈ values, ∃ w, ((d'.readScalar v.toJson).map some) = .ok (some w) ∧ v = w := by
    intro v hv
    obtain ⟨j, rfl, hj⟩ := h.scalars v hv
    exact ⟨_, by rw [Value.toJson_simple, readScalar_of_holds hj]; rfl, rfl⟩
  have harray : ∀ v ∈ values, ∀ items, v.toJson ≠ .array items := by
    intro v hv items
    obtain ⟨j, rfl, hj⟩ := h.scalars v hv
    rw [Value.toJson_simple]
    rintro rfl
    exact d'.type.not_holds_array items hj
  obtain ⟨ws, hws, hall⟩ := exists_readValues (fun v => (d'.readScalar v).map some)
    h.arity harray hread
  have heq : values = ws := by rwa [List.forall₂_eq_eq_eq] at hall
  rw [readSimple, hws, ← heq]

/-- A simple attribute is not written as `null`. -/
lemma isNull_toJson_simple {a : Attribute} (h : a.ConformsSimple d) : a.toJson.isNull = false := by
  rw [Attribute.toJson_eq]
  split
  · rfl
  · rename_i hmulti
    rw [Attribute.isMultiValued, h.descriptor_eq] at hmulti
    obtain ⟨v, hv⟩ := List.length_eq_one_iff.mp (h.arity.single (by simpa using hmulti))
    obtain ⟨j, rfl, hj⟩ := h.scalars v (by simp [hv])
    rw [hv]
    change (Value.simple j).toJson.isNull = false
    rw [Value.toJson_simple]
    cases j with
    | null => exact absurd hj d.type.not_holds_null
    | _ => rfl

/-! ## Entries -/

/-- A sub-attribute is read back as it was. -/
lemma readSub_toJson {a : Attribute} {sub : Descriptor} (hsub : d.sub? a.name = some sub)
    (hcomplex : sub.isComplex = false) (ha : a.ConformsSimple sub) :
    d.readSub a.name a.toJson = .ok (some a) := by
  rw [readSub, isNull_toJson_simple ha, if_neg Bool.false_ne_true, hsub]
  dsimp only
  rw [hcomplex, if_neg Bool.false_ne_true]
  exact readSimple_toJson ha

/-- **An entry is read back with the same look-ups.**

**Proof sketch.**  Each member is read back as the sub-attribute that it was written from, and the
entry made of a rearrangement of the sub-attributes answers like the old one. -/
lemma exists_readEntry {e : Entry} (he : e.Conforms d) :
    ∃ f : Entry, d.readEntry (Value.complex e).toJson = .ok (some (.complex f)) ∧
      ∀ k, e.lookup k = f.lookup k := by
  have hread : ∀ a ∈ e.subAttributes, ∃ b, d.readSub a.name a.toJson = .ok (some b) ∧ a = b := by
    intro a ha
    obtain ⟨sub, hsub, hcomplex, hconforms⟩ := he.subs a ha
    exact ⟨a, readSub_toJson hsub hcomplex hconforms, rfl⟩
  obtain ⟨subs, hrun, hsound, hcomplete⟩ := Attribute.exists_filterMapM_members
    (fun m => d.readSub m.1 m.2) he.nodup hread
  have hsame : ∀ a, a ∈ subs ↔ a ∈ e.subAttributes := by
    intro a
    constructor
    · intro ha
      obtain ⟨_, hb, rfl⟩ := hsound a ha
      exact hb
    · intro ha
      obtain ⟨_, hb, rfl⟩ := hcomplete a ha
      exact hb
  have hne : ¬ subs.isEmpty = true := by
    obtain ⟨a, ha⟩ := List.exists_mem_of_ne_nil _ he.ne_nil
    rw [List.isEmpty_iff]
    exact List.ne_nil_of_mem ((hsame a).mpr ha)
  refine ⟨.ofList subs, ?_, fun k => (Keyed.get?_ofList_of_mem_iff he.nodup hsame k).symm⟩
  rw [Value.toJson_complex]
  exact Outcome.bind_eq_ok_iff.mpr ⟨subs, hrun, congrArg Except.ok (if_neg hne)⟩

end Descriptor

/-! ## The same up to the order of sub-attributes -/

/-- Two values are the same scalar, or entries with the same sub-attributes, each name once, in
whatever order. -/
inductive Value.Same : Value → Value → Prop
  | simple (j : Json) : Same (.simple j) (.simple j)
  | complex {e f : Entry} (he : e.UniqueNames) (hf : f.UniqueNames)
      (h : ∀ k, e.lookup k = f.lookup k) : Same (.complex e) (.complex f)

namespace Value.Same

variable {v w : Value}

/-- Sameness of values is symmetric. -/
lemma symm (h : v.Same w) : w.Same v := by
  cases h with
  | simple j => exact .simple j
  | complex he hf h => exact .complex hf he fun k => (h k).symm

/-- Same values are equal. -/
lemma beq (h : v.Same w) : (v == w) = true := by
  cases h with
  | simple j => exact Value.equivOn.refl _ (Value.uniqueNames_simple j)
  | complex he hf h =>
    rw [Value.complex_beq_complex]
    exact Entry.beq_of_lookup_eq he hf h

/-- Same values are written alike: the members of an object have no order of their own. -/
lemma toJson_eq (h : v.Same w) : v.toJson = w.toJson := by
  cases h with
  | simple j => rfl
  | @complex e f he hf h =>
    have hmem : ∀ a, a ∈ e.subAttributes ↔ a ∈ f.subAttributes := by
      intro a
      have hlookup := h a.nameKey
      have hleft := he.lookup_eq_some_iff (k := a.nameKey) (a := a)
      have hright := hf.lookup_eq_some_iff (k := a.nameKey) (a := a)
      rw [hlookup] at hleft
      simpa using hleft.symm.trans hright
    rw [Value.toJson_complex, Value.toJson_complex]
    refine Json.ofMembers_congr (Attribute.nodup_members (Entry.uniqueNames_iff.mp he).1)
      (Attribute.nodup_members (Entry.uniqueNames_iff.mp hf).1) fun m => ?_
    simp only [List.mem_map, hmem]

end Value.Same

/-- **Entries made of the same sub-attributes are the same**, in whatever order these come. -/
lemma Value.Same.ofList {subs subs' : List Attribute} (hnodup : (subs.map Attribute.nameKey).Nodup)
    (hmem : ∀ a, a ∈ subs' ↔ a ∈ subs) (hsubs : ∀ a ∈ subs, a.UniqueNames) :
    Value.Same (.complex (.ofList subs)) (.complex (.ofList subs')) := by
  have hunique : ∀ as : List Attribute, (∀ a ∈ as, a ∈ subs) → (Entry.ofList as).UniqueNames :=
    fun as has => Entry.uniqueNames_iff.mpr
      ⟨Keyed.nodup_ofList as, fun a ha => hsubs a (has a (Keyed.mem_ofList ha))⟩
  refine .complex (hunique subs fun _ => id) (hunique subs' fun a => (hmem a).mp) fun k => ?_
  show Keyed.get? _ _ (Keyed.ofList _ subs) = Keyed.get? _ _ (Keyed.ofList _ subs')
  rw [Keyed.get?_ofList_of_mem_iff hnodup hmem, Keyed.ofList_eq_self hnodup]

/-- Two attributes have one descriptor, and in order values that are the same. -/
structure Attribute.Same (a b : Attribute) : Prop where
  descriptor_eq : a.descriptor = b.descriptor
  values : List.Forall₂ Value.Same a.values b.values

namespace Attribute.Same

variable {a b : Attribute}

/-- Attributes with unique names are the same as themselves. -/
lemma refl (h : a.UniqueNames) : a.Same a := by
  refine ⟨rfl, List.forall₂_same.mpr fun v hv => ?_⟩
  have hunique := Attribute.uniqueNames_iff.mp h v hv
  cases v with
  | simple j => exact .simple j
  | complex e =>
    rw [Value.uniqueNames_complex] at hunique
    exact .complex hunique hunique fun _ => rfl

/-- Sameness is symmetric. -/
lemma symm (h : a.Same b) : b.Same a :=
  ⟨h.descriptor_eq.symm, (h.values.imp fun _ _ hvw => hvw.symm).flip⟩

/-- Same attributes stand under one key. -/
lemma key_eq (h : a.Same b) : a.key = b.key := by rw [Attribute.key, Attribute.key, h.descriptor_eq]

/-- Same attributes are equal. -/
lemma beq (h : a.Same b) : (a == b) = true :=
  Attribute.beq_iff.mpr ⟨h.key_eq, h.values.imp fun _ _ hvw => hvw.beq⟩

/-- Same attributes are written alike. -/
lemma toJson_eq (h : a.Same b) : a.toJson = b.toJson := by
  have hvalues : a.values.map Value.toJson = b.values.map Value.toJson := by
    rw [← List.forall₂_eq_eq_eq, List.forall₂_map_left_iff, List.forall₂_map_right_iff]
    exact h.values.imp fun _ _ hvw => hvw.toJson_eq
  rw [Attribute.toJson_eq, Attribute.toJson_eq, Attribute.isMultiValued, Attribute.isMultiValued,
    h.descriptor_eq, hvalues]

end Attribute.Same

/-! ## All attributes -/

/-- **A conforming attribute is read back** as the same attribute, up to the order of
sub-attributes. -/
lemma Descriptor.exists_readAttribute {d : Descriptor} {a : Attribute} (h : a.Conforms d) :
    ∃ b, d.readAttribute a.toJson = .ok (some b) ∧ a.Same b := by
  rw [readAttribute]
  cases hcomplex : d.isComplex with
  | false =>
    refine ⟨a, readSimple_toJson ⟨h.descriptor_eq, h.arity, h.scalars hcomplex⟩, rfl, ?_⟩
    refine List.forall₂_same.mpr fun v hv => ?_
    obtain ⟨j, rfl, -⟩ := h.scalars hcomplex v hv
    exact .simple j
  | true =>
    obtain ⟨d', values⟩ := a
    obtain rfl : d' = d := h.descriptor_eq
    have hread : ∀ v ∈ values, ∃ w, d'.readEntry v.toJson = .ok (some w) ∧ v.Same w := by
      intro v hv
      obtain ⟨e, rfl, he⟩ := h.entries hcomplex v hv
      obtain ⟨f, hf, hsame⟩ := exists_readEntry he
      obtain ⟨_, hvalue, hconforms⟩ := readEntry_ok hf
      cases hvalue
      exact ⟨_, hf, .complex he.uniqueNames hconforms.uniqueNames hsame⟩
    have harray : ∀ v ∈ values, ∀ items, v.toJson ≠ .array items := by
      intro v hv items
      obtain ⟨e, rfl, -⟩ := h.entries hcomplex v hv
      rw [Value.toJson_complex]
      simp [Json.ofMembers]
    obtain ⟨ws, hws, hall⟩ := exists_readValues _ h.arity harray hread
    exact ⟨⟨d', ws⟩, hws, rfl, hall⟩

/-- A conforming attribute is not written as `null`. -/
lemma Attribute.Conforms.isNull_toJson {d : Descriptor} {a : Attribute} (h : a.Conforms d) :
    a.toJson.isNull = false := by
  cases hcomplex : d.isComplex with
  | false =>
    exact Descriptor.isNull_toJson_simple ⟨h.descriptor_eq, h.arity, h.scalars hcomplex⟩
  | true =>
    rw [toJson_eq]
    split
    · rfl
    · rename_i hmulti
      rw [isMultiValued, h.descriptor_eq] at hmulti
      obtain ⟨v, hv⟩ := List.length_eq_one_iff.mp (h.arity.single (by simpa using hmulti))
      obtain ⟨e, rfl, -⟩ := h.entries hcomplex v (by simp [hv])
      rw [hv]
      change (Value.complex e).toJson.isNull = false
      rw [Value.toJson_complex]
      rfl

end Scim
