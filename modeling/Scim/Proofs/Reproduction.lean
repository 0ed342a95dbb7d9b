import Scim.Proofs.Locality
import Scim.Proofs.PresenceChanges

set_option autoImplicit false

/-!
# Applying a difference to its source

The body of a difference, applied to the source, gives the target as far as it is selected, with
two exceptions.  Both are stated exactly here: the attribute of the source only that leaves
normative sub-attributes behind, and the entry that goes although source and target share it
because an entry that has to go is contained in it.

## Main definitions

* `Scim.AttributeMap.Unmarked` — no entry uses the sub-attribute `operation`.
* `Scim.AttributeMap.Stranding`, `Overlapping` — the two exceptions.

## Main results

* `Scim.Change.sameSet_applyTo_iff` — one attribute.
* `Scim.Diff.project_patched_agrees_iff` — a whole resource, under a selector.
* `Scim.Diff.patched_agrees` — a whole resource, without restriction.
-/

namespace Scim

/-! ## The exceptions -/

/-- The entries among the values of an attribute. -/
def Attribute.entries (a : Attribute) : List Entry := a.values.filterMap Value.entry?

namespace AttributeMap

/-- No entry of a multi-valued attribute uses the sub-attribute `operation`. -/
def Unmarked (m : AttributeMap) : Prop := ∀ a ∈ m.toList, a.isMultiValued = true → a.Unmarked

instance (m : AttributeMap) : Decidable m.Unmarked :=
  inferInstanceAs (Decidable (∀ a ∈ m.toList, a.isMultiValued = true → a.Unmarked))

/-- A writable attribute of the source only leaves normative sub-attributes behind. -/
def Stranding (s : Selector) (source target : AttributeMap) : Prop :=
  ∃ a ∈ source.toList, target.get? a.schema a.name = none ∧ a.descriptor.isReadOnly = false ∧
    a.Stranded s

instance (s : Selector) (source target : AttributeMap) : Decidable (source.Stranding s target) :=
  inferInstanceAs (Decidable (∃ a ∈ source.toList, _ = none ∧ _ = false ∧ a.Stranded s))

/-- In a writable attribute the selected part of an entry that has to go is contained in that of
one that source and target share. -/
def Overlapping (s : Selector) (source target : AttributeMap) : Prop :=
  ∃ a ∈ source.toList, ∃ b, target.get? a.schema a.name = some b ∧
    a.descriptor.isReadOnly = false ∧ Entry.Overlap (s.pickEntries a) (s.pickEntries b)

/-- No two values of the map mark entries under a key. -/
lemma Unmarked.of_lookup {m : AttributeMap} (h : m.Unmarked) (hm : m.WellFormed)
    {k : List Char × List Char} {a : Attribute} (ha : m.lookup k = some a)
    (hmulti : a.isMultiValued = true) : a.Unmarked :=
  h a (hm.lookup_eq_some_iff.mp ha).1 hmulti

end AttributeMap

/-! ## One attribute -/

namespace Change

variable {core : String} {s : Selector} {d : Descriptor} {a b : Attribute}
  {o p : Option Attribute}

/-- A simple attribute has no selected entries. -/
lemma pickEntries_simple (ha : a.Conforms d) (hcomplex : d.isComplex = false) :
    s.pickEntries a = [] := by
  rw [List.eq_nil_iff_forall_not_mem]
  intro e he
  obtain ⟨f, hf, -⟩ := (Selector.mem_pickEntries ha.descriptor_eq ha.regular.uniqueNames).mp he
  obtain ⟨j, hj, -⟩ := ha.scalars hcomplex _ hf
  cases hj

/-- An attribute that does not take part has no selected entries. -/
lemma pickEntries_of_not_matches (ha : a.Conforms d)
    (hmatches : s.matchesAttribute d.schema d.name = false) : s.pickEntries a = [] := by
  rw [List.eq_nil_iff_forall_not_mem]
  intro e he
  obtain ⟨f, -, rfl, hne⟩ :=
    (Selector.mem_pickEntries ha.descriptor_eq ha.regular.uniqueNames).mp he
  refine Bool.eq_false_iff.mp hne (Entry.isEmpty_iff.mpr fun k => ?_)
  rw [Entry.lookup_restrict, Selector.selects_of_not_matches hmatches, if_neg Bool.false_ne_true]

/-- An attribute that does not take part has no parts. -/
lemma parts_of_not_matches (hmatches : s.matchesAttribute d.schema d.name = false)
    (values : List Value) : s.parts d values = [] := by
  rw [Selector.parts, hmatches, if_neg Bool.false_ne_true]

/-- Entries of a single-valued attribute do not overlap, as there is only one. -/
lemma not_overlap_of_single (ha : a.Conforms d) (hmulti : d.isMultiValued = false)
    (T : List Entry) : ¬ Entry.Overlap (s.pickEntries a) T := by
  rintro ⟨e, he, hnot, f, hf, hlisted, -⟩
  have hlen : (s.pickEntries a).length ≤ 1 := by
    rw [← ha.arity.single hmulti, Selector.pickEntries]
    exact List.length_filterMap_le _ _
  obtain ⟨x, hx⟩ := List.length_eq_one_iff.mp
    (le_antisymm hlen (List.length_pos_of_mem he))
  rw [hx, List.mem_singleton] at he hf
  rw [he, ← hf] at hnot
  exact hnot hlisted

/-- **One common attribute.**  Its selected parts become those of the target exactly when no entry
that has to go is contained in one that both have. -/
lemma sameSet_common_iff (core : String) (ha : a.Conforms d) (hb : b.Conforms d)
    (hmatches : s.matchesAttribute d.schema d.name = true)
    (hmark : d.isMultiValued = true → d.isComplex = true → ∃ mark, d.IsMark mark)
    (hua : d.isMultiValued = true → a.Unmarked) (hub : d.isMultiValued = true → b.Unmarked) :
    Value.sameSet (s.parts d (Attribute.valuesAt ((common core s a b).applyTo (some a))))
        (s.parts d b.values) = true ↔
      ¬ Entry.Overlap (s.pickEntries a) (s.pickEntries b) := by
  by_cases hbeq : (a == b) = true
  · rw [common_of_beq hbeq]
    refine iff_of_true (sameSet_parts_of_beq ha hb hbeq) ?_
    rintro ⟨e, he, hnot, -⟩
    exact hnot (s.listed_pickEntries_of_beq ha.regular.uniqueNames hb.regular.uniqueNames
      ha.descriptor_eq hb.descriptor_eq hbeq e he)
  cases hmulti : d.isMultiValued with
  | false =>
    refine iff_of_true ?_ (not_overlap_of_single ha hmulti _)
    cases hcomplex : d.isComplex with
    | false => exact sameSet_simple ha hb hcomplex hmatches hbeq hmulti
    | true =>
      obtain ⟨e, hav, -⟩ := exists_entry ha hmulti hcomplex
      obtain ⟨f, hbv, -⟩ := exists_entry hb hmulti hcomplex
      rw [common_of_ok (ofCommon_complex ha.descriptor_eq hbeq hmulti hcomplex),
        ofComplex_eq hav hbv]
      exact sameSet_entry ha hb hav hbv hmatches hmulti
  | true =>
    cases hcomplex : d.isComplex with
    | false =>
      refine iff_of_true (sameSet_scalars ha hb hcomplex hmatches hbeq hmulti) ?_
      rintro ⟨e, he, -⟩
      rw [pickEntries_simple ha hcomplex] at he
      exact List.not_mem_nil he
    | true =>
      obtain ⟨mark, hmark⟩ := hmark hmulti hcomplex
      exact sameSet_entries_iff ha hb hmulti hcomplex hmark (hua hmulti) (hub hmulti) hbeq

/-- **One attribute.**  Its selected parts become those of the target exactly when nothing is
stranded and nothing overlaps. -/
theorem sameSet_applyTo_iff (core : String) (ho : ∀ a, o = some a → a.Conforms d)
    (hp : ∀ b, p = some b → b.Conforms d)
    (hmark : d.isMultiValued = true → d.isComplex = true → ∃ mark, d.IsMark mark)
    (huo : ∀ a, o = some a → a.isMultiValued = true → a.Unmarked)
    (hup : ∀ b, p = some b → b.isMultiValued = true → b.Unmarked) :
    Value.sameSet (s.parts d (Attribute.valuesAt ((ofPair core s o p).applyTo o)))
        (s.parts d (Attribute.valuesAt p)) = true ↔
      (∀ a, o = some a → p = none → ¬ a.Stranded s) ∧
        ∀ a b, o = some a → p = some b →
          ¬ Entry.Overlap (s.pickEntries a) (s.pickEntries b) := by
  have hunmarked : ∀ {q : Option Attribute} {x : Attribute}, x.descriptor = d → q = some x →
      (∀ a, q = some a → a.isMultiValued = true → a.Unmarked) →
        d.isMultiValued = true → x.Unmarked := by
    intro q x hxd hx hq hmulti
    exact hq x hx (by rw [Attribute.isMultiValued, hxd, hmulti])
  cases hmatches : s.matchesAttribute d.schema d.name with
  | false =>
    rw [parts_of_not_matches hmatches, parts_of_not_matches hmatches]
    refine iff_of_true rfl ⟨?_, ?_⟩
    · rintro a rfl - ⟨-, -, hfilter, -⟩
      have had := (ho a rfl).descriptor_eq
      rw [Attribute.schema, Attribute.name, had] at hfilter
      rw [Selector.matches_of_hasSubFilter hfilter] at hmatches
      cases hmatches
    · rintro a b rfl rfl ⟨e, he, -⟩
      rw [pickEntries_of_not_matches (ho a rfl) hmatches] at he
      exact List.not_mem_nil he
  | true =>
    cases o with
    | none =>
      refine iff_of_true ?_ ⟨by simp, by simp⟩
      cases p with
      | none =>
        rw [ofPair, applyTo_unchanged, Attribute.valuesAt_none, Selector.parts_nil]
        rfl
      | some b =>
        have hb := hp b rfl
        have hm : s.matchesAttribute b.schema b.name = true := by
          rw [Attribute.schema, Attribute.name, hb.descriptor_eq, hmatches]
        rw [ofPair, if_pos hm]
        exact sameSet_ofAdded hb hmatches (hunmarked hb.descriptor_eq rfl hup)
    | some a =>
      have ha := ho a rfl
      have hm : s.matchesAttribute a.schema a.name = true := by
        rw [Attribute.schema, Attribute.name, ha.descriptor_eq, hmatches]
      cases p with
      | none =>
        rw [ofPair, if_pos hm, Attribute.valuesAt_none, Selector.parts_nil,
          Value.sameSet_nil_right, parts_ofRemoved_eq_nil_iff core ha]
        simp
      | some b =>
        have hb := hp b rfl
        rw [ofPair, if_pos hm, Attribute.valuesAt_some, sameSet_common_iff core ha hb hmatches hmark
          (hunmarked ha.descriptor_eq rfl huo) (hunmarked hb.descriptor_eq rfl hup)]
        simp

end Change

/-! ## Groups with members -/

namespace Standard

/-- The attribute `members` of groups. -/
def membersDescriptor : Descriptor := (groupType.attribute? groupId "members").get rfl

/-- A member with sub-attributes of the given names and texts. -/
def member (subs : List (String × String)) : Value :=
  .complex ⟨subs.filterMap fun sub =>
    (membersDescriptor.sub? sub.1).map fun d => .single d (.string sub.2)⟩

/-- The attributes of a group with the given members. -/
def groupOf (members : List (List (String × String))) : AttributeMap :=
  .ofList [⟨membersDescriptor, members.map member⟩]

/-- The document of a group with the given members. -/
def groupJson (members : List (List (String × String))) : Json :=
  .object [("members", .array (members.map fun subs =>
    .object (subs.map fun sub => (sub.1, .string sub.2))))]

/-- The attribute `displayName` of groups. -/
def displayNameDescriptor : Descriptor := (groupType.attribute? groupId "displayName").get rfl

/-- A group with a name and members. -/
def namedGroup (name : String) (members : List (List (String × String))) : AttributeMap :=
  .ofList [.single displayNameDescriptor (.string name), ⟨membersDescriptor, members.map member⟩]

/-- The document of a group with a name and members. -/
def namedGroupJson (name : String) (members : List (List (String × String))) : Json :=
  .object [("displayName", .string name), ("members", .array (members.map fun subs =>
    .object (subs.map fun sub => (sub.1, .string sub.2))))]

/-- The sub-attributes `$ref` and `value` of the members of a group. -/
def refAndValue : Selector :=
  .ofPaths groupId [⟨none, "members", some "$ref"⟩, ⟨none, "members", some "value"⟩]

end Standard

/-! ## Whole resources -/

namespace Diff

open Standard

variable {t : ResourceType} {source target : AttributeMap} {k : List Char × List Char}

/-- Nothing is stranded under a selector that restricts nothing. -/
lemma not_stranded_all (a : Attribute) : ¬ a.Stranded .all := by
  rintro ⟨-, -, hfilter, -⟩
  cases hfilter

/-- The exceptions of a resource, key by key. -/
lemma forall_not_stranded_iff (hs : source.Conforms t) (s : Selector) :
    ¬ source.Stranding s target ∧ ¬ source.Overlapping s target ↔
      ∀ k d, t.descriptor? k = some d → d.isReadOnly = false →
        (∀ a, source.lookup k = some a → target.lookup k = none → ¬ a.Stranded s) ∧
          ∀ a b, source.lookup k = some a → target.lookup k = some b →
            ¬ Entry.Overlap (s.pickEntries a) (s.pickEntries b) := by
  have hget : ∀ a : Attribute, target.get? a.schema a.name = target.lookup a.key := fun a =>
    AttributeMap.get?_eq_lookup target a.schema a.name
  constructor
  · rintro ⟨hstranding, hoverlapping⟩ k d hd hread
    have hmem : ∀ a, source.lookup k = some a → a ∈ source.toList ∧ a.key = k ∧
        a.descriptor.isReadOnly = false := by
      intro a ha
      obtain ⟨hmem, hkey⟩ := hs.wellFormed.lookup_eq_some_iff.mp ha
      refine ⟨hmem, hkey, ?_⟩
      rw [(hs.conforms_of_lookup hd a ha).descriptor_eq, hread]
    refine ⟨fun a ha hnone hstranded => ?_, fun a b ha hb hoverlap => ?_⟩
    · obtain ⟨hmem, hkey, hwritable⟩ := hmem a ha
      exact hstranding ⟨a, hmem, by rw [hget, hkey, hnone], hwritable, hstranded⟩
    · obtain ⟨hmem, hkey, hwritable⟩ := hmem a ha
      exact hoverlapping ⟨a, hmem, b, by rw [hget, hkey, hb], hwritable, hoverlap⟩
  · intro hall
    have hdescriptor : ∀ a ∈ source.toList, source.lookup a.key = some a ∧
        t.descriptor? a.key = some a.descriptor := by
      intro a ha
      have hlookup := hs.wellFormed.lookup_eq_some_iff.mpr ⟨ha, rfl⟩
      obtain ⟨d, hd, hconforms⟩ := hs.exists_descriptor hlookup
      rw [hconforms.descriptor_eq]
      exact ⟨hlookup, hd⟩
    constructor
    · rintro ⟨a, ha, hnone, hread, hstranded⟩
      obtain ⟨hlookup, hd⟩ := hdescriptor a ha
      rw [hget] at hnone
      exact (hall a.key _ hd hread).1 a hlookup hnone hstranded
    · rintro ⟨a, ha, b, hb, hread, hoverlap⟩
      obtain ⟨hlookup, hd⟩ := hdescriptor a ha
      rw [hget] at hb
      exact (hall a.key _ hd hread).2 a b hlookup hb hoverlap

/-- Under one key, the result has the selected parts of the target exactly when nothing is
stranded and nothing overlaps there. -/
lemma sameSet_step_iff (hregistered : t.IsRegistered) (hs : source.Conforms t)
    (ht : target.Conforms t) (hus : source.Unmarked) (hut : target.Unmarked) (s : Selector)
    {d : Descriptor} (hd : t.descriptor? k = some d) :
    Value.sameSet
        (s.parts d (Attribute.valuesAt ((Change.ofPair t.core s (source.lookup k)
          (target.lookup k)).applyTo (source.lookup k))))
        (s.parts d (Attribute.valuesAt (target.lookup k))) = true ↔
      (∀ a, source.lookup k = some a → target.lookup k = none → ¬ a.Stranded s) ∧
        ∀ a b, source.lookup k = some a → target.lookup k = some b →
          ¬ Entry.Overlap (s.pickEntries a) (s.pickEntries b) :=
  Change.sameSet_applyTo_iff t.core (hs.conforms_of_lookup hd) (ht.conforms_of_lookup hd)
    (hregistered.exists_mark (ResourceType.mem_of_descriptor? hd))
    (fun _ ha => hus.of_lookup hs.wellFormed ha) (fun _ hb => hut.of_lookup ht.wellFormed hb)

/-- **Applying a difference under a selector.**  For every registered resource type, any two of
its resources and any selector, the difference exists, its body can be written, and a service
provider can apply the body to the source.  The selected writable part of the result agrees with
that of the target exactly when no attribute of the source only strands normative sub-attributes
and no entry that has to go is contained in one that source and target share.

**Proof sketch.**  Maps agree key by key.  Under each key the result is one step from the
attribute of the source (`exists_patched`), and that step has the selected parts of the target
unless it is one of the exceptions (`Change.sameSet_applyTo_iff`). -/
theorem project_patched_agrees_iff (hregistered : t.IsRegistered)
    (haddressable : t.IsAddressable) (hmeta : t.HasCommonMeta) {sourceJson targetJson : Json}
    (hsource : AttributeMap.ofJson t sourceJson = .ok source)
    (htarget : AttributeMap.ofJson t targetJson = .ok target)
    (hus : source.Unmarked) (hut : target.Unmarked) (s : Selector) :
    ∃ d body m, between t source target s = .ok d ∧ d.patch = .ok body ∧
      AttributeMap.patched? t.core source body = some m ∧
      ((s.project m).writable.agrees (s.project target).writable = true ↔
        ¬ source.Stranding s target ∧ ¬ source.Overlapping s target) := by
  have hs := AttributeMap.conforms_of_ofJson hsource
  have ht := AttributeMap.conforms_of_ofJson htarget
  obtain ⟨d, body, m, hbetween, hpatch, hm, hregular, hlookup⟩ :=
    exists_patched hregistered hs ht haddressable hmeta s
  refine ⟨d, body, m, hbetween, hpatch, hm, ?_⟩
  rw [(hregular.project s).writable_agrees_iff (ht.regular.project s),
    forall_not_stranded_iff hs]
  refine forall_congr' fun k => forall_congr' fun d => forall_congr' fun hd =>
    forall_congr' fun hread => ?_
  rw [Selector.lookup_project hregular.wellFormed, Selector.lookup_project ht.wellFormed,
    Selector.agrees_project_iff (hregular.regularAt hd) (ht.regular.regularAt hd),
    hlookup k d hd hread]
  exact sameSet_step_iff hregistered hs ht hus hut s hd

/-- **Normative sub-attributes that are left behind.**  From a group that loses its only member
the sub-attributes `$ref` and `value` are selected.  Only the first is removed, so that the result
still has a selected value that the target lacks. -/
theorem project_not_reproduced : ∃ d body m,
    between groupType (groupOf [[("$ref", "r"), ("value", "1")]]) .empty refAndValue = .ok d ∧
    d.patch = .ok body ∧
    AttributeMap.patched? groupType.core (groupOf [[("$ref", "r"), ("value", "1")]]) body =
      some m ∧
    (refAndValue.project m).writable.agrees (refAndValue.project .empty).writable = false := by
  have hsource : AttributeMap.ofJson groupType (groupJson [[("$ref", "r"), ("value", "1")]]) =
      .ok (groupOf [[("$ref", "r"), ("value", "1")]]) := rfl
  have htarget : AttributeMap.ofJson groupType (.object []) = .ok .empty := rfl
  have hstranding : (groupOf [[("$ref", "r"), ("value", "1")]]).Stranding refAndValue .empty := by
    decide +kernel
  obtain ⟨d, body, m, hbetween, hpatch, hm, hiff⟩ :=
    project_patched_agrees_iff isRegistered_groupType isAddressable_groupType
      hasCommonMeta_groupType hsource htarget (by decide +kernel) (by decide +kernel) refAndValue
  refine ⟨d, body, m, hbetween, hpatch, hm, ?_⟩
  exact Bool.eq_false_iff.mpr fun h => (hiff.mp h).1 hstranding

/-- Without restriction the selected entries are all entries. -/
lemma pickEntries_all {a : Attribute} {d : Descriptor} (ha : a.Conforms d) :
    Selector.pickEntries .all a = a.entries := by
  rw [Selector.pickEntries, Attribute.entries]
  refine List.filterMap_congr fun v hv => ?_
  have hregular := ha.regular.values v hv
  cases v with
  | simple j => rfl
  | complex e =>
    obtain ⟨hunique, hne⟩ := Value.regular_complex.mp hregular
    have hpick : Selector.pick .all a (.complex e) = e.subAttributes :=
      List.filter_eq_self.mpr fun _ _ => rfl
    have hself : Entry.ofList e.subAttributes = e := by
      rw [Entry.ofList_eq (Entry.uniqueNames_iff.mp hunique).1]
      cases e
      rfl
    rw [Selector.pickEntry?, hpick, hself, hne]
    rfl

/-- Without restriction nothing overlaps when no entries of the multi-valued complex attributes
do: a simple attribute has no entries, and a single-valued one has only one. -/
lemma not_overlap_all (hs : source.Conforms t) (ht : target.Conforms t)
    (hno : ∀ a ∈ source.toList, ∀ b, target.get? a.schema a.name = some b →
      a.isMultiValued = true → a.descriptor.isComplex = true →
        ¬ Entry.Overlap a.entries b.entries)
    {d : Descriptor} (hd : t.descriptor? k = some d) {a b : Attribute}
    (ha : source.lookup k = some a) (hb : target.lookup k = some b) :
    ¬ Entry.Overlap (Selector.pickEntries .all a) (Selector.pickEntries .all b) := by
  have hac := hs.conforms_of_lookup hd a ha
  obtain ⟨hmem, hkey⟩ := hs.wellFormed.lookup_eq_some_iff.mp ha
  cases hmulti : d.isMultiValued with
  | false => exact Change.not_overlap_of_single hac hmulti _
  | true =>
    cases hcomplex : d.isComplex with
    | false =>
      rintro ⟨e, he, -⟩
      rw [Change.pickEntries_simple hac hcomplex] at he
      exact List.not_mem_nil he
    | true =>
      rw [pickEntries_all hac, pickEntries_all (ht.conforms_of_lookup hd b hb)]
      refine hno a hmem b ?_ ?_ ?_
      · rw [AttributeMap.get?_eq_lookup]
        change target.lookup a.key = some b
        rw [hkey, hb]
      · rw [Attribute.isMultiValued, hac.descriptor_eq, hmulti]
      · rw [hac.descriptor_eq, hcomplex]

/-- **Applying a difference without restriction.**  For every registered resource type and any two
of its resources, in whose multi-valued complex attributes no entry that has to go is contained
in one that source and target share, the difference exists, its body can be written and applied,
and the writable part of the result agrees with that of the target. -/
theorem patched_agrees (hregistered : t.IsRegistered) (haddressable : t.IsAddressable)
    (hmeta : t.HasCommonMeta) {sourceJson targetJson : Json}
    (hsource : AttributeMap.ofJson t sourceJson = .ok source)
    (htarget : AttributeMap.ofJson t targetJson = .ok target)
    (hus : source.Unmarked) (hut : target.Unmarked)
    (hno : ∀ a ∈ source.toList, ∀ b, target.get? a.schema a.name = some b →
      a.isMultiValued = true → a.descriptor.isComplex = true →
        ¬ Entry.Overlap a.entries b.entries) :
    ∃ d body m, between t source target .all = .ok d ∧ d.patch = .ok body ∧
      AttributeMap.patched? t.core source body = some m ∧
      m.writable.agrees target.writable = true := by
  have hs := AttributeMap.conforms_of_ofJson hsource
  have ht := AttributeMap.conforms_of_ofJson htarget
  obtain ⟨d, body, m, hbetween, hpatch, hm, hregular, hlookup⟩ :=
    exists_patched hregistered hs ht haddressable hmeta .all
  refine ⟨d, body, m, hbetween, hpatch, hm, ?_⟩
  rw [hregular.writable_agrees_iff ht.regular]
  intro k d hd hread
  have hm' := hregular.regularAt hd
  have ht' := ht.regular.regularAt hd
  -- without restriction the parts of a list are its values
  rw [hm'.agrees_iff ht', ← Selector.parts_all (d := d) hm'.values,
    ← Selector.parts_all (d := d) ht'.values, hlookup k d hd hread]
  rw [sameSet_step_iff hregistered hs ht hus hut .all hd]
  exact ⟨fun a _ _ => not_stranded_all a, fun a b ha hb => not_overlap_all hs ht hno hd ha hb⟩

/-- A group that keeps one member, loses one and gets one becomes its target. -/
theorem patched_agrees_members : ∃ d body m,
    between groupType (groupOf [[("value", "1")], [("$ref", "r"), ("value", "2")]])
      (groupOf [[("$ref", "r"), ("value", "2")], [("value", "3")]]) .all = .ok d ∧
    d.patch = .ok body ∧
    AttributeMap.patched? groupType.core
      (groupOf [[("value", "1")], [("$ref", "r"), ("value", "2")]]) body = some m ∧
    m.writable.agrees
      (groupOf [[("$ref", "r"), ("value", "2")], [("value", "3")]]).writable = true := by
  have hsource : AttributeMap.ofJson groupType
      (groupJson [[("value", "1")], [("$ref", "r"), ("value", "2")]]) =
      .ok (groupOf [[("value", "1")], [("$ref", "r"), ("value", "2")]]) := rfl
  have htarget : AttributeMap.ofJson groupType
      (groupJson [[("$ref", "r"), ("value", "2")], [("value", "3")]]) =
      .ok (groupOf [[("$ref", "r"), ("value", "2")], [("value", "3")]]) := rfl
  have hno : ∀ a ∈ (groupOf [[("value", "1")], [("$ref", "r"), ("value", "2")]]).toList,
      ∀ b ∈ (groupOf [[("$ref", "r"), ("value", "2")], [("value", "3")]]).get? a.schema a.name,
        ¬ Entry.Overlap a.entries b.entries := by decide +kernel
  exact patched_agrees isRegistered_groupType isAddressable_groupType hasCommonMeta_groupType
    hsource htarget (by decide +kernel) (by decide +kernel) fun a ha b hb _ _ => hno a ha b hb

end Diff

end Scim
