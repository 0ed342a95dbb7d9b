import Scim.Proofs.Edits
import Scim.Proofs.Locality

set_option autoImplicit false

/-!
# Differences of equal trees

Clients build trees of attributes freely: any descriptors, simple and complex values side by side,
attributes without values, entries under attributes that call themselves simple.  No validator need
accept them.  This module shows that building alone gives each entry sub-attributes of different
names, at every depth, which is all that comparing equal trees relies on: their difference is empty.

## Main definitions

* `Scim.Value.Built`, `Scim.Entry.Built`, `Scim.Attribute.Built`, `Scim.AttributeMap.Built` — trees
  that are made from nothing by edits of entries and maps.

## Main results

* `Scim.Entry.Built.uniqueNames` — built trees have unique names.
* `Scim.AttributeMap.Built.beq_self` — a built map is equal to itself.
* `Scim.Diff.between_of_beq` — the difference of equal built maps is empty.
-/

namespace Scim

/-! ## Built trees -/

mutual

/-- A value that is built: any scalar, and any built entry. -/
inductive Value.Built : Value → Prop
  | simple (j : Json) : Value.Built (.simple j)
  | complex (e : Entry) (h : Entry.Built e) : Value.Built (.complex e)

/-- An entry that is built: what edits make of nothing that put in built attributes. -/
inductive Entry.Built : Entry → Prop
  | ofEdits (edits : List (Edit String)) (h : ∀ a, .put a ∈ edits → Attribute.Built a) :
      Entry.Built (.ofEdits edits)

/-- An attribute that is built: one of any descriptor, with built values. -/
inductive Attribute.Built : Attribute → Prop
  | mk (d : Descriptor) (values : List Value) (h : ∀ v ∈ values, Value.Built v) :
      Attribute.Built ⟨d, values⟩

end

/-- A map that is built: what edits make of nothing that put in built attributes. -/
def AttributeMap.Built (m : AttributeMap) : Prop :=
  ∃ edits, m = .ofEdits edits ∧ ∀ a, .put a ∈ edits → a.Built

/-- A map made of a list of built attributes is built. -/
lemma AttributeMap.built_ofList {as : List Attribute} (h : ∀ a ∈ as, a.Built) :
    (AttributeMap.ofList as).Built := by
  refine ⟨as.map .put, (AttributeMap.ofEdits_put as).symm, fun a ha => h a ?_⟩
  exact (List.mem_map_of_injective fun _ _ => Edit.put.inj).mp ha

/-- An entry made of a list of built attributes is built. -/
lemma Entry.built_ofList {subs : List Attribute} (h : ∀ a ∈ subs, a.Built) :
    (Entry.ofList subs).Built := by
  rw [← Entry.ofEdits_put]
  refine .ofEdits _ fun a ha => h a ?_
  exact (List.mem_map_of_injective fun _ _ => Edit.put.inj).mp ha

/-- An entry that edits make has unique names when the attributes that they put in have. -/
lemma Entry.uniqueNames_ofEdits {edits : List (Edit String)}
    (h : ∀ a, .put a ∈ edits → a.UniqueNames) : (Entry.ofEdits edits).UniqueNames := by
  obtain ⟨hnodup, hlookup⟩ := Entry.ofEdits_spec edits
  refine Entry.uniqueNames_iff.mpr ⟨hnodup, fun a ha => h a ?_⟩
  have hfound := Keyed.get?_of_mem hnodup ha
  rw [hlookup] at hfound
  exact Edit.put_mem_of_latest? hfound

mutual

/-- Built values have unique names. -/
theorem Value.Built.uniqueNames {v : Value} : v.Built → v.UniqueNames
  | .simple j => Value.uniqueNames_simple j
  | .complex e h => (Value.uniqueNames_complex e).mpr h.uniqueNames

/-- **Built entries have unique names.**  Insertion replaces, so no name comes twice. -/
theorem Entry.Built.uniqueNames {e : Entry} : e.Built → e.UniqueNames
  | .ofEdits _ h => Entry.uniqueNames_ofEdits fun a ha => (h a ha).uniqueNames

/-- Built attributes have unique names. -/
theorem Attribute.Built.uniqueNames {a : Attribute} : a.Built → a.UniqueNames
  | .mk _ _ h => Attribute.uniqueNames_iff.mpr fun v hv => (h v hv).uniqueNames

end

namespace AttributeMap

variable {m n : AttributeMap} {k : List Char × List Char} {a : Attribute}

/-- A built map is well formed. -/
lemma Built.wellFormed (h : m.Built) : m.WellFormed := by
  obtain ⟨edits, rfl, -⟩ := h
  exact (ofEdits_spec edits).1

/-- The attributes of a built map have unique names. -/
lemma Built.uniqueNames_of_lookup (h : m.Built) (ha : m.lookup k = some a) : a.UniqueNames := by
  obtain ⟨edits, rfl, hbuilt⟩ := h
  rw [(ofEdits_spec edits).2] at ha
  exact (hbuilt a (Edit.put_mem_of_latest? ha)).uniqueNames

/-- **Equality of built maps is symmetric**, though it looks only for what the first map has. -/
lemma Built.beq_symm (hm : m.Built) (hn : n.Built) (h : (m == n) = true) : (n == m) = true := by
  rw [beq_iff hm.wellFormed hn.wellFormed] at h
  rw [beq_iff hn.wellFormed hm.wellFormed]
  intro k
  have hk := h k
  generalize ha : m.lookup k = o at hk ⊢
  generalize hb : n.lookup k = o' at hk ⊢
  cases hk with
  | none => exact .none
  | @some a b hba =>
    exact .some (Attribute.equivOn.symm b a (hn.uniqueNames_of_lookup hb)
      (hm.uniqueNames_of_lookup ha) hba)

/-- A built map is equal to itself. -/
lemma Built.beq_self (h : m.Built) : (m == m) = true := by
  rw [beq_iff h.wellFormed h.wellFormed]
  intro k
  cases ha : m.lookup k with
  | none => exact .none
  | some a => exact .some (Attribute.equivOn.refl a (h.uniqueNames_of_lookup ha))

/-- Each attribute of a map stands in any equal map, too. -/
lemma exists_get?_of_beq (h : (m == n) = true) (ha : a ∈ m.toList) :
    ∃ b, n.get? a.schema a.name = some b ∧ (b == a) = true := by
  change AttributeMap.beq m n = true at h
  rw [AttributeMap.beq, Bool.and_eq_true, List.all_eq_true] at h
  have hfound := h.2 a ha
  cases hb : n.get? a.schema a.name with
  | none =>
    rw [hb] at hfound
    cases hfound
  | some b =>
    rw [hb] at hfound
    exact ⟨b, rfl, hfound⟩

end AttributeMap

/-! ## Their differences -/

namespace Diff

variable {source target : AttributeMap}

/-- A map has nothing that an equal one lacks. -/
lemma sourceOnly_eq_nil (s : Selector) (h : (source == target) = true) :
    sourceOnly s source target = [] := by
  refine List.filter_eq_nil_iff.mpr fun a ha => ?_
  obtain ⟨b, hb, -⟩ := AttributeMap.exists_get?_of_beq h ha
  simp [AttributeMap.contains, hb]

/-- What two equal built maps both have is equal, in the order in which changes are made. -/
lemma beq_of_mem_common (hs : source.Built) (ht : target.Built) (h : (source == target) = true)
    {s : Selector} {p : Attribute × Attribute} (hp : p ∈ common s source target) :
    (p.1 == p.2) = true := by
  obtain ⟨a, ha, hpair⟩ := List.mem_filterMap.mp hp
  obtain ⟨c, hc, rfl⟩ := Option.map_eq_some_iff.mp hpair
  obtain ⟨b, hb, hba⟩ := AttributeMap.exists_get?_of_beq h (List.mem_filter.mp ha).1
  obtain rfl : b = c := Option.some.inj (hb.symm.trans hc)
  obtain ⟨hlookup, hlookup'⟩ := lookup_of_mem_common hs.wellFormed hp
  -- maps compare from the target to the source, changes from the source to the target
  exact Attribute.equivOn.symm b a (ht.uniqueNames_of_lookup hlookup')
    (hs.uniqueNames_of_lookup hlookup) hba

/-- **The difference of equal trees is empty.**  For any two equal maps that are built from any
attributes, any resource type and any selector, the difference exists and has neither deletions nor
updates, whatever the order and spelling in which the maps list their attributes.

**Proof sketch.**  Each map has every attribute of the other, as equality of built maps is
symmetric, so there is nothing that only one of them has.  What both have is equal in the other
direction, too, as built trees have unique names, and equal attributes make no change. -/
theorem between_of_beq (hs : source.Built) (ht : target.Built) (h : (source == target) = true)
    (t : ResourceType) (s : Selector) : between t source target s = .ok ⟨t, [], []⟩ := by
  have hsource : sourceOnly s source target = [] := sourceOnly_eq_nil s h
  have htarget : targetOnly s source target = [] := sourceOnly_eq_nil s (hs.beq_symm ht h)
  have hcommon : (common s source target).mapM (fun p => Change.ofCommon t.core s p.1 p.2) =
      .ok ((common s source target).map fun _ => Change.unchanged) :=
    Outcome.mapM_eq_ok fun p hp => if_pos (beq_of_mem_common hs ht h hp)
  rw [between, hcommon, hsource, htarget]
  simp [bind, Except.bind, pure, Except.pure, Change.unchanged]

/-- An attribute without values. -/
def bareAttribute (schema name : String) : Attribute := ⟨⟨schema, { name, type := .string }⟩, []⟩

/-- An attribute of a simple and a complex value, of which its descriptor knows nothing. -/
def mixedAttribute (schema name : String) (subs : List String) : Attribute :=
  ⟨⟨schema, { name, type := .boolean }⟩,
    [.simple .null, .complex (.ofList (subs.map (bareAttribute schema)))]⟩

/-- Attributes without values are built. -/
lemma built_bareAttribute (schema name : String) : (bareAttribute schema name).Built :=
  .mk _ _ fun _ hv => absurd hv List.not_mem_nil

/-- Attributes of a simple and a complex value are built. -/
lemma built_mixedAttribute (schema name : String) (subs : List String) :
    (mixedAttribute schema name subs).Built := by
  refine .mk _ _ fun v hv => ?_
  rcases List.mem_pair.mp hv with rfl | rfl
  · exact .simple _
  · refine .complex _ (Entry.built_ofList fun a ha => ?_)
    obtain ⟨sub, -, rfl⟩ := List.mem_map.mp ha
    exact built_bareAttribute schema sub

/-- A tree that a client builds of a list. -/
def firstTree : AttributeMap :=
  .ofList [bareAttribute "urn:a" "flag", mixedAttribute "urn:a" "tree" ["leaf", "bud"]]

/-- The same tree, built in another order and spelling by a client that changes its mind once. -/
def secondTree : AttributeMap := .ofEdits
  [.put (mixedAttribute "URN:A" "Tree" ["Bud", "LEAF"]), .put (bareAttribute "urn:a" "odd"),
    .put (bareAttribute "urn:A" "FLAG"), .remove ("URN:a", "Odd")]

/-- Neither two clients that build the same tree nor one alone see a difference. -/
theorem between_of_beq_clients :
    between Standard.groupType firstTree secondTree .all = .ok ⟨Standard.groupType, [], []⟩ ∧
      between Standard.groupType firstTree firstTree .all = .ok ⟨Standard.groupType, [], []⟩ := by
  have hfirst : firstTree.Built := by
    refine AttributeMap.built_ofList fun a ha => ?_
    rcases List.mem_pair.mp ha with rfl | rfl
    · exact built_bareAttribute _ _
    · exact built_mixedAttribute _ _ _
  have hsecond : secondTree.Built := by
    refine ⟨_, rfl, fun a ha => ?_⟩
    simp only [List.mem_cons, Edit.put.injEq, reduceCtorEq, List.not_mem_nil, or_false] at ha
    rcases ha with rfl | rfl | rfl
    · exact built_mixedAttribute _ _ _
    · exact built_bareAttribute _ _
    · exact built_bareAttribute _ _
  have hsame : (firstTree == secondTree) = true := by decide +kernel
  exact ⟨between_of_beq hfirst hsecond hsame Standard.groupType .all,
    between_of_beq hfirst hfirst hfirst.beq_self Standard.groupType .all⟩

end Diff

end Scim
