import Scim.Proofs.DeletionPaths
import Scim.Proofs.Narrowing
import Scim.Proofs.Reordering
import Scim.Proofs.SetReconciliation

set_option autoImplicit false

/-!
# Attributes of which nothing is selected

Source and target are first compared by whole attributes, and only then is each attribute reduced
to its selected sub-attributes.  So it might matter whether an attribute is absent or merely shows
nothing to the selector.  It does in one case: when the source shows more than normative
sub-attributes of a multi-valued attribute of which the target shows nothing.  If the target has
the attribute all the same, it is deleted as a whole, and if not, sub-attribute by sub-attribute.

## Main definitions

* `Scim.Selector.ignores` — a complex attribute of which nothing is selected.
* `Scim.Selector.trim` — a resource without these attributes.
* `Scim.Attribute.Swept` — the case in which it matters that the target has the attribute.

## Main results

* `Scim.Change.alike_trimmed`, `ofPair_of_swept` — one attribute.
* `Scim.Diff.same_trim_iff` — when a difference does not depend on attributes of which nothing is
  selected.
-/

namespace Scim

namespace Selector

variable {s : Selector} {d : Descriptor} {a : Attribute} {o : Option Attribute}

/-- An attribute is complex, and none of the sub-attributes of its entries is selected. -/
def ignores (s : Selector) (a : Attribute) : Bool :=
  a.descriptor.isComplex && a.entries.all fun e =>
    e.subAttributes.all fun x => !s.matchesSub a.schema a.name x.name

/-- A resource without the complex attributes of which nothing is selected. -/
def trim (s : Selector) (m : AttributeMap) : AttributeMap :=
  .ofList (m.toList.filter fun a => !s.ignores a)

/-- An attribute that may be absent, and is so when nothing of it is selected. -/
def trimmed (s : Selector) (o : Option Attribute) : Option Attribute :=
  o.filter fun a => !s.ignores a

/-- What a trimmed resource has under a key. -/
lemma lookup_trim {m : AttributeMap} (hm : m.WellFormed) (k : List Char × List Char) :
    (s.trim m).lookup k = s.trimmed (m.lookup k) := by
  have hnodup : ((m.toList.filter fun a => !s.ignores a).map Attribute.key).Nodup :=
    hm.nodup_toList.sublist (List.filter_sublist.map _)
  rw [trim, AttributeMap.lookup_ofList hnodup, Keyed.get?_filter hm.nodup_toList,
    ← hm.lookup_eq_get?, trimmed]

/-- An attribute of which something is selected stays. -/
lemma trimmed_of_not_ignores (h : s.ignores a = false) : s.trimmed (some a) = some a := by
  simp [trimmed, h]

/-- An attribute of which nothing is selected goes. -/
lemma trimmed_of_ignores (h : s.ignores a = true) : s.trimmed (some a) = none := by
  simp [trimmed, h]

/-- An attribute stays, or it is there and nothing of it is selected. -/
lemma trimmed_cases (s : Selector) (o : Option Attribute) :
    s.trimmed o = o ∨ ∃ a, o = some a ∧ s.ignores a = true := by
  cases o with
  | none => exact .inl rfl
  | some a =>
    cases h : s.ignores a with
    | false => exact .inl (trimmed_of_not_ignores h)
    | true => exact .inr ⟨a, rfl, h⟩

/-- What stays was there. -/
lemma eq_some_of_trimmed (h : s.trimmed o = some a) : o = some a :=
  (Option.filter_eq_some_iff.mp h).1

/-- A trimmed resource conforms as before. -/
lemma conforms_trim {t : ResourceType} {m : AttributeMap} (hm : m.Conforms t) :
    (s.trim m).Conforms t := by
  refine AttributeMap.conforms_ofList fun a ha => ?_
  have hmem := (List.mem_filter.mp ha).1
  exact ⟨hm.described a hmem, hm.attributes a hmem⟩

/-- A complex attribute is ignored when no sub-attribute is picked. -/
lemma ignores_iff (h : a.descriptor.isComplex = true) :
    s.ignores a = true ↔ Change.picked s a = [] := by
  rw [ignores, h, Bool.true_and, Change.picked, List.all_eq_true, List.flatMap_eq_nil_iff]
  constructor
  · intro hall v hv
    cases v with
    | simple j => rfl
    | complex e =>
      have he : e ∈ a.entries := List.mem_filterMap.mpr ⟨_, hv, rfl⟩
      refine List.filter_eq_nil_iff.mpr fun x hx => ?_
      simpa using List.all_eq_true.mp (hall e he) x hx
  · intro hall e he
    obtain ⟨v, hv, hve⟩ := List.mem_filterMap.mp he
    cases v with
    | simple j => cases hve
    | complex f =>
      cases hve
      refine List.all_eq_true.mpr fun x hx => ?_
      simpa using List.filter_eq_nil_iff.mp (hall _ hv) x hx

/-- An attribute shows nothing when nothing of it is selected. -/
lemma shown_eq_nil_iff (ha : a.Conforms d) (hcomplex : d.isComplex = true) :
    s.shown a = [] ↔ s.ignores a = true := by
  rw [shown_eq ha.regular.uniqueNames, Keyed.distinct_eq_nil_iff,
    ignores_iff (ha.descriptor_eq ▸ hcomplex), ← Change.parts_eq_nil_iff ha hcomplex,
    Change.parts_complex ha hcomplex, List.map_eq_nil_iff]

/-- An attribute of which nothing is selected has no selected parts. -/
lemma parts_of_ignores (ha : a.Conforms d) (h : s.ignores a = true) : s.parts d a.values = [] := by
  have hcomplex : a.descriptor.isComplex = true := by
    rw [ignores, Bool.and_eq_true] at h
    exact h.1
  exact (Change.parts_eq_nil_iff ha (ha.descriptor_eq ▸ hcomplex)).mpr
    ((ignores_iff hcomplex).mp h)

section Trimmed

variable (ho : ∀ a, o = some a → a.Conforms d)

include ho

/-- What stays conforms as before. -/
lemma conforms_trimmed : ∀ a, s.trimmed o = some a → a.Conforms d :=
  fun a ha => ho a (eq_some_of_trimmed ha)

/-- Simple attributes stay. -/
lemma trimmed_of_simple (hsimple : d.isComplex = false) : s.trimmed o = o := by
  cases o with
  | none => rfl
  | some a =>
    refine trimmed_of_not_ignores ?_
    rw [ignores, (ho a rfl).descriptor_eq, hsimple, Bool.false_and]

/-- The selected parts of the values stay. -/
lemma parts_trimmed (s : Selector) :
    s.parts d (Attribute.valuesAt (s.trimmed o)) = s.parts d (Attribute.valuesAt o) := by
  cases o with
  | none => rfl
  | some a =>
    cases hignores : s.ignores a with
    | false => rw [trimmed_of_not_ignores hignores]
    | true =>
      rw [trimmed_of_ignores hignores, Attribute.valuesAt_none, parts_nil, Attribute.valuesAt_some,
        parts_of_ignores (ho a rfl) hignores]

/-- The selected part of a single entry stays. -/
lemma restrict_entryOf_trimmed (hmulti : d.isMultiValued = false) (hcomplex : d.isComplex = true) :
    (Attribute.entryOf (s.trimmed o)).restrict (s.selects d) =
      (Attribute.entryOf o).restrict (s.selects d) := by
  cases o with
  | none => rfl
  | some a =>
    cases hignores : s.ignores a with
    | false => rw [trimmed_of_not_ignores hignores]
    | true =>
      have ha := ho a rfl
      obtain ⟨e, hav, -⟩ := Change.exists_entry ha hmulti hcomplex
      have hpicked := (ignores_iff (ha.descriptor_eq ▸ hcomplex)).mp hignores
      rw [Change.picked, hav, List.flatMap_singleton, Change.pick_eq ha.descriptor_eq] at hpicked
      rw [trimmed_of_ignores hignores, Attribute.entryOf_some hav, Entry.restrict, Entry.restrict]
      exact congrArg Entry.mk hpicked.symm

end Trimmed

end Selector

/-! ## One attribute -/

/-- The case in which it matters that the target has an attribute of which nothing is selected:
the attribute is multi-valued and complex, and of the source more is selected than sub-attributes
that are normative. -/
structure Attribute.Swept (s : Selector) (a b : Attribute) : Prop where
  multi : a.descriptor.isMultiValued = true
  complex : a.descriptor.isComplex = true
  ignored : s.ignores b = true
  exposed : ∃ x ∈ Change.picked s a, isNormative x.name = false

instance (s : Selector) (a b : Attribute) : Decidable (a.Swept s b) :=
  decidable_of_iff (a.descriptor.isMultiValued = true ∧ a.descriptor.isComplex = true ∧
      s.ignores b = true ∧ ∃ x ∈ Change.picked s a, isNormative x.name = false)
    ⟨fun ⟨hmulti, hcomplex, hignored, hexposed⟩ => ⟨hmulti, hcomplex, hignored, hexposed⟩,
      fun h => ⟨h.multi, h.complex, h.ignored, h.exposed⟩⟩

namespace Change

variable {core : String} {s : Selector} {d : Descriptor} {a b : Attribute}
  {o p : Option Attribute} {q r : AttributePath}

/-- An attribute that takes part although nothing of it is selected takes part through
sub-attributes. -/
lemma hasSubFilter_of_ignores (hb : b.Conforms d) (hmulti : d.isMultiValued = true)
    (hmatches : s.matchesAttribute d.schema d.name = true) (hignores : s.ignores b = true) :
    s.hasSubFilter d.schema d.name = true := by
  have hnone := (ofRemoved_empty_iff "" hb hmatches).mpr (Selector.parts_of_ignores hb hignores)
  by_contra hwhole
  rw [ofRemoved, deletionsOf_eq, Attribute.schema, Attribute.name, hb.descriptor_eq, hmulti,
    Bool.eq_false_iff.mpr hwhole] at hnone
  simp at hnone

/-- An attribute goes as a whole when only normative sub-attributes are selected. -/
lemma ofRemoved_of_normative (core : String) (ha : a.Conforms d) (hmulti : d.isMultiValued = true)
    (hcomplex : d.isComplex = true) (hignores : s.ignores a = false)
    (hnormative : ∀ x ∈ picked s a, isNormative x.name = true) :
    ofRemoved core s a = ⟨[path core a none], []⟩ := by
  have hpicked : picked s a ≠ [] := fun hnil => by
    rw [(Selector.ignores_iff (ha.descriptor_eq ▸ hcomplex)).mpr hnil] at hignores
    cases hignores
  have hdropped : dropped s a = [] := by
    rw [dropped, ha.descriptor_eq, if_pos hmulti, List.filter_eq_nil_iff]
    intro x hx
    simp [hnormative x hx]
  rw [ofRemoved, deletionsOf_eq, ha.descriptor_eq, hmulti, hcomplex, hdropped]
  simp [hpicked]

section Entries

variable (ha : a.Conforms d) (hb : b.Conforms d) (hmulti : d.isMultiValued = true)
  (hcomplex : d.isComplex = true) (hmark : ∃ mark, d.IsMark mark)

include ha hb hmulti hcomplex hmark

/-- When nothing of the source is selected, what is selected of the target is added. -/
lemma alike_common_of_ignores (hignores : s.ignores a = true) :
    (common core s a b).Alike (ofAdded s b) := by
  obtain ⟨mark, hmark⟩ := hmark
  have hcommon : common core s a b = ⟨[], updateWith d ((s.shown b).map .complex)⟩ := by
    rw [common_of_ok (ofCommon_eq_ofEntrySets ha hb core hmulti hcomplex hmark),
      (Selector.shown_eq_nil_iff ha hcomplex).mpr hignores, ofEntrySets, ha.descriptor_eq]
    by_cases hnil : s.shown b = []
    · rw [hnil]
      rfl
    · have hdiffer : ¬ SameListed [] (s.shown b) := fun h => hnil (h.eq_nil_iff.mp rfl)
      rw [if_neg hdiffer, if_neg fun h => h.1 rfl, updateWith_of_ne_nil (by simpa using hnil)]
      simp [List.removeAll]
  rw [hcommon, ofAdded, hb.descriptor_eq, if_pos hcomplex, Selector.shown_eq hb.regular.uniqueNames]
  exact ⟨fun _ => Iff.rfl, sameValues_updateWith (Value.sameSet_map_iff_sameListed.mpr
    (sameListed_distinct Entry.equivOn fun _ he =>
      s.uniqueNames_of_mem_pickEntries hb.regular.uniqueNames he))⟩

/-- When nothing of the target is selected, the attribute goes as a whole. -/
lemma common_of_ignored (hignores : s.ignores a = false) (hignored : s.ignores b = true) :
    common core s a b = ⟨[path core a none], []⟩ := by
  obtain ⟨mark, hmark⟩ := hmark
  have hne : s.shown a ≠ [] := fun hnil => by
    rw [(Selector.shown_eq_nil_iff ha hcomplex).mp hnil] at hignores
    cases hignores
  rw [common_of_ok (ofCommon_eq_ofEntrySets ha hb core hmulti hcomplex hmark),
    (Selector.shown_eq_nil_iff hb hcomplex).mpr hignored, ofEntrySets,
    if_neg fun h => hne (h.eq_nil_iff.mpr rfl), if_pos ⟨hne, fun _ _ => not_listed_nil _⟩,
    if_pos rfl]

end Entries

/-- **What goes when the target has an attribute of which nothing is selected.**  The attribute of
the source goes as a whole.  Without that of the target, its selected sub-attributes go one by
one, but for the normative ones. -/
theorem ofPair_of_swept (core : String) (ha : a.Conforms d) (hb : b.Conforms d)
    (hmark : d.isMultiValued = true → d.isComplex = true → ∃ mark, d.IsMark mark)
    (h : a.Swept s b) :
    ofPair core s (some a) (some b) = ⟨[path core a none], []⟩ ∧
      ofPair core s (s.trimmed (some a)) (s.trimmed (some b)) =
        ⟨(dropped s a).map fun x => path core a (some x.name), []⟩ ∧ dropped s a ≠ [] := by
  obtain ⟨hmulti, hcomplex, hignored, x, hx, hnormative⟩ := h
  have hignores : s.ignores a = false := by
    rw [Bool.eq_false_iff, ne_eq, Selector.ignores_iff hcomplex]
    exact List.ne_nil_of_mem hx
  have hdropped : dropped s a ≠ [] := by
    rw [dropped, if_pos hmulti]
    exact List.ne_nil_of_mem (List.mem_filter.mpr ⟨hx, by rw [hnormative]; rfl⟩)
  have hselects : s.selects d x.nameKey = true := by
    obtain ⟨v, -, hpick⟩ := List.mem_flatMap.mp hx
    obtain ⟨-, -, -, hselects⟩ := mem_pick hpick
    rwa [ha.descriptor_eq] at hselects
  have hmatches : s.matchesAttribute d.schema d.name = true := by
    by_contra hnot
    rw [Selector.selects_of_not_matches (Bool.eq_false_iff.mpr hnot)] at hselects
    cases hselects
  rw [ha.descriptor_eq] at hmulti hcomplex
  have hfilter := hasSubFilter_of_ignores hb hmulti hmatches hignored
  refine ⟨?_, ?_, hdropped⟩
  · rw [ofPair_common core hmatches ha]
    exact common_of_ignored ha hb hmulti hcomplex (hmark hmulti hcomplex) hignores hignored
  · rw [Selector.trimmed_of_not_ignores hignores, Selector.trimmed_of_ignores hignored,
      ofPair_removed core hmatches ha, ofRemoved, deletionsOf_eq, Attribute.schema, Attribute.name,
      ha.descriptor_eq, hmulti, hcomplex, hfilter]
    simp [hdropped]

section Pair

variable (ho : ∀ a, o = some a → a.Conforms d) (hp : ∀ b, p = some b → b.Conforms d)
  (hmark : d.isMultiValued = true → d.isComplex = true → ∃ mark, d.IsMark mark)

include ho hp hmark

/-- Multi-valued complex attributes, when something of them is selected. -/
lemma alike_trimmed_entries (core : String) (hmatches : s.matchesAttribute d.schema d.name = true)
    (hmulti : d.isMultiValued = true) (hcomplex : d.isComplex = true)
    (hparts : s.parts d (Attribute.valuesAt o) = [] → s.parts d (Attribute.valuesAt p) ≠ [])
    (hswept : ∀ a b, o = some a → p = some b → ¬ a.Swept s b) :
    (ofPair core s o p).Alike (ofPair core s (s.trimmed o) (s.trimmed p)) := by
  rcases s.trimmed_cases o with hself | ⟨a, rfl, ha⟩ <;>
    rcases s.trimmed_cases p with hself' | ⟨b, rfl, hb⟩
  · rw [hself, hself']
    exact (fits_ofPair core s ho hp hmark).alike_self
  · have hnone := Selector.parts_of_ignores (hp b rfl) hb
    cases o with
    | none => exact absurd hnone (hparts (s.parts_nil d))
    | some a =>
      cases ha : s.ignores a with
      | true => exact absurd hnone (hparts (Selector.parts_of_ignores (ho a rfl) ha))
      | false =>
        rw [Selector.trimmed_of_not_ignores ha, Selector.trimmed_of_ignores hb,
          ofPair_common core hmatches (ho a rfl), ofPair_removed core hmatches (ho a rfl),
          common_of_ignored (ho a rfl) (hp b rfl) hmulti hcomplex (hmark hmulti hcomplex) ha hb,
          ofRemoved_of_normative core (ho a rfl) hmulti hcomplex ha]
        · exact ⟨fun _ => Iff.rfl, .nil⟩
        · intro x hx
          by_contra hnormative
          exact hswept a b rfl rfl ⟨(ho a rfl).descriptor_eq ▸ hmulti,
            (ho a rfl).descriptor_eq ▸ hcomplex, hb, x, hx, Bool.eq_false_iff.mpr hnormative⟩
  · have hnone := Selector.parts_of_ignores (ho a rfl) ha
    cases p with
    | none => exact absurd (s.parts_nil d) (hparts hnone)
    | some b =>
      rw [hself', Selector.trimmed_of_ignores ha, ofPair_common core hmatches (ho a rfl),
        ofPair_added core hmatches (hp b rfl)]
      exact alike_common_of_ignores (ho a rfl) (hp b rfl) hmulti hcomplex (hmark hmulti hcomplex) ha
  · exact absurd (Selector.parts_of_ignores (hp b rfl) hb)
      (hparts (Selector.parts_of_ignores (ho a rfl) ha))

/-- **Attributes of which nothing is selected count as absent**, unless one of the target sweeps
away that of the source.

**Proof sketch.**  Nothing changes before when nothing changes after, as the selected parts are the
same.  A single entry loses and gets what is found in the selected parts.  When nothing of several
entries in the source is selected, comparing them with those of the target adds what the target
shows; when nothing of those in the target is, the attribute goes as a whole, and so it does without
the target when only normative sub-attributes are selected. -/
theorem alike_trimmed (core : String) (hswept : ∀ a b, o = some a → p = some b → ¬ a.Swept s b) :
    (ofPair core s o p).Alike (ofPair core s (s.trimmed o) (s.trimmed p)) := by
  have ho' := Selector.conforms_trimmed (s := s) ho
  have hp' := Selector.conforms_trimmed (s := s) hp
  have hself := (fits_ofPair core s ho hp hmark).alike_self
  cases hmatches : s.matchesAttribute d.schema d.name with
  | false =>
    rw [ofPair_of_not_matches core ho hp hmatches, ofPair_of_not_matches core ho' hp' hmatches]
    exact alike_unchanged
  | true =>
  by_cases hsame : Value.sameSet (s.parts d (Attribute.valuesAt o))
      (s.parts d (Attribute.valuesAt p)) = true
  · refine alike_of_eq_nil ((ofPair_empty_iff core ho hp hmark).mpr hsame)
      ((ofPair_empty_iff core ho' hp' hmark).mpr ?_)
    rwa [Selector.parts_trimmed ho, Selector.parts_trimmed hp]
  cases hcomplex : d.isComplex with
  | false =>
    rw [Selector.trimmed_of_simple ho hcomplex, Selector.trimmed_of_simple hp hcomplex]
    exact hself
  | true =>
  cases hmulti : d.isMultiValued with
  | false =>
    have hpair := ofPair_eq_ofSubs ho hp hmulti hcomplex core hmatches
    have hpair' := ofPair_eq_ofSubs ho' hp' hmulti hcomplex core hmatches
    rw [← ofSubs_restrict] at hpair hpair'
    rw [Selector.restrict_entryOf_trimmed ho hmulti hcomplex,
      Selector.restrict_entryOf_trimmed hp hmulti hcomplex, ← hpair] at hpair'
    rw [hpair']
    exact hself
  | true =>
    refine alike_trimmed_entries ho hp hmark core hmatches hmulti hcomplex (fun hnone hnone' => ?_)
      hswept
    rw [hnone, hnone'] at hsame
    exact hsame rfl

/-- The updates say the same even when an attribute is swept away. -/
lemma sameValues_trimmed (core : String) : List.Forall₂ Attribute.SameValues
    (ofPair core s o p).updates (ofPair core s (s.trimmed o) (s.trimmed p)).updates := by
  by_cases hswept : ∃ a b, o = some a ∧ p = some b ∧ a.Swept s b
  · obtain ⟨a, b, rfl, rfl, h⟩ := hswept
    obtain ⟨hwhole, hparts, -⟩ := ofPair_of_swept core (ho a rfl) (hp b rfl) hmark h
    rw [hwhole, hparts]
    exact .nil
  · exact (alike_trimmed ho hp hmark core fun a b ha hb h => hswept ⟨a, b, ha, hb, h⟩).updates

/-- An attribute that goes as a whole without those of which nothing is selected goes as a whole
with them, too. -/
lemma sub_eq_none_of_trimmed
    (hq : q ∈ (ofPair core s (s.trimmed o) (s.trimmed p)).deletions) (hsub : q.sub = none)
    (hr : r ∈ (ofPair core s o p).deletions) : r.sub = none := by
  by_cases hswept : ∃ a b, o = some a ∧ p = some b ∧ a.Swept s b
  · obtain ⟨a, b, rfl, rfl, h⟩ := hswept
    rw [(ofPair_of_swept core (ho a rfl) (hp b rfl) hmark h).1] at hr
    rw [List.mem_singleton.mp hr, path_sub]
  · have halike := alike_trimmed ho hp hmark core fun a b ha hb h => hswept ⟨a, b, ha, hb, h⟩
    obtain ⟨a, -, hremoval⟩ := exists_removal core s ho hp hmark hr
    exact hremoval.sub_eq_none ((halike.deletions q).mpr hq) hr hsub

end Pair

end Change

/-! ## Whole resources -/

namespace Diff

open Standard

variable {t : ResourceType} {source target : AttributeMap} {s : Selector}
  {k : List Char × List Char}

/-- Paths of two other keys that have the target of a key are of one key. -/
lemma key_eq_of_target_of_ne {core : String} {a b c : Attribute} {m m' n n' : Option String}
    (hb : (Change.path core b m).target core = (Change.path core a m').target core)
    (hc : (Change.path core c n).target core = (Change.path core a n').target core)
    (hbne : b.key ≠ a.key) (hcne : c.key ≠ a.key) : b.key = c.key := by
  have hbare : isBare core b.key ≠ isBare core a.key := fun h => hbne (key_eq_of_target h hb)
  have hbare' : isBare core c.key ≠ isBare core a.key := fun h => hcne (key_eq_of_target h hc)
  refine key_eq_of_target ?_ (hb.trans ((Change.target_path_sub core a m' n').trans hc.symm))
  rw [Bool.eq_not_of_ne hbare, Bool.eq_not_of_ne hbare']

/-- A deletion under a key is listed. -/
lemma listed_of_mem (hs : source.WellFormed) {core : String} {p : AttributePath}
    (h : p ∈ (Change.ofPair core s (source.lookup k) (target.lookup k)).deletions) :
    Listed (allDeletions core s source target) p :=
  ⟨p, (mem_allDeletions_iff hs core).mpr ⟨k, h⟩, AttributePath.equivOn.refl p trivial⟩

/-- A listed deletion is equal to one of the path of an attribute under its key. -/
lemma exists_of_listed (hs : source.WellFormed) {core : String} {p : AttributePath}
    (h : Listed (allDeletions core s source target) p) :
    ∃ c, source.lookup c.key = some c ∧ ∃ n, (Change.path core c n == p) = true ∧
      Change.path core c n ∈
        (Change.ofPair core s (source.lookup c.key) (target.lookup c.key)).deletions := by
  obtain ⟨q, hq, hqp⟩ := h
  obtain ⟨k, hk⟩ := (mem_allDeletions_iff hs core).mp hq
  obtain ⟨c, hc, n, rfl⟩ := Change.exists_path_of_mem_ofPair hk
  obtain rfl := hs.key_of_lookup hc
  exact ⟨c, hc, n, hqp, hk⟩

section Between

variable (hregistered : t.IsRegistered) (hs : source.Conforms t) (ht : target.Conforms t)

include hregistered hs ht

/-- Trimming both resources keeps what the updates under a key say. -/
lemma sameValues_trim (k : List Char × List Char) : List.Forall₂ Attribute.SameValues
    (Change.ofPair t.core s (source.lookup k) (target.lookup k)).updates
    (Change.ofPair t.core s ((s.trim source).lookup k) ((s.trim target).lookup k)).updates := by
  rw [Selector.lookup_trim hs.wellFormed, Selector.lookup_trim ht.wellFormed]
  cases hd : t.descriptor? k with
  | none =>
    rw [hs.regular.lookup_eq_none hd, ht.regular.lookup_eq_none hd]
    exact .nil
  | some d =>
    exact Change.sameValues_trimmed (hs.conforms_of_lookup hd) (ht.conforms_of_lookup hd)
      (hregistered.exists_mark (ResourceType.mem_of_descriptor? hd)) t.core

/-- Trimming both resources keeps the deletions when no attribute is swept away. -/
lemma mem_allDeletions_trim (hswept : ∀ k a b, source.lookup k = some a →
      target.lookup k = some b → ¬ a.Swept s b) (p : AttributePath) :
    p ∈ allDeletions t.core s source target ↔
      p ∈ allDeletions t.core s (s.trim source) (s.trim target) := by
  rw [mem_allDeletions_iff hs.wellFormed,
    mem_allDeletions_iff (Selector.conforms_trim hs).wellFormed]
  refine exists_congr fun k => ?_
  rw [Selector.lookup_trim hs.wellFormed, Selector.lookup_trim ht.wellFormed]
  cases hd : t.descriptor? k with
  | none =>
    rw [hs.regular.lookup_eq_none hd, ht.regular.lookup_eq_none hd]
    exact Iff.rfl
  | some d =>
    exact (Change.alike_trimmed (hs.conforms_of_lookup hd) (ht.conforms_of_lookup hd)
      (hregistered.exists_mark (ResourceType.mem_of_descriptor? hd)) t.core
      (hswept k)).deletions p

/-- When an attribute is swept away, trimming both resources changes the deletions.

**Proof sketch.**  The attribute goes as a whole before and in parts after, so if the paths are the
same, those of another key stand in for them, before and after.  A path does not tell the key of an
extension without URI from one of the core schema, but there is only one such key.  There the
attribute goes in parts before and as a whole after, which never happens. -/
lemma not_swept_of_listed {a b : Attribute} (ha : source.lookup k = some a)
    (hb : target.lookup k = some b)
    (hlisted : ∀ p, Listed (allDeletions t.core s source target) p ↔
      Listed (allDeletions t.core s (s.trim source) (s.trim target)) p) : ¬ a.Swept s b := by
  intro hswept
  obtain rfl := hs.wellFormed.key_of_lookup ha
  obtain ⟨d, hd, had⟩ := hs.exists_descriptor ha
  obtain ⟨hwhole, hparts, hne⟩ := Change.ofPair_of_swept t.core had (ht.conforms_of_lookup hd b hb)
    (hregistered.exists_mark (ResourceType.mem_of_descriptor? hd)) hswept
  have hs' := (Selector.conforms_trim (s := s) hs).wellFormed
  rw [← ha, ← hb] at hwhole hparts
  rw [← Selector.lookup_trim hs.wellFormed, ← Selector.lookup_trim ht.wellFormed] at hparts
  obtain ⟨x, hx⟩ := List.exists_mem_of_ne_nil _ hne
  -- after, another attribute goes as a whole in place of this one
  obtain ⟨b', -, m, hm, hmem⟩ := exists_of_listed hs' ((hlisted (Change.path t.core a none)).mp
    (listed_of_mem hs.wellFormed (k := a.key) (by rw [hwhole]; exact List.mem_singleton_self _)))
  have hnone : m.isSome = false := by simpa using AttributePath.isSome_sub_of_beq hm
  have hbne : b'.key ≠ a.key := by
    intro h
    rw [h, hparts] at hmem
    obtain ⟨y, -, hy⟩ := List.mem_map.mp hmem
    have hsub := congrArg AttributePath.sub hy
    rw [Change.path_sub, Change.path_sub] at hsub
    rw [← hsub] at hnone
    cases hnone
  -- before, another attribute loses a sub-attribute in place of this one
  obtain ⟨c, hc, n, hn, hmem'⟩ := exists_of_listed hs.wellFormed
    ((hlisted (Change.path t.core a (some x.name))).mpr
      (listed_of_mem hs' (k := a.key) (by rw [hparts]; exact List.mem_map_of_mem hx)))
  have hsome : n.isSome = true := by simpa using AttributePath.isSome_sub_of_beq hn
  have hcne : c.key ≠ a.key := by
    intro h
    rw [h, hwhole] at hmem'
    have hsub := congrArg AttributePath.sub (List.mem_singleton.mp hmem')
    rw [Change.path_sub, Change.path_sub] at hsub
    rw [hsub] at hsome
    cases hsome
  -- it is one attribute in both cases
  have hbc := key_eq_of_target_of_ne (AttributePath.target_congr t.core hm)
    (AttributePath.target_congr t.core hn) hbne hcne
  rw [hbc, Selector.lookup_trim hs.wellFormed, Selector.lookup_trim ht.wellFormed] at hmem
  obtain ⟨d', hd', -⟩ := hs.exists_descriptor hc
  have hsub := Change.sub_eq_none_of_trimmed (hs.conforms_of_lookup hd')
    (ht.conforms_of_lookup hd')
    (hregistered.exists_mark (ResourceType.mem_of_descriptor? hd')) hmem
    (by rw [Change.path_sub]; simpa using hnone) hmem'
  rw [Change.path_sub] at hsub
  rw [hsub] at hsome
  cases hsome

end Between

/-- **When attributes of which nothing is selected count as absent.**  For every registered resource
type, any two of its resources and any selector, take from both resources the complex attributes of
which nothing is selected.  The differences before and after exist.  Both update the same
attributes, no attribute twice, and what one attribute is updated to has the same set of values.
They have the same set of deletions exactly when no attribute of the target sweeps away that of the
source: the attribute is multi-valued and complex, nothing of its entries in the target is selected,
and of those in the source more is selected than normative sub-attributes.

**Proof sketch.**  Under each key the updates say the same, and without such an attribute the
deletions are the same, too.  With it, the attribute goes as a whole before and in parts after, and
nothing else can make up for that. -/
theorem same_trim_iff {sourceJson targetJson : Json} (hregistered : t.IsRegistered)
    (hsource : AttributeMap.ofJson t sourceJson = .ok source)
    (htarget : AttributeMap.ofJson t targetJson = .ok target) (s : Selector) :
    ∃ d d', between t source target s = .ok d ∧
      between t (s.trim source) (s.trim target) s = .ok d' ∧
      (d.updates.map Attribute.key).Nodup ∧ (d'.updates.map Attribute.key).Nodup ∧
      (∀ u ∈ d.updates, ∃ u' ∈ d'.updates, u.SameValues u') ∧
      (∀ u' ∈ d'.updates, ∃ u ∈ d.updates, u.SameValues u') ∧
      ((∀ p, Listed d.deletions p ↔ Listed d'.deletions p) ↔
        ∀ schema name a b, source.get? schema name = some a → target.get? schema name = some b →
          ¬ a.Swept s b) := by
  have hs := AttributeMap.conforms_of_ofJson hsource
  have ht := AttributeMap.conforms_of_ofJson htarget
  have hs' := Selector.conforms_trim (s := s) hs
  have ht' := Selector.conforms_trim (s := s) ht
  have hdistinct : ∀ ps p, Listed (Keyed.distinct ps) p ↔ Listed ps p := fun ps p =>
    Keyed.listed_distinct_iff AttributePath.equivOn (fun _ _ => trivial) trivial
  refine ⟨_, _, between_eq hregistered hs ht s, between_eq hregistered hs' ht' s,
    nodup_allUpdates hs.wellFormed ht.wellFormed t.core s,
    nodup_allUpdates hs'.wellFormed ht'.wellFormed t.core s,
    fun u hu => ?_, fun u' hu' => ?_, ?_⟩
  · exact exists_sameValues_of_forall₂ hs hs' ht ht' (sameValues_trim hregistered hs ht) hu
  · obtain ⟨u, hu, hsame⟩ := exists_sameValues_of_forall₂ hs' hs ht' ht
      (fun k => ((sameValues_trim hregistered hs ht k).imp fun _ _ h => h.symm).flip) hu'
    exact ⟨u, hu, hsame.symm⟩
  · simp only [hdistinct]
    constructor
    · intro hlisted schema name a b ha hb
      rw [AttributeMap.get?_eq_lookup] at ha hb
      exact not_swept_of_listed hregistered hs ht ha hb hlisted
    · intro hswept p
      refine exists_congr fun q => and_congr_left' ?_
      refine mem_allDeletions_trim hregistered hs ht (fun k a b ha hb => ?_) q
      obtain rfl := hs.wellFormed.key_of_lookup ha
      exact hswept a.schema a.name a b (by rw [AttributeMap.get?_eq_lookup]; exact ha)
        (by rw [AttributeMap.get?_eq_lookup]; exact hb)

/-- The sub-attribute `$ref` of the members of a group. -/
def memberRefs : Selector := .ofPaths groupId [⟨none, "members", some "$ref"⟩]

/-- The only member of a group has a reference in the source, and none in the target.  Therefore
all of `members` is deleted, but without `members` in the target only the reference is. -/
theorem not_same_trim_members : ∃ d d',
    between groupType (groupOf [[("$ref", "r"), ("value", "1")]]) (groupOf [[("value", "1")]])
      memberRefs = .ok d ∧
    between groupType (memberRefs.trim (groupOf [[("$ref", "r"), ("value", "1")]]))
      (memberRefs.trim (groupOf [[("value", "1")]])) memberRefs = .ok d' ∧
    d.deletedPaths = ["members"] ∧ d'.deletedPaths = ["members.$ref"] ∧
    ¬ ∀ p, Listed d.deletions p ↔ Listed d'.deletions p := by
  have hsource : AttributeMap.ofJson groupType (groupJson [[("$ref", "r"), ("value", "1")]]) =
      .ok (groupOf [[("$ref", "r"), ("value", "1")]]) := rfl
  have htarget : AttributeMap.ofJson groupType (groupJson [[("value", "1")]]) =
      .ok (groupOf [[("value", "1")]]) := rfl
  have hbefore : (between groupType (groupOf [[("$ref", "r"), ("value", "1")]])
      (groupOf [[("value", "1")]]) memberRefs).toOption.map deletedPaths = some ["members"] := by
    decide +kernel
  have hafter : (between groupType (memberRefs.trim (groupOf [[("$ref", "r"), ("value", "1")]]))
      (memberRefs.trim (groupOf [[("value", "1")]])) memberRefs).toOption.map deletedPaths =
        some ["members.$ref"] := by
    decide +kernel
  obtain ⟨d, d', hd, hd', -, -, -, -, hiff⟩ :=
    same_trim_iff isRegistered_groupType hsource htarget memberRefs
  rw [hd] at hbefore
  rw [hd'] at hafter
  refine ⟨d, d', hd, hd', Option.some.inj hbefore, Option.some.inj hafter, fun hsame => ?_⟩
  exact hiff.mp hsame groupId "members" _ _ rfl rfl (by decide +kernel)

end Diff

end Scim
