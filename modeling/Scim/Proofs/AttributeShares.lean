import Scim.Proofs.Decomposition

set_option autoImplicit false

/-!
# What one attribute contributes to a difference

A statement about the change of one attribute is a statement about a difference only when it says
what the difference has for that attribute, and that nothing else in it is for the attribute.  This
module says so once.  It asks of the resource type neither that it was registered nor that its
schemas have URIs: the difference of other resource types may have a defect, but when it has none,
each attribute has its share.

## Main definitions

* `Scim.Diff.Share` — the attribute under a key has a change as its share of the difference.

## Main results

* `Scim.Diff.between_only_of_common` — when the attributes of one key have a difference.
* `Scim.Diff.share_ofPair`, `share_of_common` — each attribute has its own change as its share.
-/

namespace Scim.Diff

variable {t : ResourceType} {source target : AttributeMap} {s : Selector}
  {k : List Char × List Char}

/-- The attribute under a key has a change as its share of the difference of two resources.

The difference of the attributes of the key alone has the deletions and updates of the change.
Whenever the resources have a difference, its updates for the attribute are those of the change,
and its deletions are those of the change and those that the attributes of other keys have on their
own.  Which of the deletions are for the attribute can be read off their paths, unless an extension
without URI takes an attribute of another core schema for its own.  For a registered resource type
the difference exists. -/
structure Share (t : ResourceType) (s : Selector) (source target : AttributeMap)
    (k : List Char × List Char) (c : Change) : Prop where
  alone : between t (source.only k) (target.only k) s = .ok ⟨t, c.deletions, c.updates⟩
  filter_updates : ∀ d, between t source target s = .ok d →
    d.updates.filter (fun u => decide (u.key = k)) = c.updates
  listed_deletions : ∀ d, between t source target s = .ok d → ∀ p, Listed d.deletions p ↔
    Listed c.deletions p ∨ ∃ l part, l ≠ k ∧
      between t (source.only l) (target.only l) s = .ok part ∧ Listed part.deletions p
  filter_deletions : (∀ x ∈ t.descriptors, x.schema = "" → t.core = "") →
    ∀ d, between t source target s = .ok d →
      d.deletions.filter (fun p => decide (p.target t.core = k)) = c.deletions
  exists_between : t.IsRegistered → ∃ d, between t source target s = .ok d

section WellFormed

variable (hs : source.WellFormed) (ht : target.WellFormed)

include hs ht

/-- The selected pair of one key is that of the whole resources. -/
lemma mem_common_only_iff {p : Attribute × Attribute} :
    p ∈ common s (source.only k) (target.only k) ↔ p ∈ common s source target ∧ p.1.key = k := by
  have honly : (source.only k).WellFormed := AttributeMap.wellFormed_ofList _
  rw [mem_common_iff hs, mem_common_iff honly, AttributeMap.lookup_only hs,
    AttributeMap.lookup_only ht]
  by_cases hk : k = p.1.key
  · rw [if_pos hk, if_pos hk, hk]
    simp
  · rw [if_neg hk, if_neg hk]
    simp [Ne.symm hk]

/-- **When the attributes of one key have a difference.**  Their change has no defect. -/
lemma between_only_of_common (hcommon : ∀ p ∈ common s source target, p.1.key = k →
      Change.ofCommon t.core s p.1 p.2 = .ok (Change.common t.core s p.1 p.2)) :
    between t (source.only k) (target.only k) s = .ok
      ⟨t, Keyed.distinct (Change.ofPair t.core s (source.lookup k) (target.lookup k)).deletions,
        (Change.ofPair t.core s (source.lookup k) (target.lookup k)).updates⟩ := by
  refine between_eq_ok_iff.mpr ⟨fun p hp => ?_, ?_⟩
  · obtain ⟨hmem, hkey⟩ := (mem_common_only_iff hs ht).mp hp
    exact hcommon p hmem hkey
  · rw [allDeletions_only hs ht, allUpdates_only hs ht]

/-- A deletion is one of the attribute of a key, or one that the attribute of another key has on
its own. -/
lemma listed_deletions_iff {d : Diff} (hd : between t source target s = .ok d)
    (k : List Char × List Char) (p : AttributePath) :
    Listed d.deletions p ↔
      Listed (Change.ofPair t.core s (source.lookup k) (target.lookup k)).deletions p ∨
        ∃ l part, l ≠ k ∧ between t (source.only l) (target.only l) s = .ok part ∧
          Listed part.deletions p := by
  have hlisted : ∀ {ps : List AttributePath}, Listed (Keyed.distinct ps) p ↔ Listed ps p :=
    Keyed.listed_distinct_iff AttributePath.equivOn (fun _ _ => trivial) trivial
  obtain ⟨hcommon, rfl⟩ := between_eq_ok_iff.mp hd
  have halone := fun l => between_only_of_common (k := l) hs ht fun q hq _ => hcommon q hq
  rw [hlisted]
  constructor
  · rintro ⟨q, hq, hqp⟩
    obtain ⟨l, hl⟩ := (mem_allDeletions_iff hs t.core).mp hq
    by_cases hlk : l = k
    · rw [hlk] at hl
      exact .inl ⟨q, hl, hqp⟩
    · exact .inr ⟨l, _, hlk, halone l, hlisted.mpr ⟨q, hl, hqp⟩⟩
  · rintro (⟨q, hq, hqp⟩ | ⟨l, part, -, hpart, hp⟩)
    · exact ⟨q, (mem_allDeletions_iff hs t.core).mpr ⟨k, hq⟩, hqp⟩
    · rw [halone l] at hpart
      cases hpart
      obtain ⟨q, hq, hqp⟩ := hlisted.mp hp
      exact ⟨q, (mem_allDeletions_iff hs t.core).mpr ⟨l, hq⟩, hqp⟩

end WellFormed

/-- **Each attribute has its own change as its share**, when the change has no defect and deletes
no path twice. -/
theorem share_ofPair (hs : source.Conforms t) (ht : target.Conforms t) {c : Change}
    (hc : Change.ofPair t.core s (source.lookup k) (target.lookup k) = c)
    (hok : ∀ a b, source.lookup k = some a → target.lookup k = some b →
      ∃ c, Change.ofCommon t.core s a b = .ok c)
    (hpair : c.deletions.Pairwise fun p q => (p == q) = false) :
    Share t s source target k c := by
  have hswf := hs.wellFormed
  have htwf := ht.wellFormed
  have hcommon : ∀ p ∈ common s source target, p.1.key = k →
      Change.ofCommon t.core s p.1 p.2 = .ok (Change.common t.core s p.1 p.2) := by
    intro p hp hkey
    obtain ⟨hsource, -, htarget⟩ := (mem_common_iff hswf).mp hp
    rw [hkey] at hsource htarget
    obtain ⟨c, hc⟩ := hok p.1 p.2 hsource htarget
    rw [Change.common_of_ok hc, hc]
  refine ⟨?_, fun d hd => ?_, fun d hd p => ?_, fun hschema d hd => ?_,
    fun hregistered => ⟨_, between_eq hregistered hs ht s⟩⟩
  · rw [between_only_of_common hswf htwf hcommon, hc, Keyed.distinct_eq_self hpair]
  · obtain ⟨-, rfl⟩ := between_eq_ok_iff.mp hd
    rw [← hc]
    exact filter_allUpdates hswf htwf t.core s k
  · rw [listed_deletions_iff hswf htwf hd k, hc]
  · obtain ⟨-, rfl⟩ := between_eq_ok_iff.mp hd
    have hnamed : ∀ a ∈ source.toList, a.schema = "" → t.core = "" := by
      intro a ha hnone
      obtain ⟨x, hx, ha⟩ := hs.exists_descriptor (hswf.lookup_eq_some_iff.mpr ⟨ha, rfl⟩)
      rw [Attribute.schema, ha.descriptor_eq] at hnone
      exact hschema x (ResourceType.mem_of_descriptor? hx) hnone
    calc (Keyed.distinct (allDeletions t.core s source target)).filter
          (fun p => decide (p.target t.core = k))
        = Keyed.distinct ((allDeletions t.core s source target).filter
            fun p => decide (p.target t.core = k)) :=
          (Keyed.distinct_filter fun p _ q _ hpq => by
            rw [AttributePath.target_congr t.core hpq]).symm
      _ = Keyed.distinct c.deletions := by
          rw [filter_allDeletions_of_schema hswf hnamed, hc]
      _ = c.deletions := Keyed.distinct_eq_self hpair

/-- Attributes of one schema and name stand under one key, and conform to one descriptor. -/
lemma exists_conforms_of_get? (hs : source.Conforms t) (ht : target.Conforms t)
    {schema name : String} {a b : Attribute} (ha : source.get? schema name = some a)
    (hb : target.get? schema name = some b) :
    source.lookup a.key = some a ∧ target.lookup a.key = some b ∧
      ∃ d ∈ t.descriptors, a.Conforms d ∧ b.Conforms d := by
  rw [AttributeMap.get?_eq_lookup] at ha hb
  obtain ⟨d, hd, hconforms⟩ := hs.exists_descriptor ha
  rw [hs.wellFormed.key_of_lookup ha]
  exact ⟨ha, hb, d, ResourceType.mem_of_descriptor? hd, hconforms,
    ht.conforms_of_lookup hd b hb⟩

/-- **A common attribute has its own change as its share.** -/
theorem share_of_common (hs : source.Conforms t) (ht : target.Conforms t) {a b : Attribute}
    {c : Change} (ha : source.lookup k = some a) (hb : target.lookup k = some b)
    (hmatches : s.matchesAttribute a.schema a.name = true)
    (hc : Change.ofCommon t.core s a b = .ok c)
    (hpair : c.deletions.Pairwise fun p q => (p == q) = false) :
    Share t s source target k c := by
  refine share_ofPair hs ht ?_ (fun a' b' ha' hb' => ?_) hpair
  · rw [ha, hb, Change.ofPair, if_pos hmatches, Change.common_of_ok hc]
  · rw [ha] at ha'
    rw [hb] at hb'
    cases ha'
    cases hb'
    exact ⟨c, hc⟩

end Scim.Diff
