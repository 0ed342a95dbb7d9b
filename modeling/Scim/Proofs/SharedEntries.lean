import Scim.Proofs.Reproduction

set_option autoImplicit false

/-!
# What happens to shared entries

An entry that source and target both have should outlive the patch.  It does, unless a mark or the
removal of the whole attribute takes it away: a mark does when it was made of an entry that is
contained in the shared one, and the removal of the attribute does when nothing of the shared
entry is selected.

## Main results

* `Scim.Change.listed_shared_iff` — one attribute.
* `Scim.Diff.shared_survives_iff` — a whole resource.
-/

namespace Scim

open Standard

namespace Change

variable {core : String} {s : Selector} {d : Descriptor} {a b : Attribute}

/-- A shared value of which something is selected keeps its attribute from being removed as a
whole. -/
lemma not_collapses_of_shared (ha : a.Conforms d) (hb : b.Conforms d) {e : Entry}
    (he : Value.complex e ∈ a.values) (hshared : Listed b.values (.complex e))
    (hne : (e.restrict (s.selects d)).isEmpty = false) : ¬ Collapses s a b := by
  rintro ⟨-, hnone⟩
  have hau := ha.regular.uniqueNames
  have hbu := hb.regular.uniqueNames
  have heU := (Value.uniqueNames_complex e).mp (hau _ he)
  exact hnone _ ((Selector.mem_pickEntries ha.descriptor_eq hau).mpr ⟨e, he, rfl, hne⟩)
    (s.listed_pickEntries hb.descriptor_eq hbu heU hshared hne)

/-- Of an attribute that takes part, an entry that source and target share is still there after the
change exactly when it contains no selected entry that has to go, and the attribute is not removed
as a whole while nothing of the entry is selected. -/
lemma listed_common_shared_iff (core : String) (ha : a.Conforms d) (hb : b.Conforms d)
    (hmulti : d.isMultiValued = true) (hcomplex : d.isComplex = true)
    (hmark : ∃ mark, d.IsMark mark) (hua : a.Unmarked) (hub : b.Unmarked) {v : Value}
    (hv : v ∈ a.values) (hshared : Listed b.values v) :
    Listed (Attribute.valuesAt ((common core s a b).applyTo (some a))) v ↔
      (∀ e ∈ s.pickEntries a, ¬ Listed (s.pickEntries b) e → v.containsEntry e = false) ∧
        (s.pickEntry? a v = none → ¬ Collapses s a b) := by
  have hau := ha.regular.uniqueNames
  have hkeeps : Keeps s a b v ↔
      (∀ e ∈ s.pickEntries a, ¬ Listed (s.pickEntries b) e → v.containsEntry e = false) ∧
        (s.pickEntry? a v = none → ¬ Collapses s a b) := by
    obtain ⟨e, rfl, -⟩ := ha.entries hcomplex v hv
    rw [Keeps, and_comm]
    refine and_congr_right fun _ => ⟨fun h _ => h, fun h => ?_⟩
    cases hnone : s.pickEntry? a (.complex e) with
    | none => exact h hnone
    | some g =>
      obtain ⟨f, hf, rfl, hne⟩ :=
        (Selector.pickEntry?_eq_some_iff ha.descriptor_eq (hau _ hv)).mp hnone
      cases hf
      exact not_collapses_of_shared ha hb hv hshared hne
  rw [← hkeeps]
  by_cases hbeq : (a == b) = true
  · rw [common_of_beq hbeq]
    have hall := s.listed_pickEntries_of_beq hau hb.regular.uniqueNames ha.descriptor_eq
      hb.descriptor_eq hbeq
    refine iff_of_true (Value.equivOn.listed_of_mem hau hv) ⟨?_, fun e he hnot => ?_⟩
    · rintro ⟨hne, hnone⟩
      obtain ⟨e, he⟩ := List.exists_mem_of_ne_nil _ hne
      exact hnone e he (hall e he)
    · exact absurd (hall e he) hnot
  · obtain ⟨mark, hmark⟩ := hmark
    exact listed_entries_iff ha hb hmulti hcomplex hmark hua hub hbeq hv

/-- **One attribute.**  An entry that source and target share is still there exactly when it
contains no selected entry that has to go, and the attribute is not removed as a whole while
nothing of the entry is selected. -/
theorem listed_shared_iff (core : String) (s : Selector) (ha : a.Conforms d) (hb : b.Conforms d)
    (hmulti : d.isMultiValued = true) (hcomplex : d.isComplex = true)
    (hmark : ∃ mark, d.IsMark mark) (hua : a.Unmarked) (hub : b.Unmarked) {v : Value}
    (hv : v ∈ a.values) (hshared : Listed b.values v) :
    Listed (Attribute.valuesAt ((ofPair core s (some a) (some b)).applyTo (some a))) v ↔
      (∀ e ∈ s.pickEntries a, ¬ Listed (s.pickEntries b) e → v.containsEntry e = false) ∧
        (s.pickEntry? a v = none → ¬ Collapses s a b) := by
  rw [ofPair]
  cases hmatches : s.matchesAttribute a.schema a.name with
  | true =>
    rw [if_pos rfl]
    exact listed_common_shared_iff core ha hb hmulti hcomplex hmark hua hub hv hshared
  | false =>
    -- an attribute that does not take part stays as it is
    have hnone : s.pickEntries a = [] := by
      refine pickEntries_of_not_matches ha ?_
      rw [← ha.descriptor_eq]
      exact hmatches
    rw [if_neg Bool.false_ne_true, applyTo_unchanged, Attribute.valuesAt_some]
    refine iff_of_true (Value.equivOn.listed_of_mem ha.regular.uniqueNames hv) ⟨?_, ?_⟩
    · intro e he
      rw [hnone] at he
      cases he
    · exact fun _ hcollapses => hcollapses.1 hnone

end Change

/-- **Which shared entries survive.**  For every registered resource type, any two of its
resources and any selector, the difference exists, its body can be written, and a service
provider can apply the body to the source.  An entry that source and target both have in a
writable multi-valued complex attribute is still there exactly when it contains no selected entry
that has to go, and the attribute is not removed as a whole while nothing of the entry is
selected. -/
theorem Diff.shared_survives_iff {t : ResourceType} {source target : AttributeMap}
    {sourceJson targetJson : Json} (hregistered : t.IsRegistered)
    (haddressable : t.IsAddressable) (hmeta : t.HasCommonMeta)
    (hsource : AttributeMap.ofJson t sourceJson = .ok source)
    (htarget : AttributeMap.ofJson t targetJson = .ok target)
    (hus : source.Unmarked) (hut : target.Unmarked) (s : Selector) :
    ∃ d body m, Diff.between t source target s = .ok d ∧ d.patch = .ok body ∧
      AttributeMap.patched? t.core source body = some m ∧
      ∀ a ∈ source.toList, ∀ b, target.get? a.schema a.name = some b →
        a.descriptor.isReadOnly = false → a.isMultiValued = true →
        a.descriptor.isComplex = true → ∀ v ∈ a.values, Listed b.values v →
          ((∃ c, m.get? a.schema a.name = some c ∧ Listed c.values v) ↔
            (∀ e ∈ s.pickEntries a, ¬ Listed (s.pickEntries b) e → v.containsEntry e = false) ∧
              (s.pickEntry? a v = none → ¬ Change.Collapses s a b)) := by
  have hs := AttributeMap.conforms_of_ofJson hsource
  have ht := AttributeMap.conforms_of_ofJson htarget
  obtain ⟨d, body, m, hbetween, hpatch, hm, hregular, hlookup⟩ :=
    exists_patched hregistered hs ht haddressable hmeta s
  refine ⟨d, body, m, hbetween, hpatch, hm, ?_⟩
  intro a ha b hb hread hmulti hcomplex v hv hshared
  have hla := hs.wellFormed.lookup_eq_some_iff.mpr ⟨ha, rfl⟩
  obtain ⟨d, hd, hac⟩ := hs.exists_descriptor hla
  have hlb : target.lookup a.key = some b := by
    rw [← hb, AttributeMap.get?_eq_lookup]
    rfl
  have hbc := ht.conforms_of_lookup hd b hlb
  have hua := hus a ha hmulti
  rw [Attribute.isMultiValued, hac.descriptor_eq] at hmulti
  rw [hac.descriptor_eq] at hread hcomplex
  have hub := hut.of_lookup ht.wellFormed hlb
    (by rw [Attribute.isMultiValued, hbc.descriptor_eq, hmulti])
  have hmark := hregistered.exists_mark (ResourceType.mem_of_descriptor? hd) hmulti hcomplex
  have hget : m.get? a.schema a.name =
      (Change.ofPair t.core s (some a) (some b)).applyTo (some a) := by
    have hstep := hlookup a.key d hd hread
    rw [hla, hlb] at hstep
    rw [AttributeMap.get?_eq_lookup, ← hstep]
    rfl
  have hvalues : (∃ c, m.get? a.schema a.name = some c ∧ Listed c.values v) ↔
      Listed (Attribute.valuesAt (m.get? a.schema a.name)) v := by
    cases m.get? a.schema a.name <;> simp
  rw [hvalues, hget]
  exact Change.listed_shared_iff t.core s hac hbc hmulti hcomplex hmark hua hub hv hshared

/-- **A shared entry that is lost.**  Of two members with the same `value` the target has only the
one with a `$ref`.  The mark of the other one removes both. -/
theorem Diff.shared_not_preserved : ∃ d body m,
    Diff.between groupType (groupOf [[("value", "1")], [("$ref", "r"), ("value", "1")]])
      (groupOf [[("$ref", "r"), ("value", "1")]]) .all = .ok d ∧
    d.patch = .ok body ∧
    AttributeMap.patched? groupType.core
      (groupOf [[("value", "1")], [("$ref", "r"), ("value", "1")]]) body = some m ∧
    ¬ ∃ c, m.get? groupId "members" = some c ∧
      Listed c.values (member [("$ref", "r"), ("value", "1")]) := by
  have hsource : AttributeMap.ofJson groupType
      (groupJson [[("value", "1")], [("$ref", "r"), ("value", "1")]]) =
      .ok (groupOf [[("value", "1")], [("$ref", "r"), ("value", "1")]]) := rfl
  have htarget : AttributeMap.ofJson groupType (groupJson [[("$ref", "r"), ("value", "1")]]) =
      .ok (groupOf [[("$ref", "r"), ("value", "1")]]) := rfl
  obtain ⟨d, body, m, hbetween, hpatch, hm, hiff⟩ :=
    Diff.shared_survives_iff isRegistered_groupType isAddressable_groupType
      hasCommonMeta_groupType hsource htarget (by decide +kernel) (by decide +kernel) .all
  refine ⟨d, body, m, hbetween, hpatch, hm, fun hsurvives => ?_⟩
  -- the entry without `$ref` has to go and is contained in the shared one
  have hkept := (hiff ⟨membersDescriptor, [member [("value", "1")],
    member [("$ref", "r"), ("value", "1")]]⟩ (List.mem_singleton_self _) _ rfl rfl rfl rfl
    (member [("$ref", "r"), ("value", "1")]) (.tail _ (.head _)) (by decide +kernel)).mp hsurvives
  exact absurd hkept.1 (by decide +kernel)

end Scim
