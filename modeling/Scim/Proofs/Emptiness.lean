import Scim.Proofs.Reproduction

set_option autoImplicit false

/-!
# Empty differences

A difference is empty exactly when source and target agree on everything that is selected.  Both
directions rest on the changes of single attributes: each kind of change is empty exactly when the
selected parts are the same set.

## Main results

* `Scim.Change.ofPair_empty_iff` — one attribute.
* `Scim.Diff.isEmpty_iff_agrees` — a whole resource.
-/

namespace Scim

open Standard

/-- **One attribute.**  Nothing changes exactly when the selected parts are the same set. -/
theorem Change.ofPair_empty_iff {s : Selector} {d : Descriptor} {o p : Option Attribute}
    (core : String) (ho : ∀ a, o = some a → a.Conforms d) (hp : ∀ b, p = some b → b.Conforms d)
    (hmark : d.isMultiValued = true → d.isComplex = true → ∃ mark, d.IsMark mark) :
    (ofPair core s o p).deletions = [] ∧ (ofPair core s o p).updates = [] ↔
      Value.sameSet (s.parts d (Attribute.valuesAt o)) (s.parts d (Attribute.valuesAt p)) =
        true := by
  cases hmatches : s.matchesAttribute d.schema d.name with
  | false =>
    rw [parts_of_not_matches hmatches, parts_of_not_matches hmatches,
      ofPair_of_not_matches core ho hp hmatches]
    exact iff_of_true ⟨rfl, rfl⟩ rfl
  | true =>
    cases o with
    | none =>
      rw [Attribute.valuesAt_none, Selector.parts_nil, Value.sameSet_nil_left]
      cases p with
      | none => exact iff_of_true ⟨rfl, rfl⟩ (s.parts_nil d)
      | some b =>
        rw [ofPair_added core hmatches (hp b rfl), deletions_ofAdded, and_iff_right rfl]
        exact ofAdded_empty_iff (hp b rfl) hmatches
    | some a =>
      cases p with
      | none =>
        rw [ofPair_removed core hmatches (ho a rfl), Attribute.valuesAt_none, Selector.parts_nil,
          Value.sameSet_nil_right]
        exact (and_iff_left rfl).trans (ofRemoved_empty_iff core (ho a rfl) hmatches)
      | some b =>
        rw [ofPair_common core hmatches (ho a rfl)]
        exact common_empty_iff (ho a rfl) (hp b rfl) hmatches hmark

/-- **A difference is empty exactly when the selected parts agree.**  For every registered resource
type, any two of its resources and any selector, the difference exists, and it is empty exactly
when the projections of source and target to the selector agree: they have the same attributes,
equal ones where there is one value and the same set of values where there may be several. -/
theorem Diff.isEmpty_iff_agrees {t : ResourceType} {source target : AttributeMap}
    {sourceJson targetJson : Json} (hregistered : t.IsRegistered)
    (hsource : AttributeMap.ofJson t sourceJson = .ok source)
    (htarget : AttributeMap.ofJson t targetJson = .ok target) (s : Selector) :
    ∃ d, Diff.between t source target s = .ok d ∧
      (d.isEmpty = true ↔ (s.project source).agrees (s.project target) = true) := by
  have hs := AttributeMap.conforms_of_ofJson hsource
  have ht := AttributeMap.conforms_of_ofJson htarget
  have hbetween := between_eq hregistered hs ht s
  refine ⟨_, hbetween, ?_⟩
  rw [isEmpty_iff hs ht hbetween hregistered,
    (hs.regular.project s).agrees_iff (ht.regular.project s)]
  have hkey : ∀ k d, t.descriptor? k = some d →
      ((Change.ofPair t.core s (source.lookup k) (target.lookup k)).deletions = [] ∧
        (Change.ofPair t.core s (source.lookup k) (target.lookup k)).updates = [] ↔
      Option.Rel (fun a b => a.agrees b = true) ((s.project source).lookup k)
        ((s.project target).lookup k)) := by
    intro k d hd
    rw [Selector.lookup_project hs.wellFormed, Selector.lookup_project ht.wellFormed,
      Selector.agrees_project_iff (hs.regular.regularAt hd) (ht.regular.regularAt hd)]
    exact Change.ofPair_empty_iff t.core (hs.conforms_of_lookup hd) (ht.conforms_of_lookup hd)
      (hregistered.exists_mark (ResourceType.mem_of_descriptor? hd))
  constructor
  · exact fun h k d hd => (hkey k d hd).mp (h k)
  · intro h k
    cases hd : t.descriptor? k with
    | none =>
      rw [ofPair_of_none hs ht s hd]
      exact ⟨rfl, rfl⟩
    | some d => exact (hkey k d hd).mpr (h k d hd)

/-- The order of members and their repetition make no difference. -/
theorem Diff.isEmpty_of_reordered : ∃ d,
    Diff.between groupType (groupOf [[("value", "1")], [("$ref", "r"), ("value", "2")]])
      (groupOf [[("$ref", "r"), ("value", "2")], [("value", "1")], [("value", "1")]])
      refAndValue = .ok d ∧
    d.isEmpty = true := by
  have hsource : AttributeMap.ofJson groupType
      (groupJson [[("value", "1")], [("$ref", "r"), ("value", "2")]]) =
      .ok (groupOf [[("value", "1")], [("$ref", "r"), ("value", "2")]]) := rfl
  have htarget : AttributeMap.ofJson groupType
      (groupJson [[("$ref", "r"), ("value", "2")], [("value", "1")], [("value", "1")]]) =
      .ok (groupOf [[("$ref", "r"), ("value", "2")], [("value", "1")], [("value", "1")]]) := rfl
  obtain ⟨d, hbetween, hiff⟩ :=
    Diff.isEmpty_iff_agrees isRegistered_groupType hsource htarget refAndValue
  exact ⟨d, hbetween, hiff.mpr (by decide +kernel)⟩

end Scim
