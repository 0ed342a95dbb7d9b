import Scim.Proofs.Changes

set_option autoImplicit false

/-!
# Where changes come from

Whatever attributes source and target have, a change deletes paths of that of the source and makes
at most one update, which has the descriptor of one of the two.  When they conform to a descriptor,
the values of the update are known as well: none is made up, each is what is selected of a value of
the target, or an entry of the source with the mark for its removal.

## Main definitions

* `Scim.Change.Concerns` — a change concerns two given attributes only.
* `Scim.Change.Origin` — where the values of updates come from.

## Main results

* `Scim.Change.concerns_common` — the change of an attribute that both resources have concerns the
  two, whether they conform or not.
* `Scim.Change.exists_path_of_mem_ofPair`, `exists_descriptor_of_mem_ofPair` — what a change deletes
  and updates.
* `Scim.Change.length_ofPair_le` — a change makes at most one update.
* `Scim.Change.origin_ofPair` — the values of updates are parts of the target or marked.
-/

namespace Scim.Change

variable {core : String} {s : Selector} {d : Descriptor} {a b : Attribute}
  {o p : Option Attribute}

/-! ## Deletions and updates -/

/-- An update with some values has the descriptor for which it is made. -/
lemma descriptor_eq_of_mem_updateWith {values : List Value} {u : Attribute}
    (h : u ∈ updateWith d values) : u.descriptor = d := by
  rw [(mem_updateWith_iff.mp h).2]

/-- An added attribute keeps its descriptor. -/
lemma descriptor_eq_of_mem_ofAdded {u : Attribute} (h : u ∈ (ofAdded s b).updates) :
    u.descriptor = b.descriptor := by
  rw [ofAdded] at h
  split at h
  · exact descriptor_eq_of_mem_updateWith h
  · rw [List.mem_singleton.mp h]

/-- A change concerns an attribute of the source and one of the target: it deletes paths of the
former and makes updates that have the descriptor of one of the two. -/
structure Concerns (core : String) (a b : Attribute) (c : Change) : Prop where
  deletions : ∀ q ∈ c.deletions, ∃ sub, q = path core a sub
  updates : ∀ u ∈ c.updates, u.descriptor = a.descriptor ∨ u.descriptor = b.descriptor

/-- No change concerns every attribute. -/
lemma concerns_unchanged (core : String) (a b : Attribute) : unchanged.Concerns core a b :=
  ⟨by simp [unchanged], by simp [unchanged]⟩

/-- The change of single entries concerns their attributes. -/
lemma concerns_ofEntry (core : String) (s : Selector) (a b : Attribute) (e f : Entry) :
    (ofEntry core s a b e f).Concerns core a b := by
  refine ⟨fun q hq => ?_, fun u hu => ?_⟩
  · obtain ⟨sub, -, rfl⟩ := List.mem_map.mp hq
    exact ⟨some sub.name, rfl⟩
  · obtain ⟨-, rfl⟩ := mem_updates_ofEntry_iff.mp hu
    exact .inr rfl

/-- **The change of an attribute that both resources have concerns it**, whatever the two look
like. -/
lemma concerns_common (core : String) (s : Selector) (a b : Attribute) :
    (common core s a b).Concerns core a b :=
  common_cases (concerns_unchanged core a b)
    (fun _ hpaths => ⟨fun _ hq => ⟨none, List.mem_singleton.mp (hpaths hq)⟩,
      fun _ hu => .inr (by rw [List.mem_singleton.mp hu])⟩)
    (fun _ _ hpaths => ⟨fun _ hq => ⟨none, List.mem_singleton.mp (hpaths hq)⟩,
      fun _ hu => .inl (descriptor_eq_of_mem_updateWith hu)⟩)
    (concerns_ofEntry core s a b)
    ⟨fun _ hq => exists_path_of_mem_deletionsOf hq, by simp [ofRemoved]⟩
    ⟨by simp, fun _ hu => .inr (descriptor_eq_of_mem_ofAdded hu)⟩

/-- An added attribute is at most one update. -/
lemma length_ofAdded_le (s : Selector) (b : Attribute) : (ofAdded s b).updates.length ≤ 1 := by
  rw [ofAdded]
  split
  · exact length_updateWith_le _ _
  · exact le_rfl

/-- **An attribute that both resources have is updated at most once**, whatever it looks like. -/
lemma length_common_le (core : String) (s : Selector) (a b : Attribute) :
    (common core s a b).updates.length ≤ 1 :=
  common_cases (P := fun c => c.updates.length ≤ 1) (Nat.zero_le 1) (fun _ _ => le_rfl)
    (fun _ values _ => length_updateWith_le a.descriptor values) (length_ofEntry_le core s a b)
    (Nat.zero_le 1) (length_ofAdded_le s b)

/-- The change under a key updates at most one attribute. -/
lemma length_ofPair_le (core : String) (s : Selector) (o p : Option Attribute) :
    (ofPair core s o p).updates.length ≤ 1 :=
  ofPair_cases (P := fun c => c.updates.length ≤ 1) (Nat.zero_le 1)
    (fun b _ => length_ofAdded_le s b) (fun _ _ => Nat.zero_le 1)
    fun a b _ _ => length_common_le core s a b

/-- An update has the descriptor of an attribute of the source or of the target. -/
lemma exists_descriptor_of_mem_ofPair {u : Attribute} (h : u ∈ (ofPair core s o p).updates) :
    ∃ a, (o = some a ∨ p = some a) ∧ u.descriptor = a.descriptor := by
  revert h
  refine ofPair_cases (P := fun c => u ∈ c.updates →
      ∃ a, (o = some a ∨ p = some a) ∧ u.descriptor = a.descriptor)
    (fun h => absurd h List.not_mem_nil) (fun b hb h => ?_)
    (fun _ _ h => absurd h List.not_mem_nil) fun a b ha hb h => ?_
  · exact ⟨b, .inr hb, descriptor_eq_of_mem_ofAdded h⟩
  · rcases (concerns_common core s a b).updates u h with hdescriptor | hdescriptor
    · exact ⟨a, .inl ha, hdescriptor⟩
    · exact ⟨b, .inr hb, hdescriptor⟩

/-- Every deletion is a path of the attribute of the source. -/
lemma exists_path_of_mem_ofPair {q : AttributePath} (h : q ∈ (ofPair core s o p).deletions) :
    ∃ a, o = some a ∧ ∃ sub, q = path core a sub := by
  revert h
  refine ofPair_cases (P := fun c => q ∈ c.deletions → ∃ a, o = some a ∧ ∃ sub, q = path core a sub)
    (fun h => absurd h List.not_mem_nil) (fun b _ h => ?_)
    (fun a ha h => ⟨a, ha, exists_path_of_mem_deletionsOf h⟩)
    fun a b ha _ h => ⟨a, ha, (concerns_common core s a b).deletions q h⟩
  rw [deletions_ofAdded] at h
  exact absurd h List.not_mem_nil

/-! ## The values of updates -/

/-- Where a value of an update comes from: it is a scalar of the target, a part of what is selected
of an entry of the target, or a selected entry of the source with a mark. -/
inductive Origin (s : Selector) (d : Descriptor) (o p : Option Attribute) : Value → Prop
  | scalar {b : Attribute} {v : Value} (hb : p = some b) (hcomplex : d.isComplex = false)
      (hv : v ∈ b.values) : Origin s d o p v
  | part {b : Attribute} {e f : Entry} (hb : p = some b) (hcomplex : d.isComplex = true)
      (hf : Value.complex f ∈ b.values) (hne : e.isEmpty = false)
      (hsub : e.subAttributes.Sublist (f.restrict (s.selects d)).subAttributes) :
      Origin s d o p (.complex e)
  | marked {a mark : Attribute} {f : Entry} (ha : o = some a) (hmulti : d.isMultiValued = true)
      (hcomplex : d.isComplex = true) (hf : Value.complex f ∈ a.values)
      (hne : (f.restrict (s.selects d)).isEmpty = false) (hmark : d.IsMark mark) :
      Origin s d o p (.complex ((f.restrict (s.selects d)).insert mark).2)

/-- A selected entry of the target is a part of one. -/
lemma origin_of_mem_pickEntries (hp : p = some b) (hb : b.Regular d) (hcomplex : d.isComplex = true)
    {e : Entry} (he : e ∈ s.pickEntries b) : Origin s d o p (.complex e) := by
  obtain ⟨f, hf, rfl, hne⟩ := (Selector.mem_pickEntries hb.descriptor_eq hb.uniqueNames).mp he
  exact .part hp hcomplex hf hne (List.Sublist.refl _)

/-- An update holds the values that it is made with. -/
lemma mem_of_mem_updateWith {values : List Value} {u : Attribute} (hu : u ∈ updateWith d values)
    {v : Value} (hv : v ∈ u.values) : v ∈ values := by
  rwa [(mem_updateWith_iff.mp hu).2] at hv

/-- The values of an attribute of the target only. -/
lemma origin_ofAdded (hp : p = some b) (hb : b.Conforms d) {u : Attribute}
    (hu : u ∈ (ofAdded s b).updates) {v : Value} (hv : v ∈ u.values) : Origin s d o p v := by
  rw [ofAdded, hb.descriptor_eq] at hu
  split at hu
  · rename_i hcomplex
    obtain ⟨e, he, rfl⟩ := List.mem_map.mp (mem_of_mem_updateWith hu hv)
    exact origin_of_mem_pickEntries hp hb.regular hcomplex he
  · rename_i hcomplex
    rw [List.mem_singleton.mp hu] at hv
    exact .scalar hp (by simpa using hcomplex) hv

/-- The values of the change of an attribute that both resources have. -/
lemma origin_common (ho : o = some a) (hp : p = some b) (ha : a.Conforms d) (hb : b.Conforms d)
    (hmark : d.isMultiValued = true → d.isComplex = true → ∃ mark, d.IsMark mark) {u : Attribute}
    (hu : u ∈ (common core s a b).updates) {v : Value} (hv : v ∈ u.values) :
    Origin s d o p v := by
  have hwhole : d.isComplex = false → u ∈ [b] → Origin s d o p v := by
    intro hcomplex hu
    rw [List.mem_singleton.mp hu] at hv
    exact .scalar hp hcomplex hv
  have hfresh : d.isComplex = true → ∀ e ∈ fresh s a b, Origin s d o p (.complex e) :=
    fun hcomplex e he => origin_of_mem_pickEntries hp hb.regular hcomplex
      (fresh_subset ha.regular hb.regular e he)
  obtain ⟨c, hc, hkind⟩ := exists_kind core s ha hb hmark
  rw [common_of_ok hc] at hu
  cases hkind with
  | same => exact absurd hu List.not_mem_nil
  | scalar _ hcomplex => exact hwhole hcomplex hu
  | @entry e f _ hcomplex hav hbv =>
    obtain ⟨hne, rfl⟩ := mem_updates_ofEntry_iff.mp hu
    rw [List.mem_singleton.mp hv]
    refine .part (f := f) hp hcomplex (by simp [hbv]) hne ?_
    rw [changed_eq (hb.regular.uniqueNames_entry hbv), hb.descriptor_eq]
    exact List.filter_sublist
  | more _ hcomplex =>
    have hv := (Keyed.mem_fresh_iff Value.equivOn ha.regular.uniqueNames
      hb.regular.uniqueNames).mp (mem_of_mem_updateWith hu hv)
    exact .scalar hp hcomplex (Keyed.mem_of_mem_distinct hv.1)
  | replaced _ hcomplex => exact hwhole hcomplex hu
  | collapsed _ hcomplex =>
    obtain ⟨e, he, rfl⟩ := List.mem_map.mp (mem_of_mem_updateWith hu hv)
    exact hfresh hcomplex e he
  | marked hmulti hcomplex _ hmark =>
    obtain ⟨e, he, rfl⟩ := List.mem_map.mp (mem_of_mem_updateWith hu hv)
    rcases List.mem_append.mp he with he | he
    · obtain ⟨g, hg, rfl⟩ := List.mem_map.mp he
      obtain ⟨f, hf, rfl, hne⟩ := (Selector.mem_pickEntries ha.descriptor_eq
        ha.regular.uniqueNames).mp (gone_subset ha.regular hb.regular g hg)
      exact .marked ho hmulti hcomplex hf hne hmark
    · exact hfresh hcomplex e he

/-- **The values of updates** are scalars and selected parts of the target, or marked entries of the
source. -/
theorem origin_ofPair (core : String) (s : Selector) (ho : ∀ a, o = some a → a.Conforms d)
    (hp : ∀ b, p = some b → b.Conforms d)
    (hmark : d.isMultiValued = true → d.isComplex = true → ∃ mark, d.IsMark mark) :
    ∀ u ∈ (ofPair core s o p).updates, ∀ v ∈ u.values, Origin s d o p v :=
  ofPair_cases (P := fun c => ∀ u ∈ c.updates, ∀ v ∈ u.values, Origin s d o p v)
    (fun _ hu => absurd hu List.not_mem_nil)
    (fun b hb _ hu _ hv => origin_ofAdded hb (hp b hb) hu hv)
    (fun _ _ _ hu => absurd hu List.not_mem_nil)
    fun a b ha hb _ hu _ hv => origin_common ha hb (ho a ha) (hp b hb) hmark hu hv

end Scim.Change
