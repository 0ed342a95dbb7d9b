import Scim.Proofs.ValueChanges

set_option autoImplicit false

/-!
# Changes of attributes that only one resource has

An attribute of the target only is added with its selected parts.  An attribute of the source only
loses its selected parts, with one exception: of a multi-valued complex attribute under a filter
of sub-attributes the normative ones stay behind when others are removed one by one.

## Main definitions

* `Scim.Attribute.Stranded` — normative sub-attributes stay behind.

## Main results

* `Scim.Change.sameSet_ofAdded` — an added attribute has the selected parts of the target.
* `Scim.Change.parts_ofRemoved_eq_nil_iff` — a removed attribute has no selected part left exactly
  when nothing is stranded.
* `Scim.Change.ofAdded_empty_iff`, `ofRemoved_empty_iff` — when nothing has to change.
-/

namespace Scim

/-- Of a multi-valued complex attribute under a filter of sub-attributes both normative and other
sub-attributes are selected.  The others are removed one by one, and the normative ones stay. -/
def Attribute.Stranded (s : Selector) (a : Attribute) : Prop :=
  a.isMultiValued = true ∧ a.descriptor.isComplex = true ∧
    s.hasSubFilter a.schema a.name = true ∧
    (∃ sub ∈ a.values.flatMap (s.pick a), isNormative sub.name = true) ∧
    ∃ sub ∈ a.values.flatMap (s.pick a), isNormative sub.name = false

instance (s : Selector) (a : Attribute) : Decidable (a.Stranded s) :=
  inferInstanceAs (Decidable (_ ∧ _ ∧ _ ∧ (∃ sub ∈ _, _ = true) ∧ ∃ sub ∈ _, _ = false))

namespace Change

variable {core : String} {s : Selector} {d : Descriptor} {a b : Attribute}

/-! ## Attributes of the target only -/

/-- A list of selected entries, each once or more, has the parts of the attribute. -/
lemma sameSet_parts_of_pickEntries (hb : b.Conforms d) (hcomplex : d.isComplex = true)
    {r : Attribute} (hrd : r.descriptor = d)
    (hmem : ∀ v ∈ r.values, ∃ f ∈ s.pickEntries b, v = .complex f)
    (hlisted : ∀ f ∈ s.pickEntries b, Listed r.values (.complex f)) :
    Value.sameSet (s.parts d r.values) (s.parts d b.values) = true := by
  have hbu := hb.regular.uniqueNames
  have hTU := fun e (h : e ∈ s.pickEntries b) => s.uniqueNames_of_mem_pickEntries hbu h
  have hru : ∀ v ∈ r.values, v.UniqueNames := by
    intro v hv
    obtain ⟨f, hf, rfl⟩ := hmem v hv
    exact (Value.uniqueNames_complex f).mpr (hTU f hf)
  have hrcomplex : ∀ v ∈ r.values, v.isComplex = true := by
    intro v hv
    obtain ⟨f, -, rfl⟩ := hmem v hv
    rfl
  have hself := fun e (h : e ∈ s.pickEntries b) =>
    s.restrict_of_mem_pickEntries hb.descriptor_eq hbu h
  rw [s.parts_eq_pickEntries hrd hru hrcomplex, parts_complex hb hcomplex,
    Value.sameSet_map_complex]
  constructor
  · intro g hg
    obtain ⟨f, hf, rfl, -⟩ := (Selector.mem_pickEntries hrd hru).mp hg
    obtain ⟨f', hf', heq⟩ := hmem _ hf
    cases heq
    rw [hself f hf']
    exact Entry.equivOn.listed_of_mem hTU hf'
  · intro f hf
    have hne := s.isEmpty_of_mem_pickEntries hbu hf
    have hpart := s.listed_pickEntries hrd hru (hTU f hf) (hlisted f hf) (by rwa [hself f hf])
    rwa [hself f hf] at hpart

/-- The values that an update makes of nothing. -/
lemma valuesAt_updateWith_none (d : Descriptor) (values : List Value) :
    Attribute.valuesAt ((⟨[], updateWith d values⟩ : Change).applyTo none) =
      (⟨d, values⟩ : Attribute).applyTo [] := by
  cases values with
  | nil =>
    rw [Attribute.applyTo]
    split <;> rfl
  | cons v vs => exact valuesAt_updated ⟨d, v :: vs⟩ none

/-- **An added attribute has the selected parts of the target.** -/
theorem sameSet_ofAdded (hb : b.Conforms d)
    (hmatches : s.matchesAttribute d.schema d.name = true)
    (hub : d.isMultiValued = true → b.Unmarked) :
    Value.sameSet (s.parts d (Attribute.valuesAt ((ofAdded s b).applyTo none)))
      (s.parts d b.values) = true := by
  have hbu := hb.regular.uniqueNames
  rw [ofAdded, hb.descriptor_eq]
  cases hcomplex : d.isComplex with
  | false =>
    have hsimple := isComplex_of_simple hb hcomplex
    have hvalues : Attribute.valuesAt ((⟨[], [b]⟩ : Change).applyTo none) = b.applyTo [] :=
      valuesAt_updated b none
    rw [if_neg Bool.false_ne_true, hvalues,
      parts_simple hmatches fun v hv => hsimple v (mem_applyTo_nil hv),
      parts_simple hmatches hsimple]
    exact Value.sameSet_of_listed (fun v hv => hbu v (mem_applyTo_nil hv)) hbu fun x hx =>
      listed_applyTo_nil hbu (fun _ v hv => removal?_simple (hsimple v hv)) hx
  | true =>
    have hTU : ∀ v ∈ (s.pickEntries b).map Value.complex, v.UniqueNames := by
      intro v hv
      obtain ⟨f, hf, rfl⟩ := List.mem_map.mp hv
      exact (Value.uniqueNames_complex f).mpr (s.uniqueNames_of_mem_pickEntries hbu hf)
    have hplain : (⟨d, (s.pickEntries b).map Value.complex⟩ : Attribute).isMultiValued = true →
        ∀ v ∈ (s.pickEntries b).map Value.complex, v.removal? = none := by
      intro hmulti v hv
      obtain ⟨f, hf, rfl⟩ := List.mem_map.mp hv
      exact Value.removal?_eq_none (s.get?_operation_of_mem_pickEntries hbu (hub hmulti) hf)
    rw [if_pos rfl, valuesAt_updateWith_none]
    refine sameSet_parts_of_pickEntries
      (r := ⟨d, (⟨d, (s.pickEntries b).map Value.complex⟩ : Attribute).applyTo []⟩)
      hb hcomplex rfl (fun v hv => ?_) fun f hf => ?_
    · obtain ⟨f, hf, rfl⟩ := List.mem_map.mp (mem_applyTo_nil hv)
      exact ⟨f, hf, rfl⟩
    · have hmem := List.mem_map_of_mem (f := Value.complex) hf
      exact (listed_applyTo_nil hTU hplain (hTU _ hmem)).mpr
        (Value.equivOn.listed_of_mem hTU hmem)

/-- Nothing is added exactly when no part of the attribute is selected. -/
lemma ofAdded_empty_iff (hb : b.Conforms d)
    (hmatches : s.matchesAttribute d.schema d.name = true) :
    (ofAdded s b).updates = [] ↔ s.parts d b.values = [] := by
  rw [ofAdded, hb.descriptor_eq]
  cases hcomplex : d.isComplex with
  | false =>
    rw [if_neg Bool.false_ne_true, parts_simple hmatches (isComplex_of_simple hb hcomplex)]
    exact iff_of_false (List.cons_ne_nil _ _) hb.arity.ne_nil
  | true =>
    rw [if_pos rfl, updateWith_eq_nil_iff, parts_complex hb hcomplex]

/-! ## Attributes of the source only -/

/-- Whether a sub-attribute is normative depends on its name key only. -/
lemma isNormative_congr {m n : String} (h : SameName m n) : isNormative m = isNormative n := by
  rw [isNormative, isNormative]
  congr 1
  funext name
  exact decide_eq_decide.mpr ⟨fun h' => h'.trans h, fun h' => h'.trans h.symm⟩

/-- The values of a conforming complex attribute are entries. -/
lemma isComplex_of_complex (ha : a.Conforms d) (hcomplex : d.isComplex = true) :
    ∀ v ∈ a.values, v.isComplex = true := by
  intro v hv
  obtain ⟨e, rfl, -⟩ := ha.entries hcomplex v hv
  rfl

/-- What a restriction leaves of a complex attribute has no part exactly when the restriction
takes every selected sub-attribute. -/
lemma parts_restrict?_eq_nil_iff (ha : a.Conforms d) (hcomplex : d.isComplex = true)
    {p : List Char → Bool} :
    s.parts d (Attribute.valuesAt (a.restrict? p)) = [] ↔
      ∀ sub ∈ picked s a, p sub.nameKey = false := by
  have hrest : ∀ v ∈ a.values.filterMap (Value.restrict? p), v.isComplex = true := by
    intro w hw
    obtain ⟨v, -, hvw⟩ := List.mem_filterMap.mp hw
    obtain ⟨e, -, rfl, -⟩ := Value.restrict?_eq_some_iff.mp hvw
    rfl
  have hnone : ∀ v ∈ a.values, v.restrict? (fun k => p k && s.selects d k) = none ↔
      ∀ sub ∈ s.pick a v, p sub.nameKey = false := by
    intro v hv
    obtain ⟨e, rfl, -⟩ := ha.entries hcomplex v hv
    have hempty : (e.restrict fun k => p k && s.selects d k).isEmpty = true ↔
        ∀ sub ∈ s.pick a (.complex e), p sub.nameKey = false := by
      rw [pick_eq ha.descriptor_eq, Entry.isEmpty, Entry.restrict, List.isEmpty_iff,
        List.filter_eq_nil_iff]
      simp only [List.mem_filter, Bool.and_eq_true, not_and, Bool.not_eq_true, and_imp]
      refine forall₂_congr fun sub _ => ?_
      have hselects : s.matchesSub d.schema d.name sub.name = s.selects d sub.nameKey := rfl
      rw [hselects]
      cases s.selects d sub.nameKey <;> cases p sub.nameKey <;> simp
    rw [Value.restrict?, ← hempty]
    split <;> simp_all
  rw [Attribute.valuesAt_restrict?, Selector.parts_eq_filterMap hrest, List.filterMap_filterMap,
    List.filterMap_eq_nil_iff]
  simp only [Value.restrict?_bind]
  rw [picked]
  simp only [List.mem_flatMap, forall_exists_index, and_imp]
  constructor
  · exact fun h sub v hv hsub => (hnone v hv).mp (h v hv) sub hsub
  · exact fun h v hv => (hnone v hv).mpr fun sub hsub => h sub v hv hsub

/-- A complex attribute has no part exactly when no sub-attribute is selected. -/
lemma parts_eq_nil_iff (ha : a.Conforms d) (hcomplex : d.isComplex = true) :
    s.parts d a.values = [] ↔ picked s a = [] := by
  have hself := Attribute.restrict?_true ha.regular (isComplex_of_complex ha hcomplex)
  have hiff := parts_restrict?_eq_nil_iff (s := s) ha hcomplex (p := fun _ => true)
  rw [hself, Attribute.valuesAt_some] at hiff
  rw [hiff, List.eq_nil_iff_forall_not_mem]
  simp

/-- What is removed one by one leaves a selected part exactly when something is stranded. -/
lemma forall_dropped_iff
    (hwhole : ¬ (!a.descriptor.isComplex ||
      (a.descriptor.isMultiValued && !s.hasSubFilter a.schema a.name)) = true)
    (hnormative : ¬ (a.descriptor.isMultiValued && (dropped s a).isEmpty &&
      !(picked s a).isEmpty) = true) :
    (∀ sub ∈ picked s a, sub.nameKey ∈ (dropped s a).map Attribute.nameKey) ↔ ¬ a.Stranded s := by
  simp only [Bool.or_eq_true, Bool.not_eq_true', Bool.and_eq_true, not_or, not_and,
    Bool.not_eq_false] at hwhole
  obtain ⟨hcomplex, hfilter⟩ := hwhole
  cases hmulti : a.descriptor.isMultiValued with
  | false =>
    have hdropped : dropped s a = picked s a := by rw [dropped, hmulti, if_neg Bool.false_ne_true]
    rw [hdropped]
    refine iff_of_true (fun sub hsub => List.mem_map_of_mem hsub) fun hstranded => ?_
    have := hstranded.1
    rw [Attribute.isMultiValued, hmulti] at this
    cases this
  | true =>
    have hdropped : dropped s a = (picked s a).filter fun sub => !isNormative sub.name := by
      rw [dropped, hmulti, if_pos rfl]
    constructor
    · rintro hall ⟨-, -, -, ⟨sub, hsub, hnorm⟩, -⟩
      obtain ⟨sub', hsub', hkey⟩ := List.mem_map.mp (hall sub hsub)
      rw [hdropped, List.mem_filter, isNormative_congr hkey, hnorm] at hsub'
      cases hsub'.2
    · intro hnot sub hsub
      cases hnorm : isNormative sub.name with
      | false =>
        rw [hdropped]
        exact List.mem_map_of_mem (List.mem_filter.mpr ⟨hsub, by rw [hnorm]; rfl⟩)
      | true =>
        -- the only selected sub-attributes are normative, so the attribute goes as a whole
        exfalso
        refine hnormative ?_
        have hempty : dropped s a = [] := by
          rw [hdropped, List.filter_eq_nil_iff]
          intro other hother hnorm'
          exact hnot ⟨hmulti, hcomplex, hfilter hmulti, ⟨sub, hsub, hnorm⟩, other, hother,
            by simpa using hnorm'⟩
        have hne : picked s a ≠ [] := List.ne_nil_of_mem hsub
        rw [hmulti, hempty]
        simpa using hne

/-- **A removed attribute has no selected part left exactly when nothing is stranded.** -/
theorem parts_ofRemoved_eq_nil_iff (core : String) (ha : a.Conforms d) :
    s.parts d (Attribute.valuesAt ((ofRemoved core s a).applyTo (some a))) = [] ↔
      ¬ a.Stranded s := by
  have hnil := s.parts_nil d
  rw [ofRemoved, deletionsOf_eq]
  split
  · rename_i hwhole
    rw [applyTo_path]
    refine iff_of_true hnil fun hstranded => ?_
    obtain ⟨-, hcomplex, hfilter, -⟩ := hstranded
    rw [hcomplex, hfilter] at hwhole
    simp at hwhole
  · rename_i hwhole
    split
    · rename_i hnormative
      rw [applyTo_path]
      refine iff_of_true hnil fun hstranded => ?_
      obtain ⟨hmulti, -, -, -, sub, hsub, hnorm⟩ := hstranded
      rw [Attribute.isMultiValued] at hmulti
      rw [Bool.and_eq_true, Bool.and_eq_true, List.isEmpty_iff, dropped, if_pos hmulti,
        List.filter_eq_nil_iff] at hnormative
      have := hnormative.1.2 sub hsub
      rw [hnorm] at this
      simp at this
    · rename_i hnormative
      rw [← forall_dropped_iff hwhole hnormative]
      have hcomplex : d.isComplex = true := by
        rw [← ha.descriptor_eq]
        simp only [Bool.or_eq_true, Bool.not_eq_true', not_or, Bool.not_eq_false] at hwhole
        exact hwhole.1
      have hpaths : ((dropped s a).map fun sub => path core a (some sub.name)) =
          ((dropped s a).map Attribute.name).map fun n => path core a (some n) := by
        rw [List.map_map]
        rfl
      have happly : (⟨(dropped s a).map fun sub => path core a (some sub.name), []⟩ :
          Change).applyTo (some a) =
            a.restrict? fun k => !((dropped s a).map Attribute.nameKey).contains k := by
        rw [applyTo, hpaths]
        change (Keyed.distinct (((dropped s a).map Attribute.name).map
          fun n => path core a (some n))).foldl (fun o p => Attribute.removed p.sub o) (some a) = _
        rw [foldl_removed_paths ha.regular (isComplex_of_complex ha hcomplex), List.map_map]
        rfl
      rw [happly, parts_restrict?_eq_nil_iff ha hcomplex]
      refine forall₂_congr fun sub _ => ?_
      rw [Bool.not_eq_false', List.contains_iff_mem]

/-- Nothing is removed exactly when no part of the attribute is selected. -/
lemma ofRemoved_empty_iff (core : String) (ha : a.Conforms d)
    (hmatches : s.matchesAttribute d.schema d.name = true) :
    (ofRemoved core s a).deletions = [] ↔ s.parts d a.values = [] := by
  have hpicked : d.isComplex = true → (s.parts d a.values = [] ↔ picked s a = []) :=
    parts_eq_nil_iff ha
  rw [ofRemoved, deletionsOf_eq, ha.descriptor_eq]
  cases hcomplex : d.isComplex with
  | false =>
    rw [parts_simple hmatches (isComplex_of_simple ha hcomplex)]
    exact iff_of_false (List.cons_ne_nil _ _) ha.arity.ne_nil
  | true =>
    rw [hpicked hcomplex]
    split
    · rename_i hwhole
      -- every sub-attribute is selected, and no entry is empty
      refine iff_of_false (List.cons_ne_nil _ _) fun hnil => ?_
      have hfilter : s.hasSubFilter d.schema d.name = false := by
        simp only [Bool.not_true, Bool.false_or, Bool.and_eq_true, Bool.not_eq_true'] at hwhole
        rw [← ha.descriptor_eq]
        exact hwhole.2
      obtain ⟨v, hv⟩ := List.exists_mem_of_ne_nil _ ha.arity.ne_nil
      obtain ⟨e, rfl, he⟩ := ha.entries hcomplex v hv
      obtain ⟨sub, hsub⟩ := List.exists_mem_of_ne_nil _ he.ne_nil
      have hselects := Selector.selects_of_whole hmatches hfilter sub.nameKey
      rw [← ha.descriptor_eq] at hselects
      refine List.not_mem_nil (a := sub) ?_
      rw [← hnil]
      exact List.mem_flatMap.mpr ⟨_, hv, List.mem_filter.mpr ⟨hsub, hselects⟩⟩
    · split
      · rename_i hnormative
        refine iff_of_false (List.cons_ne_nil _ _) fun hnil => ?_
        rw [hnil] at hnormative
        simp at hnormative
      · rename_i hnormative
        rw [List.map_eq_nil_iff]
        constructor
        · intro hempty
          cases hmulti : d.isMultiValued with
          | false =>
            rwa [dropped, ha.descriptor_eq, hmulti, if_neg Bool.false_ne_true] at hempty
          | true =>
            by_contra hne
            rw [hmulti, hempty] at hnormative
            exact hnormative (by simpa using hne)
        · intro hnil
          rw [List.eq_nil_iff_forall_not_mem]
          intro sub hsub
          have := mem_picked_of_mem_dropped hsub
          rw [hnil] at this
          exact List.not_mem_nil this

end Change

end Scim
