import Scim.Proofs.Changes

set_option autoImplicit false

/-!
# Changes fit their descriptors

The change of attributes that conform to a descriptor deletes paths of that attribute and of
sub-attributes which the descriptor defines, and it makes at most one update, which is regular.
This is what a body relies on: whatever it carries of such a change is again one, and applied to
a regular attribute it leaves a regular one.

## Main definitions

* `Scim.Change.Fits` — a change concerns the attribute of a descriptor only.

## Main results

* `Scim.Change.fits_ofPair` — every change of conforming attributes fits their descriptor.
* `Scim.Change.Fits.regularAt_applyTo` — applied to a regular attribute, it leaves a regular one.
* `Scim.Change.Fits.written` — what a body carries of it fits as well.
-/

namespace Scim.Change

variable {core : String} {s : Selector} {d : Descriptor} {a b : Attribute}
  {o p : Option Attribute}

/-! ## Deletions and updates that fit -/

/-- A change concerns the attribute of a descriptor only: its deletions are paths of the
attribute and of sub-attributes that the descriptor defines, and it has at most one update, which
is regular. -/
structure Fits (core : String) (d : Descriptor) (c : Change) : Prop where
  deletions : ∀ p ∈ c.deletions, ∃ sub, p = path core ⟨d, []⟩ sub ∧
    ∀ name, sub = some name → ∃ x ∈ d.definition.subAttributes, x.name = name
  updates : ∀ u ∈ c.updates, u.Regular d
  length_le : c.updates.length ≤ 1

/-- No change fits every descriptor. -/
lemma fits_unchanged (core : String) (d : Descriptor) : unchanged.Fits core d :=
  ⟨by simp [unchanged], by simp [unchanged], by simp [unchanged]⟩

/-- Sub-attributes of conforming entries are defined. -/
lemma exists_definition {e : Entry} (he : e.Conforms d) {sub : Attribute}
    (hsub : sub ∈ e.subAttributes) : ∃ x ∈ d.definition.subAttributes, x.name = sub.name := by
  obtain ⟨y, hy, -, hconforms⟩ := he.subs sub hsub
  rw [Descriptor.sub?, Option.map_eq_some_iff] at hy
  obtain ⟨x, hx, rfl⟩ := hy
  exact ⟨x, List.mem_of_find?_eq_some hx, by rw [Attribute.name, hconforms.descriptor_eq]; rfl⟩

/-- The path of a selected sub-attribute fits. -/
lemma fits_path_of_mem_pick (ha : a.Conforms d) {v : Value} (hv : v ∈ a.values) {sub : Attribute}
    (h : sub ∈ s.pick a v) : ∀ name, some sub.name = some name →
      ∃ x ∈ d.definition.subAttributes, x.name = name := by
  rintro name ⟨⟩
  obtain ⟨e, rfl, hsub, -⟩ := mem_pick h
  cases hcomplex : d.isComplex with
  | false =>
    obtain ⟨j, hj, -⟩ := ha.scalars hcomplex _ hv
    cases hj
  | true =>
    obtain ⟨f, hf, hconforms⟩ := ha.entries hcomplex _ hv
    cases hf
    exact exists_definition hconforms hsub

/-- An update with some values fits when they are regular and not too many. -/
lemma fits_updateWith {values : List Value} (hvalues : ∀ v ∈ values, v.Regular)
    (hlen : d.isMultiValued = false → values.length ≤ 1) :
    (⟨[], updateWith d values⟩ : Change).Fits core d := by
  refine ⟨by simp, fun u hu => ?_, length_updateWith_le d values⟩
  obtain ⟨hne, rfl⟩ := mem_updateWith_iff.mp hu
  refine ⟨rfl, ⟨hne, fun hsingle => ?_⟩, hvalues⟩
  exact le_antisymm (hlen hsingle) (List.length_pos_iff.mpr hne)

/-- A conforming attribute is an update that fits. -/
lemma fits_whole (hb : b.Conforms d) : (⟨[], [b]⟩ : Change).Fits core d :=
  ⟨by simp, by simpa using hb.regular, by simp⟩

/-- A change may delete its attribute as well. -/
lemma Fits.with_path (ha : a.descriptor = d) {updates : List Attribute}
    (h : (⟨[], updates⟩ : Change).Fits core d) :
    (⟨[path core a none], updates⟩ : Change).Fits core d := by
  refine ⟨fun p hp => ⟨none, ?_, fun name hname => ?_⟩, h.updates, h.length_le⟩
  · rw [List.mem_singleton.mp hp, path_congr core ha]
  · cases hname

/-! ## Every change fits -/

/-- The change of an attribute of the source only fits its descriptor. -/
lemma fits_ofRemoved (core : String) (s : Selector) (ha : a.Conforms d) :
    (ofRemoved core s a).Fits core d := by
  have hwhole := ((fits_unchanged core d).with_path ha.descriptor_eq).deletions
  refine ⟨fun p hp => ?_, by simp [ofRemoved], by simp [ofRemoved]⟩
  rw [ofRemoved, deletionsOf_eq] at hp
  dsimp only at hp
  split at hp
  · exact hwhole p hp
  · split at hp
    · exact hwhole p hp
    · obtain ⟨sub, hsub, rfl⟩ := List.mem_map.mp hp
      obtain ⟨v, hv, hpick⟩ := List.mem_flatMap.mp (mem_picked_of_mem_dropped hsub)
      exact ⟨some sub.name, path_congr core ha.descriptor_eq _,
        fits_path_of_mem_pick ha hv hpick⟩

/-- The change of an attribute of the target only fits its descriptor. -/
lemma fits_ofAdded (core : String) (s : Selector) (hb : b.Conforms d) :
    (ofAdded s b).Fits core d := by
  rw [ofAdded, hb.descriptor_eq]
  split
  · refine fits_updateWith (regular_of_mem_pickEntries hb.regular fun _ h => h) fun hsingle => ?_
    rw [List.length_map, Selector.pickEntries, ← hb.arity.single hsingle]
    exact List.length_filterMap_le _ _
  · exact fits_whole hb

/-- The change of a single entry fits its descriptor. -/
lemma fits_ofEntry (core : String) (s : Selector) (ha : a.Conforms d) (hb : b.Conforms d)
    {e f : Entry} (hav : a.values = [.complex e]) (hbv : b.values = [.complex f]) :
    (ofEntry core s a b e f).Fits core d := by
  refine ⟨fun p hp => ?_, fun u hu => ?_, length_ofEntry_le core s a b e f⟩
  · obtain ⟨sub, hsub, rfl⟩ := List.mem_map.mp hp
    exact ⟨some sub.name, path_congr core ha.descriptor_eq _,
      fits_path_of_mem_pick ha (by simp [hav]) (List.mem_filter.mp hsub).1⟩
  · obtain ⟨hne, rfl⟩ := mem_updates_ofEntry_iff.mp hu
    refine ⟨hb.descriptor_eq, ⟨List.cons_ne_nil _ _, fun _ => rfl⟩, fun v hv => ?_⟩
    rw [List.mem_singleton.mp hv, Value.regular_complex]
    exact ⟨uniqueNames_changed (hb.regular.uniqueNames_entry hbv), hne⟩

/-- The change of an attribute that both resources have fits its descriptor. -/
lemma fits_common (core : String) (s : Selector) (ha : a.Conforms d) (hb : b.Conforms d)
    (hmark : d.isMultiValued = true → d.isComplex = true → ∃ mark, d.IsMark mark) :
    (common core s a b).Fits core d := by
  have hnot : d.isMultiValued = true → d.isMultiValued = false → ∀ n : Nat, n ≤ 1 :=
    fun hmulti hsingle => absurd (hsingle.symm.trans hmulti) Bool.false_ne_true
  have hfresh :=
    regular_of_mem_pickEntries hb.regular (fresh_subset (s := s) ha.regular hb.regular)
  obtain ⟨c, hc, hkind⟩ := exists_kind core s ha hb hmark
  rw [common_of_ok hc]
  cases hkind with
  | same => exact fits_unchanged core d
  | scalar => exact fits_whole hb
  | entry _ _ hav hbv => exact fits_ofEntry core s ha hb hav hbv
  | more hmulti _ =>
    refine fits_updateWith (fun v hv => ?_) fun hsingle => hnot hmulti hsingle _
    have hv := (Keyed.mem_fresh_iff Value.equivOn ha.regular.uniqueNames
      hb.regular.uniqueNames).mp hv
    exact hb.regular.values v (Keyed.mem_of_mem_distinct hv.1)
  | replaced => exact (fits_whole hb).with_path ha.descriptor_eq
  | collapsed hmulti =>
    exact (fits_updateWith hfresh fun hsingle => hnot hmulti hsingle _).with_path
      ha.descriptor_eq
  | marked hmulti _ _ hmark =>
    refine fits_updateWith (fun v hv => ?_) fun hsingle => hnot hmulti hsingle _
    rw [List.map_append, List.mem_append, List.map_map] at hv
    rcases hv with hv | hv
    · obtain ⟨e, he, rfl⟩ := List.mem_map.mp hv
      have hunique := s.uniqueNames_of_mem_pickEntries ha.regular.uniqueNames
        (gone_subset ha.regular hb.regular e he)
      exact Value.regular_complex.mpr
        ⟨hunique.insert hmark.uniqueNames, Entry.isEmpty_insert e _⟩
    · exact hfresh v hv

/-- **Every change fits its descriptor.** -/
theorem fits_ofPair (core : String) (s : Selector) (ho : ∀ a, o = some a → a.Conforms d)
    (hp : ∀ b, p = some b → b.Conforms d)
    (hmark : d.isMultiValued = true → d.isComplex = true → ∃ mark, d.IsMark mark) :
    (ofPair core s o p).Fits core d :=
  ofPair_cases (fits_unchanged core d) (fun b hb => fits_ofAdded core s (hp b hb))
    (fun a ha => fits_ofRemoved core s (ho a ha))
    fun a b ha hb => fits_common core s (ho a ha) (hp b hb) hmark

/-! ## Applied changes -/

/-- Removals keep a regular attribute regular. -/
lemma regularAt_foldl_removed (paths : List AttributePath) (ho : Attribute.RegularAt d o) :
    Attribute.RegularAt d (paths.foldl (fun o p => Attribute.removed p.sub o) o) := by
  induction paths generalizing o with
  | nil => exact ho
  | cons p ps ih => exact ih (ho.removed p.sub)

/-- What a service provider makes of a regular attribute is regular. -/
lemma Fits.regularAt_applyTo {c : Change} (hc : c.Fits core d) (ho : Attribute.RegularAt d o) :
    Attribute.RegularAt d (c.applyTo o) := by
  have hremoved := regularAt_foldl_removed (Keyed.distinct c.deletions) ho
  rw [applyTo]
  cases hhead : c.updates.head? with
  | none => exact hremoved
  | some u => exact hremoved.updated (hc.updates u (List.mem_of_head? hhead))

/-! ## Written changes -/

section Written

variable {c : Change} (hc : c.Fits core d)

include hc

/-- What a body carries of a fitting change fits. -/
lemma Fits.written : c.written.Fits core d :=
  ⟨hc.deletions, fun u hu => hc.updates u (List.mem_filter.mp hu).1,
    (List.length_filter_le _ _).trans hc.length_le⟩

/-- Of an attribute that can be written a body carries the whole change. -/
lemma Fits.written_eq_self (hread : d.isReadOnly = false) : c.written = c := by
  have hupdates : c.updates.filter (fun u => !u.descriptor.isReadOnly) = c.updates :=
    List.filter_eq_self.mpr fun u hu => by rw [(hc.updates u hu).descriptor_eq, hread]; rfl
  rw [Change.written, hupdates]

/-- Of an attribute that cannot be written a body carries the deletions only. -/
lemma Fits.updates_written_eq_nil (hread : d.isReadOnly = true) : c.written.updates = [] :=
  List.filter_eq_nil_iff.mpr fun u hu => by simp [(hc.updates u hu).descriptor_eq, hread]

end Written

end Scim.Change
