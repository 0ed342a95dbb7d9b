import Scim.Proofs.FittingChanges

set_option autoImplicit false

/-!
# Changes of multi-valued complex attributes

The entries of source and target are compared by their selected parts, but a mark takes away every
value that contains the marked part.  So an entry that both have goes, too, when the part of an
entry that has to go is contained in it.  This module says exactly which values stay.

## Main definitions

* `Scim.Attribute.Unmarked` — no entry uses the sub-attribute `operation`.
* `Scim.Entry.Overlap` — an entry that has to go is contained in one that stays.
* `Scim.Change.Keeps` — a value of the source stays.

## Main results

* `Scim.Change.exists_kept` — the values after the change are those that stay and the fresh ones.
* `Scim.Change.sameSet_entries_iff` — the selected parts become those of the target exactly when
  there is no overlap.
* `Scim.Change.listed_entries_iff` — which of the shared entries survive.
-/

namespace Scim

/-- No entry of an attribute uses the sub-attribute that marks entries for removal. -/
def Attribute.Unmarked (a : Attribute) : Prop := ∀ v ∈ a.values, v.sub? operationName = none

instance (a : Attribute) : Decidable a.Unmarked :=
  inferInstanceAs (Decidable (∀ v ∈ a.values, v.sub? operationName = none))

/-- An entry of the first list that the second lacks is contained in one that both have. -/
def Entry.Overlap (S T : List Entry) : Prop :=
  ∃ e ∈ S, ¬ Listed T e ∧ ∃ f ∈ S, Listed T f ∧ (Value.complex f).containsEntry e = true

instance (S T : List Entry) : Decidable (Entry.Overlap S T) :=
  inferInstanceAs (Decidable (∃ e ∈ S, ¬ Listed T e ∧ ∃ f ∈ S, Listed T f ∧ _ = true))

/-! ## Selected entries up to equality -/

namespace Selector

variable {s : Selector} {d : Descriptor} {a b : Attribute} {vs : List Value} {e : Entry}

/-- The selected part of a listed value is listed. -/
lemma listed_pickEntries (had : a.descriptor = d) (hau : ∀ v ∈ a.values, v.UniqueNames)
    (he : e.UniqueNames) (h : Listed a.values (.complex e))
    (hne : (e.restrict (s.selects d)).isEmpty = false) :
    Listed (s.pickEntries a) (e.restrict (s.selects d)) := by
  obtain ⟨v, hv, hve⟩ := h
  cases v with
  | simple j => simp at hve
  | complex f =>
    rw [Value.complex_beq_complex] at hve
    have hf := (Value.uniqueNames_complex f).mp (hau _ hv)
    have hrestrict := Entry.restrict_beq hf he (s.selects d) hve
    refine ⟨f.restrict (s.selects d), (mem_pickEntries had hau).mpr ⟨f, hv, rfl, ?_⟩, hrestrict⟩
    rw [Entry.isEmpty_congr (hf.restrict _) (he.restrict _) hrestrict, hne]

/-- A selected entry is its own selected part. -/
lemma restrict_of_mem_pickEntries (had : a.descriptor = d) (hau : ∀ v ∈ a.values, v.UniqueNames)
    (h : e ∈ s.pickEntries a) : e.restrict (s.selects d) = e := by
  obtain ⟨f, -, rfl, -⟩ := (mem_pickEntries had hau).mp h
  rw [Entry.restrict_restrict]
  simp only [Bool.and_self]

/-- A selected entry is not empty. -/
lemma isEmpty_of_mem_pickEntries (hau : ∀ v ∈ a.values, v.UniqueNames)
    (h : e ∈ s.pickEntries a) : e.isEmpty = false := by
  obtain ⟨f, -, -, hne⟩ := (mem_pickEntries rfl hau).mp h
  exact hne

/-- A selected entry of an unmarked attribute does not use `operation`. -/
lemma get?_operation_of_mem_pickEntries (hau : ∀ v ∈ a.values, v.UniqueNames) (ha : a.Unmarked)
    (h : e ∈ s.pickEntries a) : e.get? operationName = none := by
  obtain ⟨f, hf, rfl, -⟩ := (mem_pickEntries rfl hau).mp h
  have hnone : f.get? operationName = none := ha _ hf
  rw [Entry.get?_eq_lookup] at hnone ⊢
  rw [Entry.lookup_restrict, hnone, ite_self]

/-- A value contains a selected entry when its selected part does. -/
lemma containsEntry_restrict (had : a.descriptor = d) (hau : ∀ v ∈ a.values, v.UniqueNames)
    (h : e ∈ s.pickEntries a) (f : Entry) :
    (Value.complex (f.restrict (s.selects d))).containsEntry e =
      (Value.complex f).containsEntry e := by
  refine Value.containsEntry_restrict (uniqueNames_of_mem_pickEntries hau h) fun k hk => ?_
  rw [← restrict_of_mem_pickEntries had hau h, Entry.lookup_restrict, hk, if_neg Bool.false_ne_true]

/-- Equal attributes have the same selected entries. -/
lemma listed_pickEntries_of_beq (hau : ∀ v ∈ a.values, v.UniqueNames)
    (hbu : ∀ v ∈ b.values, v.UniqueNames) (had : a.descriptor = d) (hbd : b.descriptor = d)
    (hab : (a == b) = true) : ∀ e ∈ s.pickEntries a, Listed (s.pickEntries b) e := by
  intro e he
  obtain ⟨f, hf, rfl, hne⟩ := (mem_pickEntries had hau).mp he
  have hfu := (Value.uniqueNames_complex f).mp (hau _ hf)
  have hforall := (Attribute.beq_iff.mp hab).2
  obtain ⟨i, hi, hfi⟩ := List.mem_iff_getElem.mp hf
  have hib : i < b.values.length := hforall.length_eq ▸ hi
  have hbeq := List.Forall₂.get hforall hi hib
  refine listed_pickEntries hbd hbu hfu ⟨b.values[i], List.getElem_mem hib, ?_⟩ hne
  simp only [List.get_eq_getElem, hfi] at hbeq
  exact Value.equivOn.symm _ _ (hau _ hf) (hbu _ (List.getElem_mem hib)) hbeq

end Selector

/-- Lists of complex values hold the same when their entries do. -/
lemma Value.sameSet_map_complex {S T : List Entry} :
    Value.sameSet (S.map .complex) (T.map .complex) = true ↔
      (∀ e ∈ S, Listed T e) ∧ ∀ f ∈ T, Listed S f := by
  have hlisted : ∀ (xs : List Entry) (e : Entry),
      Listed (xs.map Value.complex) (.complex e) ↔ Listed xs e := by
    intro xs e
    simp [Listed]
  rw [Value.sameSet_iff]
  simp only [List.forall_mem_map, hlisted]

namespace Change

variable {core : String} {s : Selector} {d : Descriptor} {a b mark : Attribute}

/-! ## One update -/

/-- The values of an attribute after an update are those that the update makes. -/
lemma valuesAt_updated (u : Attribute) (o : Option Attribute) :
    Attribute.valuesAt (Attribute.updated u o) = u.applyTo (Attribute.valuesAt o) := by
  rw [Attribute.updated]
  change Attribute.valuesAt (if (u.applyTo (Attribute.valuesAt o)).isEmpty then none
    else some { u with values := u.applyTo (Attribute.valuesAt o) }) = _
  split
  · rename_i hempty
    rw [List.isEmpty_iff.mp hempty]
    rfl
  · rfl

/-- The values after an update of a multi-valued attribute. -/
lemma valuesAt_applyTo_updateWith (hmulti : d.isMultiValued = true) (values : List Value)
    (o : Option Attribute) :
    Attribute.valuesAt ((⟨[], updateWith d values⟩ : Change).applyTo o) =
      values.foldl Value.applyTo (Attribute.valuesAt o) := by
  cases hvalues : values with
  | nil => rfl
  | cons v vs =>
    change Attribute.valuesAt (Attribute.updated ⟨d, v :: vs⟩ o) = _
    rw [valuesAt_updated, Attribute.applyTo]
    exact if_pos hmulti

/-- What is made of an attribute that a change removes first. -/
lemma applyTo_path (core : String) (a : Attribute) (updates : List Attribute)
    (o : Option Attribute) :
    (⟨[path core a none], updates⟩ : Change).applyTo o = (⟨[], updates⟩ : Change).applyTo none := by
  have hpath : Keyed.distinct [path core a none] = [path core a none] := rfl
  rw [applyTo, applyTo, hpath, List.foldl_cons, path_sub, Attribute.removed_none]
  rfl

/-- The parts of a conforming complex attribute are its selected entries. -/
lemma parts_complex (ha : a.Conforms d) (hcomplex : d.isComplex = true) :
    s.parts d a.values = (s.pickEntries a).map Value.complex := by
  refine s.parts_eq_pickEntries ha.descriptor_eq ha.regular.uniqueNames fun v hv => ?_
  obtain ⟨e, rfl, -⟩ := ha.entries hcomplex v hv
  rfl

/-! ## What stays -/

/-- A value of the source stays: the attribute is not removed as a whole, and no selected entry
that has to go is contained in the value. -/
def Keeps (s : Selector) (a b : Attribute) (v : Value) : Prop :=
  ¬ Collapses s a b ∧
    ∀ e ∈ s.pickEntries a, ¬ Listed (s.pickEntries b) e → v.containsEntry e = false

/-- The test on the entries that are gone is the one on all entries that have to go. -/
lemma any_gone_eq_false_iff (ha : a.Regular d) (hb : b.Regular d) {v : Value} (hv : v.UniqueNames) :
    ((gone s a b).any fun e => v.containsEntry e) = false ↔
      ∀ e ∈ s.pickEntries a, ¬ Listed (s.pickEntries b) e → v.containsEntry e = false := by
  rw [List.any_eq_false]
  have hau := fun e (h : e ∈ s.pickEntries a) =>
    s.uniqueNames_of_mem_pickEntries ha.uniqueNames h
  have hbu := fun e (h : e ∈ s.pickEntries b) =>
    s.uniqueNames_of_mem_pickEntries hb.uniqueNames h
  constructor
  · intro h e he hnot
    obtain ⟨e', he', hbeq⟩ := Keyed.listed_distinct_of_mem Entry.equivOn hau he
    have heU := hau e he
    have heU' := hau e' (Keyed.mem_of_mem_distinct he')
    have hnot' : ¬ Listed (s.pickEntries b) e' := fun hl =>
      hnot ((Entry.equivOn.listed_congr hbu heU' heU hbeq).mp hl)
    have hfalse := h e' ((mem_gone_iff ha hb).mpr ⟨he', hnot'⟩)
    cases v with
    | simple j => rfl
    | complex f =>
      rw [Bool.eq_false_iff]
      intro hcontains
      exact hfalse (Value.containsEntry_of_beq_right heU heU' ((Value.uniqueNames_complex f).mp hv)
        hbeq hcontains)
  · intro h e he
    obtain ⟨hmem, hnot⟩ := (mem_gone_iff ha hb).mp he
    rw [h e (Keyed.mem_of_mem_distinct hmem) hnot]
    exact Bool.false_ne_true

section Entries

variable (ha : a.Conforms d) (hb : b.Conforms d) (hmulti : d.isMultiValued = true)
  (hcomplex : d.isComplex = true) (hmark : d.IsMark mark) (hua : a.Unmarked) (hub : b.Unmarked)
  (hbeq : ¬ (a == b) = true)

include ha hb hmulti hcomplex hmark hua hbeq

variable (core s) in
/-- **The values after the change** are those that stay, with the fresh ones added as to a set.

**Proof sketch.**  When the attribute is removed as a whole nothing stays, and the update adds the
fresh entries to nothing.  Otherwise the update holds marked entries first, which are one filter,
and the fresh entries are added to what it leaves. -/
lemma exists_kept : ∃ kept : List Value,
    Attribute.valuesAt ((common core s a b).applyTo (some a)) =
      ((fresh s a b).map Value.complex).foldl Value.applyTo kept ∧
    ∀ v, v ∈ kept ↔ v ∈ a.values ∧ Keeps s a b v := by
  have har := ha.regular
  have hbr := hb.regular
  have hentries : ofCommon core s a b = ofEntries core s a b :=
    ofCommon_entries ha.descriptor_eq hbeq hmulti hcomplex
  by_cases hcollapses : Collapses s a b
  · refine ⟨[], ?_, fun v => ?_⟩
    · rw [common_of_ok (hentries.trans (ofEntries_of_collapses har hbr hcollapses)), applyTo_path,
        ha.descriptor_eq, valuesAt_applyTo_updateWith hmulti]
      rfl
    · exact iff_of_false List.not_mem_nil fun h => h.2.1 hcollapses
  · refine ⟨a.values.filter fun v => !(gone s a b).any fun e => v.containsEntry e, ?_, fun v => ?_⟩
    · have hremoval : ∀ e ∈ gone s a b, (Value.complex (e.insert mark).2).removal? = some e :=
        fun e he => hmark.removal? (s.get?_operation_of_mem_pickEntries har.uniqueNames hua
          (gone_subset har hbr e he))
      rw [common_of_ok (hentries.trans (ofEntries_of_not_collapses har hbr hcollapses hmark)),
        ha.descriptor_eq, valuesAt_applyTo_updateWith hmulti, List.map_append, List.foldl_append,
        List.map_map, Attribute.valuesAt_some]
      exact congrArg (List.foldl Value.applyTo · _) (Value.foldl_applyTo_marked hremoval a.values)
    · rw [List.mem_filter]
      refine and_congr_right fun hv => ?_
      rw [Bool.not_eq_true', any_gone_eq_false_iff har hbr (har.uniqueNames v hv), Keeps,
        and_iff_right hcollapses]

/-- A value after the change is one that stays or a fresh one. -/
lemma mem_common {v : Value}
    (hv : v ∈ Attribute.valuesAt ((common core s a b).applyTo (some a))) :
    (v ∈ a.values ∧ Keeps s a b v) ∨ ∃ f ∈ fresh s a b, v = .complex f := by
  obtain ⟨kept, hvalues, hkept⟩ :=
    exists_kept core s ha hb hmulti hcomplex hmark hua hbeq
  rw [hvalues] at hv
  rcases Value.mem_foldl_applyTo hv with hv | hv
  · exact .inl ((hkept v).mp hv)
  · obtain ⟨f, hf, rfl⟩ := List.mem_map.mp hv
    exact .inr ⟨f, hf, rfl⟩

/-- All values after the change are complex. -/
lemma isComplex_of_mem_common {v : Value}
    (hv : v ∈ Attribute.valuesAt ((common core s a b).applyTo (some a))) : v.isComplex = true := by
  rcases mem_common ha hb hmulti hcomplex hmark hua hbeq hv with ⟨hv, -⟩ | ⟨f, -, rfl⟩
  · obtain ⟨e, rfl, -⟩ := ha.entries hcomplex v hv
    rfl
  · rfl

include hub

/-- A value is listed after the change when it equals one that stays or a fresh one. -/
lemma listed_common_iff {x : Value} (hx : x.UniqueNames) :
    Listed (Attribute.valuesAt ((common core s a b).applyTo (some a))) x ↔
      (∃ v ∈ a.values, Keeps s a b v ∧ (v == x) = true) ∨
        ∃ f ∈ fresh s a b, (Value.complex f == x) = true := by
  obtain ⟨kept, hvalues, hkept⟩ :=
    exists_kept core s ha hb hmulti hcomplex hmark hua hbeq
  have hfresh := fresh_subset (s := s) ha.regular hb.regular
  have hunique : ∀ v ∈ kept, v.UniqueNames :=
    fun v hv => ha.regular.uniqueNames v ((hkept v).mp hv).1
  have hplain : ∀ w ∈ (fresh s a b).map Value.complex, w.removal? = none := by
    intro w hw
    obtain ⟨f, hf, rfl⟩ := List.mem_map.mp hw
    exact Value.removal?_eq_none
      (s.get?_operation_of_mem_pickEntries hb.regular.uniqueNames hub (hfresh f hf))
  have hfreshU : ∀ w ∈ (fresh s a b).map Value.complex, w.UniqueNames := by
    intro w hw
    obtain ⟨f, hf, rfl⟩ := List.mem_map.mp hw
    exact (Value.uniqueNames_complex f).mpr
      (s.uniqueNames_of_mem_pickEntries hb.regular.uniqueNames (hfresh f hf))
  rw [hvalues, Value.foldl_applyTo_plain hunique hfreshU hplain hx]
  refine or_congr ?_ ?_
  · simp only [Listed, hkept, and_assoc]
  · simp [Listed]

/-- **Which values of the source survive.**  A value of the source is still there after the change
exactly when it stays: what is fresh differs from it. -/
theorem listed_entries_iff {v : Value} (hv : v ∈ a.values) :
    Listed (Attribute.valuesAt ((common core s a b).applyTo (some a))) v ↔ Keeps s a b v := by
  have hau := ha.regular.uniqueNames
  have hbu := hb.regular.uniqueNames
  obtain ⟨e, rfl, -⟩ := ha.entries hcomplex v hv
  have heU := (Value.uniqueNames_complex e).mp (hau _ hv)
  rw [listed_common_iff ha hb hmulti hcomplex hmark hua hub hbeq (hau _ hv)]
  constructor
  · rintro (⟨w, hw, hkeeps, hwe⟩ | ⟨f, hf, hfe⟩)
    · refine ⟨hkeeps.1, fun g hg hnot => ?_⟩
      obtain ⟨f, rfl, -⟩ := ha.entries hcomplex w hw
      have hfalse := hkeeps.2 g hg hnot
      rw [Bool.eq_false_iff] at hfalse ⊢
      intro hcontains
      rw [Value.complex_beq_complex] at hwe
      exact hfalse (Value.containsEntry_of_beq_left (s.uniqueNames_of_mem_pickEntries hau hg) heU
        ((Value.uniqueNames_complex f).mp (hau _ hw)) hwe hcontains)
    · -- a fresh entry that equals `e` would make the part of `e` an entry of the source
      exfalso
      have hfT := fresh_subset ha.regular hb.regular f hf
      have hfU := s.uniqueNames_of_mem_pickEntries hbu hfT
      have hself := s.restrict_of_mem_pickEntries hb.descriptor_eq hbu hfT
      rw [Value.complex_beq_complex] at hfe
      have hrestrict := Entry.restrict_beq hfU heU (s.selects d) hfe
      rw [hself] at hrestrict
      have hne : (e.restrict (s.selects d)).isEmpty = false := by
        rw [← Entry.isEmpty_congr hfU (heU.restrict _) hrestrict]
        exact s.isEmpty_of_mem_pickEntries hbu hfT
      refine ((mem_fresh_iff ha.regular hb.regular).mp hf).2 ⟨e.restrict (s.selects d), ?_, ?_⟩
      · exact (Selector.mem_pickEntries ha.descriptor_eq hau).mpr ⟨e, hv, rfl, hne⟩
      · exact Entry.equivOn.symm _ _ hfU (heU.restrict _) hrestrict
  · exact fun hkeeps => .inl ⟨_, hv, hkeeps, Value.equivOn.refl _ (hau _ hv)⟩

omit hub in
/-- Every part after the change is one of the target. -/
lemma listed_of_mem_pickEntries_common {r : Attribute} (hrd : r.descriptor = d)
    (hrv : r.values = Attribute.valuesAt ((common core s a b).applyTo (some a)))
    (hru : ∀ v ∈ r.values, v.UniqueNames) :
    ∀ g ∈ s.pickEntries r, Listed (s.pickEntries b) g := by
  have hau := ha.regular.uniqueNames
  have hbu := hb.regular.uniqueNames
  intro g hg
  obtain ⟨f, hf, rfl, hne⟩ := (Selector.mem_pickEntries hrd hru).mp hg
  rw [hrv] at hf
  rcases mem_common ha hb hmulti hcomplex hmark hua hbeq hf with ⟨hfa, hkeeps⟩ | ⟨f', hf', heq⟩
  · have hgS : f.restrict (s.selects d) ∈ s.pickEntries a :=
      (Selector.mem_pickEntries ha.descriptor_eq hau).mpr ⟨f, hfa, rfl, hne⟩
    have hgU := s.uniqueNames_of_mem_pickEntries hau hgS
    by_contra hnot
    -- a value contains its own part, so it would have gone
    have hself := Value.containsEntry_of_beq hgU hgU (Entry.equivOn.refl _ hgU)
    rw [s.containsEntry_restrict ha.descriptor_eq hau hgS, hkeeps.2 _ hgS hnot] at hself
    cases hself
  · cases heq
    have hfT := fresh_subset ha.regular hb.regular f hf'
    rw [s.restrict_of_mem_pickEntries hb.descriptor_eq hbu hfT]
    exact Entry.equivOn.listed_of_mem (fun e he => s.uniqueNames_of_mem_pickEntries hbu he) hfT

/-- Without overlap every part of the target is there after the change. -/
lemma listed_pickEntries_common (hno : ¬ Entry.Overlap (s.pickEntries a) (s.pickEntries b))
    {r : Attribute} (hrd : r.descriptor = d)
    (hrv : r.values = Attribute.valuesAt ((common core s a b).applyTo (some a)))
    (hru : ∀ v ∈ r.values, v.UniqueNames) :
    ∀ f ∈ s.pickEntries b, Listed (s.pickEntries r) f := by
  have hau := ha.regular.uniqueNames
  have hbu := hb.regular.uniqueNames
  have hSU := fun e (h : e ∈ s.pickEntries a) => s.uniqueNames_of_mem_pickEntries hau h
  have hTU := fun e (h : e ∈ s.pickEntries b) => s.uniqueNames_of_mem_pickEntries hbu h
  have hRU := fun e (h : e ∈ s.pickEntries r) => s.uniqueNames_of_mem_pickEntries hru h
  intro f hf
  by_cases hshared : Listed (s.pickEntries a) f
  · obtain ⟨g, hg, hgf⟩ := hshared
    obtain ⟨e, he, rfl, hne⟩ := (Selector.mem_pickEntries ha.descriptor_eq hau).mp hg
    have hgT : Listed (s.pickEntries b) (e.restrict (s.selects d)) :=
      ⟨f, hf, Entry.equivOn.symm _ _ (hSU _ hg) (hTU _ hf) hgf⟩
    have hkeeps : Keeps s a b (.complex e) := by
      refine ⟨fun hcollapses => hcollapses.2 _ hg hgT, fun x hx hnot => ?_⟩
      rw [Bool.eq_false_iff]
      intro hcontains
      rw [← s.containsEntry_restrict ha.descriptor_eq hau hx] at hcontains
      exact hno ⟨x, hx, hnot, _, hg, hgT, hcontains⟩
    have hlisted : Listed r.values (.complex e) := by
      rw [hrv, listed_common_iff ha hb hmulti hcomplex hmark hua hub hbeq (hau _ he)]
      exact .inl ⟨_, he, hkeeps, Value.equivOn.refl _ (hau _ he)⟩
    have heU := (Value.uniqueNames_complex e).mp (hau _ he)
    exact (Entry.equivOn.listed_congr hRU (hSU _ hg) (hTU _ hf) hgf).mp
      (s.listed_pickEntries hrd hru heU hlisted hne)
  · obtain ⟨g, hg, hgf⟩ := Keyed.listed_distinct_of_mem Entry.equivOn hTU hf
    have hgT := Keyed.mem_of_mem_distinct hg
    have hgU := hTU g hgT
    have hnot : ¬ Listed (s.pickEntries a) g := fun hl =>
      hshared ((Entry.equivOn.listed_congr hSU hgU (hTU _ hf) hgf).mp hl)
    have hlisted : Listed r.values (.complex g) := by
      rw [hrv, listed_common_iff ha hb hmulti hcomplex hmark hua hub hbeq
        ((Value.uniqueNames_complex g).mpr hgU)]
      exact .inr ⟨g, (mem_fresh_iff ha.regular hb.regular).mpr ⟨hg, hnot⟩,
        Value.equivOn.refl _ ((Value.uniqueNames_complex g).mpr hgU)⟩
    have hself := s.restrict_of_mem_pickEntries hb.descriptor_eq hbu hgT
    have hne := s.isEmpty_of_mem_pickEntries hbu hgT
    have hpart := s.listed_pickEntries hrd hru hgU hlisted (by rw [hself]; exact hne)
    rw [hself] at hpart
    exact (Entry.equivOn.listed_congr hRU hgU (hTU _ hf) hgf).mp hpart

omit hub in
/-- With an overlap a part that source and target share is missing after the change. -/
lemma not_listed_of_overlap (hoverlap : Entry.Overlap (s.pickEntries a) (s.pickEntries b))
    {r : Attribute} (hrd : r.descriptor = d)
    (hrv : r.values = Attribute.valuesAt ((common core s a b).applyTo (some a)))
    (hru : ∀ v ∈ r.values, v.UniqueNames) :
    ∃ f ∈ s.pickEntries b, ¬ Listed (s.pickEntries r) f := by
  have hau := ha.regular.uniqueNames
  have hbu := hb.regular.uniqueNames
  obtain ⟨e, he, hnot, f, hf, ⟨t, ht, htf⟩, hcontains⟩ := hoverlap
  have heU := s.uniqueNames_of_mem_pickEntries hau he
  have hfU := s.uniqueNames_of_mem_pickEntries hau hf
  have htU := s.uniqueNames_of_mem_pickEntries hbu ht
  refine ⟨t, ht, ?_⟩
  rintro ⟨g, hg, hgt⟩
  have hgU := s.uniqueNames_of_mem_pickEntries hru hg
  have hgf := Entry.equivOn.trans g t f hgU htU hfU hgt htf
  obtain ⟨x, hx, rfl, -⟩ := (Selector.mem_pickEntries hrd hru).mp hg
  rw [hrv] at hx
  rcases mem_common ha hb hmulti hcomplex hmark hua hbeq hx with ⟨-, hkeeps⟩ | ⟨x', hx', heq⟩
  · have hxe := Value.containsEntry_of_beq_left heU hfU hgU hgf hcontains
    rw [s.containsEntry_restrict ha.descriptor_eq hau he, hkeeps.2 e he hnot] at hxe
    cases hxe
  · cases heq
    have hxT := fresh_subset ha.regular hb.regular x hx'
    rw [s.restrict_of_mem_pickEntries hb.descriptor_eq hbu hxT] at hgf hgU
    exact ((mem_fresh_iff ha.regular hb.regular).mp hx').2
      ⟨f, hf, Entry.equivOn.symm x f hgU hfU hgf⟩

/-- **The selected parts become those of the target exactly when there is no overlap.** -/
theorem sameSet_entries_iff :
    Value.sameSet (s.parts d (Attribute.valuesAt ((common core s a b).applyTo (some a))))
        (s.parts d b.values) = true ↔
      ¬ Entry.Overlap (s.pickEntries a) (s.pickEntries b) := by
  obtain ⟨r, hrd, hrv⟩ : ∃ r : Attribute, r.descriptor = d ∧
      r.values = Attribute.valuesAt ((common core s a b).applyTo (some a)) := ⟨⟨d, _⟩, rfl, rfl⟩
  have hru : ∀ v ∈ r.values, v.UniqueNames := by
    rw [hrv]
    refine ((fits_common core s ha hb fun _ _ => ⟨mark, hmark⟩).regularAt_applyTo ?_).uniqueNames
    rintro _ ⟨⟩
    exact ha.regular
  have hrcomplex : ∀ v ∈ r.values, v.isComplex = true := by
    rw [hrv]
    exact fun v hv => isComplex_of_mem_common ha hb hmulti hcomplex hmark hua hbeq hv
  rw [← hrv, s.parts_eq_pickEntries hrd hru hrcomplex, parts_complex hb hcomplex,
    Value.sameSet_map_complex]
  constructor
  · rintro ⟨-, hall⟩ hoverlap
    obtain ⟨f, hf, hnot⟩ :=
      not_listed_of_overlap ha hb hmulti hcomplex hmark hua hbeq hoverlap hrd hrv hru
    exact hnot (hall f hf)
  · intro hno
    exact ⟨listed_of_mem_pickEntries_common ha hb hmulti hcomplex hmark hua hbeq hrd hrv hru,
      listed_pickEntries_common ha hb hmulti hcomplex hmark hua hub hbeq hno hrd hrv hru⟩

omit hua hub in
/-- The change is empty when both attributes have the same selected entries. -/
lemma entries_empty_iff :
    (common core s a b).deletions = [] ∧ (common core s a b).updates = [] ↔
      (∀ e ∈ s.pickEntries a, Listed (s.pickEntries b) e) ∧
        ∀ f ∈ s.pickEntries b, Listed (s.pickEntries a) f := by
  have har := ha.regular
  have hbr := hb.regular
  have hau := fun e (h : e ∈ s.pickEntries a) => s.uniqueNames_of_mem_pickEntries har.uniqueNames h
  have hbu := fun e (h : e ∈ s.pickEntries b) => s.uniqueNames_of_mem_pickEntries hbr.uniqueNames h
  have hentries : ofCommon core s a b = ofEntries core s a b :=
    ofCommon_entries ha.descriptor_eq hbeq hmulti hcomplex
  by_cases hcollapses : Collapses s a b
  · rw [common_of_ok (hentries.trans (ofEntries_of_collapses har hbr hcollapses))]
    obtain ⟨e, he⟩ := List.exists_mem_of_ne_nil _ hcollapses.1
    exact iff_of_false (fun h => List.cons_ne_nil _ _ h.1) fun h => hcollapses.2 e he (h.1 e he)
  · rw [common_of_ok (hentries.trans (ofEntries_of_not_collapses har hbr hcollapses hmark)),
      and_iff_right rfl, ha.descriptor_eq, updateWith_eq_nil_iff, List.map_eq_nil_iff,
      List.append_eq_nil_iff, List.map_eq_nil_iff]
    refine and_congr ?_ ?_
    · rw [gone, Keyed.gone_eq_nil_iff Entry.equivOn hau hbu]
    · rw [fresh, Keyed.fresh_eq_nil_iff Entry.equivOn hau hbu]

end Entries

end Change

end Scim
