import Scim.Proofs.EntryChanges

set_option autoImplicit false

/-!
# Changes of simple and of single-valued attributes

A simple attribute is replaced, or gets the values it lacks; of a single-valued complex one only
the sub-attributes that differ are touched.  In all these cases the selected parts become those of
the target.

## Main results

* `Scim.Change.sameSet_simple`, `sameSet_scalars`, `sameSet_entry` — the selected parts become
  those of the target.
* `Scim.Change.entry_empty_iff`, `common_empty_iff` — when nothing has to change.
-/

namespace Scim

/-! ## Sets of values -/

namespace Value

variable {vs ws : List Value}

/-- A list holds its own values. -/
lemma sameSet_refl (hvs : ∀ v ∈ vs, v.UniqueNames) : sameSet vs vs = true :=
  sameSet_iff.mpr
    ⟨fun _ hv => equivOn.listed_of_mem hvs hv, fun _ hv => equivOn.listed_of_mem hvs hv⟩

/-- Lists with the same members up to equality hold the same values. -/
lemma sameSet_of_listed (hvs : ∀ v ∈ vs, v.UniqueNames) (hws : ∀ w ∈ ws, w.UniqueNames)
    (h : ∀ x : Value, x.UniqueNames → (Listed vs x ↔ Listed ws x)) : sameSet vs ws = true :=
  sameSet_iff.mpr ⟨fun v hv => (h v (hvs v hv)).mp (equivOn.listed_of_mem hvs hv),
    fun w hw => (h w (hws w hw)).mpr (equivOn.listed_of_mem hws hw)⟩

/-- Lists that are equal value by value hold the same values. -/
lemma sameSet_of_forall₂ (hvs : ∀ v ∈ vs, v.UniqueNames) (hws : ∀ w ∈ ws, w.UniqueNames)
    (h : List.Forall₂ (fun v w => (v == w) = true) vs ws) : sameSet vs ws = true := by
  induction h with
  | nil => rfl
  | @cons v w vs ws hvw _ ih =>
    rw [List.forall_mem_cons] at hvs hws
    obtain ⟨hleft, hright⟩ := sameSet_iff.mp (ih hvs.2 hws.2)
    have hcons : ∀ {x y : Value} {zs : List Value}, Listed zs y → Listed (x :: zs) y :=
      fun ⟨z, hz, hzy⟩ => ⟨z, List.mem_cons_of_mem _ hz, hzy⟩
    refine sameSet_iff.mpr ⟨List.forall_mem_cons.mpr ⟨?_, fun x hx => hcons (hleft x hx)⟩,
      List.forall_mem_cons.mpr ⟨⟨v, List.mem_cons_self, hvw⟩, fun x hx => hcons (hright x hx)⟩⟩
    exact ⟨w, List.mem_cons_self, equivOn.symm v w hvs.1 hws.1 hvw⟩

end Value

namespace Change

variable {core : String} {s : Selector} {d : Descriptor} {a b : Attribute}

/-! ## Simple values -/

/-- The values of a simple attribute are no entries. -/
lemma isComplex_of_simple (ha : a.Conforms d) (hcomplex : d.isComplex = false) :
    ∀ v ∈ a.values, v.isComplex = false := by
  intro v hv
  obtain ⟨j, rfl, -⟩ := ha.scalars hcomplex v hv
  rfl

/-- Simple values are their own parts. -/
lemma parts_simple (hmatches : s.matchesAttribute d.schema d.name = true) {vs : List Value}
    (hvs : ∀ v ∈ vs, v.isComplex = false) : s.parts d vs = vs := by
  rw [Selector.parts, if_pos hmatches]
  conv_rhs => rw [← List.filterMap_some (l := vs)]
  refine List.filterMap_congr fun v hv => ?_
  have hv := hvs v hv
  cases v with
  | simple j => rfl
  | complex e => cases hv

/-- A single-valued simple update replaces the values. -/
lemma applyTo_simple {u : Attribute} (hmulti : u.isMultiValued = false)
    (hu : ∀ v ∈ u.values, v.isComplex = false) (old : List Value) : u.applyTo old = u.values := by
  rw [Attribute.applyTo, hmulti, if_neg Bool.false_ne_true]
  split
  · rename_i e changes _ hfirst
    have := hu _ (List.mem_of_head? hfirst)
    cases this
  · rfl

/-- Simple values are not marked. -/
lemma removal?_simple {v : Value} (hv : v.isComplex = false) : v.removal? = none := by
  cases v with
  | simple j => rfl
  | complex e => cases hv

/-- An update of nothing that marks nothing leaves its own values, up to repetitions. -/
lemma listed_applyTo_nil {u : Attribute} (hu : ∀ v ∈ u.values, v.UniqueNames)
    (hplain : u.isMultiValued = true → ∀ v ∈ u.values, v.removal? = none) {x : Value}
    (hx : x.UniqueNames) : Listed (u.applyTo []) x ↔ Listed u.values x := by
  rw [Attribute.applyTo]
  split
  · rename_i hmulti
    rw [Value.foldl_applyTo_plain (by simp) hu (hplain hmulti) hx]
    simp
  · exact Iff.rfl

/-- An update of nothing makes values out of its own only. -/
lemma mem_applyTo_nil {u : Attribute} {v : Value} (hv : v ∈ u.applyTo []) : v ∈ u.values := by
  rw [Attribute.applyTo] at hv
  split at hv
  · rcases Value.mem_foldl_applyTo hv with hv | hv
    · simp at hv
    · exact hv
  · exact hv

section Simple

variable (ha : a.Conforms d) (hb : b.Conforms d) (hcomplex : d.isComplex = false)
  (hmatches : s.matchesAttribute d.schema d.name = true) (hbeq : ¬ (a == b) = true)

include ha hb hcomplex hmatches hbeq

/-- A single simple value becomes that of the target. -/
lemma sameSet_simple (hmulti : d.isMultiValued = false) :
    Value.sameSet (s.parts d (Attribute.valuesAt ((common core s a b).applyTo (some a))))
      (s.parts d b.values) = true := by
  have hb' : b.isMultiValued = false := by
    rw [Attribute.isMultiValued, hb.descriptor_eq, hmulti]
  have hsimple := isComplex_of_simple hb hcomplex
  have hvalues : Attribute.valuesAt ((common core s a b).applyTo (some a)) = b.values := by
    rw [common_of_ok (ofCommon_simple ha.descriptor_eq hbeq hmulti hcomplex)]
    change Attribute.valuesAt (Attribute.updated b (some a)) = _
    rw [valuesAt_updated, applyTo_simple hb' hsimple]
  rw [hvalues, parts_simple hmatches hsimple]
  exact Value.sameSet_refl hb.regular.uniqueNames

/-- The set of simple values becomes that of the target. -/
lemma sameSet_scalars (hmulti : d.isMultiValued = true) :
    Value.sameSet (s.parts d (Attribute.valuesAt ((common core s a b).applyTo (some a))))
      (s.parts d b.values) = true := by
  have hau := ha.regular.uniqueNames
  have hbu := hb.regular.uniqueNames
  have hasimple := isComplex_of_simple ha hcomplex
  have hbsimple := isComplex_of_simple hb hcomplex
  have hcommon : common core s a b = ofScalars core a b :=
    common_of_ok (ofCommon_scalars ha.descriptor_eq hbeq hmulti hcomplex)
  -- the new values are old ones and ones of the target, and as a set those of the target
  suffices h : (∀ v ∈ Attribute.valuesAt ((common core s a b).applyTo (some a)),
      v ∈ a.values ∨ v ∈ b.values) ∧ ∀ x : Value, x.UniqueNames →
        (Listed (Attribute.valuesAt ((common core s a b).applyTo (some a))) x ↔
          Listed b.values x) by
    obtain ⟨hmem, hlisted⟩ := h
    have hsimple : ∀ v ∈ Attribute.valuesAt ((common core s a b).applyTo (some a)),
        v.isComplex = false := fun v hv => (hmem v hv).elim (hasimple v) (hbsimple v)
    rw [parts_simple hmatches hsimple, parts_simple hmatches hbsimple]
    exact Value.sameSet_of_listed (fun v hv => (hmem v hv).elim (hau v) (hbu v)) hbu hlisted
  have hfresh : ∀ v ∈ (Keyed.reconcile (Keyed.distinct a.values) (Keyed.distinct b.values)).2,
      v ∈ b.values := fun v hv =>
    Keyed.mem_of_mem_distinct ((Keyed.mem_fresh_iff Value.equivOn hau hbu).mp hv).1
  rw [hcommon, ofScalars]
  split
  · rename_i hgone
    have hall := (Keyed.gone_eq_nil_iff Value.equivOn hau hbu).mp (List.isEmpty_iff.mp hgone)
    rw [ha.descriptor_eq, valuesAt_applyTo_updateWith hmulti, Attribute.valuesAt_some]
    refine ⟨fun v hv => (Value.mem_foldl_applyTo hv).imp id (hfresh v), fun x hx => ?_⟩
    rw [Value.foldl_applyTo_plain hau (fun v hv => hbu v (hfresh v hv))
      (fun v hv => removal?_simple (hbsimple v (hfresh v hv))) hx]
    constructor
    · rintro (⟨v, hv, hvx⟩ | ⟨v, hv, hvx⟩)
      · exact (Value.equivOn.listed_congr hbu (hau v hv) hx hvx).mp (hall v hv)
      · exact ⟨v, hfresh v hv, hvx⟩
    · rintro ⟨v, hv, hvx⟩
      by_cases hold : Listed a.values v
      · exact .inl ((Value.equivOn.listed_congr hau (hbu v hv) hx hvx).mp hold)
      · obtain ⟨w, hw, hwv⟩ := Keyed.listed_distinct_of_mem Value.equivOn hbu hv
        have hwU := hbu w (Keyed.mem_of_mem_distinct hw)
        refine .inr ⟨w, (Keyed.mem_fresh_iff Value.equivOn hau hbu).mpr ⟨hw, fun hl => hold ?_⟩, ?_⟩
        · exact (Value.equivOn.listed_congr hau hwU (hbu v hv) hwv).mp hl
        · exact Value.equivOn.trans w v x hwU (hbu v hv) hx hwv hvx
  · have hvalues : Attribute.valuesAt ((⟨[], [b]⟩ : Change).applyTo none) = b.applyTo [] :=
      valuesAt_updated b none
    rw [applyTo_path, hvalues]
    exact ⟨fun v hv => .inr (mem_applyTo_nil hv), fun x hx =>
      listed_applyTo_nil hbu (fun _ v hv => removal?_simple (hbsimple v hv)) hx⟩

end Simple

/-! ## Single entries -/

/-- Removing sub-attributes by their paths, each once, is one restriction. -/
lemma foldl_removed_paths (ha : a.Regular d) (hcomplex : ∀ v ∈ a.values, v.isComplex = true)
    (names : List String) :
    (Keyed.distinct (names.map fun n => path core a (some n))).foldl
      (fun o p => Attribute.removed p.sub o) (some a) =
        a.restrict? fun k => !(names.map caseKey).contains k := by
  obtain ⟨kept, hsub, hkept⟩ := List.sublist_map_iff.mp
    (Keyed.distinct_sublist (names.map fun n => path core a (some n)))
  have hkeys : ∀ k, k ∈ kept.map caseKey ↔ k ∈ names.map caseKey := by
    intro k
    constructor
    · intro hk
      exact (hsub.map caseKey).subset hk
    · intro hk
      obtain ⟨n, hn, rfl⟩ := List.mem_map.mp hk
      obtain ⟨p, hp, hpn⟩ := Keyed.listed_distinct_of_mem AttributePath.equivOn (fun _ _ => trivial)
        (List.mem_map.mpr ⟨n, hn, rfl⟩)
      rw [hkept] at hp
      obtain ⟨m, hm, rfl⟩ := List.mem_map.mp hp
      exact List.mem_map.mpr ⟨m, hm, sameName_of_path_beq hpn⟩
  have hcongr : (fun k => !(kept.map caseKey).contains k) =
      fun k => !(names.map caseKey).contains k := by
    funext k
    rw [Bool.eq_iff_iff, Bool.not_eq_true', Bool.not_eq_true', Bool.eq_false_iff, Bool.eq_false_iff,
      ne_eq, ne_eq, List.contains_iff_mem, List.contains_iff_mem, hkeys]
  rw [hkept, List.foldl_map]
  simp only [path_sub]
  rw [Attribute.foldl_removed ha hcomplex kept, hcongr]

/-- Whether the sub-attributes with a name key stay when those that the target lacks are
removed. -/
def stays (s : Selector) (a : Attribute) (e f : Entry) (k : List Char) : Bool :=
  !((lost s a e f).map Attribute.nameKey).contains k

/-- The part of a single entry is its restriction, if it is not empty. -/
lemma parts_single (hmatches : s.matchesAttribute d.schema d.name = true) (e : Entry) :
    s.parts d (if e.isEmpty then [] else [.complex e]) =
      if (e.restrict (s.selects d)).isEmpty then [] else [.complex (e.restrict (s.selects d))] := by
  rw [Selector.parts, if_pos hmatches]
  cases hempty : e.isEmpty with
  | true =>
    have hrest : (e.restrict (s.selects d)).isEmpty = true := by
      rw [Entry.isEmpty_iff] at hempty ⊢
      intro k
      rw [Entry.lookup_restrict, hempty, ite_self]
    rw [hrest]
    rfl
  | false =>
    rw [if_neg Bool.false_ne_true, List.filterMap_cons, Selector.part?, Value.restrict?]
    cases (e.restrict (s.selects d)).isEmpty <;> rfl

/-- Single entries, absent when they are empty, are the same set exactly when they are equal. -/
lemma sameSet_single_iff {e f : Entry} (he : e.UniqueNames) (hf : f.UniqueNames) :
    Value.sameSet (if e.isEmpty then [] else [.complex e])
      (if f.isEmpty then [] else [.complex f]) = true ↔ (e == f) = true := by
  cases hee : e.isEmpty <;> cases hfe : f.isEmpty
  · rw [if_neg Bool.false_ne_true, if_neg Bool.false_ne_true, Value.sameSet_iff]
    simp only [List.mem_singleton, forall_eq, Listed, exists_eq_left, Value.complex_beq_complex]
    exact ⟨And.right, fun h => ⟨Entry.equivOn.symm e f he hf h, h⟩⟩
  · refine iff_of_false ?_ fun h => ?_
    · rw [if_neg Bool.false_ne_true, if_pos rfl, Value.sameSet_nil_right]
      exact List.cons_ne_nil _ _
    · rw [Entry.isEmpty_congr he hf h, hfe] at hee
      cases hee
  · refine iff_of_false ?_ fun h => ?_
    · rw [if_pos rfl, if_neg Bool.false_ne_true, Value.sameSet_nil_left]
      exact List.cons_ne_nil _ _
    · rw [Entry.isEmpty_congr he hf h, hfe] at hee
      cases hee
  · refine iff_of_true rfl ?_
    rw [Entry.beq_iff_lookup he hf]
    intro k
    rw [Entry.isEmpty_iff.mp hee, Entry.isEmpty_iff.mp hfe]
    exact .none

section Entry

variable (ha : a.Conforms d) (hb : b.Conforms d) {e f : Entry} (hav : a.values = [.complex e])
  (hbv : b.values = [.complex f])

variable (core s f) in
include ha hav in
/-- What the deletions leave of a single entry. -/
lemma valuesAt_foldl_lost : Attribute.valuesAt ((Keyed.distinct ((lost s a e f).map fun sub =>
    path core a (some sub.name))).foldl (fun o p => Attribute.removed p.sub o) (some a)) =
      if (e.restrict (stays s a e f)).isEmpty then []
      else [.complex (e.restrict (stays s a e f))] := by
  have hacomplex : ∀ v ∈ a.values, v.isComplex = true := by
    rw [hav]
    simp [Value.isComplex, Value.entry?]
  have hpaths : ((lost s a e f).map fun sub => path core a (some sub.name)) =
      ((lost s a e f).map Attribute.name).map fun n => path core a (some n) := by
    rw [List.map_map]
    rfl
  have hkeys : (fun k => !(((lost s a e f).map Attribute.name).map caseKey).contains k) =
      stays s a e f := by
    rw [List.map_map]
    rfl
  rw [hpaths, foldl_removed_paths ha.regular hacomplex, hkeys, Attribute.restrict?, hav,
    List.filterMap_cons, Value.restrict?]
  cases (e.restrict (stays s a e f)).isEmpty <;> rfl

include ha hb hav hbv

variable (core s) in
/-- **The new entry** answers with what changed, else with what stays.

**Proof sketch.**  The deletions leave the restriction to what stays, which is absent when it is
empty.  The update is absent, too, when nothing changed; otherwise it is merged into what is
left, or stands alone when nothing is. -/
lemma exists_merged (hmulti : d.isMultiValued = false) : ∃ g : Entry, g.UniqueNames ∧
    (∀ k, g.lookup k = ((changed s b e f).lookup k).or
      (if stays s a e f k then e.lookup k else none)) ∧
    Attribute.valuesAt ((ofEntry core s a b e f).applyTo (some a)) =
      if g.isEmpty then [] else [.complex g] := by
  have heU := ha.regular.uniqueNames_entry hav
  have hfU := hb.regular.uniqueNames_entry hbv
  have hrestU := heU.restrict (stays s a e f)
  have hchangedU : (changed s b e f).UniqueNames := uniqueNames_changed hfU
  have hlookup := Entry.lookup_restrict (stays s a e f) e
  have hrest := valuesAt_foldl_lost core s ha f hav
  rw [ofEntry_eq, applyTo]
  dsimp only
  generalize (Keyed.distinct ((lost s a e f).map fun sub =>
    path core a (some sub.name))).foldl (fun o p => Attribute.removed p.sub o) (some a) = o
    at hrest ⊢
  cases hempty : (changed s b e f).isEmpty with
  | true =>
    refine ⟨e.restrict (stays s a e f), hrestU, fun k => ?_, hrest⟩
    rw [Entry.isEmpty_iff.mp hempty, Option.none_or, hlookup]
  | false =>
    have hupdated : Attribute.valuesAt (Attribute.updated
        (.single b.descriptor (.complex (changed s b e f))) o) =
          if (e.restrict (stays s a e f)).isEmpty then [.complex (changed s b e f)]
          else [.complex ((e.restrict (stays s a e f)).merge (changed s b e f))] := by
      have hsingle : (Attribute.single b.descriptor
          (.complex (changed s b e f))).isMultiValued = false := by
        rw [Attribute.isMultiValued, Attribute.single, hb.descriptor_eq, hmulti]
      rw [valuesAt_updated, hrest, Attribute.applyTo, hsingle, if_neg Bool.false_ne_true]
      cases (e.restrict (stays s a e f)).isEmpty <;> rfl
    by_cases hleft : (e.restrict (stays s a e f)).isEmpty = true
    · refine ⟨changed s b e f, hchangedU, fun k => ?_, ?_⟩
      · rw [← hlookup, Entry.isEmpty_iff.mp hleft, Option.or_none]
      · rw [hempty]
        exact hupdated.trans (if_pos hleft)
    · refine ⟨(e.restrict (stays s a e f)).merge (changed s b e f), hrestU.merge hchangedU,
        fun k => ?_, ?_⟩
      · rw [Entry.lookup_merge hrestU hchangedU, hlookup]
      · have hne : ((e.restrict (stays s a e f)).merge (changed s b e f)).isEmpty = false := by
          rw [Bool.eq_false_iff, ne_eq, Entry.isEmpty_iff]
          intro hnone
          refine hleft (Entry.isEmpty_iff.mpr fun k => ?_)
          have hk := hnone k
          rw [Entry.lookup_merge hrestU hchangedU, Option.or_eq_none_iff] at hk
          exact hk.2
        rw [hne]
        exact hupdated.trans (if_neg hleft)

omit hb hbv in
/-- A sub-attribute is removed exactly when it is selected and only the source has it. -/
lemma stays_iff {k : List Char} {x : Attribute} (hk : e.lookup k = some x) :
    stays s a e f k = false ↔ s.selects d k = true ∧ f.lookup k = none := by
  have hx := Entry.nameKey_of_lookup hk
  have heU := ha.regular.uniqueNames_entry hav
  have hcontains : ∀ sub : Attribute, (!f.contains sub.name) = true ↔
      f.lookup sub.nameKey = none := by
    intro sub
    rw [Entry.contains, Entry.get?_eq_lookup]
    change (!(f.lookup sub.nameKey).isSome) = true ↔ _
    cases f.lookup sub.nameKey <;> simp
  rw [stays, Bool.not_eq_false', List.contains_iff_mem, List.mem_map]
  constructor
  · rintro ⟨sub, hsub, rfl⟩
    obtain ⟨hpick, hnot⟩ := List.mem_filter.mp hsub
    obtain ⟨_, _, -, hselects⟩ := mem_pick hpick
    rw [ha.descriptor_eq] at hselects
    exact ⟨hselects, (hcontains sub).mp hnot⟩
  · rintro ⟨hselects, hnone⟩
    refine ⟨x, List.mem_filter.mpr ⟨List.mem_filter.mpr ⟨?_, ?_⟩, ?_⟩, hx⟩
    · exact (heU.lookup_eq_some_iff.mp hk).1
    · rw [← ha.descriptor_eq, ← hx] at hselects
      exact hselects
    · rw [hcontains, hx, hnone]

/-- The selected part of the new entry is that of the entry of the target. -/
lemma restrict_merged_beq {g : Entry} (hg : g.UniqueNames)
    (hlookup : ∀ k, g.lookup k = ((changed s b e f).lookup k).or
      (if stays s a e f k then e.lookup k else none)) :
    (g.restrict (s.selects d) == f.restrict (s.selects d)) = true := by
  have hfU := hb.regular.uniqueNames_entry hbv
  rw [Entry.beq_iff_lookup (hg.restrict _) (hfU.restrict _)]
  intro k
  rw [Entry.lookup_restrict, Entry.lookup_restrict]
  cases hselects : s.selects d k with
  | false => exact .none
  | true =>
    rw [if_pos rfl, if_pos rfl, hlookup, lookup_changed hfU, hb.descriptor_eq, hselects, if_pos rfl]
    cases hf : f.lookup k with
    | none =>
      -- only the source has it: it is removed
      cases he : e.lookup k with
      | none => simp
      | some x =>
        have hgoes := (stays_iff (s := s) ha hav he).mpr ⟨hselects, hf⟩
        simp [hgoes]
    | some y =>
      have hyU := hfU.of_lookup hf
      cases he : e.lookup k with
      | none => simpa [Option.filter] using Attribute.equivOn.refl y hyU
      | some x =>
        have hstays : stays s a e f k = true := by
          by_contra hnot
          have := (stays_iff (s := s) ha hav he).mp (by simpa using hnot)
          rw [hf] at this
          cases this.2
        cases hxy : (x == y) with
        | true => simp [Option.filter, hxy, hstays]
        | false => simpa [Option.filter, hxy] using Attribute.equivOn.refl y hyU

/-- **The selected part of a single entry becomes that of the target.** -/
lemma sameSet_entry (hmatches : s.matchesAttribute d.schema d.name = true)
    (hmulti : d.isMultiValued = false) :
    Value.sameSet (s.parts d (Attribute.valuesAt ((ofEntry core s a b e f).applyTo (some a))))
      (s.parts d b.values) = true := by
  have hfU := hb.regular.uniqueNames_entry hbv
  obtain ⟨g, hgU, hlookup, hvalues⟩ := exists_merged core s ha hb hav hbv hmulti
  rw [hvalues, hb.regular.values_eq_ite hbv, parts_single hmatches, parts_single hmatches,
    sameSet_single_iff (hgU.restrict _) (hfU.restrict _)]
  exact restrict_merged_beq ha hb hav hbv hgU hlookup

/-- Nothing of a single entry changes exactly when its selected part is that of the target. -/
lemma entry_empty_iff :
    (ofEntry core s a b e f).deletions = [] ∧ (ofEntry core s a b e f).updates = [] ↔
      (e.restrict (s.selects d) == f.restrict (s.selects d)) = true := by
  have heU := ha.regular.uniqueNames_entry hav
  have hfU := hb.regular.uniqueNames_entry hbv
  have hupdates : (ofEntry core s a b e f).updates = [] ↔ (changed s b e f).isEmpty = true := by
    rw [ofEntry_eq]
    cases (changed s b e f).isEmpty <;> simp
  rw [hupdates, ofEntry_eq, List.map_eq_nil_iff]
  constructor
  · rintro ⟨hlost, hempty⟩
    refine restrict_merged_beq ha hb hav hbv heU fun k => ?_
    have hstays : stays s a e f k = true := by
      rw [stays, hlost]
      rfl
    rw [Entry.isEmpty_iff.mp hempty, Option.none_or, if_pos hstays]
  · intro hbeq
    have hk := (Entry.beq_iff_lookup (heU.restrict _) (hfU.restrict _)).mp hbeq
    simp only [Entry.lookup_restrict] at hk
    constructor
    · rw [List.eq_nil_iff_forall_not_mem]
      intro sub hsub
      have hmem : sub ∈ e.subAttributes :=
        (List.mem_filter.mp (List.mem_filter.mp hsub).1).1
      have hfound := heU.lookup_eq_some_iff.mpr ⟨hmem, rfl⟩
      have hgoes : stays s a e f sub.nameKey = false := by
        rw [stays, Bool.not_eq_false', List.contains_iff_mem]
        exact List.mem_map_of_mem hsub
      obtain ⟨hselects, hnone⟩ := (stays_iff (s := s) ha hav hfound).mp hgoes
      have hrel := hk sub.nameKey
      rw [hselects, if_pos rfl, if_pos rfl, hfound, hnone] at hrel
      cases hrel
    · rw [Entry.isEmpty_iff]
      intro k
      rw [lookup_changed hfU, hb.descriptor_eq]
      have hrel := hk k
      cases hselects : s.selects d k with
      | false => rfl
      | true =>
        rw [hselects, if_pos rfl, if_pos rfl] at hrel
        rw [if_pos rfl]
        cases hf : f.lookup k with
        | none => rfl
        | some y =>
          rw [hf] at hrel
          cases he : e.lookup k with
          | none => rw [he] at hrel; cases hrel
          | some x =>
            rw [he] at hrel
            cases hrel with
            | some hxy => simp [Option.filter, hxy]

end Entry

/-! ## Nothing to change -/

/-- Equal attributes have the same parts. -/
lemma sameSet_parts_of_beq (ha : a.Conforms d) (hb : b.Conforms d) (hbeq : (a == b) = true) :
    Value.sameSet (s.parts d a.values) (s.parts d b.values) = true := by
  have hau := ha.regular.uniqueNames
  have hbu := hb.regular.uniqueNames
  cases hcomplex : d.isComplex with
  | false =>
    cases hmatches : s.matchesAttribute d.schema d.name with
    | false =>
      rw [Selector.parts, Selector.parts, hmatches]
      rfl
    | true =>
      rw [parts_simple hmatches (isComplex_of_simple ha hcomplex),
        parts_simple hmatches (isComplex_of_simple hb hcomplex)]
      exact Value.sameSet_of_forall₂ hau hbu (Attribute.beq_iff.mp hbeq).2
  | true =>
    have hba := Attribute.equivOn.symm a b ha.uniqueNames hb.uniqueNames hbeq
    rw [parts_complex ha hcomplex, parts_complex hb hcomplex, Value.sameSet_map_complex]
    exact ⟨s.listed_pickEntries_of_beq hau hbu ha.descriptor_eq hb.descriptor_eq hbeq,
      s.listed_pickEntries_of_beq hbu hau hb.descriptor_eq ha.descriptor_eq hba⟩

/-- **Nothing of a common attribute changes exactly when source and target have the same parts.**
-/
theorem common_empty_iff (ha : a.Conforms d) (hb : b.Conforms d)
    (hmatches : s.matchesAttribute d.schema d.name = true)
    (hmark : d.isMultiValued = true → d.isComplex = true → ∃ mark, d.IsMark mark) :
    (common core s a b).deletions = [] ∧ (common core s a b).updates = [] ↔
      Value.sameSet (s.parts d a.values) (s.parts d b.values) = true := by
  have hau := ha.regular.uniqueNames
  have hbu := hb.regular.uniqueNames
  by_cases hbeq : (a == b) = true
  · rw [common_of_beq hbeq]
    exact iff_of_true ⟨rfl, rfl⟩ (sameSet_parts_of_beq ha hb hbeq)
  cases hcomplex : d.isComplex with
  | false =>
    rw [parts_simple hmatches (isComplex_of_simple ha hcomplex),
      parts_simple hmatches (isComplex_of_simple hb hcomplex)]
    cases hmulti : d.isMultiValued with
    | false =>
      rw [common_of_ok (ofCommon_simple ha.descriptor_eq hbeq hmulti hcomplex)]
      refine iff_of_false (fun h => List.cons_ne_nil _ _ h.2) fun hsame => hbeq ?_
      have hagrees := (ha.regular.agrees_iff hb.regular).mpr hsame
      rwa [Attribute.agrees, Attribute.isMultiValued, ha.descriptor_eq, hmulti,
        if_neg Bool.false_ne_true] at hagrees
    | true =>
      rw [common_of_ok (ofCommon_scalars ha.descriptor_eq hbeq hmulti hcomplex),
        Value.sameSet_iff, ← Keyed.gone_eq_nil_iff Value.equivOn hau hbu,
        ← Keyed.fresh_eq_nil_iff Value.equivOn hau hbu, ofScalars]
      split
      · rename_i hgone
        refine and_congr (iff_of_true rfl (List.isEmpty_iff.mp hgone)) ?_
        exact updateWith_eq_nil_iff
      · rename_i hgone
        exact iff_of_false (fun h => List.cons_ne_nil _ _ h.1) fun h =>
          hgone (List.isEmpty_iff.mpr h.1)
  | true =>
    cases hmulti : d.isMultiValued with
    | false =>
      obtain ⟨e, hav, -⟩ := exists_entry ha hmulti hcomplex
      obtain ⟨f, hbv, -⟩ := exists_entry hb hmulti hcomplex
      have heU := ha.regular.uniqueNames_entry hav
      have hfU := hb.regular.uniqueNames_entry hbv
      rw [common_of_ok (ofCommon_complex ha.descriptor_eq hbeq hmulti hcomplex),
        ofComplex_eq hav hbv, entry_empty_iff ha hb hav hbv, ha.regular.values_eq_ite hav,
        hb.regular.values_eq_ite hbv, parts_single hmatches, parts_single hmatches,
        sameSet_single_iff (heU.restrict _) (hfU.restrict _)]
    | true =>
      obtain ⟨mark, hmark⟩ := hmark hmulti hcomplex
      rw [entries_empty_iff ha hb hmulti hcomplex hmark hbeq, parts_complex ha hcomplex,
        parts_complex hb hcomplex, Value.sameSet_map_complex]

end Change

end Scim
