import Scim.Proofs.Emptiness
import Scim.Proofs.ListsAsSets

set_option autoImplicit false

/-!
# Changes of attributes that say the same

Two attributes of one descriptor say the same when they hold the same set of values.  What a
change deletes and updates depends on what the attributes say only: neither the order of values
or sub-attributes nor repetitions make a difference, although the comparison goes through lists
and stops early when source and target are equal value by value.

## Main definitions

* `Scim.Attribute.SameValues` — two updates of one attribute say the same.
* `Scim.Change.Alike` — two changes delete and update the same.
* `Scim.Change.Spelled` — deletions are spelled as the descriptor defines their names.

## Main results

* `Scim.Change.alike_ofPair` — attributes that say the same change alike.
* `Scim.Change.spelled_ofPair`, `Spelled.eq_of_beq` — deletions of one descriptor are spelled as
  defined, so that equal ones are the same.
-/

namespace Scim

/-! ## Values as sets -/

namespace Value

variable {vs ws : List Value} {S T : List Entry}

/-- Lists of values are the same set when they hold the values of each other. -/
lemma sameSet_iff_sameListed : sameSet vs ws = true ↔ SameListed vs ws := sameSet_iff

/-- Lists of entries are the same set of values when they hold the entries of each other. -/
lemma sameSet_map_iff_sameListed :
    sameSet (S.map .complex) (T.map .complex) = true ↔ SameListed S T := sameSet_map_complex

/-- Being the same set is symmetric. -/
lemma sameSet_symm (h : sameSet vs ws = true) : sameSet ws vs = true :=
  sameSet_iff_sameListed.mpr (sameSet_iff_sameListed.mp h).symm

end Value

/-- Resources say the same in both directions. -/
lemma AttributeMap.Regular.agrees_symm {t : ResourceType} {m n : AttributeMap} (hm : m.Regular t)
    (hn : n.Regular t) (h : m.agrees n = true) : n.agrees m = true := by
  rw [hn.agrees_iff hm]
  intro k d hd
  have hrel := (hm.agrees_iff hn).mp h k d hd
  rw [(hm.regularAt hd).agrees_iff (hn.regularAt hd)] at hrel
  rw [(hn.regularAt hd).agrees_iff (hm.regularAt hd)]
  exact Value.sameSet_symm hrel

/-! ## Changes that are alike -/

/-- Two updates are of one attribute and have the same set of values. -/
structure Attribute.SameValues (u u' : Attribute) : Prop where
  descriptor_eq : u.descriptor = u'.descriptor
  values : Value.sameSet u.values u'.values = true

/-- The order of the two updates does not matter. -/
lemma Attribute.SameValues.symm {u u' : Attribute} (h : u.SameValues u') : u'.SameValues u :=
  ⟨h.descriptor_eq.symm, Value.sameSet_symm h.values⟩

/-- Two changes delete the same paths and make updates that say the same. -/
structure Change.Alike (c c' : Change) : Prop where
  deletions : ∀ p, p ∈ c.deletions ↔ p ∈ c'.deletions
  updates : List.Forall₂ Attribute.SameValues c.updates c'.updates

/-- Equal entries stay equal when one sub-attribute is put into both. -/
lemma Entry.insert_beq {e f : Entry} {x : Attribute} (he : e.UniqueNames) (hf : f.UniqueNames)
    (hx : x.UniqueNames) (h : (e == f) = true) : ((e.insert x).2 == (f.insert x).2) = true := by
  rw [beq_iff_lookup (he.insert hx) (hf.insert hx)]
  intro k
  rw [lookup_insert, lookup_insert]
  split
  · exact .some (Attribute.equivOn.refl x hx)
  · exact (beq_iff_lookup he hf).mp h k

/-- Equal entries have sub-attributes of the same names. -/
lemma Entry.contains_congr {e f : Entry} (he : e.UniqueNames) (hf : f.UniqueNames)
    (h : (e == f) = true) (name : String) : e.contains name = f.contains name := by
  have hrel := (beq_iff_lookup he hf).mp h (caseKey name)
  rw [contains, contains, get?_eq_lookup, get?_eq_lookup]
  generalize e.lookup (caseKey name) = o at hrel ⊢
  generalize f.lookup (caseKey name) = p at hrel ⊢
  cases hrel <;> rfl

namespace Change

variable {core : String} {s : Selector} {d : Descriptor} {a a' b b' : Attribute}
  {o o' p p' : Option Attribute}

/-- When updates say the same one by one, each of the first says the same as one of the others. -/
lemma exists_sameValues {us us' : List Attribute}
    (h : List.Forall₂ Attribute.SameValues us us') {u : Attribute} (hu : u ∈ us) :
    ∃ u' ∈ us', u.SameValues u' := by
  obtain ⟨i, rfl⟩ := List.get_of_mem hu
  have hi : i.val < us'.length := h.length_eq ▸ i.isLt
  exact ⟨_, List.get_mem _ ⟨i, hi⟩, h.get i.isLt hi⟩

/-- To change nothing is alike to itself. -/
lemma alike_unchanged : unchanged.Alike unchanged := ⟨fun _ => Iff.rfl, .nil⟩

/-- A change that fits a descriptor is alike to itself. -/
lemma Fits.alike_self {c : Change} (hc : c.Fits core d) : c.Alike c :=
  ⟨fun _ => Iff.rfl, List.forall₂_same.mpr fun u hu =>
    ⟨rfl, Value.sameSet_refl (hc.updates u hu).uniqueNames⟩⟩

/-- Changes that make nothing are alike. -/
lemma alike_of_eq_nil {c c' : Change} (hc : c.deletions = [] ∧ c.updates = [])
    (hc' : c'.deletions = [] ∧ c'.updates = []) : c.Alike c' := by
  refine ⟨fun q => by rw [hc.1, hc'.1], ?_⟩
  rw [hc.2, hc'.2]
  exact .nil

/-- Updates with the same set of values are both made or both left out. -/
lemma sameValues_updateWith {values values' : List Value}
    (h : Value.sameSet values values' = true) :
    List.Forall₂ Attribute.SameValues (updateWith d values) (updateWith d values') := by
  cases values with
  | nil =>
    rw [Value.sameSet_nil_left.mp h]
    exact .nil
  | cons v vs =>
    have hne : values' ≠ [] := by
      rintro rfl
      exact List.cons_ne_nil v vs (Value.sameSet_nil_right.mp h)
    rw [updateWith_of_ne_nil (List.cons_ne_nil v vs), updateWith_of_ne_nil hne]
    exact .cons ⟨rfl, h⟩ .nil

/-- Sub-attributes of the same descriptors are named by the same paths. -/
lemma mem_paths_of_exists {xs ys : List Attribute}
    (h : ∀ x ∈ xs, ∃ y ∈ ys, y.descriptor = x.descriptor) :
    ∀ q ∈ xs.map (fun x => path core a (some x.name)),
      q ∈ ys.map fun y => path core a (some y.name) := by
  intro q hq
  obtain ⟨x, hx, rfl⟩ := List.mem_map.mp hq
  obtain ⟨y, hy, hyx⟩ := h x hx
  have hname : y.name = x.name := congrArg Descriptor.name hyx
  exact List.mem_map.mpr ⟨y, hy, by rw [hname]⟩

/-! ## Entries that are equal -/

/-- Sub-attributes of one name have one descriptor. -/
lemma descriptor_eq_of_nameKey {e f : Entry} (he : e.Conforms d) (hf : f.Conforms d)
    {x y : Attribute} (hx : x ∈ e.subAttributes) (hy : y ∈ f.subAttributes)
    (hkey : x.nameKey = y.nameKey) : x.descriptor = y.descriptor := by
  obtain ⟨m, hm, -, hxm⟩ := he.subs x hx
  obtain ⟨n, hn, -, hyn⟩ := hf.subs y hy
  have hsame := Descriptor.sub?_congr (d := d) hkey
  rw [hm, hn, Option.some.injEq] at hsame
  rw [hxm.descriptor_eq, hyn.descriptor_eq, hsame]

/-- An equal entry has an equal sub-attribute of the same descriptor. -/
lemma exists_sub_of_beq {e f : Entry} (he : e.Conforms d) (hf : f.Conforms d)
    (hbeq : (e == f) = true) {x : Attribute} (hx : x ∈ e.subAttributes) :
    ∃ y ∈ f.subAttributes, y.descriptor = x.descriptor := by
  have heU := he.uniqueNames
  have hfU := hf.uniqueNames
  have hrel := (Entry.beq_iff_lookup heU hfU).mp hbeq x.nameKey
  rw [heU.lookup_eq_some_iff.mpr ⟨hx, rfl⟩] at hrel
  cases hfound : f.lookup x.nameKey with
  | none =>
    rw [hfound] at hrel
    cases hrel
  | some y =>
    obtain ⟨hy, hkey⟩ := hfU.lookup_eq_some_iff.mp hfound
    exact ⟨y, hy, descriptor_eq_of_nameKey hf he hy hx hkey⟩

/-- Equal entries lose the same sub-attributes. -/
lemma exists_lost (had : a.descriptor = d) (had' : a'.descriptor = d) {e e' f f' : Entry}
    (he : e.Conforms d) (he' : e'.Conforms d) (hf : f.UniqueNames) (hf' : f'.UniqueNames)
    (hee : (e == e') = true) (hff : (f == f') = true) :
    ∀ x ∈ lost s a e f, ∃ y ∈ lost s a' e' f', y.descriptor = x.descriptor := by
  intro x hx
  obtain ⟨hpick, hnot⟩ := List.mem_filter.mp hx
  obtain ⟨_, heq, hsub, hselects⟩ := mem_pick hpick
  cases heq
  obtain ⟨y, hy, hyx⟩ := exists_sub_of_beq he he' hee hsub
  have hname : y.name = x.name := congrArg Descriptor.name hyx
  refine ⟨y, List.mem_filter.mpr ⟨List.mem_filter.mpr ⟨hy, ?_⟩, ?_⟩, hyx⟩
  · rw [had, ← had', Attribute.nameKey, ← hname] at hselects
    exact hselects
  · rw [hname, ← Entry.contains_congr hf hf' hff]
    exact hnot

/-- A conforming attribute with the same set of values has an equal entry. -/
lemma exists_entry_of_sameSet (ha : a.Conforms d) (ha' : a'.Conforms d)
    (hcomplex : d.isComplex = true) (h : Value.sameSet a.values a'.values = true) {e : Entry}
    (he : Value.complex e ∈ a.values) :
    e.Conforms d ∧ ∃ f, Value.complex f ∈ a'.values ∧ f.Conforms d ∧ (f == e) = true := by
  obtain ⟨e', heq, hconforms⟩ := ha.entries hcomplex _ he
  cases heq
  obtain ⟨w, hw, hwe⟩ := (Value.sameSet_iff.mp h).1 _ he
  obtain ⟨f, rfl, hf⟩ := ha'.entries hcomplex w hw
  rw [Value.complex_beq_complex] at hwe
  exact ⟨hconforms, f, hw, hf, hwe⟩

/-- Single entries of attributes that say the same are equal. -/
lemma beq_of_sameSet {e f : Entry} (hav : a.values = [.complex e]) (hav' : a'.values = [.complex f])
    (h : Value.sameSet a.values a'.values = true) : (e == f) = true := by
  rw [hav, hav', Value.sameSet_iff] at h
  obtain ⟨v, hv, hvf⟩ := h.2 _ (List.mem_singleton_self _)
  rwa [List.mem_singleton.mp hv, Value.complex_beq_complex] at hvf

/-! ## Attributes of one resource only -/

section One

variable (ha : a.Conforms d) (ha' : a'.Conforms d)
  (h : Value.sameSet a.values a'.values = true)

include ha ha' h

/-- Attributes that say the same have the same selected entries. -/
lemma sameListed_pickEntries (s : Selector) : SameListed (s.pickEntries a) (s.pickEntries a') := by
  have hlisted : ∀ {x y : Attribute}, x.Conforms d → y.Conforms d →
      Value.sameSet x.values y.values = true → ∀ e ∈ s.pickEntries x,
        Listed (s.pickEntries y) e := by
    intro x y hx hy hxy e he
    obtain ⟨f, hf, rfl, hne⟩ :=
      (Selector.mem_pickEntries hx.descriptor_eq hx.regular.uniqueNames).mp he
    have hfU := (Value.uniqueNames_complex f).mp (hx.regular.uniqueNames _ hf)
    exact s.listed_pickEntries hy.descriptor_eq hy.regular.uniqueNames hfU
      ((Value.sameSet_iff.mp hxy).1 _ hf) hne
  exact ⟨hlisted ha ha' h, hlisted ha' ha (Value.sameSet_symm h)⟩

/-- Attributes that say the same have the same selected parts. -/
lemma sameSet_parts (s : Selector) :
    Value.sameSet (s.parts d a.values) (s.parts d a'.values) = true := by
  cases hmatches : s.matchesAttribute d.schema d.name with
  | false => rw [parts_of_not_matches hmatches, parts_of_not_matches hmatches]; rfl
  | true =>
    cases hcomplex : d.isComplex with
    | false =>
      rw [parts_simple hmatches (isComplex_of_simple ha hcomplex),
        parts_simple hmatches (isComplex_of_simple ha' hcomplex), h]
    | true =>
      rw [parts_complex ha hcomplex, parts_complex ha' hcomplex, Value.sameSet_map_iff_sameListed]
      exact sameListed_pickEntries ha ha' h s

/-- Attributes that say the same have the same selected sub-attributes, by descriptor. -/
lemma exists_picked (hcomplex : d.isComplex = true) {x : Attribute} (hx : x ∈ picked s a) :
    ∃ y ∈ picked s a', y.descriptor = x.descriptor := by
  obtain ⟨v, hv, hpick⟩ := List.mem_flatMap.mp hx
  obtain ⟨e, rfl, hsub, hselects⟩ := mem_pick hpick
  obtain ⟨he, f, hf, hfd, hfe⟩ := exists_entry_of_sameSet ha ha' hcomplex h hv
  have hef := Entry.equivOn.symm f e hfd.uniqueNames he.uniqueNames hfe
  obtain ⟨y, hy, hyx⟩ := exists_sub_of_beq he hfd hef hsub
  refine ⟨y, List.mem_flatMap.mpr ⟨_, hf, List.mem_filter.mpr ⟨hy, ?_⟩⟩, hyx⟩
  rw [ha.descriptor_eq, ← ha'.descriptor_eq, Attribute.nameKey, Attribute.name, ← hyx] at hselects
  exact hselects

/-- Attributes that say the same have the same sub-attributes to remove one by one. -/
lemma exists_dropped (hcomplex : d.isComplex = true) {x : Attribute} (hx : x ∈ dropped s a) :
    ∃ y ∈ dropped s a', y.descriptor = x.descriptor := by
  obtain ⟨y, hy, hyx⟩ := exists_picked ha ha' h hcomplex (mem_picked_of_mem_dropped hx)
  refine ⟨y, ?_, hyx⟩
  rw [dropped, ha.descriptor_eq] at hx
  rw [dropped, ha'.descriptor_eq]
  split at hx
  · rename_i hmulti
    have hname : y.name = x.name := congrArg Descriptor.name hyx
    rw [if_pos hmulti, List.mem_filter, hname]
    exact ⟨hy, (List.mem_filter.mp hx).2⟩
  · rename_i hsingle
    rw [if_neg hsingle]
    exact hy

/-- Attributes that say the same are removed by the same paths. -/
lemma alike_ofRemoved (core : String) (s : Selector) :
    (ofRemoved core s a).Alike (ofRemoved core s a') := by
  have hisEmpty : ∀ {xs ys : List Attribute}, (∀ x ∈ xs, ∃ y ∈ ys, y.descriptor = x.descriptor) →
      (∀ y ∈ ys, ∃ x ∈ xs, x.descriptor = y.descriptor) → xs.isEmpty = ys.isEmpty := by
    intro xs ys hxs hys
    rw [Bool.eq_iff_iff, List.isEmpty_iff, List.isEmpty_iff]
    simp only [List.eq_nil_iff_forall_not_mem]
    exact ⟨fun hnot y hy => (hys y hy).elim fun x hx => hnot x hx.1,
      fun hnot x hx => (hxs x hx).elim fun y hy => hnot y hy.1⟩
  have h' := Value.sameSet_symm h
  refine ⟨fun q => ?_, .nil⟩
  rw [ofRemoved, ofRemoved, deletionsOf_eq, deletionsOf_eq]
  simp only [Attribute.schema, Attribute.name, path_congr core ha.descriptor_eq,
    path_congr core ha'.descriptor_eq, ha.descriptor_eq, ha'.descriptor_eq]
  split
  · rfl
  · rename_i hwhole
    have hcomplex : d.isComplex = true := by
      by_contra hsimple
      exact hwhole (by simp [hsimple])
    have hdropped := fun x (hx : x ∈ dropped s a) => exists_dropped ha ha' h hcomplex hx
    have hdropped' := fun x (hx : x ∈ dropped s a') => exists_dropped ha' ha h' hcomplex hx
    rw [hisEmpty hdropped hdropped', hisEmpty (fun x => exists_picked ha ha' h hcomplex)
      fun x => exists_picked ha' ha h' hcomplex]
    split
    · rfl
    · exact ⟨mem_paths_of_exists hdropped q, mem_paths_of_exists hdropped' q⟩

/-- Attributes that say the same are added alike. -/
lemma alike_ofAdded (s : Selector) : (ofAdded s a).Alike (ofAdded s a') := by
  rw [ofAdded, ofAdded, ha.descriptor_eq, ha'.descriptor_eq]
  split
  · exact ⟨fun _ => Iff.rfl, sameValues_updateWith
      (Value.sameSet_map_iff_sameListed.mpr (sameListed_pickEntries ha ha' h s))⟩
  · exact ⟨fun _ => Iff.rfl, .cons ⟨ha.descriptor_eq.trans ha'.descriptor_eq.symm, h⟩ .nil⟩

end One

/-! ## Attributes of both resources -/

section Both

variable (ha : a.Conforms d) (ha' : a'.Conforms d) (hb : b.Conforms d) (hb' : b'.Conforms d)
  (hsource : Value.sameSet a.values a'.values = true)
  (htarget : Value.sameSet b.values b'.values = true)

include ha ha' hb hb' hsource htarget

/-- The sets of simple values change alike. -/
lemma alike_ofScalars (core : String) : (ofScalars core a b).Alike (ofScalars core a' b') := by
  obtain ⟨hgone, hfresh⟩ := SameListed.reconcile Value.equivOn ha.regular.uniqueNames
    ha'.regular.uniqueNames hb.regular.uniqueNames hb'.regular.uniqueNames
    (Value.sameSet_iff_sameListed.mp hsource) (Value.sameSet_iff_sameListed.mp htarget)
  rw [ofScalars, ofScalars, ha.descriptor_eq, ha'.descriptor_eq,
    path_congr core ha.descriptor_eq, path_congr core ha'.descriptor_eq]
  have hempty := Bool.eq_iff_iff.mpr
    ((List.isEmpty_iff.trans hgone.eq_nil_iff).trans List.isEmpty_iff.symm)
  rw [hempty]
  split
  · exact ⟨fun _ => Iff.rfl, sameValues_updateWith (Value.sameSet_iff_sameListed.mpr hfresh)⟩
  · exact ⟨fun _ => Iff.rfl,
      .cons ⟨hb.descriptor_eq.trans hb'.descriptor_eq.symm, htarget⟩ .nil⟩

/-- The sets of entries change alike. -/
lemma alike_ofEntries (core : String) (s : Selector) {c c' : Change} {mark : Attribute}
    (hmark : d.IsMark mark) (hc : ofEntries core s a b = .ok c)
    (hc' : ofEntries core s a' b' = .ok c') : c.Alike c' := by
  have hpicked := sameListed_pickEntries ha ha' hsource s
  have hpicked' := sameListed_pickEntries hb hb' htarget s
  have hunique : ∀ {x : Attribute}, x.Conforms d → ∀ e ∈ s.pickEntries x, e.UniqueNames :=
    fun hx _ he => s.uniqueNames_of_mem_pickEntries hx.regular.uniqueNames he
  obtain ⟨hgone, hfresh⟩ := SameListed.reconcile Entry.equivOn (hunique ha) (hunique ha')
    (hunique hb) (hunique hb') hpicked hpicked'
  change SameListed (gone s a b) (gone s a' b') at hgone
  change SameListed (fresh s a b) (fresh s a' b') at hfresh
  have hcollapses : Collapses s a b ↔ Collapses s a' b' := by
    have hsame := (sameListed_iff Entry.equivOn (hunique ha) (hunique ha')).mp hpicked
    have hsame' := (sameListed_iff Entry.equivOn (hunique hb) (hunique hb')).mp hpicked'
    rw [Collapses, Collapses, forall_not_listed_iff Entry.equivOn (hunique ha) (hunique hb),
      forall_not_listed_iff Entry.equivOn (hunique ha') (hunique hb')]
    refine and_congr (not_congr hpicked.eq_nil_iff) (forall_congr' fun z => ?_)
    refine forall_congr' fun hz => ?_
    rw [hsame z hz, hsame' z hz]
  by_cases hall : Collapses s a b
  · have hall' := hcollapses.mp hall
    rw [ofEntries_of_collapses ha.regular hb.regular hall] at hc
    rw [ofEntries_of_collapses ha'.regular hb'.regular hall'] at hc'
    cases hc
    cases hc'
    rw [path_congr core ha.descriptor_eq, path_congr core ha'.descriptor_eq, ha.descriptor_eq,
      ha'.descriptor_eq]
    exact ⟨fun _ => Iff.rfl,
      sameValues_updateWith (Value.sameSet_map_iff_sameListed.mpr hfresh)⟩
  · have hall' := fun h => hall (hcollapses.mpr h)
    rw [ofEntries_of_not_collapses ha.regular hb.regular hall hmark] at hc
    rw [ofEntries_of_not_collapses ha'.regular hb'.regular hall' hmark] at hc'
    cases hc
    cases hc'
    rw [ha.descriptor_eq, ha'.descriptor_eq]
    refine ⟨fun _ => Iff.rfl, sameValues_updateWith (Value.sameSet_map_iff_sameListed.mpr ?_)⟩
    refine SameListed.append
      (hgone.map (fun e f he hf => Entry.insert_beq he hf hmark.uniqueNames) ?_ ?_) hfresh
    · exact fun e he => hunique ha e (gone_subset ha.regular hb.regular e he)
    · exact fun e he => hunique ha' e (gone_subset ha'.regular hb'.regular e he)

omit ha ha' hsource in
/-- The changed sub-attributes of single entries are equal. -/
lemma changed_beq (s : Selector) {e e' f f' : Entry} (he : e.UniqueNames) (he' : e'.UniqueNames)
    (hee : (e == e') = true) (hbv : b.values = [.complex f]) (hbv' : b'.values = [.complex f']) :
    (changed s b e f == changed s b' e' f') = true := by
  have hf := hb.regular.uniqueNames_entry hbv
  have hf' := hb'.regular.uniqueNames_entry hbv'
  have hff := beq_of_sameSet hbv hbv' htarget
  rw [Entry.beq_iff_lookup (uniqueNames_changed hf) (uniqueNames_changed hf')]
  intro k
  rw [lookup_changed hf, lookup_changed hf', hb.descriptor_eq, hb'.descriptor_eq]
  split
  · have hsource := (Entry.beq_iff_lookup he he').mp hee k
    have htarget := (Entry.beq_iff_lookup hf hf').mp hff k
    have hunique := fun x (h : e.lookup k = some x) => he.of_lookup h
    have hunique' := fun x (h : e'.lookup k = some x) => he'.of_lookup h
    have huniqueF := fun x (h : f.lookup k = some x) => hf.of_lookup h
    have huniqueF' := fun x (h : f'.lookup k = some x) => hf'.of_lookup h
    generalize e.lookup k = o at hsource hunique ⊢
    generalize e'.lookup k = o' at hsource hunique' ⊢
    generalize f.lookup k = p at htarget huniqueF ⊢
    generalize f'.lookup k = p' at htarget huniqueF' ⊢
    cases htarget with
    | none => exact .none
    | @some y y' hyy =>
      have hsame : (o == some y) = (o' == some y') := by
        cases hsource with
        | none => rfl
        | @some x x' hxx =>
          rw [Option.some_beq_some, Option.some_beq_some]
          exact Attribute.equivOn.beq_congr (hunique x rfl) (hunique' x' rfl) (huniqueF y rfl)
            (huniqueF' y' rfl) hxx hyy
      rw [Option.filter, Option.filter, hsame]
      split
      · exact .some hyy
      · exact .none
  · exact .none

/-- Single entries change alike. -/
lemma alike_ofEntry (core : String) (s : Selector) {e e' f f' : Entry} (he : e.Conforms d)
    (he' : e'.Conforms d) (hav : a.values = [.complex e]) (hav' : a'.values = [.complex e'])
    (hbv : b.values = [.complex f]) (hbv' : b'.values = [.complex f']) :
    (ofEntry core s a b e f).Alike (ofEntry core s a' b' e' f') := by
  have hf := hb.regular.uniqueNames_entry hbv
  have hf' := hb'.regular.uniqueNames_entry hbv'
  have hee := beq_of_sameSet hav hav' hsource
  have hff := beq_of_sameSet hbv hbv' htarget
  have hlost := exists_lost (s := s) ha.descriptor_eq ha'.descriptor_eq he he' hf hf' hee hff
  have hlost' := exists_lost (s := s) ha'.descriptor_eq ha.descriptor_eq he' he hf' hf
    (Entry.equivOn.symm _ _ he.uniqueNames he'.uniqueNames hee) (Entry.equivOn.symm _ _ hf hf' hff)
  have hchanged := changed_beq hb hb' htarget s he.uniqueNames he'.uniqueNames hee hbv hbv'
  rw [ofEntry_eq, ofEntry_eq]
  simp only [path_congr core ha.descriptor_eq, path_congr core ha'.descriptor_eq]
  refine ⟨fun q => ⟨mem_paths_of_exists hlost q, mem_paths_of_exists hlost' q⟩, ?_⟩
  dsimp only
  rw [Entry.isEmpty_congr (uniqueNames_changed hf) (uniqueNames_changed hf') hchanged]
  split
  · exact .nil
  · refine .cons ⟨hb.descriptor_eq.trans hb'.descriptor_eq.symm, ?_⟩ .nil
    refine Value.sameSet_of_forall₂ ?_ ?_ (.cons (by simpa using hchanged) .nil)
    all_goals
      intro v hv
      rw [List.mem_singleton.mp hv, Value.uniqueNames_complex]
    · exact uniqueNames_changed hf
    · exact uniqueNames_changed hf'

/-- **Attributes of both resources change alike.**

**Proof sketch.**  When nothing of the first pair changes, its selected parts are the same set; so
are those of the second pair, and nothing of it changes.  Otherwise neither source is equal to its
target value by value, and both pairs are compared in the same way. -/
lemma alike_common (core : String) (hmatches : s.matchesAttribute d.schema d.name = true)
    (hmark : d.isMultiValued = true → d.isComplex = true → ∃ mark, d.IsMark mark) :
    (common core s a b).Alike (common core s a' b') := by
  have hunique : ∀ {x : Attribute}, x.Conforms d → ∀ v ∈ s.parts d x.values, v.UniqueNames :=
    fun hx v hv => (Selector.regular_of_mem_parts hx.regular.values v hv).uniqueNames
  have hparts : Value.sameSet (s.parts d a.values) (s.parts d b.values) = true ↔
      Value.sameSet (s.parts d a'.values) (s.parts d b'.values) = true := by
    rw [Value.sameSet_iff_sameListed, Value.sameSet_iff_sameListed]
    exact SameListed.congr Value.equivOn (hunique ha) (hunique ha') (hunique hb) (hunique hb')
      (Value.sameSet_iff_sameListed.mp (sameSet_parts ha ha' hsource s))
      (Value.sameSet_iff_sameListed.mp (sameSet_parts hb hb' htarget s))
  have hempty : (common core s a b).deletions = [] ∧ (common core s a b).updates = [] ↔
      Value.sameSet (s.parts d a.values) (s.parts d b.values) = true :=
    common_empty_iff ha hb hmatches hmark
  have hempty' : (common core s a' b').deletions = [] ∧ (common core s a' b').updates = [] ↔
      Value.sameSet (s.parts d a'.values) (s.parts d b'.values) = true :=
    common_empty_iff ha' hb' hmatches hmark
  by_cases hsame : Value.sameSet (s.parts d a.values) (s.parts d b.values) = true
  · exact alike_of_eq_nil (hempty.mpr hsame) (hempty'.mpr (hparts.mp hsame))
  have hbeq : ¬ (a == b) = true := fun h => hsame (sameSet_parts_of_beq ha hb h)
  have hbeq' : ¬ (a' == b') = true := fun h => hsame (hparts.mpr (sameSet_parts_of_beq ha' hb' h))
  cases hmulti : d.isMultiValued <;> cases hcomplex : d.isComplex
  · rw [common_of_ok (ofCommon_simple ha.descriptor_eq hbeq hmulti hcomplex),
      common_of_ok (ofCommon_simple ha'.descriptor_eq hbeq' hmulti hcomplex)]
    exact ⟨fun _ => Iff.rfl,
      .cons ⟨hb.descriptor_eq.trans hb'.descriptor_eq.symm, htarget⟩ .nil⟩
  · obtain ⟨e, hav, he⟩ := exists_entry ha hmulti hcomplex
    obtain ⟨e', hav', he'⟩ := exists_entry ha' hmulti hcomplex
    obtain ⟨f, hbv, -⟩ := exists_entry hb hmulti hcomplex
    obtain ⟨f', hbv', -⟩ := exists_entry hb' hmulti hcomplex
    rw [common_of_ok (ofCommon_complex ha.descriptor_eq hbeq hmulti hcomplex),
      common_of_ok (ofCommon_complex ha'.descriptor_eq hbeq' hmulti hcomplex),
      ofComplex_eq hav hbv, ofComplex_eq hav' hbv']
    exact alike_ofEntry ha ha' hb hb' hsource htarget core s he he' hav hav' hbv hbv'
  · rw [common_of_ok (ofCommon_scalars ha.descriptor_eq hbeq hmulti hcomplex),
      common_of_ok (ofCommon_scalars ha'.descriptor_eq hbeq' hmulti hcomplex)]
    exact alike_ofScalars ha ha' hb hb' hsource htarget core
  · obtain ⟨mark, hmark⟩ := hmark hmulti hcomplex
    have hc := ofCommon_eq_common core s ha hb fun _ _ => ⟨mark, hmark⟩
    have hc' := ofCommon_eq_common core s ha' hb' fun _ _ => ⟨mark, hmark⟩
    rw [ofCommon_entries ha.descriptor_eq hbeq hmulti hcomplex] at hc
    rw [ofCommon_entries ha'.descriptor_eq hbeq' hmulti hcomplex] at hc'
    exact alike_ofEntries ha ha' hb hb' hsource htarget core s hmark hc hc'

end Both

/-- **Attributes that say the same change alike.**  The attributes may be absent, which is the
empty set of values. -/
theorem alike_ofPair (core : String) (s : Selector) (ho : ∀ a, o = some a → a.Conforms d)
    (ho' : ∀ a, o' = some a → a.Conforms d) (hp : ∀ b, p = some b → b.Conforms d)
    (hp' : ∀ b, p' = some b → b.Conforms d)
    (hmark : d.isMultiValued = true → d.isComplex = true → ∃ mark, d.IsMark mark)
    (hsource : Option.Rel (fun a a' => a.agrees a' = true) o o')
    (htarget : Option.Rel (fun b b' => b.agrees b' = true) p p') :
    (ofPair core s o p).Alike (ofPair core s o' p') := by
  cases hmatches : s.matchesAttribute d.schema d.name with
  | false =>
    rw [ofPair_of_not_matches core ho hp hmatches, ofPair_of_not_matches core ho' hp' hmatches]
    exact alike_unchanged
  | true =>
    have hset : ∀ {x y : Attribute}, x.Conforms d → y.Conforms d → x.agrees y = true →
        Value.sameSet x.values y.values = true :=
      fun hx hy hxy => (hx.regular.agrees_iff hy.regular).mp hxy
    cases hsource with
    | none =>
      cases htarget with
      | none => exact alike_unchanged
      | @some b b' hbb =>
        have hb := hp b rfl
        have hb' := hp' b' rfl
        rw [ofPair_added core hmatches hb, ofPair_added core hmatches hb']
        exact alike_ofAdded hb hb' (hset hb hb' hbb) s
    | @some a a' haa =>
      have ha := ho a rfl
      have ha' := ho' a' rfl
      cases htarget with
      | none =>
        rw [ofPair_removed core hmatches ha, ofPair_removed core hmatches ha']
        exact alike_ofRemoved ha ha' (hset ha ha' haa) core s
      | @some b b' hbb =>
        have hb := hp b rfl
        have hb' := hp' b' rfl
        rw [ofPair_common core hmatches ha, ofPair_common core hmatches ha']
        exact alike_common ha ha' hb hb' (hset ha ha' haa) (hset hb hb' hbb) core hmatches hmark

/-! ## The spelling of deletions -/

/-- Each deletion names the attribute of a descriptor or a sub-attribute, spelled as defined. -/
def Spelled (core : String) (d : Descriptor) (c : Change) : Prop :=
  ∀ q ∈ c.deletions, ∃ sub, q = path core ⟨d, []⟩ sub ∧
    ∀ n, sub = some n → ∃ x, d.sub? n = some x ∧ x.name = n

/-- Without deletions nothing is misspelled. -/
lemma spelled_nil (core : String) (d : Descriptor) (updates : List Attribute) :
    (⟨[], updates⟩ : Change).Spelled core d :=
  fun _ hq => absurd hq List.not_mem_nil

/-- The path of the attribute is spelled as defined. -/
lemma spelled_path (core : String) (ha : a.descriptor = d) (updates : List Attribute) :
    (⟨[path core a none], updates⟩ : Change).Spelled core d := by
  intro q hq
  refine ⟨none, ?_, fun n hn => by cases hn⟩
  rw [List.mem_singleton.mp hq, path_congr core ha]

/-- The paths of sub-attributes of conforming entries are spelled as defined. -/
lemma spelled_subs (core : String) (ha : a.descriptor = d) {subs : List Attribute}
    (h : ∀ x ∈ subs, ∃ e : Entry, e.Conforms d ∧ x ∈ e.subAttributes) (updates : List Attribute) :
    (⟨subs.map fun x => path core a (some x.name), updates⟩ : Change).Spelled core d := by
  intro q hq
  obtain ⟨x, hx, rfl⟩ := List.mem_map.mp hq
  obtain ⟨e, he, hxe⟩ := h x hx
  obtain ⟨y, hy, -, hconforms⟩ := he.subs x hxe
  refine ⟨some x.name, path_congr core ha _, ?_⟩
  rintro n ⟨⟩
  exact ⟨y, hy, by rw [Attribute.name, hconforms.descriptor_eq]⟩

/-- A selected sub-attribute belongs to a conforming entry. -/
lemma exists_entry_of_mem_picked (ha : a.Conforms d) {x : Attribute} (hx : x ∈ picked s a) :
    ∃ e : Entry, e.Conforms d ∧ x ∈ e.subAttributes := by
  obtain ⟨v, hv, hpick⟩ := List.mem_flatMap.mp hx
  obtain ⟨e, rfl, hsub, -⟩ := mem_pick hpick
  cases hcomplex : d.isComplex with
  | false =>
    obtain ⟨j, hj, -⟩ := ha.scalars hcomplex _ hv
    cases hj
  | true =>
    obtain ⟨f, hf, hconforms⟩ := ha.entries hcomplex _ hv
    cases hf
    exact ⟨e, hconforms, hsub⟩

/-- **Deletions are spelled as defined.** -/
theorem spelled_ofPair (core : String) (s : Selector) (ho : ∀ a, o = some a → a.Conforms d)
    (hp : ∀ b, p = some b → b.Conforms d)
    (hmark : d.isMultiValued = true → d.isComplex = true → ∃ mark, d.IsMark mark) :
    (ofPair core s o p).Spelled core d := by
  refine ofPair_cases (spelled_nil core d []) (fun b _ => ?_) (fun a ha => ?_)
    fun a b ha hb => ?_
  · rw [ofAdded]
    split <;> exact spelled_nil core d _
  · have hconforms := ho a ha
    have hwhole := spelled_path core hconforms.descriptor_eq []
    rw [ofRemoved, deletionsOf_eq]
    split
    · exact hwhole
    · split
      · exact hwhole
      · exact spelled_subs core hconforms.descriptor_eq (fun x hx =>
          exists_entry_of_mem_picked hconforms (mem_picked_of_mem_dropped hx)) []
  · have hconforms := ho a ha
    have had := hconforms.descriptor_eq
    obtain ⟨c, hc, hkind⟩ := exists_kind core s hconforms (hp b hb) hmark
    rw [common_of_ok hc]
    cases hkind with
    | same => exact spelled_nil core d _
    | scalar => exact spelled_nil core d _
    | more => exact spelled_nil core d _
    | marked => exact spelled_nil core d _
    | replaced => exact spelled_path core had _
    | collapsed => exact spelled_path core had _
    | @entry e f hmulti hcomplex hav hbv =>
      rw [ofEntry_eq]
      refine spelled_subs core had (fun x hx => ?_) _
      obtain ⟨_, heq, hsub, -⟩ := mem_pick (List.mem_filter.mp hx).1
      cases heq
      obtain ⟨_, heq, he⟩ := hconforms.entries hcomplex (.complex e) (by simp [hav])
      cases heq
      exact ⟨e, he, hsub⟩

/-- Deletions that name the same sub-attribute are the same. -/
lemma Spelled.eq_of_beq {c c' : Change} (hc : c.Spelled core d) (hc' : c'.Spelled core d)
    {q q' : AttributePath} (hq : q ∈ c.deletions) (hq' : q' ∈ c'.deletions)
    (h : (q == q') = true) : q = q' := by
  obtain ⟨sub, rfl, hsub⟩ := hc q hq
  obtain ⟨sub', rfl, hsub'⟩ := hc' q' hq'
  have hkey := congrArg (fun k => k.2.2) (AttributePath.beq_iff.mp h)
  simp only [AttributePath.key, path_sub] at hkey
  cases sub with
  | none =>
    cases sub' with
    | none => rfl
    | some n => cases hkey
  | some m =>
    cases sub' with
    | none => cases hkey
    | some n =>
      obtain ⟨x, hx, rfl⟩ := hsub _ rfl
      obtain ⟨y, hy, rfl⟩ := hsub' _ rfl
      rw [Descriptor.sub?_congr (Option.some.inj hkey), hy, Option.some.injEq] at hx
      rw [hx]

end Change

end Scim
