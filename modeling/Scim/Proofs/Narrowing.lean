import Scim.Proofs.AttributeShares

set_option autoImplicit false

/-!
# Single-valued complex attributes, sub-attribute by sub-attribute

An attribute with one entry may be in the source, in the target or in both, and each case has its
own rule.  They are one law when an absent attribute counts as an empty entry: the selected
sub-attributes that only the source has are deleted, and those of the target that the source does
not have like that are updated.  Nothing else is mentioned.

## Main definitions

* `Scim.Attribute.entryOf` — the entry of an attribute that may be absent.
* `Scim.Selector.missing`, `altered` — the sub-attributes to delete and to update.
* `Scim.Change.ofSubs` — the change that they make.

## Main results

* `Scim.Change.ofPair_eq_ofSubs` — the three rules are one law.
* `Scim.Selector.nodup_missing_altered`, `not_mem_of_listed` — no sub-attribute is mentioned twice,
  and none that stays as it is.
* `Scim.Diff.share_of_entry` — a whole difference.
-/

namespace Scim

/-- The entry of an attribute with one value, or the empty entry when the attribute is absent. -/
def Attribute.entryOf (o : Option Attribute) : Entry :=
  ((o.bind Attribute.first?).bind Value.entry?).getD .empty

/-- The entry of an attribute with one value. -/
lemma Attribute.entryOf_some {a : Attribute} {e : Entry} (h : a.values = [.complex e]) :
    Attribute.entryOf (some a) = e := by
  rw [entryOf, Option.bind_some, first?, h]
  rfl

/-- Equal attributes have one name. -/
lemma Attribute.nameKey_of_beq {x y : Attribute} (h : (x == y) = true) : x.nameKey = y.nameKey :=
  congrArg Prod.snd (Attribute.beq_iff.mp h).1

namespace Selector

variable {s : Selector} {d : Descriptor} {e f : Entry}

/-- The selected sub-attributes of the first entry that the second lacks. -/
def missing (s : Selector) (d : Descriptor) (e f : Entry) : List Attribute :=
  e.subAttributes.filter fun x => s.matchesSub d.schema d.name x.name ∧ f.get? x.name = none

/-- The selected sub-attributes of the second entry to which none of the first is equal: it lacks
them or has other values there. -/
def altered (s : Selector) (d : Descriptor) (e f : Entry) : List Attribute :=
  f.subAttributes.filter fun x => s.matchesSub d.schema d.name x.name ∧ ¬ Listed e.subAttributes x

/-- What is missing is in the first entry, and nothing in the second has its name. -/
lemma mem_missing_iff {x : Attribute} : x ∈ s.missing d e f ↔
    x ∈ e.subAttributes ∧ s.matchesSub d.schema d.name x.name = true ∧
      f.lookup x.nameKey = none := by
  rw [missing, List.mem_filter, decide_eq_true_iff]
  rfl

/-- What is altered is in the second entry, and nothing in the first is equal to it. -/
lemma mem_altered_iff {x : Attribute} : x ∈ s.altered d e f ↔
    x ∈ f.subAttributes ∧ s.matchesSub d.schema d.name x.name = true ∧
      ¬ Listed e.subAttributes x := by
  rw [altered, List.mem_filter, decide_eq_true_iff]

/-- No sub-attribute is deleted or updated twice, or both deleted and updated. -/
lemma nodup_missing_altered (he : e.UniqueNames) (hf : f.UniqueNames) :
    ((s.missing d e f ++ s.altered d e f).map Attribute.nameKey).Nodup := by
  have hdisjoint : ∀ x ∈ s.missing d e f, ∀ y ∈ s.altered d e f, x.nameKey ≠ y.nameKey := by
    intro x hx y hy hxy
    have hnone := (mem_missing_iff.mp hx).2.2
    rw [hf.lookup_eq_some_iff.mpr ⟨(mem_altered_iff.mp hy).1, hxy.symm⟩] at hnone
    cases hnone
  rw [List.map_append, List.nodup_append]
  refine ⟨(Entry.uniqueNames_iff.mp he).1.sublist (List.filter_sublist.map _),
    (Entry.uniqueNames_iff.mp hf).1.sublist (List.filter_sublist.map _), fun k hk l hl => ?_⟩
  obtain ⟨x, hx, rfl⟩ := List.mem_map.mp hk
  obtain ⟨y, hy, rfl⟩ := List.mem_map.mp hl
  exact hdisjoint x hx y hy

/-- A look-up finds an equal sub-attribute exactly when there is one. -/
lemma lookup_beq_iff (he : e.UniqueNames) {x : Attribute} :
    (e.lookup x.nameKey == some x) = true ↔ Listed e.subAttributes x := by
  constructor
  · intro h
    cases hfound : e.lookup x.nameKey with
    | none =>
      rw [hfound] at h
      cases h
    | some y =>
      rw [hfound] at h
      exact ⟨y, Keyed.mem_of_get? hfound, h⟩
  · rintro ⟨y, hy, hyx⟩
    rw [he.lookup_eq_some_iff.mpr ⟨hy, Attribute.nameKey_of_beq hyx⟩]
    exact hyx

/-- A sub-attribute that both entries have alike is neither deleted nor updated. -/
lemma not_mem_of_listed (he : e.UniqueNames) (hf : f.UniqueNames) {x : Attribute}
    (hx : x ∈ e.subAttributes) (hlisted : Listed f.subAttributes x) :
    x.nameKey ∉ (s.missing d e f ++ s.altered d e f).map Attribute.nameKey := by
  obtain ⟨z, hz, hzx⟩ := hlisted
  have hkey := Attribute.nameKey_of_beq hzx
  have hzU := (Entry.uniqueNames_iff.mp hf).2 z hz
  have hxU := (Entry.uniqueNames_iff.mp he).2 x hx
  intro hmem
  obtain ⟨y, hy, hyx⟩ := List.mem_map.mp hmem
  rcases List.mem_append.mp hy with hy | hy
  · -- the second entry has the name
    have hnone := (mem_missing_iff.mp hy).2.2
    rw [hf.lookup_eq_some_iff.mpr ⟨hz, hkey.trans hyx.symm⟩] at hnone
    cases hnone
  · -- what the second entry has under the name is equal to what the first has
    obtain ⟨hyf, -, hnot⟩ := mem_altered_iff.mp hy
    have hyz : y = z := by
      have hfound := hf.lookup_eq_some_iff.mpr ⟨hyf, hyx⟩
      rw [hf.lookup_eq_some_iff.mpr ⟨hz, hkey⟩] at hfound
      exact (Option.some.inj hfound).symm
    rw [hyz] at hnot
    exact hnot ⟨x, hx, Attribute.equivOn.symm z x hzU hxU hzx⟩

/-- What is missing is found in the selected parts of the entries. -/
lemma missing_restrict (s : Selector) (d : Descriptor) (e f : Entry) :
    s.missing d (e.restrict (s.selects d)) (f.restrict (s.selects d)) = s.missing d e f := by
  have hsubs : (e.restrict (s.selects d)).subAttributes =
      e.subAttributes.filter fun x => s.selects d x.nameKey := rfl
  rw [missing, missing, hsubs, List.filter_filter]
  refine List.filter_congr fun x _ => ?_
  have hselects : s.matchesSub d.schema d.name x.name = s.selects d x.nameKey := rfl
  have hget : (f.restrict (s.selects d)).get? x.name =
      if s.selects d x.nameKey then f.get? x.name else none := f.lookup_restrict _ _
  rw [hselects, hget]
  cases s.selects d x.nameKey <;> simp

/-- What is altered is found in the selected parts of the entries. -/
lemma altered_restrict (s : Selector) (d : Descriptor) (e f : Entry) :
    s.altered d (e.restrict (s.selects d)) (f.restrict (s.selects d)) = s.altered d e f := by
  rw [altered, altered, Entry.restrict, Entry.restrict, List.filter_filter]
  refine List.filter_congr fun x _ => ?_
  have hselects : s.selects d x.nameKey = s.matchesSub d.schema d.name x.name := rfl
  rw [hselects, Bool.eq_iff_iff, Bool.and_eq_true, decide_eq_true_iff, decide_eq_true_iff]
  constructor
  · rintro ⟨⟨hx, hnot⟩, -⟩
    refine ⟨hx, ?_⟩
    rintro ⟨y, hy, hyx⟩
    -- an equal sub-attribute has the same name, so that it is selected, too
    refine hnot ⟨y, List.mem_filter.mpr ⟨hy, ?_⟩, hyx⟩
    rw [Attribute.nameKey_of_beq hyx]
    exact hx
  · rintro ⟨hx, hnot⟩
    refine ⟨⟨hx, ?_⟩, hx⟩
    rintro ⟨y, hy, hyx⟩
    exact hnot ⟨y, (List.mem_filter.mp hy).1, hyx⟩

end Selector

namespace Change

variable {core : String} {s : Selector} {d : Descriptor} {a b : Attribute} {e f : Entry}
  {o p : Option Attribute}

/-- Deletes the sub-attributes that are missing, and updates to those that are altered, if there
are any. -/
def ofSubs (core : String) (s : Selector) (d : Descriptor) (e f : Entry) : Change :=
  ⟨(s.missing d e f).map fun x => path core ⟨d, []⟩ (some x.name),
    if s.altered d e f = [] then [] else [.single d (.complex ⟨s.altered d e f⟩)]⟩

/-- What is deleted and updated is found in the selected parts of the entries. -/
lemma ofSubs_restrict (core : String) (s : Selector) (d : Descriptor) (e f : Entry) :
    ofSubs core s d (e.restrict (s.selects d)) (f.restrict (s.selects d)) =
      ofSubs core s d e f := by
  rw [ofSubs, s.missing_restrict, s.altered_restrict, ofSubs]

/-! ## The three rules -/

/-- Sub-attributes of the source that the target lacks are missing. -/
lemma lost_eq (had : a.descriptor = d) (e f : Entry) : lost s a e f = s.missing d e f := by
  rw [lost, pick_eq had, List.filter_filter, Selector.missing]
  refine List.filter_congr fun x _ => ?_
  rw [Entry.contains]
  cases f.get? x.name <;> simp

/-- Sub-attributes of the target that differ in the source are altered. -/
lemma changed_eq_altered (hbd : b.descriptor = d) (he : e.UniqueNames) (hf : f.UniqueNames) :
    changed s b e f = ⟨s.altered d e f⟩ := by
  rw [changed_eq hf, Entry.restrict, List.filter_filter, Selector.altered, hbd]
  congr 1
  refine List.filter_congr fun x _ => ?_
  have hselects : s.selects d x.nameKey = s.matchesSub d.schema d.name x.name := rfl
  rw [hselects]
  by_cases hlisted : Listed e.subAttributes x
  · rw [(Selector.lookup_beq_iff he).mpr hlisted]
    simp [hlisted]
  · rw [Bool.eq_false_iff.mpr fun h => hlisted ((Selector.lookup_beq_iff he).mp h)]
    simp [hlisted]

/-- Two entries. -/
lemma ofEntry_eq_ofSubs (had : a.descriptor = d) (hbd : b.descriptor = d) (he : e.UniqueNames)
    (hf : f.UniqueNames) : ofEntry core s a b e f = ofSubs core s d e f := by
  rw [ofEntry_eq, lost_eq had, changed_eq_altered hbd he hf, hbd, ofSubs]
  simp only [path_congr core had, Entry.isEmpty, List.isEmpty_iff]

/-- Equal entries have nothing missing and nothing altered. -/
lemma ofSubs_of_beq (core : String) (s : Selector) (d : Descriptor) (he : e.UniqueNames)
    (hf : f.UniqueNames) (h : (e == f) = true) : ofSubs core s d e f = unchanged := by
  have hlookup := (Entry.beq_iff_lookup he hf).mp h
  have hmissing : s.missing d e f = [] := by
    rw [List.eq_nil_iff_forall_not_mem]
    intro x hx
    obtain ⟨hxe, -, hnone⟩ := Selector.mem_missing_iff.mp hx
    have hrel := hlookup x.nameKey
    rw [he.lookup_eq_some_iff.mpr ⟨hxe, rfl⟩, hnone] at hrel
    cases hrel
  have haltered : s.altered d e f = [] := by
    rw [List.eq_nil_iff_forall_not_mem]
    intro x hx
    obtain ⟨hxf, -, hnot⟩ := Selector.mem_altered_iff.mp hx
    have hrel := hlookup x.nameKey
    rw [hf.lookup_eq_some_iff.mpr ⟨hxf, rfl⟩] at hrel
    cases hfound : e.lookup x.nameKey with
    | none =>
      rw [hfound] at hrel
      cases hrel
    | some y =>
      rw [hfound] at hrel
      cases hrel with
      | some hyx => exact hnot ⟨y, Keyed.mem_of_get? hfound, hyx⟩
  rw [ofSubs, hmissing, haltered]
  rfl

/-- An attribute of the target only: what is selected of it is altered. -/
lemma ofAdded_eq_ofSubs (core : String) (hbd : b.descriptor = d) (hcomplex : d.isComplex = true)
    (hbv : b.values = [.complex f]) (hf : f.UniqueNames) :
    ofAdded s b = ofSubs core s d .empty f := by
  have haltered : s.altered d .empty f =
      f.subAttributes.filter fun x => s.matchesSub d.schema d.name x.name := by
    refine List.filter_congr fun x _ => ?_
    simp [Entry.empty]
  have hlist : Entry.ofList (s.pick b (.complex f)) = ⟨s.altered d .empty f⟩ := by
    rw [pick_eq hbd, haltered]
    exact Entry.ofList_eq
      ((Entry.uniqueNames_iff.mp hf).1.sublist (List.filter_sublist.map _))
  have hpick : s.pickEntry? b (.complex f) =
      if s.altered d .empty f = [] then none else some ⟨s.altered d .empty f⟩ := by
    rw [Selector.pickEntry?, hlist]
    simp only [Entry.isEmpty, List.isEmpty_iff]
  have hmissing : s.missing d .empty f = [] := rfl
  rw [ofAdded, hbd, if_pos hcomplex, Selector.pickEntries, hbv, ofSubs, hmissing]
  by_cases hnil : s.altered d .empty f = []
  · rw [if_pos hnil] at hpick
    rw [if_pos hnil, List.filterMap_cons_none hpick]
    rfl
  · rw [if_neg hnil] at hpick
    rw [if_neg hnil, List.filterMap_cons_some hpick]
    rfl

/-- An attribute of the source only: what is selected of it is missing. -/
lemma ofRemoved_eq_ofSubs (core : String) (had : a.descriptor = d)
    (hmulti : d.isMultiValued = false) (hcomplex : d.isComplex = true)
    (hav : a.values = [.complex e]) :
    ofRemoved core s a = ofSubs core s d e .empty := by
  have hmissing : s.missing d e .empty =
      e.subAttributes.filter fun x => s.matchesSub d.schema d.name x.name := by
    refine List.filter_congr fun x _ => ?_
    simp [Entry.empty, Entry.get?, Keyed.get?]
  have hdropped : dropped s a = s.missing d e .empty := by
    rw [dropped, had, hmulti, if_neg Bool.false_ne_true, picked, hav, List.flatMap_singleton,
      pick_eq had, hmissing]
  rw [ofRemoved, deletionsOf_eq, hdropped, had, hmulti, hcomplex, ofSubs]
  simp [path_congr core had, Selector.altered, Entry.empty]

/-- An attribute of both resources. -/
lemma ofCommon_eq_ofSubs (core : String) (ha : a.Conforms d) (hb : b.Conforms d)
    (hmulti : d.isMultiValued = false) (hcomplex : d.isComplex = true)
    (hav : a.values = [.complex e]) (hbv : b.values = [.complex f]) :
    ofCommon core s a b = .ok (ofSubs core s d e f) := by
  have he := ha.regular.uniqueNames_entry hav
  have hf := hb.regular.uniqueNames_entry hbv
  by_cases hbeq : (a == b) = true
  · have hvalues := (Attribute.beq_iff.mp hbeq).2
    rw [hav, hbv, List.forall₂_cons, Value.complex_beq_complex] at hvalues
    rw [ofCommon, if_pos hbeq, ofSubs_of_beq core s d he hf hvalues.1]
  · rw [ofCommon_complex ha.descriptor_eq hbeq hmulti hcomplex, ofComplex_eq hav hbv,
      ofEntry_eq_ofSubs ha.descriptor_eq hb.descriptor_eq he hf]

section Pair

variable (ho : ∀ a, o = some a → a.Conforms d) (hp : ∀ b, p = some b → b.Conforms d)
  (hmulti : d.isMultiValued = false) (hcomplex : d.isComplex = true)

include ho hmulti hcomplex

/-- The entry of an attribute of a descriptor has unique names, also when it is absent. -/
lemma uniqueNames_entryOf : (Attribute.entryOf o).UniqueNames := by
  cases o with
  | none =>
    exact Entry.uniqueNames_iff.mpr ⟨List.nodup_nil, by simp [Attribute.entryOf, Entry.empty]⟩
  | some a =>
    obtain ⟨e, hav, -⟩ := exists_entry (ho a rfl) hmulti hcomplex
    rw [Attribute.entryOf_some hav]
    exact (ho a rfl).regular.uniqueNames_entry hav

include hp

/-- **The three rules are one law.** -/
theorem ofPair_eq_ofSubs (core : String) (hmatches : s.matchesAttribute d.schema d.name = true) :
    ofPair core s o p = ofSubs core s d (Attribute.entryOf o) (Attribute.entryOf p) := by
  cases o with
  | none =>
    cases p with
    | none => rfl
    | some b =>
      obtain ⟨f, hbv, -⟩ := exists_entry (hp b rfl) hmulti hcomplex
      rw [ofPair_added core hmatches (hp b rfl), Attribute.entryOf_some hbv]
      exact ofAdded_eq_ofSubs core (hp b rfl).descriptor_eq hcomplex hbv
        ((hp b rfl).regular.uniqueNames_entry hbv)
  | some a =>
    obtain ⟨e, hav, -⟩ := exists_entry (ho a rfl) hmulti hcomplex
    cases p with
    | none =>
      rw [ofPair_removed core hmatches (ho a rfl), Attribute.entryOf_some hav]
      exact ofRemoved_eq_ofSubs core (ho a rfl).descriptor_eq hmulti hcomplex hav
    | some b =>
      obtain ⟨f, hbv, -⟩ := exists_entry (hp b rfl) hmulti hcomplex
      rw [ofPair_common core hmatches (ho a rfl), Attribute.entryOf_some hav,
        Attribute.entryOf_some hbv]
      exact common_of_ok (ofCommon_eq_ofSubs core (ho a rfl) (hp b rfl) hmulti hcomplex hav hbv)

end Pair

end Change

/-! ## Whole resources -/

namespace Diff

open Standard

variable {t : ResourceType} {source target : AttributeMap}

/-- **Single-valued complex attributes are compared sub-attribute by sub-attribute.**  For any two
resources of a type, each single-valued complex attribute of the type, in whichever of the two it
is, and every selector that takes part of it, the attribute's share of the difference is this.
Its deletions are one path for each selected sub-attribute that the source has and the target
lacks.  There is an update when some selected sub-attribute of the target is missing in the source
or has other values there, and then it is one value with exactly these sub-attributes, as the
target has them.  No sub-attribute is mentioned twice, be it deleted or updated, and none that the
target has as the source does. -/
theorem share_of_entry {sourceJson targetJson : Json}
    (hsource : AttributeMap.ofJson t sourceJson = .ok source)
    (htarget : AttributeMap.ofJson t targetJson = .ok target) (s : Selector)
    {schema name : String} {d : Descriptor} (hd : t.attribute? schema name = some d)
    (hmulti : d.isMultiValued = false) (hcomplex : d.isComplex = true)
    (hmatches : s.matchesAttribute d.schema d.name = true) {e f : Entry}
    (he : Attribute.entryOf (source.get? d.schema d.name) = e)
    (hf : Attribute.entryOf (target.get? d.schema d.name) = f) :
    Share t s source target d.key ⟨(s.missing d e f).map fun x =>
          Change.path t.core ⟨d, []⟩ (some x.name),
        if s.altered d e f = [] then [] else [.single d (.complex ⟨s.altered d e f⟩)]⟩ ∧
      ((s.missing d e f ++ s.altered d e f).map Attribute.nameKey).Nodup ∧
      ∀ x ∈ e.subAttributes, Listed f.subAttributes x →
        x.nameKey ∉ (s.missing d e f ++ s.altered d e f).map Attribute.nameKey := by
  have hs := AttributeMap.conforms_of_ofJson hsource
  have ht := AttributeMap.conforms_of_ofJson htarget
  have hdescriptor : t.descriptor? d.key = some d := by
    have hself := ResourceType.attribute?_self hd
    rwa [ResourceType.attribute?_eq_descriptor?] at hself
  have ho := hs.conforms_of_lookup hdescriptor
  have hp := ht.conforms_of_lookup hdescriptor
  rw [AttributeMap.get?_eq_lookup] at he hf
  change Attribute.entryOf (source.lookup d.key) = e at he
  change Attribute.entryOf (target.lookup d.key) = f at hf
  have hchange := Change.ofPair_eq_ofSubs ho hp hmulti hcomplex t.core hmatches
  have heU := Change.uniqueNames_entryOf ho hmulti hcomplex
  have hfU := Change.uniqueNames_entryOf hp hmulti hcomplex
  rw [he, hf] at hchange
  rw [he] at heU
  rw [hf] at hfU
  have hnodup := Selector.nodup_missing_altered (s := s) (d := d) heU hfU
  refine ⟨share_ofPair hs ht hchange (fun a b ha hb => ?_) ?_, hnodup,
    fun x hx => Selector.not_mem_of_listed heU hfU hx⟩
  · obtain ⟨e, hav, -⟩ := Change.exists_entry (ho a ha) hmulti hcomplex
    obtain ⟨f, hbv, -⟩ := Change.exists_entry (hp b hb) hmulti hcomplex
    exact ⟨_, Change.ofCommon_eq_ofSubs t.core (ho a ha) (hp b hb) hmulti hcomplex hav hbv⟩
  · -- different sub-attributes have different paths
    rw [List.map_append] at hnodup
    have hnames := (List.nodup_append.mp hnodup).1
    rw [List.Nodup, List.pairwise_map] at hnames
    refine List.pairwise_map.mpr (hnames.imp fun {x y} hne => ?_)
    exact Bool.eq_false_iff.mpr fun h => hne (Change.sameName_of_path_beq h)

/-- A resource type with a single-valued complex attribute. -/
def deskType : ResourceType :=
  .ofSchemas "Desk" "Desks" ⟨"urn:desk", "Desk", "",
    [{ name := "place", type := .complex, subAttributes := [plain "floor", plain "room",
        plain "side", plain "note", { name := "labels", type := .string, multiValued := true }] }]⟩
    []

/-- The attribute `place` of desks. -/
def placeDescriptor : Descriptor := (deskType.attribute? "urn:desk" "place").get rfl

/-- Everything about the place of a desk but the note. -/
def withoutNote : Selector :=
  .ofPaths "urn:desk" (["floor", "room", "side", "labels"].map fun sub => ⟨none, "place", some sub⟩)

/-- The document of a desk. -/
def deskJson : Json :=
  .object [("place", .object [("floor", .string "1"), ("labels", .array [.string "a", .string "b"]),
    ("note", .string "new"), ("room", .string "12"), ("side", .string "left")])]

/-- The document of the desk elsewhere on the floor, with the same labels in another order. -/
def movedDeskJson : Json :=
  .object [("place", .object [("floor", .string "1"), ("labels", .array [.string "b", .string "a"]),
    ("note", .string "old"), ("side", .string "right")])]

/-- The desk has no room any more, another side and its labels in another order.  The floor stays,
and the note is not selected. -/
theorem share_of_entry_desk : ∃ source target side labels,
    AttributeMap.ofJson deskType deskJson = .ok source ∧
    AttributeMap.ofJson deskType movedDeskJson = .ok target ∧
    placeDescriptor.sub? "side" = some side ∧ placeDescriptor.sub? "labels" = some labels ∧
    Share deskType withoutNote source target placeDescriptor.key
      ⟨[⟨none, "place", some "room"⟩], [.single placeDescriptor (.complex
        ⟨[⟨labels, [.string "b", .string "a"]⟩, .single side (.string "right")]⟩)]⟩ := by
  obtain ⟨source, hsource⟩ : ∃ m, AttributeMap.ofJson deskType deskJson = .ok m := ⟨_, rfl⟩
  obtain ⟨target, htarget⟩ : ∃ m, AttributeMap.ofJson deskType movedDeskJson = .ok m := ⟨_, rfl⟩
  obtain ⟨hshare, -⟩ := share_of_entry hsource htarget withoutNote
    (show deskType.attribute? "urn:desk" "place" = some placeDescriptor from rfl) rfl rfl
    (by decide +kernel) rfl rfl
  refine ⟨source, target, _, _, hsource, htarget, rfl, rfl, ?_⟩
  cases hsource
  cases htarget
  with_unfolding_all exact hshare

end Diff

end Scim
