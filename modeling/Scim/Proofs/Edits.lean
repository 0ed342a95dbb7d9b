import Scim.Proofs.AttributeMap

set_option autoImplicit false

/-!
# Edits of attribute maps and entries

A client builds a resource, or an entry of a complex attribute, by putting attributes into it and
taking them out.  What it has then is said without groups and lists: under each key stands the
attribute that was put there last, unless it was taken out since.  This module shows that attribute
maps and entries keep this promise over edits of any number and spelling.

## Main definitions

* `Scim.Edit` — putting an attribute or taking one out.
* `Scim.Edit.latest?` — the attribute that a list of edits leaves under a key.
* `Scim.AttributeMap.ofEdits`, `Scim.Entry.ofEdits` — what a list of edits makes of nothing.
* `Scim.AttributeMap.Faithful`, `Scim.Entry.Faithful` — a map or entry with the given content, of
  which all operations speak the truth.

## Main results

* `Scim.AttributeMap.WellFormed.exists_parted` — both operations change one schema's part of the
  list of attributes only.
* `Scim.AttributeMap.ofEdits_spec`, `Scim.Entry.ofEdits_spec` — edits leave the attributes put last.
* `Scim.faithful_ofEdits` — maps and entries are faithful after any edits.
-/

namespace Scim

/-! ## Edits -/

/-- An edit of something that keeps attributes under names. -/
inductive Edit (ν : Type) where
  | put (a : Attribute)
  | remove (name : ν)

namespace Edit

variable {ν κ : Type}

/-- The key that an edit is about, where attributes and names have keys. -/
def key (ofAttribute : Attribute → κ) (ofName : ν → κ) : Edit ν → κ
  | put a => ofAttribute a
  | remove name => ofName name

/-- What an edit leaves under its key. -/
def left? : Edit ν → Option Attribute
  | put a => some a
  | remove _ => none

/-- What edits leave under a key: the attribute that was put there by the last edit of that key,
and nothing if that edit took one out or there is none. -/
def latest? [DecidableEq κ] (ofAttribute : Attribute → κ) (ofName : ν → κ) (edits : List (Edit ν))
    (k : κ) : Option Attribute :=
  (edits.reverse.find? fun e => e.key ofAttribute ofName = k).bind left?

variable [DecidableEq κ] {ofAttribute : Attribute → κ} {ofName : ν → κ}

/-- One more edit decides about its own key. -/
lemma latest?_append (edits : List (Edit ν)) (e : Edit ν) (k : κ) :
    latest? ofAttribute ofName (edits ++ [e]) k =
      if e.key ofAttribute ofName = k then e.left? else latest? ofAttribute ofName edits k := by
  rw [latest?, List.reverse_append, List.reverse_singleton, List.singleton_append, List.find?_cons]
  by_cases hk : e.key ofAttribute ofName = k
  · simp [hk]
  · simp [hk, latest?]

/-- What is left under a key was put there by one of the edits. -/
lemma put_mem_of_latest? {edits : List (Edit ν)} {k : κ} {a : Attribute}
    (h : latest? ofAttribute ofName edits k = some a) : put a ∈ edits := by
  obtain ⟨e, he, hleft⟩ := Option.bind_eq_some_iff.mp h
  cases e with
  | put b =>
    cases hleft
    exact List.mem_reverse.mp (List.mem_of_find?_eq_some he)
  | remove name => cases hleft

end Edit

namespace AttributeMap

/-- The key of a schema and a name. -/
def nameKey (name : String × String) : List Char × List Char := (caseKey name.1, caseKey name.2)

/-- The map after an edit. -/
def edit (m : AttributeMap) : Edit (String × String) → AttributeMap
  | .put a => (m.insert a).2
  | .remove name => (m.erase name.1 name.2).2

/-- The map that edits make of the empty one. -/
def ofEdits (edits : List (Edit (String × String))) : AttributeMap := edits.foldl edit empty

/-- A map with the given content. -/
structure Faithful (m : AttributeMap) (content : List Char × List Char → Option Attribute) :
    Prop where
  /-- A look-up answers from the content. -/
  get?_eq : ∀ schema name, m.get? schema name = content (caseKey schema, caseKey name)
  /-- An insertion answers like the look-up before it. -/
  insert_fst : ∀ a, (m.insert a).1 = m.get? a.schema a.name
  /-- An erasure answers like the look-up before it. -/
  erase_fst : ∀ schema name, (m.erase schema name).1 = m.get? schema name
  /-- An insertion changes no look-up of another key. -/
  get?_insert : ∀ a schema name, a.isNamed schema name = false →
    (m.insert a).2.get? schema name = m.get? schema name
  /-- An erasure changes no look-up of another key. -/
  get?_erase : ∀ schema name schema' name',
    ¬ (SameName schema schema' ∧ SameName name name') →
      (m.erase schema name).2.get? schema' name' = m.get? schema' name'
  /-- The list of attributes has each key once. -/
  nodup_keys : (m.toList.map Attribute.key).Nodup
  /-- The list of attributes has the content. -/
  mem_toList : ∀ a, a ∈ m.toList ↔ content a.key = some a
  /-- An attribute that replaces one stands in its position. -/
  toList_replace : ∀ a, m.contains a.schema a.name = true →
    (m.insert a).2.toList = m.toList.map fun b => if b.key = a.key then a else b
  /-- A new attribute comes last among those of its schema, and these last of all when there were
  none. -/
  toList_add : ∀ a, m.contains a.schema a.name = false → ∃ before behind,
    m.toList = before ++ m.attributesOf a.schema ++ behind ∧
      (m.insert a).2.toList = before ++ (m.attributesOf a.schema ++ [a]) ++ behind ∧
      (m.attributesOf a.schema = [] → behind = [])
  /-- An erasure moves no other attribute. -/
  toList_erase : ∀ schema name, (m.erase schema name).2.toList =
    m.toList.filter fun b => !b.isNamed schema name
  /-- The attributes of a schema are listed in the order of the whole list. -/
  attributesOf_eq : ∀ schema,
    m.attributesOf schema = m.toList.filter fun b => SameName b.schema schema
  /-- Each schema is listed once. -/
  nodup_schemas : (m.schemas.map caseKey).Nodup
  /-- A listed schema has an attribute. -/
  attributesOf_ne_nil : ∀ schema ∈ m.schemas, m.attributesOf schema ≠ []
  /-- There are as many attributes as keys with content. -/
  size_eq : (m.size : ℕ∞) = {k | (content k).isSome = true}.encard
  /-- A map is empty when it has no attributes. -/
  isEmpty_iff : m.isEmpty = true ↔ m.size = 0

/-! ## Edits of maps -/

variable {m : AttributeMap} {content : List Char × List Char → Option Attribute}

/-- What an insertion replaces. -/
lemma insert_fst (m : AttributeMap) (a : Attribute) : (m.insert a).1 = m.get? a.schema a.name := by
  rw [insert, get?, attributesOf]
  cases m.group? a.schema with
  | none => rfl
  | some g => exact Keyed.insert_fst Attribute.nameKey a g.attributes

/-- Where the attributes of a schema stand in the list of all, which is also where the two
operations on the schema take place. -/
structure Parted (m : AttributeMap) (schema : String) (before behind : List Attribute) : Prop where
  toList_eq : m.toList = before ++ m.attributesOf schema ++ behind
  apart : ∀ b ∈ before ++ behind, ¬ SameName b.schema schema
  behind_eq_nil : m.attributesOf schema = [] → behind = []
  toList_insert : ∀ a, SameName a.schema schema → (m.insert a).2.toList =
    before ++ (Keyed.insert Attribute.nameKey a (m.attributesOf schema)).2 ++ behind
  toList_erase : ∀ name, (m.erase schema name).2.toList =
    before ++ (Keyed.erase Attribute.nameKey (caseKey name) (m.attributesOf schema)).2 ++ behind

namespace Parted

variable {schema : String} {before behind : List Attribute}
  (hparted : m.Parted schema before behind)

include hparted in
/-- A map that keeps the attributes of other schemas. -/
lemma map_toList {f : Attribute → Attribute} (hf : ∀ b, ¬ SameName b.schema schema → f b = b) :
    m.toList.map f = before ++ (m.attributesOf schema).map f ++ behind := by
  have hout : ∀ bs ⊆ before ++ behind, bs.map f = bs := fun bs hbs =>
    (List.map_congr_left fun b hb => hf b (hparted.apart b (hbs hb))).trans (List.map_id' bs)
  rw [hparted.toList_eq, List.map_append, List.map_append,
    hout before (List.subset_append_left before behind),
    hout behind (List.subset_append_right before behind)]

include hparted in
/-- A filter that keeps the attributes of other schemas. -/
lemma filter_toList {p : Attribute → Bool} (hp : ∀ b, ¬ SameName b.schema schema → p b = true) :
    m.toList.filter p = before ++ (m.attributesOf schema).filter p ++ behind := by
  have hout : ∀ bs ⊆ before ++ behind, bs.filter p = bs := fun bs hbs =>
    List.filter_eq_self.mpr fun b hb => hp b (hparted.apart b (hbs hb))
  rw [hparted.toList_eq, List.filter_append, List.filter_append,
    hout before (List.subset_append_left before behind),
    hout behind (List.subset_append_right before behind)]

end Parted

namespace WellFormed

variable (h : m.WellFormed)

include h in
/-- The attributes of a schema have different names and are of this schema. -/
lemma attributesOf_spec (schema : String) :
    ((m.attributesOf schema).map Attribute.nameKey).Nodup ∧
      ∀ b ∈ m.attributesOf schema, SameName b.schema schema := by
  rw [attributesOf, group?]
  cases hg : Keyed.get? SchemaGroup.key (caseKey schema) m.groups with
  | none => exact ⟨List.nodup_nil, fun b hb => absurd hb List.not_mem_nil⟩
  | some g =>
    have hmem := Keyed.mem_of_get? hg
    have hkey : g.key = caseKey schema := Keyed.key_of_get? hg
    exact ⟨h.names_nodup g hmem, fun b hb => (h.schema_eq g hmem b hb).trans hkey⟩

include h in
/-- A schema without attributes gets them at the end. -/
lemma parted_of_none {schema : String} (hg : m.group? schema = none) :
    m.Parted schema m.toList [] := by
  have hnil : m.attributesOf schema = [] := by rw [attributesOf, hg]
  have hkey : caseKey schema ∉ m.groups.map SchemaGroup.key := Keyed.get?_eq_none_iff.mp hg
  refine ⟨by simp [hnil], fun b hb hsame => ?_, fun _ => rfl, fun a ha => ?_, fun name => ?_⟩
  · rw [List.append_nil] at hb
    obtain ⟨g, hmem, hb⟩ := List.mem_flatMap.mp hb
    have hbg : g.key = caseKey schema := (h.schema_eq g hmem b hb).symm.trans hsame
    exact hkey (hbg ▸ List.mem_map_of_mem hmem)
  · have hga : m.group? a.schema = none := by
      rw [group?, ha]
      exact hg
    have hnew : SchemaGroup.key ⟨a.schema, [a]⟩ ∉ m.groups.map SchemaGroup.key :=
      Keyed.get?_eq_none_iff.mp hga
    rw [AttributeMap.insert, hga, hnil, toList]
    dsimp only
    rw [Keyed.insert_of_not_mem hnew, List.flatMap_append]
    simp [toList, Keyed.insert]
  · rw [AttributeMap.erase, hg, hnil]
    simp [Keyed.erase]

include h in
/-- The attributes of a schema stand where its group does. -/
lemma parted_of_some {schema : String} {g : SchemaGroup} {before behind : List SchemaGroup}
    (hg : m.group? schema = some g) (hgroups : m.groups = before ++ g :: behind)
    (hinsert : ∀ g', g'.key = caseKey schema →
      (Keyed.insert SchemaGroup.key g' m.groups).2 = before ++ g' :: behind)
    (herase : (Keyed.erase SchemaGroup.key (caseKey schema) m.groups).2 = before ++ behind) :
    m.Parted schema (before.flatMap SchemaGroup.attributes)
      (behind.flatMap SchemaGroup.attributes) := by
  have hof : m.attributesOf schema = g.attributes := by rw [attributesOf, hg]
  rw [group?] at hg
  have hmem := Keyed.mem_of_get? hg
  have hkey : g.key = caseKey schema := Keyed.key_of_get? hg
  refine ⟨?_, fun b hb hsame => ?_, fun hnil => ?_, fun a ha => ?_, fun name => ?_⟩
  · rw [hof, toList, hgroups]
    simp
  · rw [← List.flatMap_append] at hb
    obtain ⟨g', hg', hb⟩ := List.mem_flatMap.mp hb
    have hnodup := h.nodup
    rw [hgroups, List.map_append, List.map_cons, List.nodup_middle, List.nodup_cons,
      ← List.map_append] at hnodup
    have hkey' : g'.key = g.key := by
      rw [hkey, ← hsame]
      refine (h.schema_eq g' ?_ b hb).symm
      rw [hgroups]
      exact List.perm_middle.mem_iff.mpr (List.mem_cons_of_mem _ hg')
    exact hnodup.1 (hkey' ▸ List.mem_map_of_mem hg')
  · exact absurd (hof.symm.trans hnil) (h.ne_nil g hmem)
  · have hga : m.group? a.schema = some g := by
      rw [group?, ha]
      exact hg
    rw [AttributeMap.insert, hga, hof, toList]
    dsimp only
    rw [hinsert ⟨g.schema, (Keyed.insert Attribute.nameKey a g.attributes).2⟩ hkey]
    simp
  · rw [hof]
    rcases erase_cases m schema name with
      ⟨hnone, heq⟩ | ⟨g', rest, hg', hrest, -, hrest'⟩
    · -- without the name the group stays as it is
      have hname : Keyed.get? Attribute.nameKey (caseKey name) g.attributes = none := by
        rw [lookup, hg] at hnone
        exact hnone
      rw [heq, Keyed.erase_of_get?_eq_none hname, toList, hgroups]
      simp
    · obtain rfl : g = g' := Option.some.inj (hg.symm.trans hg')
      rw [← hrest]
      rcases hrest' with ⟨hnil, heq⟩ | ⟨-, heq⟩
      · rw [heq, hkey, herase, hnil, toList]
        simp
      · rw [heq, hinsert ⟨g.schema, rest⟩ hkey, toList]
        simp

include h in
/-- **Operations on one schema change its part of the list only.** -/
theorem exists_parted (schema : String) : ∃ before behind, m.Parted schema before behind := by
  cases hg : m.group? schema with
  | none => exact ⟨m.toList, [], h.parted_of_none hg⟩
  | some g =>
    obtain ⟨before, behind, hgroups, hinsert, herase⟩ := Keyed.exists_append_of_get? hg
    exact ⟨_, _, h.parted_of_some hg hgroups hinsert herase⟩

include h in
/-- The attributes of a schema, read off the list of all. -/
lemma attributesOf_eq_filter (schema : String) :
    m.attributesOf schema = m.toList.filter fun b => SameName b.schema schema := by
  obtain ⟨before, behind, hparted⟩ := h.exists_parted schema
  have hout : ∀ bs ⊆ before ++ behind, bs.filter (fun b => SameName b.schema schema) = [] :=
    fun bs hbs => List.filter_eq_nil_iff.mpr fun b hb => by simpa using hparted.apart b (hbs hb)
  have hin : (m.attributesOf schema).filter (fun b => SameName b.schema schema) =
      m.attributesOf schema :=
    List.filter_eq_self.mpr fun b hb => decide_eq_true ((h.attributesOf_spec schema).2 b hb)
  rw [hparted.toList_eq, List.filter_append, List.filter_append,
    hout before (List.subset_append_left before behind),
    hout behind (List.subset_append_right before behind), hin, List.nil_append, List.append_nil]

include h in
/-- An attribute that replaces one stands in its position. -/
lemma toList_replace {a : Attribute} (ha : m.contains a.schema a.name = true) :
    (m.insert a).2.toList = m.toList.map fun b => if b.key = a.key then a else b := by
  obtain ⟨before, behind, hparted⟩ := h.exists_parted a.schema
  obtain ⟨hnodup, hschema⟩ := h.attributesOf_spec a.schema
  have hmem : a.nameKey ∈ (m.attributesOf a.schema).map Attribute.nameKey :=
    Keyed.isSome_get?_iff.mp ha
  have hin : (m.attributesOf a.schema).map (fun b => if b.nameKey = a.nameKey then a else b) =
      (m.attributesOf a.schema).map fun b => if b.key = a.key then a else b := by
    refine List.map_congr_left fun b hb => ?_
    exact if_congr ⟨fun hname => Prod.ext (hschema b hb) hname, congrArg Prod.snd⟩ rfl rfl
  rw [hparted.toList_insert a rfl, Keyed.insert_eq_map hnodup hmem, hin, hparted.map_toList]
  intro b hb
  refine if_neg fun hkey => hb ?_
  exact congrArg Prod.fst hkey

include h in
/-- A new attribute comes last among those of its schema. -/
lemma toList_add {a : Attribute} (ha : m.contains a.schema a.name = false) :
    ∃ before behind, m.toList = before ++ m.attributesOf a.schema ++ behind ∧
      (m.insert a).2.toList = before ++ (m.attributesOf a.schema ++ [a]) ++ behind ∧
      (m.attributesOf a.schema = [] → behind = []) := by
  obtain ⟨before, behind, hparted⟩ := h.exists_parted a.schema
  have hnot : a.nameKey ∉ (m.attributesOf a.schema).map Attribute.nameKey := fun hmem =>
    Bool.false_ne_true (ha.symm.trans (Keyed.isSome_get?_iff.mpr hmem))
  refine ⟨before, behind, hparted.toList_eq, ?_, hparted.behind_eq_nil⟩
  rw [hparted.toList_insert a rfl, Keyed.insert_of_not_mem hnot]

include h in
/-- An erasure moves no other attribute. -/
lemma toList_erase (schema name : String) : (m.erase schema name).2.toList =
    m.toList.filter fun b => !b.isNamed schema name := by
  obtain ⟨before, behind, hparted⟩ := h.exists_parted schema
  obtain ⟨hnodup, hschema⟩ := h.attributesOf_spec schema
  have hin : (m.attributesOf schema).filter (fun b => b.nameKey ≠ caseKey name) =
      (m.attributesOf schema).filter fun b => !b.isNamed schema name := by
    refine List.filter_congr fun b hb => ?_
    have hsame : caseKey b.schema = caseKey schema := hschema b hb
    rw [Bool.eq_iff_iff, decide_eq_true_iff]
    simp [Attribute.isNamed, SameName, Attribute.nameKey, hsame]
  rw [hparted.toList_erase, Keyed.erase_eq_filter hnodup, hin, hparted.filter_toList]
  intro b hb
  simp [Attribute.isNamed, hb]

include h in
/-- Without attributes there are no groups. -/
lemma isEmpty_iff_size : m.isEmpty = true ↔ m.size = 0 := by
  rw [isEmpty, size, List.length_eq_zero_iff, List.isEmpty_iff]
  constructor
  · intro hnil
    rw [toList, hnil, List.flatMap_nil]
  · intro hnil
    refine List.eq_nil_iff_forall_not_mem.mpr fun g hg => h.ne_nil g hg ?_
    exact List.flatMap_eq_nil_iff.mp hnil g hg

include h in
/-- The listed schemas have attributes. -/
lemma attributesOf_ne_nil {schema : String} (hschema : schema ∈ m.schemas) :
    m.attributesOf schema ≠ [] := by
  obtain ⟨g, hg, rfl⟩ := List.mem_map.mp hschema
  rw [h.attributesOf_eq hg]
  exact h.ne_nil g hg

include h in
/-- A well-formed map with the given look-ups is faithful. -/
lemma faithful (hcontent : ∀ k, m.lookup k = content k) : m.Faithful content where
  get?_eq schema name := by rw [get?_eq_lookup, hcontent]
  insert_fst := AttributeMap.insert_fst m
  erase_fst schema name := by rw [AttributeMap.erase_fst, get?_eq_lookup]
  get?_insert a schema name hne := by
    have hkey : a.key ≠ (caseKey schema, caseKey name) := by
      intro hkey
      rw [Attribute.isNamed, decide_eq_false_iff_not] at hne
      exact hne (Prod.mk.inj hkey)
    rw [get?_eq_lookup, get?_eq_lookup, lookup_insert h, if_neg hkey]
  get?_erase schema name schema' name' hne := by
    rw [get?_eq_lookup, get?_eq_lookup, lookup_erase h,
      if_neg fun hkey => hne (Prod.mk.inj hkey)]
  nodup_keys := h.nodup_toList
  mem_toList a := by rw [← hcontent, h.lookup_eq_some_iff, and_iff_left rfl]
  toList_replace _ := h.toList_replace
  toList_add _ := h.toList_add
  toList_erase := h.toList_erase
  attributesOf_eq := h.attributesOf_eq_filter
  nodup_schemas := by
    rw [schemas, List.map_map]
    exact h.nodup
  attributesOf_ne_nil _ := h.attributesOf_ne_nil
  size_eq := by
    simp only [← hcontent, h.lookup_eq_get?]
    exact (Keyed.encard_found h.nodup_toList).symm
  isEmpty_iff := h.isEmpty_iff_size

end WellFormed

/-- One more edit. -/
lemma ofEdits_append (edits : List (Edit (String × String))) (e : Edit (String × String)) :
    ofEdits (edits ++ [e]) = (ofEdits edits).edit e :=
  List.foldl_concat edit empty e edits

/-- A map made of a list is one into which the attributes were put in order. -/
lemma ofEdits_put (as : List Attribute) : ofEdits (as.map .put) = ofList as := by
  rw [ofEdits, List.foldl_map]
  rfl

/-- **Edits leave the attributes put last.**  The map is well formed, and under each key it has what
the edits leave there. -/
theorem ofEdits_spec (edits : List (Edit (String × String))) : (ofEdits edits).WellFormed ∧
    ∀ k, (ofEdits edits).lookup k = Edit.latest? Attribute.key nameKey edits k := by
  induction edits using List.reverseRecOn with
  | nil => exact ⟨wellFormed_empty, fun k => rfl⟩
  | append_singleton edits e ih =>
    obtain ⟨hwf, hlookup⟩ := ih
    rw [ofEdits_append]
    cases e with
    | put a =>
      refine ⟨hwf.insert a, fun k => ?_⟩
      rw [edit, lookup_insert hwf, hlookup, Edit.latest?_append]
      rfl
    | remove name =>
      refine ⟨hwf.erase name.1 name.2, fun k => ?_⟩
      rw [edit, lookup_erase hwf, hlookup, Edit.latest?_append]
      rfl

end AttributeMap

namespace Entry

/-- The entry after an edit. -/
def edit (e : Entry) : Edit String → Entry
  | .put a => (e.insert a).2
  | .remove name => (e.erase name).2

/-- The entry that edits make of the empty one. -/
def ofEdits (edits : List (Edit String)) : Entry := edits.foldl edit empty

/-- An entry with the given content. -/
structure Faithful (e : Entry) (content : List Char → Option Attribute) : Prop where
  /-- A look-up answers from the content. -/
  get?_eq : ∀ name, e.get? name = content (caseKey name)
  /-- An insertion answers like the look-up before it. -/
  insert_fst : ∀ a, (e.insert a).1 = e.get? a.name
  /-- An erasure answers like the look-up before it. -/
  erase_fst : ∀ name, (e.erase name).1 = e.get? name
  /-- An insertion changes no look-up of another key. -/
  get?_insert : ∀ a name, ¬ SameName a.name name → (e.insert a).2.get? name = e.get? name
  /-- An erasure changes no look-up of another key. -/
  get?_erase : ∀ name name', ¬ SameName name name' → (e.erase name).2.get? name' = e.get? name'
  /-- The list of sub-attributes has each key once. -/
  nodup_keys : (e.subAttributes.map Attribute.nameKey).Nodup
  /-- The list of sub-attributes has the content. -/
  mem_subAttributes : ∀ a, a ∈ e.subAttributes ↔ content a.nameKey = some a
  /-- A sub-attribute that replaces one stands in its position. -/
  subAttributes_replace : ∀ a, e.contains a.name = true →
    (e.insert a).2.subAttributes = e.subAttributes.map fun b =>
      if SameName b.name a.name then a else b
  /-- A new sub-attribute comes last. -/
  subAttributes_add : ∀ a, e.contains a.name = false →
    (e.insert a).2.subAttributes = e.subAttributes ++ [a]
  /-- An erasure moves no other sub-attribute. -/
  subAttributes_erase : ∀ name, (e.erase name).2.subAttributes =
    e.subAttributes.filter fun b => ¬ SameName b.name name
  /-- There are as many sub-attributes as keys with content. -/
  size_eq : (e.size : ℕ∞) = {k | (content k).isSome = true}.encard
  /-- An entry is empty when it has no sub-attributes. -/
  isEmpty_iff : e.isEmpty = true ↔ e.size = 0

/-! ## Edits of entries -/

/-- An entry in which no name occurs twice, with the given look-ups, is faithful. -/
lemma faithful {e : Entry} {content : List Char → Option Attribute}
    (h : (e.subAttributes.map Attribute.nameKey).Nodup)
    (hcontent : ∀ k, Keyed.get? Attribute.nameKey k e.subAttributes = content k) :
    e.Faithful content where
  get?_eq name := hcontent (caseKey name)
  insert_fst a := Keyed.insert_fst Attribute.nameKey a e.subAttributes
  erase_fst name := Keyed.erase_fst Attribute.nameKey (caseKey name) e.subAttributes
  get?_insert a _ hne := (Keyed.get?_insert a _ e.subAttributes).trans (if_neg hne)
  get?_erase _ _ hne := (Keyed.get?_erase h).trans (if_neg hne)
  nodup_keys := h
  mem_subAttributes a := by rw [← hcontent, Keyed.get?_eq_some_iff h, and_iff_left rfl]
  subAttributes_replace _ ha := Keyed.insert_eq_map h (Keyed.isSome_get?_iff.mp ha)
  subAttributes_add _ ha := Keyed.insert_of_not_mem fun hmem =>
    Bool.false_ne_true (ha.symm.trans (Keyed.isSome_get?_iff.mpr hmem))
  subAttributes_erase name := Keyed.erase_eq_filter h
  size_eq := by
    simp only [← hcontent]
    exact (Keyed.encard_found h).symm
  isEmpty_iff := by rw [isEmpty, size, List.length_eq_zero_iff, List.isEmpty_iff]

/-- One more edit. -/
lemma ofEdits_append (edits : List (Edit String)) (e : Edit String) :
    ofEdits (edits ++ [e]) = (ofEdits edits).edit e :=
  List.foldl_concat edit empty e edits

/-- An entry made of a list is one into which the sub-attributes were put in order. -/
lemma ofEdits_put (subs : List Attribute) : ofEdits (subs.map .put) = ofList subs := by
  induction subs using List.reverseRecOn with
  | nil => rfl
  | append_singleton subs a ih =>
    rw [List.map_append, List.map_singleton, ofEdits_append, ih, ofList, ofList,
      Keyed.ofList_append]
    rfl

/-- **Edits leave the sub-attributes put last.**  No name occurs twice, and under each name stands
what the edits leave there. -/
theorem ofEdits_spec (edits : List (Edit String)) :
    ((ofEdits edits).subAttributes.map Attribute.nameKey).Nodup ∧
      ∀ k, Keyed.get? Attribute.nameKey k (ofEdits edits).subAttributes =
        Edit.latest? Attribute.nameKey caseKey edits k := by
  induction edits using List.reverseRecOn with
  | nil => exact ⟨List.nodup_nil, fun k => rfl⟩
  | append_singleton edits e ih =>
    obtain ⟨hnodup, hlookup⟩ := ih
    rw [ofEdits_append]
    cases e with
    | put a =>
      refine ⟨Keyed.nodup_insert hnodup, fun k => ?_⟩
      rw [edit, insert, Keyed.get?_insert, hlookup, Edit.latest?_append]
      rfl
    | remove name =>
      refine ⟨Keyed.nodup_erase hnodup, fun k => ?_⟩
      rw [edit, erase, Keyed.get?_erase hnodup, hlookup, Edit.latest?_append]
      rfl

end Entry

/-- **Attribute maps and entries are faithful maps.**  After any putting in and taking out of any
attributes under any spelling, a map has under each schema and name the attribute that was put there
last, if it was not taken out since, and an entry likewise under each name.  Insertions and erasures
answer like the look-ups before them and change no other look-up.  Lists have each such attribute
once, a replaced one in the old position and a new one last in its schema's part; no listed schema
is without attributes or repeated, and the size is the number of keys that have an attribute.

**Proof sketch.**  By induction on the edits, the groups of a map stay well formed and its look-ups
follow the content.  Positions are a matter of one schema's part of the list, which is all that an
operation on a well-formed map changes. -/
theorem faithful_ofEdits :
    (∀ edits, (AttributeMap.ofEdits edits).Faithful
      (Edit.latest? Attribute.key AttributeMap.nameKey edits)) ∧
    ∀ edits, (Entry.ofEdits edits).Faithful (Edit.latest? Attribute.nameKey caseKey edits) := by
  refine ⟨fun edits => ?_, fun edits => ?_⟩
  · obtain ⟨hwf, hlookup⟩ := AttributeMap.ofEdits_spec edits
    exact hwf.faithful hlookup
  · obtain ⟨hnodup, hlookup⟩ := Entry.ofEdits_spec edits
    exact Entry.faithful hnodup hlookup

/-- An attribute in the old position, one at the end of its schema's part, and one taken out. -/
example :
    let named (schema name : String) : Attribute := ⟨⟨schema, { name, type := .string }⟩, []⟩
    (AttributeMap.ofEdits [.put (named "urn:a" "x"), .put (named "urn:b" "y"),
      .put (named "URN:A" "z"), .put (named "urn:b" "w"), .put (named "URN:A" "X"),
      .remove ("URN:B", "W")]).toList.map Attribute.name = ["X", "z", "y"] := by
  decide +kernel

end Scim
