import Scim.AttributeMap.Agreement
import Scim.Proofs.Equality

set_option autoImplicit false

/-!
# Attribute maps as maps

An attribute map keeps its attributes in groups by schema.  Seen from outside it is a partial
function from keys, made of a schema and a name without regard to case, to attributes.  This
module gives that view, its laws and the invariant of the groups they rest on.

## Main definitions

* `Scim.AttributeMap.lookup` — the attribute under a key.
* `Scim.AttributeMap.WellFormed` — the invariant of the groups.

## Main results

* `Scim.AttributeMap.lookup_eq_get?` — the groups answer like the list of all attributes.
* `Scim.AttributeMap.lookup_insert`, `lookup_erase`, `lookup_ofList` — look-ups after each
  operation, each of which keeps the invariant.
* `Scim.AttributeMap.perm_ofList` — a map built from attributes of different keys holds just them.
* `Scim.AttributeMap.agrees_iff` — maps agree when they agree under every key.
-/

namespace Scim.AttributeMap

/-- The attribute under a key. -/
def lookup (m : AttributeMap) (k : List Char × List Char) : Option Attribute :=
  (Keyed.get? SchemaGroup.key k.1 m.groups).bind fun g =>
    Keyed.get? Attribute.nameKey k.2 g.attributes

/-- The invariant of the groups: one group per schema, in which no name occurs twice, which is
not empty, and whose attributes are of its schema. -/
structure WellFormed (m : AttributeMap) : Prop where
  nodup : (m.groups.map SchemaGroup.key).Nodup
  names_nodup : ∀ g ∈ m.groups, (g.attributes.map Attribute.nameKey).Nodup
  ne_nil : ∀ g ∈ m.groups, g.attributes ≠ []
  schema_eq : ∀ g ∈ m.groups, ∀ a ∈ g.attributes, caseKey a.schema = g.key

/-! ## The two views -/

/-- Schema and name are looked up through their keys. -/
lemma get?_eq_lookup (m : AttributeMap) (schema name : String) :
    m.get? schema name = m.lookup (caseKey schema, caseKey name) := by
  rw [get?, attributesOf, group?, lookup]
  cases Keyed.get? SchemaGroup.key (caseKey schema) m.groups with
  | none => rfl
  | some g => rfl

/-- Whether an attribute is in the map is a look-up, too. -/
lemma contains_eq_lookup (m : AttributeMap) (schema name : String) :
    m.contains schema name = (m.lookup (caseKey schema, caseKey name)).isSome := by
  rw [contains, get?_eq_lookup]

namespace WellFormed

variable {m : AttributeMap} (h : m.WellFormed)

include h in
/-- No key occurs twice in the list of all attributes. -/
lemma nodup_toList : (m.toList.map Attribute.key).Nodup := by
  rw [toList, List.map_flatMap, List.nodup_flatMap]
  constructor
  · intro g hg
    have hnames : ((g.attributes.map Attribute.key).map Prod.snd).Nodup := by
      rw [List.map_map]
      exact h.names_nodup g hg
    exact hnames.of_map Prod.snd
  · have hpair := List.pairwise_map.mp h.nodup
    refine hpair.imp_of_mem fun {g g'} hg hg' hne k hk hk' => ?_
    obtain ⟨a, ha, rfl⟩ := List.mem_map.mp hk
    obtain ⟨b, hb, hba⟩ := List.mem_map.mp hk'
    have hschema : caseKey b.schema = caseKey a.schema := congrArg Prod.fst hba
    exact hne ((h.schema_eq g hg a ha).symm.trans (hschema.symm.trans (h.schema_eq g' hg' b hb)))

include h in
/-- The groups answer like the list of all attributes. -/
lemma lookup_eq_get? (k : List Char × List Char) :
    m.lookup k = Keyed.get? Attribute.key k m.toList := by
  ext a
  rw [Keyed.get?_eq_some_iff h.nodup_toList, lookup, Option.bind_eq_some_iff]
  constructor
  · rintro ⟨g, hg, ha⟩
    have hgm := Keyed.mem_of_get? hg
    have ham := Keyed.mem_of_get? ha
    have hname : a.nameKey = k.2 := Keyed.key_of_get? ha
    have hschema : caseKey a.schema = k.1 :=
      (h.schema_eq g hgm a ham).trans (Keyed.key_of_get? hg)
    exact ⟨List.mem_flatMap.mpr ⟨g, hgm, ham⟩, Prod.ext hschema hname⟩
  · rintro ⟨ham, rfl⟩
    obtain ⟨g, hg, ha⟩ := List.mem_flatMap.mp ham
    refine ⟨g, ?_, Keyed.get?_of_mem (h.names_nodup g hg) ha⟩
    have hkey := h.schema_eq g hg a ha
    exact (Keyed.get?_eq_some_iff h.nodup).mpr ⟨hg, hkey.symm⟩

include h in
/-- A look-up finds exactly the attribute with that key. -/
lemma lookup_eq_some_iff {k : List Char × List Char} {a : Attribute} :
    m.lookup k = some a ↔ a ∈ m.toList ∧ a.key = k := by
  rw [h.lookup_eq_get?, Keyed.get?_eq_some_iff h.nodup_toList]

include h in
/-- The attributes of a group are those of its schema. -/
lemma attributesOf_eq {g : SchemaGroup} (hg : g ∈ m.groups) :
    m.attributesOf g.schema = g.attributes := by
  have hget : m.group? g.schema = some g := Keyed.get?_of_mem h.nodup hg
  rw [attributesOf, hget]

end WellFormed

/-! ## Insertion -/

/-- The map without attributes has nothing under any key. -/
@[simp] lemma lookup_empty (k : List Char × List Char) : empty.lookup k = none := rfl

/-- The map without attributes is well formed. -/
lemma wellFormed_empty : empty.WellFormed :=
  ⟨by simp [empty], by simp [empty], by simp [empty], by simp [empty]⟩

/-- An insertion puts one group in its place: that of the attribute's schema, with the attribute
under its name and everything else as it was. -/
lemma exists_group_of_insert {m : AttributeMap} (h : m.WellFormed) (a : Attribute) :
    ∃ g : SchemaGroup, (m.insert a).2 = ⟨(Keyed.insert SchemaGroup.key g m.groups).2⟩ ∧
      g.key = caseKey a.schema ∧
      (∀ n, Keyed.get? Attribute.nameKey n g.attributes =
        if a.nameKey = n then some a else m.lookup (caseKey a.schema, n)) ∧
      (g.attributes.map Attribute.nameKey).Nodup ∧ g.attributes ≠ [] ∧
      ∀ b ∈ g.attributes, caseKey b.schema = g.key := by
  cases hg : m.group? a.schema with
  | none =>
    refine ⟨⟨a.schema, [a]⟩, by simp [insert, hg], rfl, fun n => ?_, by simp, by simp, ?_⟩
    · rw [group?] at hg
      simp [Keyed.get?, lookup, hg]
    · simp [SchemaGroup.key]
  | some g =>
    rw [group?] at hg
    have hgm := Keyed.mem_of_get? hg
    have hkey := Keyed.key_of_get? hg
    refine ⟨⟨g.schema, (Keyed.insert Attribute.nameKey a g.attributes).2⟩,
      by simp [insert, group?, hg], hkey, fun n => ?_, Keyed.nodup_insert (h.names_nodup g hgm),
      Keyed.insert_ne_nil _ _, fun b hb => ?_⟩
    · rw [Keyed.get?_insert]
      simp [lookup, hg]
    · rcases Keyed.mem_insert hb with rfl | hb
      · exact hkey.symm
      · exact h.schema_eq g hgm b hb

/-- An insertion keeps the invariant. -/
lemma WellFormed.insert {m : AttributeMap} (h : m.WellFormed) (a : Attribute) :
    (m.insert a).2.WellFormed := by
  obtain ⟨g, heq, -, -, hnodup, hne, hschema⟩ := exists_group_of_insert h a
  rw [heq]
  refine ⟨Keyed.nodup_insert h.nodup, fun g' hg' => ?_, fun g' hg' => ?_, fun g' hg' => ?_⟩
  all_goals rcases Keyed.mem_insert hg' with rfl | hg'
  · exact hnodup
  · exact h.names_nodup g' hg'
  · exact hne
  · exact h.ne_nil g' hg'
  · exact hschema
  · exact h.schema_eq g' hg'

/-- After an insertion the attribute stands under its key and everything else as before. -/
lemma lookup_insert {m : AttributeMap} (h : m.WellFormed) (a : Attribute)
    (k : List Char × List Char) :
    (m.insert a).2.lookup k = if a.key = k then some a else m.lookup k := by
  obtain ⟨g, heq, hkey, hget, -⟩ := exists_group_of_insert h a
  obtain ⟨s, n⟩ := k
  rw [heq, lookup, Keyed.get?_insert, hkey]
  by_cases hs : caseKey a.schema = s
  · rw [if_pos hs, Option.bind_some, hget n, hs]
    have hiff : a.nameKey = n ↔ a.key = (s, n) := by
      simp only [Attribute.key, Descriptor.key, Prod.mk.injEq]
      exact ⟨fun hn => ⟨hs, hn⟩, And.right⟩
    simp only [hiff]
  · have hne : a.key ≠ (s, n) := fun hk => hs (congrArg Prod.fst hk)
    rw [if_neg hs, if_neg hne]
    rfl

/-- Inserting a list of attributes of different keys one after the other. -/
lemma lookup_foldl_insert {m : AttributeMap} (h : m.WellFormed) {as : List Attribute}
    (has : (as.map Attribute.key).Nodup) (k : List Char × List Char) :
    (as.foldl (fun m a => (m.insert a).2) m).WellFormed ∧
      (as.foldl (fun m a => (m.insert a).2) m).lookup k =
        (Keyed.get? Attribute.key k as).or (m.lookup k) := by
  induction as generalizing m with
  | nil => exact ⟨h, by simp [Keyed.get?]⟩
  | cons a as ih =>
    rw [List.map_cons, List.nodup_cons] at has
    obtain ⟨hwf, hlookup⟩ := ih (h.insert a) has.2
    refine ⟨hwf, ?_⟩
    rw [List.foldl_cons, hlookup, lookup_insert h, Keyed.get?]
    by_cases hk : a.key = k
    · have hnone : Keyed.get? Attribute.key k as = none :=
        Keyed.get?_eq_none_iff.mpr (hk ▸ has.1)
      simp [hk, hnone]
    · simp [hk]

/-- The map built from a list and one more attribute. -/
lemma ofList_append (as : List Attribute) (a : Attribute) :
    ofList (as ++ [a]) = ((ofList as).insert a).2 := by
  rw [ofList, List.foldl_append]
  rfl

/-- A map built from a list is well formed. -/
lemma wellFormed_ofList (as : List Attribute) : (ofList as).WellFormed := by
  induction as using List.reverseRecOn with
  | nil => exact wellFormed_empty
  | append_singleton as a ih =>
    rw [ofList_append]
    exact ih.insert a

/-- A map built from attributes of different keys answers like their list. -/
lemma lookup_ofList {as : List Attribute} (has : (as.map Attribute.key).Nodup)
    (k : List Char × List Char) : (ofList as).lookup k = Keyed.get? Attribute.key k as := by
  rw [ofList, (lookup_foldl_insert wellFormed_empty has k).2]
  simp

/-- A map built from attributes of different keys holds all of them and nothing else. -/
lemma perm_ofList {as : List Attribute} (has : (as.map Attribute.key).Nodup) :
    (ofList as).toList.Perm as := by
  have hwf := wellFormed_ofList as
  refine (List.perm_ext_iff_of_nodup hwf.nodup_toList.of_map has.of_map).mpr fun a => ?_
  calc a ∈ (ofList as).toList
      ↔ (ofList as).lookup a.key = some a := by rw [hwf.lookup_eq_some_iff, and_iff_left rfl]
    _ ↔ a ∈ as := by rw [lookup_ofList has, Keyed.get?_eq_some_iff has, and_iff_left rfl]

/-- A map built from a list holds attributes of that list. -/
lemma mem_of_lookup_ofList {as : List Attribute} {k : List Char × List Char} {a : Attribute}
    (h : (ofList as).lookup k = some a) : a ∈ as := by
  induction as using List.reverseRecOn with
  | nil => cases h
  | append_singleton as b ih =>
    rw [ofList_append, lookup_insert (wellFormed_ofList as)] at h
    rw [List.mem_append, List.mem_singleton]
    split at h
    · exact .inr (Option.some.inj h).symm
    · exact .inl (ih h)

/-- A map built from a list has something under each key of that list. -/
lemma exists_lookup_ofList {as : List Attribute} {a : Attribute} (ha : a ∈ as) :
    ∃ b, (ofList as).lookup a.key = some b := by
  induction as using List.reverseRecOn with
  | nil => cases ha
  | append_singleton as b ih =>
    rw [ofList_append, lookup_insert (wellFormed_ofList as)]
    split
    · exact ⟨b, rfl⟩
    · rename_i hkey
      rcases List.mem_append.mp ha with ha | ha
      · exact ih ha
      · exact absurd (congrArg Attribute.key (List.mem_singleton.mp ha).symm) hkey

/-- After an insertion each group is spelled like one before it, or like the schema of the new
attribute. -/
lemma schema_of_mem_groups_insert {m : AttributeMap} {a : Attribute} {g : SchemaGroup}
    (hg : g ∈ (m.insert a).2.groups) :
    (∃ g' ∈ m.groups, g'.schema = g.schema) ∨ a.schema = g.schema := by
  rw [insert] at hg
  cases hfound : m.group? a.schema with
  | none =>
    rw [hfound] at hg
    rcases Keyed.mem_insert hg with rfl | hg
    · exact .inr rfl
    · exact .inl ⟨g, hg, rfl⟩
  | some g' =>
    rw [hfound] at hg
    rcases Keyed.mem_insert hg with rfl | hg
    · exact .inl ⟨g', Keyed.mem_of_get? hfound, rfl⟩
    · exact .inl ⟨g, hg, rfl⟩

/-- Each group of a map built from a list is spelled like the schema of one of the attributes. -/
lemma exists_schema_of_mem_groups_ofList {as : List Attribute} {g : SchemaGroup}
    (hg : g ∈ (ofList as).groups) : ∃ a ∈ as, a.schema = g.schema := by
  induction as using List.reverseRecOn generalizing g with
  | nil => cases hg
  | append_singleton as a ih =>
    rw [ofList_append] at hg
    rcases schema_of_mem_groups_insert hg with ⟨g', hg', hsame⟩ | hsame
    · obtain ⟨b, hb, hschema⟩ := ih hg'
      exact ⟨b, List.mem_append_left [a] hb, hschema.trans hsame⟩
    · exact ⟨a, List.mem_append_right as (List.mem_singleton_self a), hsame⟩

/-! ## Erasure -/

/-- What an erasure does: nothing when the attribute is not there; otherwise the group of its
schema loses it, and goes when that was its last one. -/
lemma erase_cases (m : AttributeMap) (schema name : String) :
    (m.lookup (caseKey schema, caseKey name) = none ∧ m.erase schema name = (none, m)) ∨
    ∃ g rest, Keyed.get? SchemaGroup.key (caseKey schema) m.groups = some g ∧
      rest = (Keyed.erase Attribute.nameKey (caseKey name) g.attributes).2 ∧
      (m.erase schema name).1 = m.lookup (caseKey schema, caseKey name) ∧
      (rest = [] ∧ (m.erase schema name).2 = ⟨(Keyed.erase SchemaGroup.key g.key m.groups).2⟩ ∨
        rest ≠ [] ∧ (m.erase schema name).2 =
          ⟨(Keyed.insert SchemaGroup.key ⟨g.schema, rest⟩ m.groups).2⟩) := by
  rw [erase, lookup]
  cases hg : m.group? schema with
  | none =>
    rw [group?] at hg
    exact .inl ⟨by rw [hg]; rfl, rfl⟩
  | some g =>
    rw [group?] at hg
    rw [hg, Option.bind_some]
    dsimp only
    rw [Keyed.erase_fst]
    by_cases hnone : (Keyed.get? Attribute.nameKey (caseKey name) g.attributes).isNone = true
    · exact .inl ⟨Option.isNone_iff_eq_none.mp hnone, if_pos hnone⟩
    · refine .inr ⟨g, _, rfl, rfl, ?_⟩
      rw [if_neg hnone]
      by_cases hempty : (Keyed.erase Attribute.nameKey (caseKey name) g.attributes).2.isEmpty = true
      · rw [if_pos hempty]
        exact ⟨rfl, .inl ⟨List.isEmpty_iff.mp hempty, rfl⟩⟩
      · rw [if_neg hempty]
        exact ⟨rfl, .inr ⟨fun h => hempty (List.isEmpty_iff.mpr h), rfl⟩⟩

/-- What an erasure took out. -/
lemma erase_fst (m : AttributeMap) (schema name : String) :
    (m.erase schema name).1 = m.lookup (caseKey schema, caseKey name) := by
  rcases erase_cases m schema name with ⟨hnone, heq⟩ | ⟨_, _, -, -, hfst, -⟩
  · rw [heq, hnone]
  · exact hfst

/-- An erasure keeps the invariant. -/
lemma WellFormed.erase {m : AttributeMap} (h : m.WellFormed) (schema name : String) :
    (m.erase schema name).2.WellFormed := by
  rcases erase_cases m schema name with ⟨-, heq⟩ | ⟨g, rest, hg, hrest, -, ⟨-, heq⟩ | ⟨hne, heq⟩⟩
  · rw [heq]
    exact h
  · rw [heq]
    have hsub := Keyed.erase_sublist SchemaGroup.key g.key m.groups
    exact ⟨Keyed.nodup_erase h.nodup, fun g' hg' => h.names_nodup g' (hsub.subset hg'),
      fun g' hg' => h.ne_nil g' (hsub.subset hg'), fun g' hg' => h.schema_eq g' (hsub.subset hg')⟩
  · have hgm := Keyed.mem_of_get? hg
    have hsub := Keyed.erase_sublist Attribute.nameKey (caseKey name) g.attributes
    rw [heq]
    refine ⟨Keyed.nodup_insert h.nodup, fun g' hg' => ?_, fun g' hg' => ?_, fun g' hg' => ?_⟩
    all_goals rcases Keyed.mem_insert hg' with rfl | hg'
    · exact hrest ▸ Keyed.nodup_erase (h.names_nodup g hgm)
    · exact h.names_nodup g' hg'
    · exact hne
    · exact h.ne_nil g' hg'
    · exact fun b hb => h.schema_eq g hgm b (hsub.subset (hrest ▸ hb))
    · exact h.schema_eq g' hg'

/-- After an erasure nothing stands under its key and everything else as before. -/
lemma lookup_erase {m : AttributeMap} (h : m.WellFormed) (schema name : String)
    (k : List Char × List Char) : (m.erase schema name).2.lookup k =
      if (caseKey schema, caseKey name) = k then none else m.lookup k := by
  obtain ⟨s, n⟩ := k
  rcases erase_cases m schema name with ⟨hnone, heq⟩ | ⟨g, rest, hg, hrest, -, hcases⟩
  · rw [heq]
    split
    · rename_i hk
      rw [← hk, hnone]
    · rfl
  · have hkey := Keyed.key_of_get? hg
    have hget : Keyed.get? Attribute.nameKey n rest =
        if caseKey name = n then none else m.lookup (caseKey schema, n) := by
      rw [hrest, Keyed.get?_erase (h.names_nodup g (Keyed.mem_of_get? hg)), lookup, hg]
      rfl
    by_cases hs : caseKey schema = s
    · subst hs
      simp only [Prod.mk.injEq, true_and]
      rw [← hget]
      rcases hcases with ⟨hempty, heq⟩ | ⟨-, heq⟩
      · rw [heq, lookup, Keyed.get?_erase h.nodup, if_pos hkey, hempty]
        rfl
      · rw [heq, lookup, Keyed.get?_insert]
        exact congrArg (Option.bind · _) (if_pos hkey)
    · rw [if_neg fun hk => hs (congrArg Prod.fst hk)]
      have hs' : ¬ g.key = s := fun hgs => hs (hkey.symm.trans hgs)
      rcases hcases with ⟨-, heq⟩ | ⟨-, heq⟩
      · rw [heq, lookup, Keyed.get?_erase h.nodup, if_neg hs']
        rfl
      · rw [heq, lookup, Keyed.get?_insert]
        exact congrArg (Option.bind · _) (if_neg hs')

/-! ## Comparing maps -/

/-- **Maps agree when they agree under every key.** -/
lemma agrees_iff {m n : AttributeMap} (hm : m.WellFormed) (hn : n.WellFormed) :
    m.agrees n = true ↔
      ∀ k, Option.Rel (fun a b => a.agrees b = true) (m.lookup k) (n.lookup k) := by
  simp only [hm.lookup_eq_get?, hn.lookup_eq_get?]
  rw [← Keyed.forall_found_iff hm.nodup_toList hn.nodup_toList, agrees, Bool.and_eq_true,
    beq_iff_eq, List.all_eq_true]
  refine and_congr_right fun _ => forall₂_congr fun a _ => ?_
  rw [get?_eq_lookup, hn.lookup_eq_get?, Option.any_eq_true]
  rfl

/-- **Maps are equal when they are equal under every key.** -/
lemma beq_iff {m n : AttributeMap} (hm : m.WellFormed) (hn : n.WellFormed) :
    (m == n) = true ↔ ∀ k, Option.Rel (fun a b => (b == a) = true) (m.lookup k) (n.lookup k) := by
  simp only [hm.lookup_eq_get?, hn.lookup_eq_get?]
  rw [← Keyed.forall_found_iff hm.nodup_toList hn.nodup_toList]
  change AttributeMap.beq m n = true ↔ _
  rw [AttributeMap.beq, Bool.and_eq_true, beq_iff_eq, List.all_eq_true]
  refine and_congr_right fun _ => forall₂_congr fun a _ => ?_
  rw [get?_eq_lookup, hn.lookup_eq_get?]
  change (Keyed.get? Attribute.key a.key n.toList == some a) = true ↔ _
  cases Keyed.get? Attribute.key a.key n.toList <;> simp

end Scim.AttributeMap
