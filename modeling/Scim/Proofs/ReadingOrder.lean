import Scim.Json.Parser
import Scim.Proofs.Conformance
import Scim.Proofs.JsonMembers

set_option autoImplicit false

/-!
# The order of reading

A resource lists the schemas of its attributes in the order in which they were first read.  A
document lists its members by ascending key, and no key is smaller than the empty one, so the
attributes of an extension without URI come first.

## Main definitions

* `Scim.Json.IsAscending` — an object that lists its members by ascending key.

## Main results

* `Scim.Json.isAscending_of_ofText?` — every text is read as such a document.
* `Scim.AttributeMap.pairwise_toList_ofList` — insertion keeps the order of the schemas.
* `Scim.AttributeMap.pairwise_of_ofJson` — an extension without URI comes first.
-/

namespace Scim

/-! ## Documents -/

namespace Json

/-- A document that is an object lists its members by ascending key. -/
def IsAscending : Json → Prop
  | .object members => Ascending members
  | _ => True

/-- An object lists its members by ascending key, in whatever order they are put into it. -/
lemma isAscending_ofMembers (members : List (String × Json)) : (ofMembers members).IsAscending :=
  Ascending.putAll List.Pairwise.nil members

/-- Every text is read as a document that lists its members by ascending key. -/
lemma isAscending_of_ofText? {text : String} {document : Json} (h : ofText? text = some document) :
    document.IsAscending := by
  obtain ⟨tree, -, h⟩ := Option.bind_eq_some_iff.mp h
  cases document with
  | object members =>
    cases tree with
    | object written =>
      rw [Raw.toJson?] at h
      split at h
      · cases h
      · obtain ⟨more, -, hmore⟩ := Option.map_eq_some_iff.mp h
        rw [← hmore]
        exact isAscending_ofMembers more
    | _ => simp [Raw.toJson?] at h
  | _ => trivial

end Json

/-- The attributes that one member holds are of one schema: the extension that the key names, or
else the core schema. -/
lemma ResourceType.schema_of_readMember {t : ResourceType} {key : String} {value : Json}
    {as : List Attribute} (h : t.readMember key value = .ok as) :
    ∀ a ∈ as, SameName a.schema ((t.extension? key).getD t.core) := by
  intro a ha
  obtain ⟨name, v, hread⟩ := exists_readIn_of_mem h a ha
  exact (sameName_of_readIn hread).1

namespace AttributeMap

variable {R : List Char → List Char → Prop} {as : List Attribute}

/-- An insertion adds the schema of the attribute at the end or leaves the schemas as they are. -/
lemma map_key_groups_insert (m : AttributeMap) (a : Attribute) :
    (m.insert a).2.groups.map SchemaGroup.key = m.groups.map SchemaGroup.key ∨
      (m.insert a).2.groups.map SchemaGroup.key =
        m.groups.map SchemaGroup.key ++ [caseKey a.schema] := by
  have hgroup : ∀ g : SchemaGroup, g.key = caseKey a.schema →
      (Keyed.insert SchemaGroup.key g m.groups).2.map SchemaGroup.key =
          m.groups.map SchemaGroup.key ∨
        (Keyed.insert SchemaGroup.key g m.groups).2.map SchemaGroup.key =
          m.groups.map SchemaGroup.key ++ [caseKey a.schema] := by
    intro g hkey
    rw [Keyed.map_key_insert, hkey]
    split
    · exact .inl rfl
    · exact .inr rfl
  rw [insert]
  cases hg : m.group? a.schema with
  | none => exact hgroup _ rfl
  | some g =>
    have hkey : g.key = caseKey a.schema := Keyed.key_of_get? hg
    exact hgroup _ hkey

/-- Schemas stand in the order of insertion. -/
lemma pairwise_groups_ofList
    (h : as.Pairwise fun a b => R (caseKey a.schema) (caseKey b.schema)) :
    ((ofList as).groups.map SchemaGroup.key).Pairwise R := by
  -- from the back, as an insertion adds at the end
  induction as using List.reverseRecOn with
  | nil => exact List.Pairwise.nil
  | append_singleton as a ih =>
    obtain ⟨has, -, hlast⟩ := List.pairwise_append.mp h
    rw [ofList_append]
    rcases map_key_groups_insert (ofList as) a with hsame | hmore
    · rw [hsame]
      exact ih has
    · rw [hmore]
      refine List.pairwise_append.mpr ⟨ih has, List.pairwise_singleton _ _, fun k hk l hl => ?_⟩
      obtain ⟨g, hg, rfl⟩ := List.mem_map.mp hk
      obtain ⟨b, hb, hschema⟩ := exists_schema_of_mem_groups_ofList hg
      rw [List.mem_singleton.mp hl, SchemaGroup.key, ← hschema]
      exact hlast b hb a (List.mem_singleton_self a)

/-- **Insertion keeps the order of the schemas.** -/
lemma pairwise_toList_ofList (hrefl : ∀ k, R k k)
    (h : as.Pairwise fun a b => R (caseKey a.schema) (caseKey b.schema)) :
    (ofList as).toList.Pairwise fun a b => R (caseKey a.schema) (caseKey b.schema) := by
  have hschema := (wellFormed_ofList as).schema_eq
  rw [toList, List.pairwise_flatMap]
  constructor
  · intro g hg
    refine List.pairwise_of_forall_mem_list fun a ha b hb => ?_
    rw [hschema g hg a ha, hschema g hg b hb]
    exact hrefl _
  · refine (List.pairwise_map.mp (pairwise_groups_ofList h)).imp_of_mem fun {g g'} hg hg' hR => ?_
    intro a ha b hb
    rw [hschema g hg a ha, hschema g' hg' b hb]
    exact hR

/-- **An extension without URI comes first** in the list of all attributes of a resource of another
core schema. -/
theorem pairwise_of_ofJson {t : ResourceType} {document : Json} {m : AttributeMap}
    (h : ofJson t document = .ok m) (hdocument : document.IsAscending) (hcore : t.core ≠ "") :
    m.toList.Pairwise fun a b => caseKey b.schema = [] → caseKey a.schema = [] := by
  unfold ofJson at h
  split at h
  · rename_i members
    obtain ⟨as, has, h⟩ := Outcome.bind_eq_ok_iff.mp h
    cases h
    refine pairwise_toList_ofList (R := fun k l => l = [] → k = []) (fun k hk => hk)
      (Outcome.pairwise_flatMapM has (fun m _ zs hzs => ?_) ?_)
    · have hschema := ResourceType.schema_of_readMember hzs
      exact List.pairwise_of_forall_mem_list fun a ha b hb hnil =>
        Eq.trans ((hschema a ha).trans (hschema b hb).symm) hnil
    · refine List.Pairwise.imp (fun {m n} hlt zs ws hzs hws a ha b hb hnil => ?_) hdocument
      -- only the empty key names an extension without URI, and no key is smaller
      have hempty : (t.extension? n.1).getD t.core = "" :=
        caseKey_eq_nil_iff.mp (Eq.trans (ResourceType.schema_of_readMember hws b hb).symm hnil)
      cases hextension : t.extension? n.1 with
      | none =>
        rw [hextension, Option.getD_none] at hempty
        exact absurd hempty hcore
      | some extension =>
        rw [hextension, Option.getD_some] at hempty
        have hname : SameName extension n.1 := by simpa using List.find?_some hextension
        rw [hempty] at hname
        rw [caseKey_eq_nil_iff.mp hname.symm, String.lt_iff_toList_lt] at hlt
        exact absurd hlt (List.not_lt_nil _)
  · cases h

end AttributeMap

end Scim
