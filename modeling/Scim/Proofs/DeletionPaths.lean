import Scim.Proofs.Locality

set_option autoImplicit false

/-!
# Written deletions

The paths of a difference are made from the names of descriptors, made relative to the core schema,
freed of repetitions and written as texts.  A service provider reads the texts again and ignores
case.  It gets back the paths that were meant: no two texts name the same thing, none names
something that the source does not have, and none names a part of what another one removes as a
whole.

## Main definitions

* `Scim.AttributePath.NamesPartOf` — a path names an attribute of a resource, or a sub-attribute
  that some value of it has.
* `Scim.AttributePath.Encloses` — a path names an attribute, and another a sub-attribute of it.
* `Scim.Change.Removal` — the deletions of an attribute: the attribute, or some of its
  sub-attributes.

## Main results

* `Scim.Change.exists_removal` — the deletions of every change are of one of the two kinds.
* `Scim.Diff.deletions_unambiguous` — the written deletions of a difference can be told apart,
  read back and found in the source.
-/

namespace Scim

namespace AttributePath

/-- A path, in a resource with the given core schema, names an attribute that the resource has, and
if it names a sub-attribute, one that some value of the attribute has. -/
def NamesPartOf (core : String) (m : AttributeMap) (p : AttributePath) : Prop :=
  ∃ a, m.get? (p.schemaOr core) p.name = some a ∧
    ∀ sub, p.sub = some sub → ∃ v ∈ a.values, (v.sub? sub).isSome = true

/-- One path names an attribute as a whole, and another names a sub-attribute of it. -/
structure Encloses (core : String) (p q : AttributePath) : Prop where
  whole : p.sub = none
  part : q.sub ≠ none
  schema : SameName (p.schemaOr core) (q.schemaOr core)
  name : SameName p.name q.name

/-- Paths of one attribute have one target. -/
lemma Encloses.target_eq {core : String} {p q : AttributePath} (h : p.Encloses core q) :
    p.target core = q.target core :=
  Prod.ext h.schema h.name

/-- Paths that are different and can be written are written differently, even without regard to
case. -/
lemma nodup_render {ps : List AttributePath} (hps : ∀ p ∈ ps, p.WellFormed)
    (hpair : ps.Pairwise fun p q => (p == q) = false) :
    ((ps.map render).map caseKey).Nodup := by
  rw [List.map_map, List.Nodup, List.pairwise_map]
  refine hpair.imp_of_mem fun {p q} hp hq hne hsame => ?_
  rw [Bool.eq_false_iff] at hne
  exact hne (beq_iff.mpr (key_eq_of_render (hps p hp) (hps q hq) hsame))

end AttributePath

/-! ## The deletions of one attribute -/

namespace Change

variable {core : String} {s : Selector} {d : Descriptor} {a b : Attribute}
  {o o' : Option Attribute} {ps : List AttributePath} {p q : AttributePath}

/-- The deletions that the change of an attribute of the source makes: the attribute goes as a
whole, or some selected sub-attributes of its values go one by one. -/
inductive Removal (core : String) (s : Selector) (a : Attribute) : List AttributePath → Prop
  /-- The attribute goes as a whole. -/
  | whole : Removal core s a [path core a none]
  /-- Some sub-attributes go, or nothing. -/
  | parts (subs : List Attribute) (h : ∀ x ∈ subs, x ∈ picked s a) :
      Removal core s a (subs.map fun x => path core a (some x.name))

/-- No deletion is a removal of no parts. -/
lemma removal_nil (core : String) (s : Selector) (a : Attribute) : Removal core s a [] :=
  .parts [] (by simp)

/-- The deletions of an attribute of the source only. -/
lemma removal_ofRemoved (core : String) (s : Selector) (a : Attribute) :
    Removal core s a (ofRemoved core s a).deletions := by
  rw [ofRemoved, deletionsOf_eq]
  dsimp only
  split
  · exact .whole
  · split
    · exact .whole
    · exact .parts _ fun _ => mem_picked_of_mem_dropped

/-- The deletions of an attribute that both resources have. -/
lemma removal_common (core : String) (s : Selector) (ha : a.Conforms d) (hb : b.Conforms d)
    (hmark : d.isMultiValued = true → d.isComplex = true → ∃ mark, d.IsMark mark) :
    Removal core s a (common core s a b).deletions := by
  obtain ⟨c, hc, hkind⟩ := exists_kind core s ha hb hmark
  rw [common_of_ok hc]
  cases hkind with
  | same | scalar | more | marked => exact removal_nil core s a
  | replaced | collapsed => exact .whole
  | @entry e f _ _ hav _ =>
    rw [ofEntry_eq]
    refine .parts _ fun x hx => List.mem_flatMap.mpr ⟨.complex e, by simp [hav], ?_⟩
    exact (List.mem_filter.mp hx).1

/-- **Deletions remove an attribute of the source, or parts of it.** -/
theorem exists_removal (core : String) (s : Selector) (ho : ∀ a, o = some a → a.Conforms d)
    (ho' : ∀ b, o' = some b → b.Conforms d)
    (hmark : d.isMultiValued = true → d.isComplex = true → ∃ mark, d.IsMark mark)
    (hp : p ∈ (ofPair core s o o').deletions) :
    ∃ a, o = some a ∧ Removal core s a (ofPair core s o o').deletions := by
  revert hp
  refine ofPair_cases (P := fun c => p ∈ c.deletions → ∃ a, o = some a ∧
    Removal core s a c.deletions) (fun h => absurd h List.not_mem_nil) (fun b _ h => ?_)
    (fun a ha _ => ⟨a, ha, removal_ofRemoved core s a⟩)
    fun a b ha hb _ => ⟨a, ha, removal_common core s (ho a ha) (ho' b hb) hmark⟩
  rw [deletions_ofAdded] at h
  exact absurd h List.not_mem_nil

/-- A sub-attribute that is removed is one of a value. -/
lemma Removal.exists_value (h : Removal core s a ps) (hp : p ∈ ps) {sub : String}
    (hsub : p.sub = some sub) : ∃ v ∈ a.values, (v.sub? sub).isSome = true := by
  cases h with
  | whole =>
    rw [List.mem_singleton.mp hp, path_sub] at hsub
    cases hsub
  | parts subs hsubs =>
    obtain ⟨x, hx, rfl⟩ := List.mem_map.mp hp
    rw [path_sub] at hsub
    cases hsub
    obtain ⟨v, hv, hpick⟩ := List.mem_flatMap.mp (hsubs x hx)
    obtain ⟨e, rfl, hxe, -⟩ := mem_pick hpick
    refine ⟨_, hv, ?_⟩
    rw [Option.isSome_iff_ne_none]
    exact fun hnone => Keyed.get?_eq_none_iff.mp hnone (List.mem_map_of_mem hxe)

/-- An attribute that goes as a whole does not go in parts, too. -/
lemma Removal.sub_eq_none (h : Removal core s a ps) (hp : p ∈ ps) (hq : q ∈ ps)
    (hwhole : p.sub = none) : q.sub = none := by
  cases h with
  | whole => rw [List.mem_singleton.mp hq, path_sub]
  | parts subs _ =>
    obtain ⟨x, -, rfl⟩ := List.mem_map.mp hp
    rw [path_sub] at hwhole
    cases hwhole

end Change

/-! ## The deletions of a difference -/

namespace Diff

open Standard

variable {t : ResourceType} {source target : AttributeMap} {s : Selector} {p q : AttributePath}

section Between

variable (hregistered : t.IsRegistered) (hs : source.Conforms t) (ht : target.Conforms t)
  (haddressable : t.IsAddressable)

include hregistered hs ht haddressable

/-- A deletion belongs to the removal of an attribute of the source, and so does any other deletion
of the same attribute. -/
lemma exists_removal_of_mem (hp : p ∈ allDeletions t.core s source target) :
    ∃ a ps, source.lookup (p.target t.core) = some a ∧ Change.Removal t.core s a ps ∧
      ∀ q ∈ allDeletions t.core s source target, q.target t.core = p.target t.core → q ∈ ps := by
  obtain ⟨d, hd, hmem⟩ := exists_of_mem_allDeletions hregistered hs ht haddressable s hp
  obtain ⟨a, ha, hremoval⟩ := Change.exists_removal t.core s (hs.conforms_of_lookup hd)
    (ht.conforms_of_lookup hd) (hregistered.exists_mark (ResourceType.mem_of_descriptor? hd)) hmem
  refine ⟨a, _, ha, hremoval, fun q hq htarget => ?_⟩
  rw [← filter_allDeletions hregistered hs haddressable]
  exact List.mem_filter.mpr ⟨hq, decide_eq_true htarget⟩

/-- A deletion names a part of the source. -/
lemma namesPartOf_of_mem (hp : p ∈ allDeletions t.core s source target) :
    p.NamesPartOf t.core source := by
  obtain ⟨a, ps, ha, hremoval, hall⟩ :=
    exists_removal_of_mem hregistered hs ht haddressable hp
  refine ⟨a, ?_, fun sub hsub => hremoval.exists_value (hall p hp rfl) hsub⟩
  rw [AttributeMap.get?_eq_lookup]
  exact ha

/-- No deletion encloses another. -/
lemma not_encloses_of_mem (hp : p ∈ allDeletions t.core s source target)
    (hq : q ∈ allDeletions t.core s source target) : ¬ p.Encloses t.core q := by
  intro h
  obtain ⟨a, ps, -, hremoval, hall⟩ := exists_removal_of_mem hregistered hs ht haddressable hp
  exact h.part (hremoval.sub_eq_none (hall p hp rfl) (hall q hq h.target_eq.symm) h.whole)

end Between

/-- **The written deletions are unambiguous.**  For every registered resource type whose names can
be written, any two of its resources and any selector, the difference exists.  No two of its written
deletions are the same, even without regard to case.  Each of them is read as a path of an attribute
that the source has, and if the path has a sub-attribute, some value of the attribute has it.  No
deletion names an attribute of which another one names a sub-attribute.

**Proof sketch.**  Different paths are written differently, as reading gives them back, and this
holds in lower case, too.  Deletions of the same attribute come from a single change, which removes
either the attribute or some of its selected sub-attributes. -/
theorem deletions_unambiguous (hregistered : t.IsRegistered) (haddressable : t.IsAddressable)
    {sourceJson targetJson : Json} (hsource : AttributeMap.ofJson t sourceJson = .ok source)
    (htarget : AttributeMap.ofJson t targetJson = .ok target) (s : Selector) :
    ∃ d, between t source target s = .ok d ∧ (d.deletedPaths.map caseKey).Nodup ∧
      (∀ text ∈ d.deletedPaths, ∃ p, AttributePath.parse text = .ok p ∧
        p.NamesPartOf t.core source) ∧
      ∀ text ∈ d.deletedPaths, ∀ text' ∈ d.deletedPaths, ∀ p q,
        AttributePath.parse text = .ok p → AttributePath.parse text' = .ok q →
          ¬ p.Encloses t.core q := by
  have hs := AttributeMap.conforms_of_ofJson hsource
  have ht := AttributeMap.conforms_of_ofJson htarget
  have hwritten := wellFormed_of_mem_allDeletions hregistered hs ht haddressable s
  have hmem : ∀ p ∈ Keyed.distinct (allDeletions t.core s source target),
      p ∈ allDeletions t.core s source target := fun _ => Keyed.mem_of_mem_distinct
  refine ⟨_, between_eq hregistered hs ht s, ?_, fun text htext => ?_,
    fun text htext text' htext' p q hp hq => ?_⟩
  · exact AttributePath.nodup_render (fun p hp => hwritten p (hmem p hp))
      (Keyed.pairwise_distinct _)
  · obtain ⟨p, hp, rfl⟩ := List.mem_map.mp htext
    exact ⟨p, AttributePath.parse_render (hwritten p (hmem p hp)),
      namesPartOf_of_mem hregistered hs ht haddressable (hmem p hp)⟩
  · obtain ⟨p', hp', rfl⟩ := List.mem_map.mp htext
    obtain ⟨q', hq', rfl⟩ := List.mem_map.mp htext'
    rw [AttributePath.parse_render (hwritten p' (hmem p' hp'))] at hp
    rw [AttributePath.parse_render (hwritten q' (hmem q' hq'))] at hq
    cases hp
    cases hq
    exact not_encloses_of_mem hregistered hs ht haddressable (hmem p hp') (hmem q hq')

/-- A schema of a single attribute. -/
def staffSchema : Schema := ⟨"urn:staff", "Staff", "", [plain "name"]⟩

/-- An extension whose URI has a version number like the end of a path. -/
def officeSchema : Schema where
  id := "urn:office:1.0"
  name := "Office"
  attributes := [plain "floor",
    { name := "manager", type := .complex, subAttributes := [plain "value", plain "$ref"] }]

/-- The resource type that is registered for both. -/
def staffType : ResourceType :=
  .ofSchemas "Staff" "Staff" (staffSchema.withCommon Standard.common).withOperations
    [officeSchema.withOperations]

/-- The registration of the type. -/
lemma isRegistered_staffType : staffType.IsRegistered :=
  ⟨(Registry.empty.addSchema staffSchema).addSchema officeSchema, _, "Staff", "Staff", "urn:staff",
    ["urn:office:1.0"], rfl⟩

/-- All attributes of the type can be named by paths. -/
lemma isAddressable_staffType : staffType.IsAddressable where
  schema := by decide +kernel
  name := by decide +kernel
  sub := by decide +kernel

/-- A member of the staff on a floor and with a manager of two sub-attributes. -/
def clerkJson : Json :=
  .object [("name", .string "c"), ("urn:office:1.0", .object [("floor", .string "2"),
    ("manager", .object [("value", .string "m"), ("$ref", .string "r")])])]

/-- A member of the staff with a manager of one sub-attribute only. -/
def guestJson : Json :=
  .object [("urn:office:1.0", .object [("manager", .object [("value", .string "m")])])]

/-- An attribute of the core schema, one of an extension and a sub-attribute are removed. -/
theorem deletions_unambiguous_staff : ∃ source target d,
    AttributeMap.ofJson staffType clerkJson = .ok source ∧
    AttributeMap.ofJson staffType guestJson = .ok target ∧
    between staffType source target .all = .ok d ∧
    d.deletedPaths = ["name", "urn:office:1.0:floor", "urn:office:1.0:manager.$ref"] ∧
    (d.deletedPaths.map caseKey).Nodup ∧
    (∀ text ∈ d.deletedPaths, ∃ p, AttributePath.parse text = .ok p ∧
      p.NamesPartOf staffType.core source) ∧
    ∀ text ∈ d.deletedPaths, ∀ text' ∈ d.deletedPaths, ∀ p q,
      AttributePath.parse text = .ok p → AttributePath.parse text' = .ok q →
        ¬ p.Encloses staffType.core q := by
  obtain ⟨source, hsource⟩ : ∃ m, AttributeMap.ofJson staffType clerkJson = .ok m := ⟨_, rfl⟩
  obtain ⟨target, htarget⟩ : ∃ m, AttributeMap.ofJson staffType guestJson = .ok m := ⟨_, rfl⟩
  have hpaths : (between staffType source target .all).toOption.map deletedPaths =
      some ["name", "urn:office:1.0:floor", "urn:office:1.0:manager.$ref"] := by
    cases hsource
    cases htarget
    decide +kernel
  obtain ⟨d, hd, h⟩ := deletions_unambiguous isRegistered_staffType isAddressable_staffType
    hsource htarget .all
  rw [hd] at hpaths
  exact ⟨source, target, d, hsource, htarget, hd, Option.some.inj hpaths, h⟩

end Diff

end Scim
