import Scim.Patch.Application
import Scim.Proofs.Equality

set_option autoImplicit false

/-!
# Entries as maps

An entry is a partial function from names without regard to case to sub-attributes.  This module
states what the operations on entries do to it.

## Main definitions

* `Scim.Entry.lookup` — the sub-attribute under a name key.
* `Scim.Entry.restrict` — the sub-attributes whose name keys have a property.

## Main results

* `Scim.Entry.lookup_restrict`, `lookup_merge` — look-ups after each operation.
* `Scim.Value.containsEntry_iff` — containment, name by name.
* `Scim.Value.removal?_insert` — a marked entry selects what it was before.
-/

namespace Scim

namespace Entry

variable {e f : Entry}

/-- The sub-attribute under a name key. -/
def lookup (e : Entry) (k : List Char) : Option Attribute :=
  Keyed.get? Attribute.nameKey k e.subAttributes

/-- The sub-attributes whose name keys have a property. -/
def restrict (p : List Char → Bool) (e : Entry) : Entry :=
  ⟨e.subAttributes.filter fun a => p a.nameKey⟩

/-! ## Look-ups -/

/-- Names are looked up through their keys. -/
lemma get?_eq_lookup (e : Entry) (name : String) : e.get? name = e.lookup (caseKey name) := rfl

/-- The entry without sub-attributes answers no look-up, and it is the only one. -/
lemma isEmpty_iff : e.isEmpty = true ↔ ∀ k, e.lookup k = none := by
  rw [isEmpty, List.isEmpty_iff]
  constructor
  · intro h k
    rw [lookup, h]
    rfl
  · intro h
    by_contra hne
    obtain ⟨a, as, hcons⟩ := List.exists_cons_of_ne_nil hne
    have := h a.nameKey
    rw [lookup, hcons, Keyed.get?, if_pos rfl] at this
    cases this

/-- A look-up in an entry with unique names finds exactly the sub-attribute of the key. -/
lemma UniqueNames.lookup_eq_some_iff (he : e.UniqueNames) {k : List Char} {a : Attribute} :
    e.lookup k = some a ↔ a ∈ e.subAttributes ∧ a.nameKey = k :=
  Keyed.get?_eq_some_iff (Entry.uniqueNames_iff.mp he).1

/-- What a look-up finds has unique names. -/
lemma UniqueNames.of_lookup (he : e.UniqueNames) {k : List Char} {a : Attribute}
    (h : e.lookup k = some a) : a.UniqueNames :=
  (Entry.uniqueNames_iff.mp he).2 a (Keyed.mem_of_get? h)

/-- What a look-up finds has the key. -/
lemma nameKey_of_lookup {k : List Char} {a : Attribute} (h : e.lookup k = some a) :
    a.nameKey = k :=
  Keyed.key_of_get? h

/-- Entries are equal when their look-ups are. -/
lemma beq_iff_lookup (he : e.UniqueNames) (hf : f.UniqueNames) :
    (e == f) = true ↔
      ∀ k, Option.Rel (fun a b => (a == b) = true) (e.lookup k) (f.lookup k) :=
  Entry.beq_iff he hf

/-- Entries with the same look-ups are equal, whatever the order of their sub-attributes. -/
lemma beq_of_lookup_eq (he : e.UniqueNames) (hf : f.UniqueNames)
    (h : ∀ k, e.lookup k = f.lookup k) : (e == f) = true := by
  rw [beq_iff_lookup he hf]
  intro k
  rw [← h]
  cases ha : e.lookup k with
  | none => exact .none
  | some a => exact .some (Attribute.equivOn.refl a (he.of_lookup ha))

/-- Equal entries are empty together. -/
lemma isEmpty_congr (he : e.UniqueNames) (hf : f.UniqueNames) (h : (e == f) = true) :
    e.isEmpty = f.isEmpty := by
  rw [Bool.eq_iff_iff, isEmpty_iff, isEmpty_iff]
  refine forall_congr' fun k => ?_
  have hk := (beq_iff_lookup he hf).mp h k
  generalize e.lookup k = o at hk ⊢
  generalize f.lookup k = p at hk ⊢
  cases hk <;> simp

/-! ## Restriction -/

/-- A restriction keeps the look-ups of the keys with the property. -/
@[simp] lemma lookup_restrict (p : List Char → Bool) (e : Entry) (k : List Char) :
    (e.restrict p).lookup k = if p k then e.lookup k else none :=
  Keyed.get?_filter_key k e.subAttributes

/-- A restriction of a restriction is one restriction. -/
lemma restrict_restrict (p q : List Char → Bool) (e : Entry) :
    (e.restrict p).restrict q = e.restrict fun k => p k && q k := by
  simp only [restrict, List.filter_filter, Bool.and_comm]

/-- Without a restriction nothing is lost. -/
lemma restrict_eq_self {p : List Char → Bool} (h : ∀ a ∈ e.subAttributes, p a.nameKey = true) :
    e.restrict p = e := by
  obtain ⟨subs⟩ := e
  exact congrArg Entry.mk (List.filter_eq_self.mpr h)

/-- A restriction repeats no name. -/
lemma UniqueNames.restrict (he : e.UniqueNames) (p : List Char → Bool) :
    (e.restrict p).UniqueNames := by
  obtain ⟨hnodup, hsubs⟩ := Entry.uniqueNames_iff.mp he
  have hsub : (e.restrict p).subAttributes.Sublist e.subAttributes := List.filter_sublist
  exact Entry.uniqueNames_iff.mpr
    ⟨hnodup.sublist (hsub.map _), fun a ha => hsubs a (hsub.subset ha)⟩

/-- Equal entries have equal restrictions. -/
lemma restrict_beq (he : e.UniqueNames) (hf : f.UniqueNames) (p : List Char → Bool)
    (h : (e == f) = true) : (e.restrict p == f.restrict p) = true := by
  rw [beq_iff_lookup (he.restrict p) (hf.restrict p)]
  intro k
  rw [lookup_restrict, lookup_restrict]
  split
  · exact (beq_iff_lookup he hf).mp h k
  · exact .none

/-- An erasure is the restriction to all other names. -/
lemma erase_eq_restrict (he : e.UniqueNames) (name : String) :
    (e.erase name).2 = e.restrict fun k => k ≠ caseKey name := by
  rw [erase, restrict, Keyed.erase_eq_filter (Entry.uniqueNames_iff.mp he).1]

/-- The entry made of sub-attributes with different names has just these. -/
lemma ofList_eq {subs : List Attribute} (h : (subs.map Attribute.nameKey).Nodup) :
    Entry.ofList subs = ⟨subs⟩ := by
  rw [ofList, Keyed.ofList_eq_self h]

/-! ## Insertion and merging -/

/-- After an insertion the sub-attribute stands under its key. -/
lemma lookup_insert (e : Entry) (a : Attribute) (k : List Char) :
    (e.insert a).2.lookup k = if a.nameKey = k then some a else e.lookup k :=
  Keyed.get?_insert a k e.subAttributes

/-- An insertion repeats no name. -/
lemma UniqueNames.insert (he : e.UniqueNames) {a : Attribute} (ha : a.UniqueNames) :
    (e.insert a).2.UniqueNames := by
  obtain ⟨hnodup, hsubs⟩ := Entry.uniqueNames_iff.mp he
  refine Entry.uniqueNames_iff.mpr ⟨Keyed.nodup_insert hnodup, fun b hb => ?_⟩
  rcases Keyed.mem_insert hb with rfl | hb
  · exact ha
  · exact hsubs b hb

/-- An entry into which something was inserted is not empty. -/
lemma isEmpty_insert (e : Entry) (a : Attribute) : (e.insert a).2.isEmpty = false := by
  rw [Bool.eq_false_iff, ne_eq, isEmpty_iff]
  intro h
  have := h a.nameKey
  rw [lookup_insert, if_pos rfl] at this
  cases this

/-- Inserting several sub-attributes one after the other. -/
lemma foldl_insert_spec {subs : List Attribute} (hsubs : (subs.map Attribute.nameKey).Nodup)
    (he : e.UniqueNames) (hunique : ∀ a ∈ subs, a.UniqueNames) :
    (subs.foldl (fun e a => (e.insert a).2) e).UniqueNames ∧
      ∀ k, (subs.foldl (fun e a => (e.insert a).2) e).lookup k =
        (Keyed.get? Attribute.nameKey k subs).or (e.lookup k) := by
  induction subs generalizing e with
  | nil => exact ⟨he, fun k => rfl⟩
  | cons a as ih =>
    rw [List.map_cons, List.nodup_cons] at hsubs
    rw [List.forall_mem_cons] at hunique
    obtain ⟨hunique', hlookup⟩ := ih hsubs.2 (he.insert hunique.1) hunique.2
    refine ⟨hunique', fun k => ?_⟩
    rw [List.foldl_cons, hlookup, lookup_insert, Keyed.get?]
    by_cases hk : a.nameKey = k
    · have hnone : Keyed.get? Attribute.nameKey k as = none :=
        Keyed.get?_eq_none_iff.mpr (hk ▸ hsubs.1)
      simp [hk, hnone]
    · simp [hk]

/-- A merged entry repeats no name. -/
lemma UniqueNames.merge (he : e.UniqueNames) (hf : f.UniqueNames) : (e.merge f).UniqueNames := by
  obtain ⟨hnodup, hsubs⟩ := Entry.uniqueNames_iff.mp hf
  exact (foldl_insert_spec hnodup he hsubs).1

/-- A merged entry answers from the changes first. -/
lemma lookup_merge (he : e.UniqueNames) (hf : f.UniqueNames) (k : List Char) :
    (e.merge f).lookup k = (f.lookup k).or (e.lookup k) := by
  obtain ⟨hnodup, hsubs⟩ := Entry.uniqueNames_iff.mp hf
  exact (foldl_insert_spec hnodup he hsubs).2 k

end Entry

/-! ## Containment -/

namespace Value

variable {e e' f f' : Entry}

/-- **Containment, name by name.** -/
lemma containsEntry_iff (he : e.UniqueNames) :
    (complex f).containsEntry e = true ↔
      ∀ k a, e.lookup k = some a → ∃ b, f.lookup k = some b ∧ (b == a) = true := by
  rw [containsEntry, List.all_eq_true]
  have hfound : ∀ a : Attribute, (f.get? a.name == some a) = true ↔
      ∃ b, f.lookup a.nameKey = some b ∧ (b == a) = true := by
    intro a
    rw [Entry.get?_eq_lookup]
    change (f.lookup a.nameKey == some a) = true ↔ _
    cases f.lookup a.nameKey <;> simp
  constructor
  · intro h k a ha
    obtain ⟨hmem, rfl⟩ := he.lookup_eq_some_iff.mp ha
    exact (hfound a).mp (h a hmem)
  · intro h a ha
    exact (hfound a).mpr (h a.nameKey a (he.lookup_eq_some_iff.mpr ⟨ha, rfl⟩))

/-- An entry contains what it equals. -/
lemma containsEntry_of_beq (he : e.UniqueNames) (hf : f.UniqueNames) (h : (f == e) = true) :
    (complex f).containsEntry e = true := by
  rw [containsEntry_iff he]
  intro k a ha
  have hk := (Entry.beq_iff_lookup hf he).mp h k
  rw [ha] at hk
  generalize f.lookup k = o at hk ⊢
  cases hk with
  | some hba => exact ⟨_, rfl, hba⟩

/-- Containment passes on to equal entries on the outside. -/
lemma containsEntry_of_beq_left (he : e.UniqueNames) (hf : f.UniqueNames) (hf' : f'.UniqueNames)
    (hff : (f' == f) = true) (h : (complex f).containsEntry e = true) :
    (complex f').containsEntry e = true := by
  rw [containsEntry_iff he] at h ⊢
  intro k a ha
  obtain ⟨b, hb, hba⟩ := h k a ha
  have hk := (Entry.beq_iff_lookup hf' hf).mp hff k
  rw [hb] at hk
  cases hc : f'.lookup k with
  | none => rw [hc] at hk; cases hk
  | some c =>
    rw [hc] at hk
    cases hk with
    | some hcb =>
      exact ⟨c, rfl, Attribute.equivOn.trans c b a (hf'.of_lookup hc) (hf.of_lookup hb)
        (he.of_lookup ha) hcb hba⟩

/-- Containment passes on to equal entries on the inside. -/
lemma containsEntry_of_beq_right (he : e.UniqueNames) (he' : e'.UniqueNames) (hf : f.UniqueNames)
    (hee : (e' == e) = true) (h : (complex f).containsEntry e = true) :
    (complex f).containsEntry e' = true := by
  rw [containsEntry_iff he] at h
  rw [containsEntry_iff he']
  intro k a' ha'
  have hk := (Entry.beq_iff_lookup he' he).mp hee k
  rw [ha'] at hk
  cases ha : e.lookup k with
  | none => rw [ha] at hk; cases hk
  | some a =>
    rw [ha] at hk
    obtain ⟨b, hb, hba⟩ := h k a ha
    cases hk with
    | some haa =>
      have haU := he.of_lookup ha
      have ha'U := he'.of_lookup ha'
      exact ⟨b, hb, Attribute.equivOn.trans b a a' (hf.of_lookup hb) haU ha'U hba
        (Attribute.equivOn.symm a' a ha'U haU haa)⟩

/-- Only the names of the inner entry matter. -/
lemma containsEntry_restrict (he : e.UniqueNames) {p : List Char → Bool}
    (hp : ∀ k, p k = false → e.lookup k = none) :
    (complex (f.restrict p)).containsEntry e = (complex f).containsEntry e := by
  rw [Bool.eq_iff_iff, containsEntry_iff he, containsEntry_iff he]
  refine forall_congr' fun k => forall_congr' fun a => ?_
  refine forall_congr' fun ha => ?_
  cases hk : p k with
  | true => simp [hk]
  | false => simp [hp k hk] at ha

/-! ## Marks -/

/-- **A marked entry selects what it was before.** -/
lemma removal?_insert {mark : Attribute} {v : Value} (hmark : mark.nameKey = caseKey operationName)
    (hfirst : mark.first? = some v) (hdelete : v.string? = some deleteOperation)
    (he : e.get? operationName = none) :
    (complex (e.insert mark).2).removal? = some e := by
  have hget : (e.insert mark).2.get? operationName = some mark := by
    rw [Entry.get?_eq_lookup, Entry.lookup_insert, if_pos hmark]
  have hnot : mark.nameKey ∉ e.subAttributes.map Attribute.nameKey := by
    rw [hmark]
    exact Keyed.get?_eq_none_iff.mp he
  have herase : ((e.insert mark).2.erase operationName).2 = e := by
    rw [Entry.erase, Entry.insert, ← hmark]
    obtain ⟨subs⟩ := e
    exact congrArg Entry.mk (Keyed.erase_insert hnot)
  rw [removal?]
  simp only [hget, Option.bind_some, hfirst, hdelete, if_true, herase]

/-- An entry without `operation` is not marked. -/
lemma removal?_eq_none (he : e.get? operationName = none) : (complex e).removal? = none := by
  rw [removal?, he]
  rfl

end Value

end Scim
