import Scim.Proofs.AlikeChanges
import Scim.Proofs.Decomposition
import Scim.Proofs.ReadingOrder

set_option autoImplicit false

/-!
# Resources that say the same

Two documents may list the attributes of a resource, the sub-attributes of an entry and the values
of a multi-valued attribute in different orders, spell names differently and repeat values, and
still say the same.  The difference of two resources depends on what they say only: on other
documents that say the same it deletes the same paths and makes updates that say the same.

Of a deletion that occurs twice the first one is kept, and the two may be spelled differently.
That is possible only for an attribute of the core schema and one of an extension without a URI.
Documents are read by ascending member, so that such an extension comes first and decides the
spelling whatever else the documents look like.

## Main definitions

* `Scim.Diff.isBare`, `BareFirst` — the keys of an extension without URI, and that they come first.
* `Scim.Diff.keyBlocks` — the keys with deletions, in blocks.

## Main results

* `Scim.Keyed.mem_distinct_flatten_iff` — which elements are kept depends on the sets only.
* `Scim.Diff.same_of_agrees` — the difference depends on what the resources say only.
-/

namespace Scim

/-! ## Distinct elements of blocks -/

namespace Keyed

variable {β : Type} [BEq β] {P : β → Prop} {xs ys : List β}

/-- What is kept of two lists one after the other. -/
lemma mem_distinct_append {z : β} : z ∈ distinct (xs ++ ys) ↔
    z ∈ distinct xs ∨ z ∈ distinct ys ∧ ∀ x ∈ xs, (x == z) = false := by
  rw [distinct_append, List.mem_append, List.mem_filter, Bool.not_eq_true', List.any_eq_false]
  simp

/-- When equal elements are the same, everything is kept. -/
lemma mem_distinct_iff (h : EquivOn P) (hxs : ∀ x ∈ xs, P x)
    (heq : ∀ x ∈ xs, ∀ y ∈ xs, (x == y) = true → x = y) {z : β} : z ∈ distinct xs ↔ z ∈ xs := by
  refine ⟨mem_of_mem_distinct, fun hz => ?_⟩
  obtain ⟨x, hx, hxz⟩ := listed_distinct_of_mem h hxs hz
  rw [← heq x (mem_of_mem_distinct hx) z hz hxz]
  exact hx

/-- **Which elements are kept depends on the sets only**, when the lists come in blocks within which
equal elements are the same. -/
lemma mem_distinct_flatten_iff {bs bs' : List (List β)} (h : EquivOn P)
    (hP : ∀ x, P x) (hblocks : List.Forall₂ (fun xs ys => ∀ z, z ∈ xs ↔ z ∈ ys) bs bs')
    (heq : ∀ xs ∈ bs, ∀ x ∈ xs, ∀ y ∈ xs, (x == y) = true → x = y) (z : β) :
    z ∈ distinct bs.flatten ↔ z ∈ distinct bs'.flatten := by
  induction hblocks with
  | nil => exact Iff.rfl
  | @cons xs ys bs bs' hxy _ ih =>
    rw [List.forall_mem_cons] at heq
    have heq' : ∀ x ∈ ys, ∀ y ∈ ys, (x == y) = true → x = y := fun x hx y hy =>
      heq.1 x ((hxy x).mpr hx) y ((hxy y).mpr hy)
    rw [List.flatten_cons, List.flatten_cons, mem_distinct_append, mem_distinct_append,
      mem_distinct_iff h (fun x _ => hP x) heq.1, mem_distinct_iff h (fun x _ => hP x) heq', hxy,
      ih heq.2]
    simp only [hxy]

/-- A list in which all elements with a property come first is made of those and the others. -/
lemma eq_filter_append_filter {α : Type} {p : α → Bool} {xs : List α}
    (h : xs.Pairwise fun x y => p y = true → p x = true) :
    xs = xs.filter p ++ xs.filter fun x => !p x := by
  induction xs with
  | nil => rfl
  | cons x xs ih =>
    obtain ⟨hhead, htail⟩ := List.pairwise_cons.mp h
    cases hx : p x with
    | true =>
      rw [List.filter_cons_of_pos hx, List.filter_cons_of_neg (by simp [hx]), List.cons_append,
        ← ih htail]
    | false =>
      have hnone : ∀ y ∈ xs, p y = false := fun y hy => by
        rw [Bool.eq_false_iff]
        intro hpy
        rw [hhead y hy hpy] at hx
        cases hx
      rw [List.filter_cons_of_neg (by simp [hx]), List.filter_cons_of_pos (by simp [hx]),
        List.filter_eq_nil_iff.mpr (by simpa using hnone),
        List.filter_eq_self.mpr (by simpa using hnone), List.nil_append]

end Keyed

namespace Diff

open Standard

/-! ## The keys with deletions -/

/-- A key of an extension without URI beside a core schema with one.  A path cannot tell its
attributes from those of the core schema. -/
def isBare (core : String) (k : List Char × List Char) : Bool := k.1.isEmpty && core != ""

/-- The attributes of an extension without URI come first. -/
def BareFirst (core : String) (m : AttributeMap) : Prop :=
  (m.toList.map Attribute.key).Pairwise fun k l => isBare core l = true → isBare core k = true

/-- The keys that may have deletions: those of the source only, then those of both resources, each
with the attributes of an extension without URI first. -/
def keyBlocks (core : String) (s : Selector) (source target : AttributeMap) :
    List (List (List Char × List Char)) :=
  let removed := (sourceOnly s source target).map Attribute.key
  let kept := (common s source target).map fun p => p.1.key
  [removed.filter (isBare core), removed.filter fun k => !isBare core k,
    kept.filter (isBare core), kept.filter fun k => !isBare core k]

section

variable {t : ResourceType} {core : String} {source source' target target' : AttributeMap}
  {s : Selector} {k l : List Char × List Char}

/-- Only an extension without URI beside a core schema with one is bare. -/
lemma isBare_iff : isBare core k = true ↔ k.1 = [] ∧ core ≠ "" := by
  rw [isBare, Bool.and_eq_true, List.isEmpty_iff, bne_iff_ne]

/-- Paths with one target were made for one key when the keys are both bare or both not. -/
lemma key_eq_of_target {a b : Attribute} {m n : Option String}
    (hbare : isBare core a.key = isBare core b.key)
    (h : (Change.path core a m).target core = (Change.path core b n).target core) :
    a.key = b.key := by
  cases ha : isBare core a.key with
  | true =>
    have hb := isBare_iff.mp (hbare.symm.trans ha)
    have hname : caseKey a.name = caseKey b.name := by
      simpa only [AttributePath.target, Change.path_name] using congrArg Prod.snd h
    exact Prod.ext ((isBare_iff.mp ha).1.trans hb.1.symm) hname
  | false =>
    have htarget : ∀ {x : Attribute} (sub : Option String), isBare core x.key = false →
        (Change.path core x sub).target core = x.key := by
      intro x sub hx
      refine Change.target_path_of sub fun hschema => ?_
      by_contra hcore
      rw [isBare_iff.mpr ⟨caseKey_eq_nil_iff.mpr hschema, hcore⟩] at hx
      cases hx
    rw [← htarget m ha, ← htarget n (hbare.symm.trans ha)]
    exact h

/-- What is read lists the attributes of an extension without URI first. -/
lemma bareFirst_of_ofJson {document : Json} (h : AttributeMap.ofJson t document = .ok source)
    (hdocument : document.IsAscending) : BareFirst t.core source := by
  rw [BareFirst, List.pairwise_map]
  simp only [isBare_iff]
  by_cases hcore : t.core = ""
  · exact List.pairwise_of_forall fun _ _ hbare => absurd hcore hbare.2
  · exact (AttributeMap.pairwise_of_ofJson h hdocument hcore).imp
      fun {a b} hfirst hbare => ⟨hfirst hbare.1, hcore⟩

/-- The blocks are the keys in the order in which their deletions are listed. -/
lemma flatten_keyBlocks (h : BareFirst core source) :
    (keyBlocks core s source target).flatten = deletionKeys s source target := by
  have hremoved := Keyed.eq_filter_append_filter
    (h.sublist (sublist_sourceOnly : ((sourceOnly s source target).map Attribute.key).Sublist _))
  have hkept := Keyed.eq_filter_append_filter
    (h.sublist (sublist_common : ((common s source target).map fun p => p.1.key).Sublist _))
  rw [deletionKeys, hremoved, hkept]
  simp [keyBlocks]

/-- The deletions of a difference, block by block. -/
lemma allDeletions_eq_flatten (hs : source.WellFormed) (h : BareFirst core source) :
    allDeletions core s source target = ((keyBlocks core s source target).map fun ks =>
      ks.flatMap fun k =>
        (Change.ofPair core s (source.lookup k) (target.lookup k)).deletions).flatten := by
  rw [allDeletions_eq hs, ← flatten_keyBlocks h, List.flatMap_def, List.map_flatten,
    List.flatten_flatten, List.map_map]
  rfl

/-- The keys of a block are bare all or none. -/
lemma isBare_eq_of_mem_keyBlocks {ks : List (List Char × List Char)}
    (hks : ks ∈ keyBlocks core s source target) (hk : k ∈ ks) (hl : l ∈ ks) :
    isBare core k = isBare core l := by
  simp only [keyBlocks, List.mem_cons, List.not_mem_nil, or_false] at hks
  rcases hks with rfl | rfl | rfl | rfl <;>
    simp_all [List.mem_filter]

/-- A key of the source only is selected and missing in the target. -/
lemma mem_map_sourceOnly_iff (hs : source.WellFormed) :
    k ∈ (sourceOnly s source target).map Attribute.key ↔
      (source.lookup k).any (fun a => s.matchesAttribute a.schema a.name) = true ∧
        target.lookup k = none := by
  rw [← not_iff_not, ← Keyed.get?_eq_none_iff, get?_sourceOnly hs]
  cases source.lookup k <;> cases target.lookup k <;> simp

/-- A common key is selected and in the target. -/
lemma mem_map_common_iff (hs : source.WellFormed) :
    k ∈ (common s source target).map (fun p => p.1.key) ↔
      (source.lookup k).any (fun a => s.matchesAttribute a.schema a.name) = true ∧
        target.lookup k ≠ none := by
  rw [← not_iff_not, ← Keyed.get?_eq_none_iff, get?_common hs]
  cases source.lookup k <;> cases target.lookup k <;> simp [Option.filter]

end

/-! ## The deletions of one resource -/

section Deletions

variable {t : ResourceType} {source target : AttributeMap} {s : Selector}
  {k l : List Char × List Char} {p q : AttributePath} (hregistered : t.IsRegistered)
  (hs : source.Conforms t) (ht : target.Conforms t)

include hregistered hs ht

omit hregistered ht in
/-- Equal deletions of keys that are both bare or both not are of one key. -/
lemma key_eq_of_beq
    (hp : p ∈ (Change.ofPair t.core s (source.lookup k) (target.lookup k)).deletions)
    (hq : q ∈ (Change.ofPair t.core s (source.lookup l) (target.lookup l)).deletions)
    (hbare : isBare t.core k = isBare t.core l) (h : (p == q) = true) : k = l := by
  obtain ⟨a, ha, m, rfl⟩ := Change.exists_path_of_mem_ofPair hp
  obtain ⟨b, hb, n, rfl⟩ := Change.exists_path_of_mem_ofPair hq
  rw [← hs.wellFormed.key_of_lookup ha, ← hs.wellFormed.key_of_lookup hb] at hbare ⊢
  exact key_eq_of_target hbare (AttributePath.target_congr t.core h)

/-- Within a block equal deletions are the same. -/
lemma eq_of_mem_block {ks : List (List Char × List Char)}
    (hks : ks ∈ keyBlocks t.core s source target)
    (hp : p ∈ ks.flatMap fun k =>
      (Change.ofPair t.core s (source.lookup k) (target.lookup k)).deletions)
    (hq : q ∈ ks.flatMap fun k =>
      (Change.ofPair t.core s (source.lookup k) (target.lookup k)).deletions)
    (h : (p == q) = true) : p = q := by
  obtain ⟨k, hk, hp⟩ := List.mem_flatMap.mp hp
  obtain ⟨l, hl, hq⟩ := List.mem_flatMap.mp hq
  obtain rfl := key_eq_of_beq hs hp hq (isBare_eq_of_mem_keyBlocks hks hk hl) h
  cases hd : t.descriptor? k with
  | none =>
    rw [ofPair_of_none hs ht s hd] at hp
    exact absurd hp List.not_mem_nil
  | some d =>
    have hspelled := Change.spelled_ofPair t.core s (hs.conforms_of_lookup hd)
      (ht.conforms_of_lookup hd) (hregistered.exists_mark (ResourceType.mem_of_descriptor? hd))
    exact hspelled.eq_of_beq hspelled hp hq h

end Deletions

/-! ## Resources that say the same -/

section Agreeing

variable {t : ResourceType} {source source' target target' : AttributeMap}
  (hregistered : t.IsRegistered) (hs : source.Conforms t) (hs' : source'.Conforms t)
  (ht : target.Conforms t) (ht' : target'.Conforms t) (hsource : source.agrees source' = true)
  (htarget : target.agrees target' = true)

include hs hs' ht ht' in
/-- When the updates of each key say the same, all updates do. -/
lemma exists_sameValues_of_forall₂ {s : Selector}
    (h : ∀ k, List.Forall₂ Attribute.SameValues
      (Change.ofPair t.core s (source.lookup k) (target.lookup k)).updates
      (Change.ofPair t.core s (source'.lookup k) (target'.lookup k)).updates) {u : Attribute}
    (hu : u ∈ allUpdates t.core s source target) :
    ∃ u' ∈ allUpdates t.core s source' target', u.SameValues u' := by
  obtain ⟨-, -, hu⟩ := exists_of_mem_allUpdates hs ht s hu
  obtain ⟨u', hu', hsame⟩ := Change.exists_sameValues (h u.key) hu
  rw [← filter_allUpdates hs'.wellFormed ht'.wellFormed] at hu'
  exact ⟨u', (List.mem_filter.mp hu').1, hsame⟩

include hs hs' hsource

/-- Resources that say the same have the same selected attributes. -/
lemma any_matches_congr (s : Selector) (k : List Char × List Char) :
    (source.lookup k).any (fun a => s.matchesAttribute a.schema a.name) =
      (source'.lookup k).any fun a => s.matchesAttribute a.schema a.name := by
  have hrel := (AttributeMap.agrees_iff hs.wellFormed hs'.wellFormed).mp hsource k
  cases hd : t.descriptor? k with
  | none => rw [hs.regular.lookup_eq_none hd, hs'.regular.lookup_eq_none hd]
  | some d =>
    have ha := hs.conforms_of_lookup hd
    have ha' := hs'.conforms_of_lookup hd
    generalize source.lookup k = o at hrel ha
    generalize source'.lookup k = o' at hrel ha'
    cases hrel with
    | none => rfl
    | @some a a' _ =>
      rw [Option.any_some, Option.any_some, Attribute.schema, Attribute.name, Attribute.schema,
        Attribute.name, (ha a rfl).descriptor_eq, (ha' a' rfl).descriptor_eq]

include ht ht' htarget

/-- Resources that say the same have the same keys of the source only and the same common ones. -/
lemma mem_keys_congr (s : Selector) (k : List Char × List Char) :
    (k ∈ (sourceOnly s source target).map Attribute.key ↔
        k ∈ (sourceOnly s source' target').map Attribute.key) ∧
      (k ∈ (common s source target).map (fun p => p.1.key) ↔
        k ∈ (common s source' target').map fun p => p.1.key) := by
  have hnone : target.lookup k = none ↔ target'.lookup k = none := by
    have hrel := (AttributeMap.agrees_iff ht.wellFormed ht'.wellFormed).mp htarget k
    generalize target.lookup k = o at hrel ⊢
    generalize target'.lookup k = o' at hrel ⊢
    cases hrel <;> simp
  rw [mem_map_sourceOnly_iff hs.wellFormed, mem_map_sourceOnly_iff hs'.wellFormed,
    mem_map_common_iff hs.wellFormed, mem_map_common_iff hs'.wellFormed,
    any_matches_congr hs hs' hsource, ne_eq, ne_eq, hnone]
  exact ⟨Iff.rfl, Iff.rfl⟩

/-- Resources that say the same have the same keys with deletions, block by block. -/
lemma forall₂_keyBlocks (core : String) (s : Selector) :
    List.Forall₂ (fun ks ls => ∀ k, k ∈ ks ↔ k ∈ ls) (keyBlocks core s source target)
      (keyBlocks core s source' target') := by
  have hkeys := mem_keys_congr hs hs' ht ht' hsource htarget s
  have hfilter : ∀ {ks ls : List (List Char × List Char)}, (∀ k, k ∈ ks ↔ k ∈ ls) →
      ∀ c : List Char × List Char → Bool, ∀ k, k ∈ ks.filter c ↔ k ∈ ls.filter c := by
    intro ks ls h c k
    rw [List.mem_filter, List.mem_filter, h]
  have hremoved := fun c => hfilter (fun k => (hkeys k).1) c
  have hkept := fun c => hfilter (fun k => (hkeys k).2) c
  exact .cons (hremoved _) (.cons (hremoved _) (.cons (hkept _) (.cons (hkept _) .nil)))

include hregistered

/-- Resources that say the same change alike under each key. -/
lemma alike_ofPair (s : Selector) (k : List Char × List Char) :
    (Change.ofPair t.core s (source.lookup k) (target.lookup k)).Alike
      (Change.ofPair t.core s (source'.lookup k) (target'.lookup k)) := by
  cases hd : t.descriptor? k with
  | none =>
    rw [ofPair_of_none hs ht s hd, ofPair_of_none hs' ht' s hd]
    exact Change.alike_unchanged
  | some d =>
    exact Change.alike_ofPair t.core s (hs.conforms_of_lookup hd) (hs'.conforms_of_lookup hd)
      (ht.conforms_of_lookup hd) (ht'.conforms_of_lookup hd)
      (hregistered.exists_mark (ResourceType.mem_of_descriptor? hd))
      ((AttributeMap.agrees_iff hs.wellFormed hs'.wellFormed).mp hsource k)
      ((AttributeMap.agrees_iff ht.wellFormed ht'.wellFormed).mp htarget k)

/-- Resources that say the same have the same deletions, before repetitions are dropped. -/
lemma mem_allDeletions_congr (s : Selector) (p : AttributePath) :
    p ∈ allDeletions t.core s source target ↔ p ∈ allDeletions t.core s source' target' := by
  rw [mem_allDeletions_iff hs.wellFormed, mem_allDeletions_iff hs'.wellFormed]
  exact exists_congr fun k =>
    (alike_ofPair hregistered hs hs' ht ht' hsource htarget s k).deletions p

/-- Resources that say the same have the same deletions after repetitions are dropped, when they
list the attributes of an extension without URI first. -/
lemma mem_distinct_allDeletions_congr (s : Selector)
    (hfirst : BareFirst t.core source) (hfirst' : BareFirst t.core source') (p : AttributePath) :
    p ∈ Keyed.distinct (allDeletions t.core s source target) ↔
      p ∈ Keyed.distinct (allDeletions t.core s source' target') := by
  rw [allDeletions_eq_flatten hs.wellFormed hfirst, allDeletions_eq_flatten hs'.wellFormed hfirst']
  refine Keyed.mem_distinct_flatten_iff AttributePath.equivOn (fun _ => trivial) ?_
    (fun ps hps q hq r hr hqr => ?_) p
  · rw [List.forall₂_map_left_iff, List.forall₂_map_right_iff]
    refine (forall₂_keyBlocks hs hs' ht ht' hsource htarget t.core s).imp fun ks ls h q => ?_
    rw [List.mem_flatMap, List.mem_flatMap]
    exact exists_congr fun k => and_congr (h k)
      ((alike_ofPair hregistered hs hs' ht ht' hsource htarget s k).deletions q)
  · obtain ⟨ks, hks, rfl⟩ := List.mem_map.mp hps
    exact eq_of_mem_block hregistered hs ht hks hq hr hqr

/-- Resources that say the same have updates that say the same. -/
lemma exists_sameValues (s : Selector) {u : Attribute}
    (hu : u ∈ allUpdates t.core s source target) :
    ∃ u' ∈ allUpdates t.core s source' target', u.SameValues u' := by
  refine exists_sameValues_of_forall₂ hs hs' ht ht' (fun k => ?_) hu
  exact (alike_ofPair hregistered hs hs' ht ht' hsource htarget s k).updates

end Agreeing

/-- **A difference depends on what the resources say only.**  For every registered resource type,
any selector and two pairs of its resources that say the same, sources as well as targets, both
differences exist.  They have the same set of deletions.  Both update the same attributes, no
attribute twice, and what one attribute is updated to has the same set of values.  Two resources
say the same when they have the same attributes, equal ones where there is one value and the same
set of values where there may be several; nothing is asked of the order of attributes,
sub-attributes and values or of repetitions.

The deletions are the same up to the equality of paths, and even in their spelling when the sources
were read from documents that list their members by ascending key, as all texts are.

**Proof sketch.**  Under each key the changes are alike.  That settles the updates, as each key has
one at most, and the deletions before repetitions are dropped.  Paths that are equal but spelled
differently are made for different attributes, one of them of an extension without URI, and these
come first in both runs. -/
theorem same_of_agrees {t : ResourceType} {source source' target target' : AttributeMap}
    {sourceJson sourceJson' targetJson targetJson' : Json} (hregistered : t.IsRegistered)
    (hsource : AttributeMap.ofJson t sourceJson = .ok source)
    (hsource' : AttributeMap.ofJson t sourceJson' = .ok source')
    (htarget : AttributeMap.ofJson t targetJson = .ok target)
    (htarget' : AttributeMap.ofJson t targetJson' = .ok target')
    (hsources : source.agrees source' = true) (htargets : target.agrees target' = true)
    (s : Selector) :
    ∃ d d', between t source target s = .ok d ∧ between t source' target' s = .ok d' ∧
      (∀ p, Listed d.deletions p ↔ Listed d'.deletions p) ∧
      (sourceJson.IsAscending → sourceJson'.IsAscending →
        ∀ p, p ∈ d.deletions ↔ p ∈ d'.deletions) ∧
      (d.updates.map Attribute.key).Nodup ∧ (d'.updates.map Attribute.key).Nodup ∧
      (∀ u ∈ d.updates, ∃ u' ∈ d'.updates, u.SameValues u') ∧
      ∀ u' ∈ d'.updates, ∃ u ∈ d.updates, u.SameValues u' := by
  have hs := AttributeMap.conforms_of_ofJson hsource
  have hs' := AttributeMap.conforms_of_ofJson hsource'
  have ht := AttributeMap.conforms_of_ofJson htarget
  have ht' := AttributeMap.conforms_of_ofJson htarget'
  refine ⟨_, _, between_eq hregistered hs ht s, between_eq hregistered hs' ht' s, fun p => ?_,
    fun hascending hascending' => ?_, nodup_allUpdates hs.wellFormed ht.wellFormed t.core s,
    nodup_allUpdates hs'.wellFormed ht'.wellFormed t.core s, fun u hu => ?_, fun u' hu' => ?_⟩
  · rw [Keyed.listed_distinct_iff AttributePath.equivOn (fun _ _ => trivial) trivial,
      Keyed.listed_distinct_iff AttributePath.equivOn (fun _ _ => trivial) trivial]
    refine exists_congr fun q => and_congr_left' ?_
    exact mem_allDeletions_congr hregistered hs hs' ht ht' hsources htargets s q
  · exact mem_distinct_allDeletions_congr hregistered hs hs' ht ht' hsources htargets s
      (bareFirst_of_ofJson hsource hascending) (bareFirst_of_ofJson hsource' hascending')
  · exact exists_sameValues hregistered hs hs' ht ht' hsources htargets s hu
  · obtain ⟨u, hu, hsame⟩ := exists_sameValues hregistered hs' hs ht' ht
      (hs.regular.agrees_symm hs'.regular hsources) (ht.regular.agrees_symm ht'.regular htargets)
      s hu'
    exact ⟨u, hu, hsame.symm⟩

/-- Members of a group in another order, one of them twice and one with its sub-attributes in
another order. -/
theorem same_of_reordered : ∃ d d',
    between groupType (namedGroup "a" [[("value", "1")], [("$ref", "r"), ("value", "2")]])
      (groupOf [[("value", "3")], [("value", "1")]]) .all = .ok d ∧
    between groupType (namedGroup "a" [[("value", "2"), ("$ref", "r")], [("value", "1")]])
      (groupOf [[("value", "1")], [("value", "3")], [("value", "1")]]) .all = .ok d' ∧
    (∀ p, p ∈ d.deletions ↔ p ∈ d'.deletions) ∧
    ∀ u ∈ d.updates, ∃ u' ∈ d'.updates, u.SameValues u' := by
  have hsource : AttributeMap.ofJson groupType
      (namedGroupJson "a" [[("value", "1")], [("$ref", "r"), ("value", "2")]]) =
      .ok (namedGroup "a" [[("value", "1")], [("$ref", "r"), ("value", "2")]]) := rfl
  have hsource' : AttributeMap.ofJson groupType
      (namedGroupJson "a" [[("value", "2"), ("$ref", "r")], [("value", "1")]]) =
      .ok (namedGroup "a" [[("value", "2"), ("$ref", "r")], [("value", "1")]]) := rfl
  have htarget : AttributeMap.ofJson groupType (groupJson [[("value", "3")], [("value", "1")]]) =
      .ok (groupOf [[("value", "3")], [("value", "1")]]) := rfl
  have htarget' : AttributeMap.ofJson groupType
      (groupJson [[("value", "1")], [("value", "3")], [("value", "1")]]) =
      .ok (groupOf [[("value", "1")], [("value", "3")], [("value", "1")]]) := rfl
  have hless : "displayName" < "members" := by decide
  have hascending : ∀ members, (namedGroupJson "a" members).IsAscending :=
    fun _ => List.pairwise_pair.mpr hless
  obtain ⟨d, d', hd, hd', -, hdeletions, -, -, hupdates, -⟩ := same_of_agrees
    isRegistered_groupType hsource hsource' htarget htarget' (by decide +kernel)
    (by decide +kernel) .all
  exact ⟨d, d', hd, hd', hdeletions (hascending _) (hascending _), hupdates⟩

end Diff

end Scim
