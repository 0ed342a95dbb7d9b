import Scim.Proofs.BuiltTrees
import Scim.Proofs.RoundTrip

set_option autoImplicit false

/-!
# Equality of built trees

Entries and maps are equal when they are equally large and the other one has an equal attribute for
each of the first.  That this says the same in both directions rests on no name coming twice, at any
depth, which building sees to.  Among built trees equality is therefore an equivalence, and it does
not depend on the order in which attributes of different keys were put in.

## Main results

* `Scim.Entry.Built.beq_eq_all` — entries compare like maps do, by what they find of each other.
* `Scim.AttributeMap.equivOn` — equality is an equivalence among built maps.
* `Scim.AttributeMap.ofList_beq_of_perm`, `Scim.Entry.ofList_beq_of_perm` — the order in which
  attributes of different keys are put in does not matter.
* `Scim.equality_laws` — all of this for every part of a tree.
-/

namespace Scim

/-- Equality is an equivalence among fewer values. -/
lemma EquivOn.mono {β : Type} [BEq β] {P Q : β → Prop} (h : EquivOn P) (hQP : ∀ x, Q x → P x) :
    EquivOn Q where
  refl := fun x hx => h.refl x (hQP x hx)
  symm := fun x y hx hy => h.symm x y (hQP x hx) (hQP y hy)
  trans := fun x y z hx hy hz => h.trans x y z (hQP x hx) (hQP y hy) (hQP z hz)

/-! ## Entries -/

namespace Entry

/-- The sub-attributes of a built entry have unique names. -/
lemma Built.uniqueNames_of_mem {e : Entry} (h : e.Built) {a : Attribute}
    (ha : a ∈ e.subAttributes) : a.UniqueNames :=
  (Entry.uniqueNames_iff.mp h.uniqueNames).2 a ha

/-- **Entries compare like maps do**: when they are equally large and the other has under each name
what the first has, compared from the other to the first. -/
lemma Built.beq_eq_all {e f : Entry} (he : e.Built) (hf : f.Built) :
    (e == f) = (e.size == f.size && e.subAttributes.all fun a => f.get? a.name == some a) := by
  obtain ⟨as⟩ := e
  obtain ⟨bs⟩ := f
  show Entry.beq ⟨as⟩ ⟨bs⟩ = _
  rw [Entry.beq]
  show (as.length == bs.length && _) = (as.length == bs.length && _)
  congr 1
  rw [Bool.eq_iff_iff, allFound_iff, List.all_eq_true]
  refine forall₂_congr fun a ha => ?_
  show _ ↔ (Keyed.get? Attribute.nameKey a.nameKey bs == some a) = true
  cases hb : Keyed.get? Attribute.nameKey a.nameKey bs with
  | none => simp
  | some b =>
    have hua := he.uniqueNames_of_mem ha
    have hub := hf.uniqueNames_of_mem (Keyed.mem_of_get? hb)
    have hsymm : (a == b) = true ↔ (b == a) = true :=
      ⟨Attribute.equivOn.symm a b hua hub, Attribute.equivOn.symm b a hub hua⟩
    simpa using hsymm

/-- **Entries do not depend on the order** in which sub-attributes of different names are put in. -/
lemma ofList_beq_of_perm {as bs : List Attribute} (hbuilt : ∀ a ∈ as, a.Built)
    (hnodup : (as.map Attribute.nameKey).Nodup) (hperm : as.Perm bs) :
    (ofList as == ofList bs) = true := by
  have hsame : Value.Same (.complex (ofList as)) (.complex (ofList bs)) :=
    .ofList hnodup (fun _ => hperm.mem_iff.symm) fun a ha => (hbuilt a ha).uniqueNames
  simpa using hsame.beq

end Entry

/-! ## Maps -/

namespace AttributeMap

variable {m n l : AttributeMap}

/-- Equality of built maps is transitive. -/
lemma Built.beq_trans (hm : m.Built) (hn : n.Built) (hl : l.Built) (hmn : (m == n) = true)
    (hnl : (n == l) = true) : (m == l) = true := by
  rw [beq_iff hm.wellFormed hn.wellFormed] at hmn
  rw [beq_iff hn.wellFormed hl.wellFormed] at hnl
  rw [beq_iff hm.wellFormed hl.wellFormed]
  intro k
  specialize hmn k
  specialize hnl k
  generalize ha : m.lookup k = o at hmn ⊢
  generalize hb : n.lookup k = p at hmn hnl
  generalize hc : l.lookup k = q at hnl ⊢
  cases hmn with
  | none => exact hnl
  | some hba =>
    cases hnl with
    | some hcb =>
      exact .some (Attribute.equivOn.trans _ _ _ (hl.uniqueNames_of_lookup hc)
        (hn.uniqueNames_of_lookup hb) (hm.uniqueNames_of_lookup ha) hcb hba)

/-- **Equality is an equivalence among built maps.** -/
theorem equivOn : EquivOn Built where
  refl := fun _ hm => hm.beq_self
  symm := fun _ _ hm hn => hm.beq_symm hn
  trans := fun _ _ _ hm hn hl => hm.beq_trans hn hl

/-- **Maps do not depend on the order** in which attributes of different keys are put in. -/
lemma ofList_beq_of_perm {as bs : List Attribute} (hbuilt : ∀ a ∈ as, a.Built)
    (hnodup : (as.map Attribute.key).Nodup) (hperm : as.Perm bs) :
    (ofList as == ofList bs) = true := by
  have hsame : (ofList as).Same (ofList bs) := by
    apply same_ofList hnodup
    have hrefl : ∀ a ∈ as, a.Same a := fun a ha => .refl (hbuilt a ha).uniqueNames
    exact ⟨fun a ha => ⟨a, hperm.subset ha, hrefl a ha⟩,
      fun a ha => ⟨a, hperm.symm.subset ha, hrefl a (hperm.symm.subset ha)⟩⟩
  exact hsame.symm.beq (wellFormed_ofList bs) (wellFormed_ofList as)

end AttributeMap

/-! ## Trees -/

/-- **Equality of built trees is an equivalence and ignores the order of insertion.**  Among values,
entries, attributes and maps of any nesting that are built from any descriptors and scalars, `==` is
reflexive, symmetric and transitive.  Rearranging a list of attributes of different keys makes an
equal map, and rearranging one of attributes of different names makes an equal entry. -/
theorem equality_laws :
    EquivOn Value.Built ∧ EquivOn Entry.Built ∧ EquivOn Attribute.Built ∧
      EquivOn AttributeMap.Built ∧
      (∀ as bs : List Attribute, (∀ a ∈ as, a.Built) → (as.map Attribute.key).Nodup → as.Perm bs →
        (AttributeMap.ofList as == AttributeMap.ofList bs) = true) ∧
      ∀ as bs : List Attribute, (∀ a ∈ as, a.Built) → (as.map Attribute.nameKey).Nodup →
        as.Perm bs → (Entry.ofList as == Entry.ofList bs) = true := by
  refine ⟨Value.equivOn.mono fun v hv => hv.uniqueNames,
    Entry.equivOn.mono fun e he => he.uniqueNames, Attribute.equivOn.mono fun a ha => ha.uniqueNames, AttributeMap.equivOn, ?_, ?_⟩
  · exact fun as bs => AttributeMap.ofList_beq_of_perm
  · exact fun as bs => Entry.ofList_beq_of_perm

namespace Diff

/-- The attributes of `firstTree`, in other spellings. -/
def spelledAttributes : List Attribute :=
  [bareAttribute "urn:A" "FLAG", mixedAttribute "URN:A" "Tree" ["Bud", "LEAF"]]

/-- They are built. -/
lemma built_of_mem_spelledAttributes : ∀ a ∈ spelledAttributes, a.Built := by
  simpa [spelledAttributes] using ⟨built_bareAttribute _ _, built_mixedAttribute _ _ _⟩

/-- A tree in other spellings and put in in another order is equal to the first one, from either
side, and so are entries. -/
theorem equality_laws_clients :
    (firstTree == .ofList spelledAttributes.reverse) = true ∧
      (AttributeMap.ofList spelledAttributes.reverse == firstTree) = true ∧
      (Entry.ofList spelledAttributes == .ofList spelledAttributes.reverse) = true := by
  obtain ⟨-, -, -, hmaps, hlists, hentries⟩ := equality_laws
  have hbuilt := built_of_mem_spelledAttributes
  have hfirst : firstTree.Built := by
    refine AttributeMap.built_ofList fun a ha => ?_
    rcases List.mem_pair.mp ha with rfl | rfl
    · exact built_bareAttribute _ _
    · exact built_mixedAttribute _ _ _
  have hspelled := AttributeMap.built_ofList hbuilt
  have hreversed : (AttributeMap.ofList spelledAttributes.reverse).Built :=
    AttributeMap.built_ofList fun a ha => hbuilt a (List.mem_reverse.mp ha)
  have hperm : spelledAttributes.Perm spelledAttributes.reverse :=
    spelledAttributes.reverse_perm.symm
  have hsame : (firstTree == .ofList spelledAttributes) = true := by decide +kernel
  have hall := hmaps.trans _ _ _ hfirst hspelled hreversed hsame
    (hlists _ _ hbuilt (by decide +kernel) hperm)
  exact ⟨hall, hmaps.symm _ _ hfirst hreversed hall, hentries _ _ hbuilt (by decide +kernel) hperm⟩

-- of two attributes of one key the later one stays, so that their order matters
example : (AttributeMap.ofList [bareAttribute "urn:a" "n", mixedAttribute "urn:a" "N" []] ==
    .ofList [mixedAttribute "urn:a" "N" [], bareAttribute "urn:a" "n"]) = false := by
  decide +kernel

end Diff

end Scim
