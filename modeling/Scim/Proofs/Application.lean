import Scim.Patch.Application
import Scim.Proofs.AttributeMap
import Scim.Proofs.AttributePath

set_option autoImplicit false

/-!
# Applying a body, attribute by attribute

A removal changes only the attribute that its path names, and an update only the attribute of
its own key.  So what a whole body does can be read off one key at a time: the removals of that
key one after the other, then its update, whatever the order of the body's attributes.

## Main definitions

* `Scim.Attribute.removed` — what a removal leaves of an attribute.
* `Scim.Attribute.updated` — what an update makes of an attribute.
* `Scim.AttributeMap.metaKey` — the key under which a body lists its removals.

## Main results

* `Scim.AttributeMap.remove_spec`, `update_spec` — one step, seen at one key.
* `Scim.AttributeMap.exists_patched` — a whole body, seen at one key.
-/

namespace Scim

namespace Attribute

/-- What is left of an attribute after the removal of it or of one of its sub-attributes. -/
def removed (sub : Option String) (o : Option Attribute) : Option Attribute :=
  match sub with
  | none => none
  | some sub => o.bind fun a =>
    let values := a.values.filterMap (Value.withoutSub? sub)
    if values.isEmpty then none else some { a with values }

/-- What an update makes of an attribute. -/
def updated (u : Attribute) (o : Option Attribute) : Option Attribute :=
  let values := u.applyTo (o.elim [] Attribute.values)
  if values.isEmpty then none else some { u with values }

@[simp] lemma removed_none (o : Option Attribute) : removed none o = none := rfl

@[simp] lemma removed_of_none (sub : Option String) : removed sub none = none := by
  cases sub <;> rfl

end Attribute

namespace AttributeMap

variable {core : String} {m : AttributeMap} {k : List Char × List Char}

/-! ## Single steps -/

/-- An attribute under a key keeps it when its values change. -/
lemma WellFormed.key_of_lookup (hm : m.WellFormed) {a : Attribute} (h : m.lookup k = some a) :
    a.key = k :=
  (hm.lookup_eq_some_iff.mp h).2

/-- A removal keeps the invariant and changes only the attribute that its path names. -/
lemma remove_spec (hm : m.WellFormed) (core : String) (path : AttributePath) :
    (remove core m path).WellFormed ∧ ∀ k, (remove core m path).lookup k =
      if path.target core = k then Attribute.removed path.sub (m.lookup k) else m.lookup k := by
  have hrest := hm.erase (path.schemaOr core) path.name
  have hlookup := lookup_erase hm (path.schemaOr core) path.name
  change ∀ k, _ = if path.target core = k then none else m.lookup k at hlookup
  cases hsub : path.sub with
  | none =>
    simp only [remove, hsub]
    exact ⟨hrest, hlookup⟩
  | some sub =>
    have hfst := erase_fst m (path.schemaOr core) path.name
    change _ = m.lookup (path.target core) at hfst
    rcases herase : m.erase (path.schemaOr core) path.name with ⟨found, rest⟩
    rw [herase] at hrest hlookup hfst
    simp only [remove, hsub, herase]
    subst hfst
    cases hfound : m.lookup (path.target core) with
    | none =>
      refine ⟨hrest, fun k => ?_⟩
      rw [hlookup]
      split
      · rename_i hk
        rw [← hk, hfound, Attribute.removed_of_none]
      · rfl
    | some a =>
      have hkey := hm.key_of_lookup hfound
      have hremoved : ∀ o, o = some a → Attribute.removed (some sub) o =
          if (a.values.filterMap (Value.withoutSub? sub)).isEmpty then none
          else some { a with values := a.values.filterMap (Value.withoutSub? sub) } := by
        rintro o rfl
        rfl
      dsimp only
      by_cases hempty : (a.values.filterMap (Value.withoutSub? sub)).isEmpty = true
      · rw [if_pos hempty]
        refine ⟨hrest, fun k => ?_⟩
        rw [hlookup]
        split
        · rename_i hk
          rw [← hk, hremoved _ hfound, if_pos hempty]
        · rfl
      · rw [if_neg hempty]
        refine ⟨hrest.insert _, fun k => ?_⟩
        rw [lookup_insert hrest, hlookup]
        change (if a.key = k then _ else _) = _
        rw [hkey]
        split
        · rename_i hk
          rw [← hk, hremoved _ hfound, if_neg hempty]
        · rfl

/-- An update keeps the invariant and changes only the attribute of its key. -/
lemma update_spec (hm : m.WellFormed) (u : Attribute) :
    (update m u).WellFormed ∧ ∀ k, (update m u).lookup k =
      if u.key = k then u.updated (m.lookup k) else m.lookup k := by
  have hupdate : update m u =
      if (u.applyTo ((m.lookup u.key).elim [] Attribute.values)).isEmpty then
        (m.erase u.schema u.name).2
      else
        (m.insert { u with
          values := u.applyTo ((m.lookup u.key).elim [] Attribute.values) }).2 := by
    have hget : m.get? u.schema u.name = m.lookup u.key := get?_eq_lookup m u.schema u.name
    unfold update
    cases hfound : m.lookup u.key <;> rw [hget, hfound] <;> rfl
  rw [hupdate]
  by_cases hempty : (u.applyTo ((m.lookup u.key).elim [] Attribute.values)).isEmpty = true
  · rw [if_pos hempty]
    refine ⟨hm.erase _ _, fun k => ?_⟩
    rw [lookup_erase hm]
    change (if u.key = k then _ else _) = _
    split
    · rename_i hk
      rw [← hk, Attribute.updated]
      exact (if_pos hempty).symm
    · rfl
  · rw [if_neg hempty]
    refine ⟨hm.insert _, fun k => ?_⟩
    rw [lookup_insert hm]
    change (if u.key = k then _ else _) = _
    split
    · rename_i hk
      rw [← hk, Attribute.updated]
      exact (if_neg hempty).symm
    · rfl

/-! ## Whole lists -/

/-- Removals one after the other, seen at one key: only those of that key count. -/
lemma foldl_remove_spec (hm : m.WellFormed) (core : String) (paths : List AttributePath) :
    (paths.foldl (remove core) m).WellFormed ∧ ∀ k, (paths.foldl (remove core) m).lookup k =
      (paths.filter fun p => decide (p.target core = k)).foldl
        (fun o p => Attribute.removed p.sub o) (m.lookup k) := by
  induction paths generalizing m with
  | nil => exact ⟨hm, fun k => rfl⟩
  | cons p ps ih =>
    obtain ⟨hwf, hstep⟩ := remove_spec hm core p
    obtain ⟨hwf', hrest⟩ := ih hwf
    refine ⟨hwf', fun k => ?_⟩
    rw [List.foldl_cons, hrest, hstep]
    by_cases hk : p.target core = k <;> simp [hk]

/-- Updates of different keys one after the other, seen at one key: only that of the key
counts. -/
lemma foldl_update_spec (hm : m.WellFormed) {us : List Attribute}
    (hus : (us.map Attribute.key).Nodup) :
    (us.foldl update m).WellFormed ∧ ∀ k, (us.foldl update m).lookup k =
      (Keyed.get? Attribute.key k us).elim (m.lookup k) fun u => u.updated (m.lookup k) := by
  induction us generalizing m with
  | nil => exact ⟨hm, fun k => rfl⟩
  | cons u us ih =>
    rw [List.map_cons, List.nodup_cons] at hus
    obtain ⟨hwf, hstep⟩ := update_spec hm u
    obtain ⟨hwf', hrest⟩ := ih hwf hus.2
    refine ⟨hwf', fun k => ?_⟩
    rw [List.foldl_cons, hrest, hstep, Keyed.get?]
    by_cases hk : u.key = k
    · have hnone : Keyed.get? Attribute.key k us = none :=
        Keyed.get?_eq_none_iff.mpr (hk ▸ hus.1)
      simp [hk, hnone]
    · simp [hk]

/-! ## Bodies -/

/-- The key of the attribute under which a body lists its removals. -/
def metaKey (core : String) : List Char × List Char := (caseKey core, caseKey metaName)

/-- The attribute that lists the removals is the one with that key. -/
lemma isNamed_meta (core : String) (a : Attribute) :
    a.isNamed core metaName = decide (a.key = metaKey core) := by
  rw [Attribute.isNamed]
  refine decide_eq_decide.mpr ?_
  rw [metaKey, Attribute.key, Descriptor.key, Prod.mk.injEq]
  exact Iff.rfl

/-- **A whole body, seen at one key.**  The removals of the key are made first, then the body's
attribute of that key is applied, unless it is the one that lists the removals. -/
theorem exists_patched {body : AttributeMap} {paths : List AttributePath} (hm : m.WellFormed)
    (hbody : body.WellFormed) (hpaths : deletionPaths? core body = some paths) :
    ∃ m', patched? core m body = some m' ∧ m'.WellFormed ∧ ∀ k, m'.lookup k =
      ((if k = metaKey core then none else body.lookup k).elim id Attribute.updated)
        ((paths.filter fun p => decide (p.target core = k)).foldl
          (fun o p => Attribute.removed p.sub o) (m.lookup k)) := by
  have hupdates : body.updatesOf core =
      body.toList.filter fun a => !decide (a.key = metaKey core) := by
    rw [updatesOf]
    exact List.filter_congr fun a _ => by rw [isNamed_meta]
  have hnodup : ((body.updatesOf core).map Attribute.key).Nodup := by
    rw [hupdates]
    exact hbody.nodup_toList.sublist (List.filter_sublist.map _)
  obtain ⟨hwf, hremove⟩ := foldl_remove_spec hm core paths
  obtain ⟨hwf', hupdate⟩ := foldl_update_spec hwf hnodup
  refine ⟨_, by rw [patched?, hpaths]; rfl, hwf', fun k => ?_⟩
  rw [hupdate, hremove, hupdates,
    Keyed.get?_filter_key (p := fun k => !decide (k = metaKey core)), hbody.lookup_eq_get?]
  by_cases hk : k = metaKey core
  · simp [hk]
  · simp only [hk, decide_false, Bool.not_false, if_true, if_false]
    cases Keyed.get? Attribute.key k body.toList <;> rfl

end AttributeMap

end Scim
