import Scim.Proofs.Reproduction

set_option autoImplicit false

/-!
# Applying a body again

A client that gets no answer sends its body once more, and the service provider may have applied
the first one already, to a resource that has changed since the client read it.  Nothing goes
wrong: a body applied twice leaves what it leaves when it is applied once.

The argument rests on two facts about single attributes.  Of the values of an update the last one
that concerns a given value decides whether that value is there afterwards, whatever was there
before; and what a change removes one by one it does not write again.

## Main definitions

* `Scim.Value.Lacks` — values are entries without a certain sub-attribute.
* `Scim.Change.Apart` — a change does not write what it removes.

## Main results

* `Scim.Value.exists_listed_foldl_applyTo` — the last operation on a value decides.
* `Scim.Attribute.sameSet_updated_updated` — an update made twice.
* `Scim.Change.apart_ofPair` — no change writes what it removes.
* `Scim.Change.sameSet_applyTo_applyTo` — a change made twice.
* `Scim.Diff.patched_again_agrees` — a body applied twice.
-/

namespace Scim

/-! ## The values of an update -/

namespace Value

variable {vs ws : List Value} {w x : Value}

/-- What a marked entry selects has unique names. -/
lemma uniqueNames_of_removal? (hw : w.UniqueNames) {part : Entry} (h : w.removal? = some part) :
    part.UniqueNames := by
  cases w with
  | simple j => cases h
  | complex e =>
    have he := (uniqueNames_complex e).mp hw
    rw [removal?] at h
    split at h
    · split at h
      · cases h
        rw [Entry.erase_eq_restrict he]
        exact he.restrict _
      · cases h
    · cases h

/-- Equal values contain the same entries. -/
lemma containsEntry_congr {v : Value} (hv : v.UniqueNames) (hx : x.UniqueNames) {part : Entry}
    (hpart : part.UniqueNames) (hvx : (v == x) = true) :
    v.containsEntry part = x.containsEntry part := by
  cases v with
  | simple j =>
    cases x with
    | simple k => rfl
    | complex f => simp at hvx
  | complex e =>
    cases x with
    | simple k => simp at hvx
    | complex f =>
      rw [complex_beq_complex] at hvx
      have he := (uniqueNames_complex e).mp hv
      have hf := (uniqueNames_complex f).mp hx
      rw [Bool.eq_iff_iff]
      exact ⟨containsEntry_of_beq_left hpart he hf (Entry.equivOn.symm e f he hf hvx),
        containsEntry_of_beq_left hpart hf he hvx⟩

/-- One value of an update removes a given value, adds it, or lets it be. -/
lemma exists_listed_applyTo (hw : w.UniqueNames) (hx : x.UniqueNames) :
    ∃ stays added : Prop, ∀ vs, (∀ v ∈ vs, v.UniqueNames) →
      (Listed (applyTo vs w) x ↔ Listed vs x ∧ stays ∨ added) := by
  cases hremoval : w.removal? with
  | none =>
    refine ⟨True, (w == x) = true, fun vs hvs => ?_⟩
    have hsingle : ∀ u ∈ [w], u.UniqueNames := by simpa using hw
    have hplain := foldl_applyTo_plain hvs hsingle (by simpa using hremoval) hx
    simpa [Listed] using hplain
  | some part =>
    have hpart := uniqueNames_of_removal? hw hremoval
    refine ⟨x.containsEntry part = false, False, fun vs hvs => ?_⟩
    rw [applyTo, hremoval, or_false]
    constructor
    · rintro ⟨v, hv, hvx⟩
      obtain ⟨hmem, hnot⟩ := List.mem_filter.mp hv
      rw [← containsEntry_congr (hvs v hmem) hx hpart hvx]
      exact ⟨⟨v, hmem, hvx⟩, by simpa using hnot⟩
    · rintro ⟨⟨v, hv, hvx⟩, hnot⟩
      rw [← containsEntry_congr (hvs v hv) hx hpart hvx] at hnot
      exact ⟨v, List.mem_filter.mpr ⟨hv, by simp [hnot]⟩, hvx⟩

/-- Values keep unique names under an update. -/
lemma uniqueNames_foldl_applyTo (hvs : ∀ v ∈ vs, v.UniqueNames) (hws : ∀ w ∈ ws, w.UniqueNames) :
    ∀ v ∈ ws.foldl applyTo vs, v.UniqueNames :=
  fun v hv => (mem_foldl_applyTo hv).elim (hvs v) (hws v)

/-- **The last operation on a value decides.**  Whether a value is there after an update depends
on what was there before in one way only: it may stay if it was there, or it is there in any case.

**Proof sketch.**  Induction on the update.  If its head lets the value stay under `stays` or adds
it under `added`, and the rest does so under `stays'` or `added'`, then the value stays under both
`stays` and `stays'`, and is added when the rest adds it or keeps what the head added. -/
lemma exists_listed_foldl_applyTo (hws : ∀ w ∈ ws, w.UniqueNames) (hx : x.UniqueNames) :
    ∃ stays added : Prop, ∀ vs, (∀ v ∈ vs, v.UniqueNames) →
      (Listed (ws.foldl applyTo vs) x ↔ Listed vs x ∧ stays ∨ added) := by
  induction ws with
  | nil => exact ⟨True, False, fun vs _ => by simp⟩
  | cons w ws ih =>
    rw [List.forall_mem_cons] at hws
    obtain ⟨stays, added, hhead⟩ := exists_listed_applyTo hws.1 hx
    obtain ⟨stays', added', hrest⟩ := ih hws.2
    refine ⟨stays ∧ stays', added ∧ stays' ∨ added', fun vs hvs => ?_⟩
    have hsingle : ∀ u ∈ [w], u.UniqueNames := by simpa using hws.1
    have hvs' : ∀ v ∈ applyTo vs w, v.UniqueNames := uniqueNames_foldl_applyTo hvs hsingle
    rw [List.foldl_cons, hrest _ hvs', hhead _ hvs]
    tauto

/-- The values of an update, applied again, change no membership. -/
lemma listed_foldl_applyTo_again (hvs : ∀ v ∈ vs, v.UniqueNames) (hws : ∀ w ∈ ws, w.UniqueNames)
    (hx : x.UniqueNames) :
    Listed (ws.foldl applyTo (ws.foldl applyTo vs)) x ↔ Listed (ws.foldl applyTo vs) x := by
  obtain ⟨stays, added, h⟩ := exists_listed_foldl_applyTo hws hx
  rw [h _ (uniqueNames_foldl_applyTo hvs hws), h _ hvs]
  tauto

end Value

/-! ## Updates made twice -/

/-- Changes that an entry already has make no difference to it. -/
lemma Entry.merge_beq_self {e changes : Entry} (he : e.UniqueNames) (hchanges : changes.UniqueNames)
    (h : ∀ k a, changes.lookup k = some a → e.lookup k = some a) :
    (e.merge changes == e) = true := by
  refine beq_of_lookup_eq (he.merge hchanges) he fun k => ?_
  rw [lookup_merge he hchanges]
  cases ha : changes.lookup k with
  | none => rfl
  | some a => exact (h k a ha).symm

namespace Attribute

variable {d : Descriptor} {u : Attribute} {o : Option Attribute}

/-- A single entry makes one entry, which has all that it changes. -/
lemma exists_applyTo_entry {changes : Entry} (hmulti : u.isMultiValued = false)
    (hvalues : u.values = [.complex changes]) (hchanges : changes.UniqueNames) {old : List Value}
    (hold : ∀ v ∈ old, v.UniqueNames) : ∃ e : Entry, u.applyTo old = [.complex e] ∧
      e.UniqueNames ∧ ∀ k a, changes.lookup k = some a → e.lookup k = some a := by
  rw [applyTo, hmulti, if_neg Bool.false_ne_true, first?, hvalues]
  split
  · rename_i e _ hhead hfirst
    cases hfirst
    have he := (Value.uniqueNames_complex e).mp (hold _ (List.mem_of_head? hhead))
    refine ⟨_, rfl, he.merge hchanges, fun k a ha => ?_⟩
    rw [Entry.lookup_merge he hchanges, ha]
    rfl
  · exact ⟨changes, rfl, hchanges, fun _ _ ha => ha⟩

/-- **An update made twice** leaves the values that it leaves when it is made once. -/
lemma sameSet_updated_updated (hu : u.Regular d) (ho : RegularAt d o) :
    Value.sameSet (valuesAt (updated u (updated u o))) (valuesAt (updated u o)) = true := by
  have honce := (ho.updated hu).uniqueNames
  have htwice := ((ho.updated hu).updated hu).uniqueNames
  simp only [Change.valuesAt_updated] at honce htwice ⊢
  cases hmulti : u.isMultiValued with
  | true =>
    refine Value.sameSet_of_listed htwice honce fun x hx => ?_
    simp only [applyTo, hmulti, if_true]
    exact Value.listed_foldl_applyTo_again ho.uniqueNames hu.uniqueNames hx
  | false =>
    have hsingle : d.isMultiValued = false := by rw [← hmulti, isMultiValued, hu.descriptor_eq]
    obtain ⟨v, hv⟩ := List.length_eq_one_iff.mp (hu.arity.single hsingle)
    cases v with
    | simple j =>
      have hsimple : ∀ old, u.applyTo old = u.values :=
        Change.applyTo_simple hmulti (by simp [hv, Value.isComplex, Value.entry?])
      rw [hsimple, hsimple]
      exact Value.sameSet_refl hu.uniqueNames
    | complex changes =>
      -- the second time the entry has all the changes already
      have hchanges := hu.uniqueNames_entry hv
      obtain ⟨e, he, heU, hhas⟩ := exists_applyTo_entry hmulti hv hchanges ho.uniqueNames
      have hagain : u.applyTo [.complex e] = [.complex (e.merge changes)] := by
        rw [applyTo, hmulti, if_neg Bool.false_ne_true, first?, hv]
        rfl
      rw [he, hagain]
      refine Value.sameSet_of_forall₂ ?_ ?_ (.cons ?_ .nil)
      · simpa using heU.merge hchanges
      · simpa using heU
      · rw [Value.complex_beq_complex]
        exact Entry.merge_beq_self heU hchanges hhas

end Attribute

/-! ## Removed sub-attributes -/

/-- Values are entries without the sub-attribute of a name. -/
def Value.Lacks (sub : String) (values : List Value) : Prop :=
  ∀ v ∈ values, ∃ e, v = .complex e ∧ e.lookup (caseKey sub) = none

namespace Attribute

variable {d : Descriptor} {u : Attribute} {o : Option Attribute} {sub : String}
  {paths : List AttributePath}

/-- What a removal leaves of a regular attribute. -/
lemma valuesAt_removed (ho : RegularAt d o) (sub : String) :
    valuesAt (removed (some sub) o) =
      (valuesAt o).filterMap (Value.restrict? fun k => k ≠ caseKey sub) := by
  cases o with
  | none => rfl
  | some a => rw [removed_eq_restrict? (ho a rfl), valuesAt_restrict?, valuesAt_some]

/-- What a restriction leaves is an entry that lost some sub-attributes. -/
lemma exists_of_mem_filterMap_restrict? {values : List Value} {p : List Char → Bool} {w : Value}
    (h : w ∈ values.filterMap (Value.restrict? p)) :
    ∃ e, Value.complex e ∈ values ∧ w = .complex (e.restrict p) := by
  obtain ⟨v, hv, hvw⟩ := List.mem_filterMap.mp h
  obtain ⟨e, rfl, rfl, -⟩ := Value.restrict?_eq_some_iff.mp hvw
  exact ⟨e, hv, rfl⟩

/-- After a removal the sub-attribute is gone. -/
lemma lacks_removed (ho : RegularAt d o) (sub : String) :
    Value.Lacks sub (valuesAt (removed (some sub) o)) := by
  intro w hw
  rw [valuesAt_removed ho] at hw
  obtain ⟨e, -, rfl⟩ := exists_of_mem_filterMap_restrict? hw
  exact ⟨_, rfl, by simp⟩

/-- A removal brings nothing back. -/
lemma lacks_removed_of_lacks (ho : RegularAt d o) (h : Value.Lacks sub (valuesAt o))
    (sub' : Option String) : Value.Lacks sub (valuesAt (removed sub' o)) := by
  cases sub' with
  | none => simp [Value.Lacks]
  | some sub' =>
    intro w hw
    rw [valuesAt_removed ho] at hw
    obtain ⟨e, he, rfl⟩ := exists_of_mem_filterMap_restrict? hw
    obtain ⟨f, hf, hnone⟩ := h _ he
    cases hf
    exact ⟨_, rfl, by simp [hnone]⟩

/-- The removal of what is not there changes nothing. -/
lemma removed_eq_self (ho : RegularAt d o) (h : Value.Lacks sub (valuesAt o)) :
    removed (some sub) o = o := by
  cases o with
  | none => rfl
  | some a =>
    have ha := ho a rfl
    rw [removed_eq_restrict? ha]
    refine restrict?_eq_some ha fun v hv => ?_
    obtain ⟨e, rfl, hnone⟩ := h v hv
    refine (ha.values _ hv).restrict?_eq_some fun x hx => decide_eq_true fun hkey => ?_
    have hnot := Keyed.get?_eq_none_iff.mp hnone
    exact hnot (hkey ▸ List.mem_map_of_mem hx)

/-- An update without a sub-attribute does not bring it back. -/
lemma lacks_updated (hu : u.Regular d) (ho : RegularAt d o) (hlacks : Value.Lacks sub u.values)
    (h : Value.Lacks sub (valuesAt o)) : Value.Lacks sub (valuesAt (updated u o)) := by
  intro v hv
  rw [Change.valuesAt_updated, applyTo] at hv
  split at hv
  · exact (Value.mem_foldl_applyTo hv).elim (h v) (hlacks v)
  · split at hv
    · rename_i e changes hhead hfirst
      have hemem := List.mem_of_head? hhead
      have hcmem := List.mem_of_head? hfirst
      have heU := (Value.uniqueNames_complex e).mp (ho.uniqueNames _ hemem)
      have hcU := (Value.uniqueNames_complex changes).mp (hu.uniqueNames _ hcmem)
      obtain ⟨_, he, henone⟩ := h _ hemem
      obtain ⟨_, hc, hcnone⟩ := hlacks _ hcmem
      cases he
      cases hc
      refine ⟨_, List.mem_singleton.mp hv, ?_⟩
      rw [Entry.lookup_merge heU hcU, hcnone, henone]
      rfl
    · exact hlacks v hv

/-- Several removals bring nothing back. -/
lemma lacks_foldl_removed_of_lacks (ho : RegularAt d o) (h : Value.Lacks sub (valuesAt o)) :
    Value.Lacks sub (valuesAt (paths.foldl (fun o p => removed p.sub o) o)) := by
  induction paths generalizing o with
  | nil => exact h
  | cons p ps ih => exact ih (ho.removed p.sub) (lacks_removed_of_lacks ho h p.sub)

/-- After several removals every named sub-attribute is gone. -/
lemma lacks_foldl_removed (ho : RegularAt d o) {p : AttributePath} (hp : p ∈ paths)
    (hsub : p.sub = some sub) :
    Value.Lacks sub (valuesAt (paths.foldl (fun o p => removed p.sub o) o)) := by
  induction paths generalizing o with
  | nil => simp at hp
  | cons q qs ih =>
    rcases List.mem_cons.mp hp with rfl | hp
    · rw [List.foldl_cons]
      refine lacks_foldl_removed_of_lacks (ho.removed p.sub) ?_
      rw [hsub]
      exact lacks_removed ho sub
    · exact ih (ho.removed q.sub) hp

/-- Several removals of what is not there change nothing. -/
lemma foldl_removed_eq_self (ho : RegularAt d o)
    (h : ∀ p ∈ paths, ∃ sub, p.sub = some sub ∧ Value.Lacks sub (valuesAt o)) :
    paths.foldl (fun o p => removed p.sub o) o = o := by
  induction paths with
  | nil => rfl
  | cons p ps ih =>
    rw [List.forall_mem_cons] at h
    obtain ⟨⟨sub, hsub, hlacks⟩, hps⟩ := h
    rw [List.foldl_cons, hsub, removed_eq_self ho hlacks]
    exact ih hps

end Attribute

/-! ## Changes made twice -/

namespace Change

variable {core : String} {s : Selector} {d : Descriptor} {a b : Attribute}
  {o p : Option Attribute} {c : Change}

/-- A change does not write what it removes: it removes the attribute as a whole, or else
sub-attributes that its update does not have. -/
def Apart (c : Change) : Prop :=
  (∃ p, c.deletions = [p] ∧ p.sub = none) ∨
    ∀ p ∈ c.deletions, ∃ sub, p.sub = some sub ∧ ∀ u ∈ c.updates, Value.Lacks sub u.values

/-- Without deletions nothing that is removed could be written. -/
lemma apart_of_deletions_eq_nil (h : c.deletions = []) : c.Apart := by
  refine .inr fun p hp => ?_
  rw [h] at hp
  exact absurd hp List.not_mem_nil

/-- The removal of the attribute as a whole. -/
lemma apart_of_path (core : String) (a : Attribute) (updates : List Attribute) :
    (⟨[path core a none], updates⟩ : Change).Apart :=
  .inl ⟨_, rfl, path_sub core a none⟩

/-- What a body carries of a change writes no more than the change. -/
lemma Apart.written (h : c.Apart) : c.written.Apart := by
  refine h.imp_right fun hsubs p hp => ?_
  obtain ⟨sub, hsub, hlacks⟩ := hsubs p hp
  exact ⟨sub, hsub, fun u hu => hlacks u (List.mem_filter.mp hu).1⟩

/-- The change of an attribute of the source only has no update. -/
lemma apart_ofRemoved (core : String) (s : Selector) (a : Attribute) :
    (ofRemoved core s a).Apart := by
  rw [ofRemoved, deletionsOf_eq]
  split
  · exact apart_of_path core a []
  · split
    · exact apart_of_path core a []
    · refine .inr fun p hp => ?_
      obtain ⟨sub, -, rfl⟩ := List.mem_map.mp hp
      exact ⟨sub.name, path_sub core a _, by simp⟩

/-- What is lost of a single entry is not in the entry of the target, and so has not changed. -/
lemma apart_ofEntry (core : String) (s : Selector) (a b : Attribute) (e : Entry) {f : Entry}
    (hf : f.UniqueNames) : (ofEntry core s a b e f).Apart := by
  rw [ofEntry_eq]
  refine .inr fun p hp => ?_
  obtain ⟨sub, hsub, rfl⟩ := List.mem_map.mp hp
  refine ⟨sub.name, path_sub core a _, fun u hu => ?_⟩
  have hnone : f.lookup (caseKey sub.name) = none := by
    have hnot := (List.mem_filter.mp hsub).2
    rw [Entry.contains, Entry.get?_eq_lookup] at hnot
    simpa using hnot
  dsimp only at hu
  split at hu
  · simp at hu
  · rw [List.mem_singleton.mp hu]
    intro v hv
    refine ⟨changed s b e f, List.mem_singleton.mp hv, ?_⟩
    rw [lookup_changed hf, hnone, Option.filter_none, ite_self]

/-- No change of an attribute that both resources have writes what it removes. -/
lemma apart_common (core : String) (s : Selector) (ha : a.Conforms d) (hb : b.Conforms d)
    (hmark : d.isMultiValued = true → d.isComplex = true → ∃ mark, d.IsMark mark) :
    (common core s a b).Apart := by
  obtain ⟨c, hc, hkind⟩ := exists_kind core s ha hb hmark
  rw [common_of_ok hc]
  cases hkind with
  | same | scalar | more | marked => exact apart_of_deletions_eq_nil rfl
  | entry _ _ _ hbv => exact apart_ofEntry core s a b _ (hb.regular.uniqueNames_entry hbv)
  | replaced | collapsed => exact apart_of_path core a _

/-- **No change writes what it removes.** -/
theorem apart_ofPair (core : String) (s : Selector) (ho : ∀ a, o = some a → a.Conforms d)
    (hp : ∀ b, p = some b → b.Conforms d)
    (hmark : d.isMultiValued = true → d.isComplex = true → ∃ mark, d.IsMark mark) :
    (ofPair core s o p).Apart :=
  ofPair_cases (apart_of_deletions_eq_nil rfl)
    (fun b _ => apart_of_deletions_eq_nil (deletions_ofAdded s b))
    (fun a _ => apart_ofRemoved core s a)
    fun a b ha hb => apart_common core s (ho a ha) (hp b hb) hmark

/-- **A change made twice** leaves the values that it leaves when it is made once, whatever
attribute it is applied to.

**Proof sketch.**  A change that removes the whole attribute does not depend on what it is applied
to.  Any other removes sub-attributes that are not in its update: the second time they are still
gone, so that only the update is made twice. -/
theorem sameSet_applyTo_applyTo (hc : c.Fits core d) (hapart : c.Apart)
    (ho : Attribute.RegularAt d o) :
    Value.sameSet (Attribute.valuesAt (c.applyTo (c.applyTo o)))
      (Attribute.valuesAt (c.applyTo o)) = true := by
  have hregular := hc.regularAt_applyTo ho
  rcases hapart with ⟨p, hp, hsub⟩ | hsubs
  · have hwhole : ∀ q, c.applyTo q = c.applyTo none := by
      intro q
      rw [applyTo, applyTo, hp]
      change (c.updates.head?.elim id Attribute.updated) (Attribute.removed p.sub q) =
        (c.updates.head?.elim id Attribute.updated) (Attribute.removed p.sub none)
      rw [hsub, Attribute.removed_none, Attribute.removed_none]
    rw [hwhole (c.applyTo o), ← hwhole o]
    exact Value.sameSet_refl hregular.uniqueNames
  · have hmem : ∀ q ∈ Keyed.distinct c.deletions, q ∈ c.deletions :=
      fun _ hq => Keyed.mem_of_mem_distinct hq
    have hleft := regularAt_foldl_removed (Keyed.distinct c.deletions) ho
    have hgone : ∀ q ∈ Keyed.distinct c.deletions, ∀ sub, q.sub = some sub → Value.Lacks sub
        (Attribute.valuesAt
          ((Keyed.distinct c.deletions).foldl (fun o p => Attribute.removed p.sub o) o)) :=
      fun q hq sub hsub => Attribute.lacks_foldl_removed ho hq hsub
    rw [applyTo] at hregular ⊢
    cases hhead : c.updates.head? with
    | none =>
      have hagain := Attribute.foldl_removed_eq_self hleft fun q hq => by
        obtain ⟨sub, hsub, -⟩ := hsubs q (hmem q hq)
        exact ⟨sub, hsub, hgone q hq sub hsub⟩
      rw [hhead] at hregular
      rw [applyTo, hhead]
      simp only [Option.elim_none, id_eq] at hregular ⊢
      rw [hagain]
      exact Value.sameSet_refl hregular.uniqueNames
    | some u =>
      have humem := List.mem_of_head? hhead
      have hu := hc.updates u humem
      have hagain := Attribute.foldl_removed_eq_self (hleft.updated hu) fun q hq => by
        obtain ⟨sub, hsub, hlacks⟩ := hsubs q (hmem q hq)
        exact ⟨sub, hsub,
          Attribute.lacks_updated hu hleft (hlacks u humem) (hgone q hq sub hsub)⟩
      rw [applyTo, hhead]
      simp only [Option.elim_some]
      rw [hagain]
      exact Attribute.sameSet_updated_updated hu hleft

end Change

/-! ## Bodies applied twice -/

namespace Diff

open Standard

variable {t : ResourceType} {source target : AttributeMap}

/-- **Applying a body again changes nothing.**  For every registered resource type, any two of its
resources and any selector, the difference and its body exist.  A service provider can apply the
body to any resource of the type, which need not be the source, and can apply it to the result
again.  The second result agrees with the first: they have the same attributes, equal ones where
there is one value and the same set of values where there may be several. -/
theorem patched_again_agrees (hregistered : t.IsRegistered) (haddressable : t.IsAddressable)
    (hmeta : t.HasCommonMeta) {sourceJson targetJson : Json}
    (hsource : AttributeMap.ofJson t sourceJson = .ok source)
    (htarget : AttributeMap.ofJson t targetJson = .ok target) (s : Selector) :
    ∃ d body, between t source target s = .ok d ∧ d.patch = .ok body ∧
      ∀ storedJson stored, AttributeMap.ofJson t storedJson = .ok stored →
        ∃ once twice, AttributeMap.patched? t.core stored body = some once ∧
          AttributeMap.patched? t.core once body = some twice ∧ twice.agrees once = true := by
  have hs := AttributeMap.conforms_of_ofJson hsource
  have ht := AttributeMap.conforms_of_ofJson htarget
  obtain ⟨d, body, hbetween, hpatch, happly⟩ :=
    exists_applied hregistered hs ht haddressable hmeta s
  refine ⟨d, body, hbetween, hpatch, fun storedJson stored hstored => ?_⟩
  have hregular := (AttributeMap.conforms_of_ofJson hstored).regular
  obtain ⟨once, honce, honceRegular, honceLookup⟩ := happly stored hregular
  obtain ⟨twice, htwice, htwiceRegular, htwiceLookup⟩ := happly once honceRegular
  refine ⟨once, twice, honce, htwice, ?_⟩
  rw [htwiceRegular.agrees_iff honceRegular]
  intro k d hd
  rw [(htwiceRegular.regularAt hd).agrees_iff (honceRegular.regularAt hd), htwiceLookup,
    honceLookup]
  have hmark := hregistered.exists_mark (ResourceType.mem_of_descriptor? hd)
  exact Change.sameSet_applyTo_applyTo (fits_ofPair hregistered hs ht s hd).written
    (Change.apart_ofPair t.core s (hs.conforms_of_lookup hd) (ht.conforms_of_lookup hd)
      hmark).written (hregular.regularAt hd)

/-- A body that marks the member `1` meets a group in which the mark matches two members and
another member uses `operation` itself. -/
theorem patched_again_agrees_members : ∃ d body once twice,
    between groupType (groupOf [[("value", "1")], [("value", "2")]])
      (groupOf [[("value", "2")]]) .all = .ok d ∧
    d.patch = .ok body ∧
    AttributeMap.patched? groupType.core (groupOf [[("value", "1")],
      [("$ref", "r"), ("value", "1")], [("operation", "delete"), ("value", "3")]]) body =
        some once ∧
    AttributeMap.patched? groupType.core once body = some twice ∧ twice.agrees once = true := by
  have hsource : AttributeMap.ofJson groupType (groupJson [[("value", "1")], [("value", "2")]]) =
      .ok (groupOf [[("value", "1")], [("value", "2")]]) := rfl
  have htarget : AttributeMap.ofJson groupType (groupJson [[("value", "2")]]) =
      .ok (groupOf [[("value", "2")]]) := rfl
  have hstored : AttributeMap.ofJson groupType (groupJson [[("value", "1")],
      [("$ref", "r"), ("value", "1")], [("operation", "delete"), ("value", "3")]]) =
      .ok (groupOf [[("value", "1")], [("$ref", "r"), ("value", "1")],
        [("operation", "delete"), ("value", "3")]]) := rfl
  obtain ⟨d, body, hbetween, hpatch, hagain⟩ :=
    patched_again_agrees isRegistered_groupType isAddressable_groupType hasCommonMeta_groupType
      hsource htarget .all
  obtain ⟨once, twice, honce, htwice, hagrees⟩ := hagain _ _ hstored
  exact ⟨d, body, once, twice, hbetween, hpatch, honce, htwice, hagrees⟩

end Diff

end Scim
