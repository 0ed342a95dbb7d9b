import Scim.Proofs.Application
import Scim.Proofs.Conformance
import Scim.Proofs.Entries

set_option autoImplicit false

/-!
# The values of an attribute under removals and updates

Removals of several sub-attributes are one restriction of all entries, marked entries are one
filter, and unmarked values are added as to a set.  All of them keep attributes regular: with the
right number of values, and without empty entries or repeated names.

## Main definitions

* `Scim.Value.restrict?` — the sub-attributes of an entry whose name keys have a property.
* `Scim.Value.Regular`, `Scim.Attribute.Regular` — the invariant.

## Main results

* `Scim.Attribute.foldl_removed` — several removals.
* `Scim.Value.foldl_applyTo_marked`, `foldl_applyTo_plain` — several values of an update.
* `Scim.Attribute.RegularAt.removed`, `RegularAt.updated` — the invariant is kept.
-/

namespace Scim

/-! ## Regular attributes -/

/-- No entry of the value is empty or repeats a name. -/
structure Value.Regular (v : Value) : Prop where
  uniqueNames : v.UniqueNames
  ne_empty : ∀ e, v = .complex e → e.isEmpty = false

/-- A scalar is regular. -/
lemma Value.regular_simple (j : Json) : (Value.simple j).Regular := by
  refine ⟨Value.uniqueNames_simple j, fun e h => ?_⟩
  cases h

/-- A complex value is regular when its entry is not empty and has unique names. -/
lemma Value.regular_complex {e : Entry} :
    (Value.complex e).Regular ↔ e.UniqueNames ∧ e.isEmpty = false := by
  constructor
  · exact fun h => ⟨(Value.uniqueNames_complex e).mp h.uniqueNames, h.ne_empty e rfl⟩
  · rintro ⟨hunique, hne⟩
    refine ⟨(Value.uniqueNames_complex e).mpr hunique, fun f h => ?_⟩
    cases h
    exact hne

/-- The right number of values, of those that are left of a list. -/
lemma Descriptor.Arity.of_length_le {d : Descriptor} {values rest : List Value}
    (h : d.Arity values) (hrest : rest ≠ []) (hlen : rest.length ≤ values.length) :
    d.Arity rest := by
  refine ⟨hrest, fun hsingle => ?_⟩
  have hone := h.single hsingle
  have hpos := List.length_pos_iff.mpr hrest
  omega

namespace Attribute

/-- An attribute has the given descriptor, as many values as it allows, and regular ones. -/
structure Regular (d : Descriptor) (a : Attribute) : Prop where
  descriptor_eq : a.descriptor = d
  arity : d.Arity a.values
  values : ∀ v ∈ a.values, v.Regular

/-- An attribute that may be absent is regular if it is there. -/
def RegularAt (d : Descriptor) (o : Option Attribute) : Prop := ∀ a, o = some a → a.Regular d

variable {d : Descriptor} {a : Attribute} {o : Option Attribute}

/-- Values of regular attributes have unique names. -/
lemma Regular.uniqueNames (h : a.Regular d) : ∀ v ∈ a.values, v.UniqueNames :=
  fun v hv => (h.values v hv).uniqueNames

/-- The single entry of a regular attribute has unique names. -/
lemma Regular.uniqueNames_entry {e : Entry} (h : a.Regular d) (hvalues : a.values = [.complex e]) :
    e.UniqueNames :=
  (Value.uniqueNames_complex e).mp (h.uniqueNames _ (by simp [hvalues]))

/-- The single entry of a regular attribute is there because it is not empty. -/
lemma Regular.values_eq_ite {e : Entry} (h : a.Regular d) (hvalues : a.values = [.complex e]) :
    a.values = if e.isEmpty then [] else [.complex e] := by
  have hne := (h.values (.complex e) (by simp [hvalues])).ne_empty e rfl
  rw [hvalues, hne]
  rfl

/-- Conforming attributes are regular. -/
lemma Conforms.regular (h : a.Conforms d) : a.Regular d := by
  refine ⟨h.descriptor_eq, h.arity, fun v hv => ?_⟩
  cases hcomplex : d.isComplex with
  | false =>
    obtain ⟨j, rfl, -⟩ := h.scalars hcomplex v hv
    exact Value.regular_simple j
  | true =>
    obtain ⟨e, rfl, he⟩ := h.entries hcomplex v hv
    refine Value.regular_complex.mpr ⟨he.uniqueNames, ?_⟩
    rw [Entry.isEmpty, List.isEmpty_eq_false_iff]
    exact he.ne_nil

end Attribute

/-! ## Removals -/

namespace Value

variable {v w : Value} {p q : List Char → Bool}

/-- The sub-attributes of an entry whose name keys have a property, unless there are none.  A
scalar has no sub-attributes. -/
def restrict? (p : List Char → Bool) : Value → Option Value
  | .simple _ => none
  | .complex e => if (e.restrict p).isEmpty then none else some (.complex (e.restrict p))

/-- A restriction leaves the restricted entry of a value, and that only if it is not empty. -/
lemma restrict?_eq_some_iff : v.restrict? p = some w ↔
    ∃ e, v = .complex e ∧ w = .complex (e.restrict p) ∧ (e.restrict p).isEmpty = false := by
  cases v with
  | simple j => simp [restrict?]
  | complex e =>
    rw [restrict?]
    constructor
    · intro h
      split at h
      · cases h
      · rename_i hne
        cases h
        exact ⟨e, rfl, rfl, by simpa using hne⟩
    · rintro ⟨f, hf, rfl, hne⟩
      cases hf
      rw [hne]
      rfl

/-- What is left of a regular value is regular. -/
lemma Regular.restrict? (hv : v.Regular) (h : v.restrict? p = some w) : w.Regular := by
  obtain ⟨e, rfl, rfl, hne⟩ := restrict?_eq_some_iff.mp h
  exact regular_complex.mpr ⟨(regular_complex.mp hv).1.restrict p, hne⟩

/-- A regular entry outlives a restriction to a property that all its names have. -/
lemma Regular.restrict?_eq_some {e : Entry} (he : (complex e).Regular)
    (hp : ∀ a ∈ e.subAttributes, p a.nameKey = true) :
    (complex e).restrict? p = some (complex e) := by
  rw [Value.restrict?, Entry.restrict_eq_self hp, (regular_complex.mp he).2]
  rfl

/-- A restriction of a restriction is one restriction. -/
lemma restrict?_bind (v : Value) : (v.restrict? p).bind (restrict? q) =
    v.restrict? fun k => p k && q k := by
  cases v with
  | simple j => rfl
  | complex e =>
    simp only [restrict?]
    rw [← Entry.restrict_restrict]
    by_cases hempty : (e.restrict p).isEmpty = true
    · have hrest : ((e.restrict p).restrict q).isEmpty = true := by
        rw [Entry.isEmpty_iff] at hempty ⊢
        intro k
        rw [Entry.lookup_restrict, hempty, ite_self]
      rw [if_pos hempty, if_pos hrest]
      rfl
    · rw [if_neg hempty]
      rfl

/-- The removal of a sub-attribute is the restriction to all other names. -/
lemma withoutSub?_eq_restrict? (hv : v.UniqueNames) (sub : String) :
    v.withoutSub? sub = v.restrict? fun k => k ≠ caseKey sub := by
  cases v with
  | simple j => rfl
  | complex e =>
    rw [withoutSub?, Entry.erase_eq_restrict ((uniqueNames_complex e).mp hv)]
    rfl

end Value

namespace Attribute

variable {d : Descriptor} {a : Attribute} {o : Option Attribute}

/-- What is left of an attribute when only the sub-attributes whose name keys have a property
stay. -/
def restrict? (p : List Char → Bool) (a : Attribute) : Option Attribute :=
  let values := a.values.filterMap (Value.restrict? p)
  if values.isEmpty then none else some { a with values }

/-- What is left of a regular attribute is regular. -/
lemma Regular.restrict? (ha : a.Regular d) {p : List Char → Bool} {b : Attribute}
    (h : a.restrict? p = some b) : b.Regular d := by
  rw [Attribute.restrict?] at h
  split at h
  · cases h
  · rename_i hne
    cases h
    refine ⟨ha.descriptor_eq,
      ha.arity.of_length_le (by simpa using hne) (List.length_filterMap_le _ _), fun w hw => ?_⟩
    obtain ⟨v, hv, hvw⟩ := List.mem_filterMap.mp hw
    exact (ha.values v hv).restrict? hvw

/-- A removal from a regular attribute is a restriction. -/
lemma removed_eq_restrict? (ha : a.Regular d) (sub : String) :
    Attribute.removed (some sub) (some a) = a.restrict? fun k => k ≠ caseKey sub := by
  have hcongr : a.values.filterMap (Value.withoutSub? sub) =
      a.values.filterMap (Value.restrict? fun k => k ≠ caseKey sub) :=
    List.filterMap_congr fun v hv => Value.withoutSub?_eq_restrict? (ha.uniqueNames v hv) sub
  change (if (a.values.filterMap (Value.withoutSub? sub)).isEmpty then none
    else some { a with values := a.values.filterMap (Value.withoutSub? sub) }) = _
  rw [hcongr]
  rfl

/-- A removal keeps a regular attribute regular. -/
lemma RegularAt.removed (ho : RegularAt d o) (sub : Option String) :
    RegularAt d (Attribute.removed sub o) := by
  intro b hb
  cases sub with
  | none => cases hb
  | some sub =>
    cases o with
    | none => cases hb
    | some a => exact (ho a rfl).restrict? ((removed_eq_restrict? (ho a rfl) sub).symm.trans hb)

/-- A restriction of what a restriction leaves is one restriction. -/
lemma restrict?_bind (a : Attribute) (p q : List Char → Bool) :
    (a.restrict? p).bind (Attribute.restrict? q) = a.restrict? fun k => p k && q k := by
  have hvalues : (a.values.filterMap (Value.restrict? p)).filterMap (Value.restrict? q) =
      a.values.filterMap (Value.restrict? fun k => p k && q k) := by
    rw [List.filterMap_filterMap]
    exact List.filterMap_congr fun v _ => Value.restrict?_bind v
  rw [Attribute.restrict?, Attribute.restrict?, ← hvalues]
  by_cases hempty : (a.values.filterMap (Value.restrict? p)).isEmpty = true
  · rw [if_pos hempty, List.isEmpty_iff.mp hempty]
    rfl
  · rw [if_neg hempty]
    rfl

/-- A restriction that every value outlives leaves a regular attribute as it is. -/
lemma restrict?_eq_some (ha : a.Regular d) {p : List Char → Bool}
    (hself : ∀ v ∈ a.values, v.restrict? p = some v) : a.restrict? p = some a := by
  have hvalues : a.values.filterMap (Value.restrict? p) = a.values := by
    conv_rhs => rw [← List.filterMap_some (l := a.values)]
    exact List.filterMap_congr hself
  rw [Attribute.restrict?, hvalues, if_neg (by simpa using ha.arity.ne_nil)]
  cases a
  rfl

/-- Without a restriction a regular complex attribute loses nothing. -/
lemma restrict?_true (ha : a.Regular d) (hcomplex : ∀ v ∈ a.values, v.isComplex = true) :
    a.restrict? (fun _ => true) = some a := by
  refine restrict?_eq_some ha fun v hv => ?_
  have hv' := ha.values v hv
  have hvcomplex := hcomplex v hv
  cases v with
  | simple j => cases hvcomplex
  | complex e => exact hv'.restrict?_eq_some fun _ _ => rfl

/-- **Several removals are one restriction.**  Removing one sub-attribute after the other from a
complex attribute leaves in each entry what was not named. -/
lemma foldl_removed (ha : a.Regular d) (hcomplex : ∀ v ∈ a.values, v.isComplex = true)
    (subs : List String) :
    subs.foldl (fun o sub => Attribute.removed (some sub) o) (some a) =
      a.restrict? fun k => !(subs.map caseKey).contains k := by
  have hstep : ∀ (p : List Char → Bool) (sub : String),
      Attribute.removed (some sub) (a.restrict? p) =
        a.restrict? fun k => p k && decide (k ≠ caseKey sub) := by
    intro p sub
    rw [← restrict?_bind]
    cases hb : a.restrict? p with
    | none => rfl
    | some b => exact removed_eq_restrict? (ha.restrict? hb) sub
  have hfold : ∀ p : List Char → Bool,
      subs.foldl (fun o sub => Attribute.removed (some sub) o) (a.restrict? p) =
        a.restrict? fun k => p k && !(subs.map caseKey).contains k := by
    induction subs with
    | nil => simp
    | cons sub subs ih =>
      intro p
      rw [List.foldl_cons, hstep, ih]
      congr 1
      funext k
      by_cases hk : k = caseKey sub <;> simp [hk]
  have hall := hfold fun _ => true
  rw [restrict?_true ha hcomplex] at hall
  simpa only [Bool.true_and] using hall

end Attribute

/-! ## Updates -/

namespace Value

variable {vs ws : List Value} {w : Value}

/-- An update makes values out of the old ones and its own. -/
lemma mem_foldl_applyTo (h : w ∈ ws.foldl applyTo vs) : w ∈ vs ∨ w ∈ ws := by
  induction ws generalizing vs with
  | nil => exact .inl h
  | cons v ws ih =>
    rcases ih h with h | h
    · rw [applyTo] at h
      split at h
      · exact .inl (List.mem_filter.mp h).1
      · split at h
        · exact .inl h
        · rcases List.mem_append.mp h with h | h
          · exact .inl h
          · exact .inr (List.mem_cons.mpr (.inl (List.mem_singleton.mp h)))
    · exact .inr (List.mem_cons_of_mem _ h)

/-- **Marked entries are one filter.**  They take away every value that contains one of the
entries they were made of. -/
lemma foldl_applyTo_marked {mark : Entry → Value} {gone : List Entry}
    (hmark : ∀ e ∈ gone, (mark e).removal? = some e) (vs : List Value) :
    (gone.map mark).foldl applyTo vs = vs.filter fun v => !gone.any fun e => v.containsEntry e := by
  induction gone generalizing vs with
  | nil => simp
  | cons e gone ih =>
    rw [List.forall_mem_cons] at hmark
    have hstep : applyTo vs (mark e) = vs.filter fun v => !v.containsEntry e := by
      rw [applyTo, hmark.1]
    rw [List.map_cons, List.foldl_cons, ih hmark.2, hstep, List.filter_filter]
    refine List.filter_congr fun v _ => ?_
    rw [List.any_cons, Bool.not_or, Bool.and_comm]

/-- **Unmarked values are added as to a set.** -/
lemma foldl_applyTo_plain (hvs : ∀ v ∈ vs, v.UniqueNames) (hws : ∀ w ∈ ws, w.UniqueNames)
    (hplain : ∀ w ∈ ws, w.removal? = none) {x : Value} (hx : x.UniqueNames) :
    Listed (ws.foldl applyTo vs) x ↔ Listed vs x ∨ Listed ws x := by
  induction ws generalizing vs with
  | nil => simp
  | cons w ws ih =>
    rw [List.forall_mem_cons] at hws hplain
    have hstep : applyTo vs w = if vs.any (· == w) then vs else vs ++ [w] := by
      rw [applyTo, hplain.1]
    have hcons : Listed (w :: ws) x ↔ (w == x) = true ∨ Listed ws x := by simp [Listed]
    rw [List.foldl_cons, hstep, hcons]
    by_cases hany : vs.any (· == w) = true
    · rw [if_pos hany, ih hvs hws.2 hplain.2]
      have hlisted : (w == x) = true → Listed vs x := fun hwx =>
        (equivOn.listed_congr hvs hws.1 hx hwx).mp (any_beq_iff.mp hany)
      tauto
    · have hsingle : Listed [w] x ↔ (w == x) = true := by simp [Listed]
      have hvs' : ∀ v ∈ vs ++ [w], v.UniqueNames := by
        intro v hv
        rcases List.mem_append.mp hv with hv | hv
        · exact hvs v hv
        · rw [List.mem_singleton.mp hv]
          exact hws.1
      rw [if_neg hany, ih hvs' hws.2 hplain.2, listed_append, hsingle, or_assoc]

end Value

namespace Attribute

variable {d : Descriptor} {u : Attribute} {o : Option Attribute}

/-- The values after an update are regular when those before it and its own are. -/
lemma regular_of_mem_applyTo (hu : u.Regular d) {old : List Value} (hold : ∀ v ∈ old, v.Regular) :
    ∀ v ∈ u.applyTo old, v.Regular := by
  intro v hv
  rw [applyTo] at hv
  split at hv
  · rcases Value.mem_foldl_applyTo hv with hv | hv
    · exact hold v hv
    · exact hu.values v hv
  · split at hv
    · rename_i e changes hhead hfirst
      have he := Value.regular_complex.mp (hold _ (List.mem_of_head? hhead))
      have hchanges := Value.regular_complex.mp (hu.values _ (List.mem_of_head? hfirst))
      rw [List.mem_singleton.mp hv, Value.regular_complex]
      refine ⟨he.1.merge hchanges.1, ?_⟩
      rw [Bool.eq_false_iff, ne_eq, Entry.isEmpty_iff]
      intro hnone
      refine Bool.eq_false_iff.mp hchanges.2 (Entry.isEmpty_iff.mpr fun k => ?_)
      have hk := hnone k
      rw [Entry.lookup_merge he.1 hchanges.1, Option.or_eq_none_iff] at hk
      exact hk.1
    · exact hu.values v hv

/-- An update keeps a regular attribute regular. -/
lemma RegularAt.updated (ho : RegularAt d o) (hu : u.Regular d) :
    RegularAt d (Attribute.updated u o) := by
  intro b hb
  have hold : ∀ v ∈ o.elim [] Attribute.values, v.Regular := by
    cases o with
    | none => simp
    | some a => exact (ho a rfl).values
  rw [Attribute.updated] at hb
  split at hb
  · cases hb
  · rename_i hne
    cases hb
    refine ⟨hu.descriptor_eq, ⟨by simpa using hne, fun hsingle => ?_⟩,
      regular_of_mem_applyTo hu hold⟩
    have hmulti : u.isMultiValued = false := by
      rw [isMultiValued, hu.descriptor_eq]
      exact hsingle
    change (u.applyTo _).length = 1
    rw [applyTo, if_neg (by simp [hmulti])]
    split
    · rfl
    · exact hu.arity.single hsingle

end Attribute

end Scim
