import Scim.AttributeMap.Agreement
import Scim.Selector.Projection
import Scim.Proofs.Values

set_option autoImplicit false

/-!
# Projections and agreement

The selected part of an attribute is a list of values, that of an entry a restriction.  Two
attributes agree when their values are the same set, whether they are multi-valued or not, and
resources agree key by key.

## Main definitions

* `Scim.Selector.selects` — whether a selector takes the sub-attributes with a name key.
* `Scim.Selector.parts` — the selected parts of a list of values.
* `Scim.AttributeMap.writable` — the attributes that may be written.
* `Scim.AttributeMap.Regular` — every attribute is regular for the descriptor under its key.

## Main results

* `Scim.Attribute.RegularAt.agrees_iff` — agreement is equality of sets of values.
* `Scim.Selector.agrees_project_iff` — agreement of projections is equality of sets of parts.
* `Scim.Selector.lookup_project` — a projection, seen at one key.
* `Scim.AttributeMap.Regular.writable_agrees_iff` — agreement of resources, key by key.
-/

namespace Scim

/-! ## Sets of values -/

namespace Value

variable {vs ws : List Value}

/-- Lists hold the same values when each holds those of the other. -/
lemma sameSet_iff :
    sameSet vs ws = true ↔ (∀ v ∈ vs, Listed ws v) ∧ ∀ w ∈ ws, Listed vs w := by
  simp only [sameSet, subset, Bool.and_eq_true, List.all_eq_true, any_beq_iff]

/-- Repetitions do not matter for the set of values. -/
lemma sameSet_distinct (hvs : ∀ v ∈ vs, v.UniqueNames) (hws : ∀ w ∈ ws, w.UniqueNames) :
    sameSet (Keyed.distinct vs) (Keyed.distinct ws) = sameSet vs ws := by
  have hlisted : ∀ {xs ys : List Value}, (∀ x ∈ xs, x.UniqueNames) → (∀ y ∈ ys, y.UniqueNames) →
      ((∀ x ∈ Keyed.distinct xs, Listed (Keyed.distinct ys) x) ↔ ∀ x ∈ xs, Listed ys x) := by
    intro xs ys hxs hys
    constructor
    · intro h x hx
      obtain ⟨z, hz, hzx⟩ := Keyed.listed_distinct_of_mem equivOn hxs hx
      have hPz := hxs z (Keyed.mem_of_mem_distinct hz)
      have hl := (Keyed.listed_distinct_iff equivOn hys hPz).mp (h z hz)
      exact (equivOn.listed_congr hys hPz (hxs x hx) hzx).mp hl
    · intro h x hx
      have hmem := Keyed.mem_of_mem_distinct hx
      exact (Keyed.listed_distinct_iff equivOn hys (hxs x hmem)).mpr (h x hmem)
  rw [Bool.eq_iff_iff, sameSet_iff, sameSet_iff, hlisted hvs hws, hlisted hws hvs]

/-- Only the empty list holds nothing. -/
lemma sameSet_nil_left : sameSet [] ws = true ↔ ws = [] := by
  cases ws with
  | nil => simp [sameSet_iff]
  | cons w ws =>
    refine iff_of_false (fun h => ?_) (List.cons_ne_nil w ws)
    exact not_listed_nil w ((sameSet_iff.mp h).2 w List.mem_cons_self)

/-- Only the empty list holds nothing. -/
lemma sameSet_nil_right : sameSet vs [] = true ↔ vs = [] := by
  cases vs with
  | nil => simp [sameSet_iff]
  | cons v vs =>
    refine iff_of_false (fun h => ?_) (List.cons_ne_nil v vs)
    exact not_listed_nil v ((sameSet_iff.mp h).1 v List.mem_cons_self)

end Value

/-! ## Agreement of attributes -/

namespace Attribute

variable {d : Descriptor} {a b : Attribute} {o p : Option Attribute}

/-- The values of an attribute that may be absent. -/
def valuesAt (o : Option Attribute) : List Value := o.elim [] Attribute.values

@[simp] lemma valuesAt_none : valuesAt none = [] := rfl

@[simp] lemma valuesAt_some (a : Attribute) : valuesAt (some a) = a.values := rfl

/-- The values that a restriction leaves. -/
lemma valuesAt_restrict? (a : Attribute) (p : List Char → Bool) :
    valuesAt (a.restrict? p) = a.values.filterMap (Value.restrict? p) := by
  rw [Attribute.restrict?]
  cases a.values.filterMap (Value.restrict? p) <;> rfl

/-- The values of a regular attribute are regular. -/
lemma RegularAt.values (ho : RegularAt d o) : ∀ v ∈ valuesAt o, v.Regular := by
  cases o with
  | none => simp
  | some a => exact (ho a rfl).values

/-- Values of a regular attribute have unique names. -/
lemma RegularAt.uniqueNames (ho : RegularAt d o) : ∀ v ∈ valuesAt o, v.UniqueNames :=
  fun v hv => (ho.values v hv).uniqueNames

/-- Attributes of one descriptor agree when they hold the same set of values. -/
lemma Regular.agrees_iff (ha : a.Regular d) (hb : b.Regular d) :
    a.agrees b = true ↔ Value.sameSet a.values b.values = true := by
  rw [agrees]
  cases hmulti : a.isMultiValued with
  | true => rw [if_pos rfl]
  | false =>
    rw [if_neg Bool.false_ne_true]
    rw [isMultiValued, ha.descriptor_eq] at hmulti
    obtain ⟨v, hv⟩ := List.length_eq_one_iff.mp (ha.arity.single hmulti)
    obtain ⟨w, hw⟩ := List.length_eq_one_iff.mp (hb.arity.single hmulti)
    have hkey : a.key = b.key := by rw [key, key, ha.descriptor_eq, hb.descriptor_eq]
    have hvu : v.UniqueNames := ha.uniqueNames v (by simp [hv])
    have hwu : w.UniqueNames := hb.uniqueNames w (by simp [hw])
    rw [Attribute.beq_iff, hv, hw, Value.sameSet_iff, and_iff_right hkey]
    simp only [List.forall₂_cons, List.Forall₂.nil, and_true, List.mem_singleton, forall_eq, Listed,
      exists_eq_left]
    exact ⟨fun h => ⟨Value.equivOn.symm v w hvu hwu h, h⟩, And.right⟩

/-- **Agreement is equality of sets of values**, absence being the empty set. -/
lemma RegularAt.agrees_iff (ho : RegularAt d o) (hp : RegularAt d p) :
    Option.Rel (fun a b => a.agrees b = true) o p ↔
      Value.sameSet (valuesAt o) (valuesAt p) = true := by
  cases o with
  | none =>
    cases p with
    | none => exact iff_of_true .none rfl
    | some b =>
      rw [valuesAt_none, Value.sameSet_nil_left]
      exact iff_of_false (by rintro ⟨⟩) (hp b rfl).arity.ne_nil
  | some a =>
    cases p with
    | none =>
      rw [valuesAt_none, Value.sameSet_nil_right]
      exact iff_of_false (by rintro ⟨⟩) (ho a rfl).arity.ne_nil
    | some b =>
      rw [valuesAt_some, valuesAt_some, ← (ho a rfl).agrees_iff (hp b rfl)]
      exact ⟨by rintro ⟨⟩; assumption, fun h => .some h⟩

end Attribute

/-! ## Selected parts -/

namespace Selector

variable {s : Selector} {d : Descriptor} {vs : List Value} {o p : Option Attribute}

/-- Whether the sub-attributes with a name key take part. -/
def selects (s : Selector) (d : Descriptor) (k : List Char) : Bool :=
  s.isUnrestricted ||
    match s.selection? d.schema d.name with
    | some selection => selection.whole || selection.subs.contains k
    | none => false

/-- The selected part of a value of an attribute. -/
def part? (s : Selector) (d : Descriptor) : Value → Option Value
  | .simple j => some (.simple j)
  | .complex e => (Value.complex e).restrict? (s.selects d)

/-- The selected parts of the values of an attribute, in order. -/
def parts (s : Selector) (d : Descriptor) (vs : List Value) : List Value :=
  if s.matchesAttribute d.schema d.name then vs.filterMap (s.part? d) else []

/-- Nothing has no parts. -/
@[simp] lemma parts_nil (s : Selector) (d : Descriptor) : s.parts d [] = [] := by
  rw [parts]
  split <;> rfl

/-- Nothing of an attribute that does not take part is selected. -/
lemma selects_of_not_matches (h : s.matchesAttribute d.schema d.name = false) (k : List Char) :
    s.selects d k = false := by
  rw [matchesAttribute, Bool.or_eq_false_iff, Option.isSome_eq_false_iff, Option.isNone_iff_eq_none]
    at h
  rw [selects, h.1, h.2]
  rfl

/-- Everything of an attribute that takes part as a whole is selected. -/
lemma selects_of_whole (h : s.matchesAttribute d.schema d.name = true)
    (hwhole : s.hasSubFilter d.schema d.name = false) (k : List Char) : s.selects d k = true := by
  rw [matchesAttribute] at h
  rw [hasSubFilter] at hwhole
  rw [selects]
  cases hselection : s.selection? d.schema d.name with
  | none =>
    rw [hselection, Option.isSome_none, Bool.or_false] at h
    simp [h]
  | some selection =>
    rw [hselection] at hwhole
    have : selection.whole = true := by simpa using hwhole
    simp [this]

/-- An attribute that takes part through sub-attributes takes part. -/
lemma matches_of_hasSubFilter (h : s.hasSubFilter d.schema d.name = true) :
    s.matchesAttribute d.schema d.name = true := by
  rw [hasSubFilter] at h
  rw [matchesAttribute]
  cases hselection : s.selection? d.schema d.name with
  | none =>
    rw [hselection] at h
    cases h
  | some selection => simp

/-- The selected part of a value depends on the descriptor of its attribute only. -/
lemma projectValue?_eq (s : Selector) (a : Attribute) (v : Value) :
    s.projectValue? a v = s.part? a.descriptor v := by
  cases v <;> rfl

/-- The selected part of an attribute has the distinct parts as its values. -/
lemma projectAttribute?_eq (s : Selector) (a : Attribute) :
    s.projectAttribute? a = if (s.parts a.descriptor a.values).isEmpty then none
      else some { a with values := Keyed.distinct (s.parts a.descriptor a.values) } := by
  have hvalues : a.values.filterMap (s.projectValue? a) =
      a.values.filterMap (s.part? a.descriptor) :=
    List.filterMap_congr fun v _ => projectValue?_eq s a v
  have hempty : ∀ xs : List Value, (Keyed.distinct xs).isEmpty = xs.isEmpty := by
    intro xs
    rw [Bool.eq_iff_iff, List.isEmpty_iff, List.isEmpty_iff, Keyed.distinct_eq_nil_iff]
  rw [projectAttribute?, hvalues, parts]
  change (if s.matchesAttribute a.descriptor.schema a.descriptor.name = true then _ else _) = _
  split
  · dsimp only
    rw [hempty]
  · rfl

/-- Parts of regular values are regular. -/
lemma regular_of_mem_parts (hvs : ∀ v ∈ vs, v.Regular) : ∀ w ∈ s.parts d vs, w.Regular := by
  intro w hw
  rw [parts] at hw
  split at hw
  · obtain ⟨v, hv, hvw⟩ := List.mem_filterMap.mp hw
    cases v with
    | simple j =>
      cases hvw
      exact Value.regular_simple j
    | complex e => exact (hvs _ hv).restrict? hvw
  · simp at hw

/-- There are at most as many parts as values. -/
lemma length_parts_le (s : Selector) (d : Descriptor) (vs : List Value) :
    (s.parts d vs).length ≤ vs.length := by
  rw [parts]
  split
  · exact List.length_filterMap_le _ _
  · simp

/-- Without restriction the parts of regular values are the values. -/
lemma parts_all (hvs : ∀ v ∈ vs, v.Regular) : parts .all d vs = vs := by
  have hmatches : matchesAttribute .all d.schema d.name = true := rfl
  rw [parts, if_pos hmatches]
  conv_rhs => rw [← List.filterMap_some (l := vs)]
  refine List.filterMap_congr fun v hv => ?_
  have hv' := hvs v hv
  cases v with
  | simple j => rfl
  | complex e => exact hv'.restrict?_eq_some fun _ _ => rfl

/-- The selected part of a regular attribute is regular. -/
lemma regularAt_project (ho : Attribute.RegularAt d o) :
    Attribute.RegularAt d (o.bind s.projectAttribute?) := by
  intro b hb
  rw [Option.bind_eq_some_iff] at hb
  obtain ⟨a, rfl, hb⟩ := hb
  have ha := ho a rfl
  rw [projectAttribute?_eq, ha.descriptor_eq] at hb
  split at hb
  · cases hb
  · rename_i hne
    cases hb
    refine ⟨rfl, ha.arity.of_length_le ?_ ?_, fun w hw => ?_⟩
    · simpa using hne
    · exact (Keyed.distinct_sublist _).length_le.trans (length_parts_le s d a.values)
    · exact regular_of_mem_parts ha.values w (Keyed.mem_of_mem_distinct hw)

/-- The values of the selected part are the distinct parts. -/
lemma valuesAt_project (ho : Attribute.RegularAt d o) :
    Attribute.valuesAt (o.bind s.projectAttribute?) =
      Keyed.distinct (s.parts d (Attribute.valuesAt o)) := by
  cases o with
  | none =>
    rw [Option.bind_none, Attribute.valuesAt_none, parts_nil]
    rfl
  | some a =>
    rw [Option.bind_some, projectAttribute?_eq, (ho a rfl).descriptor_eq, Attribute.valuesAt_some]
    split
    · rename_i hempty
      rw [List.isEmpty_iff.mp hempty]
      rfl
    · rfl

/-- **Projections agree when they hold the same set of parts.** -/
lemma agrees_project_iff (ho : Attribute.RegularAt d o) (hp : Attribute.RegularAt d p) :
    Option.Rel (fun a b => a.agrees b = true) (o.bind s.projectAttribute?)
        (p.bind s.projectAttribute?) ↔
      Value.sameSet (s.parts d (Attribute.valuesAt o)) (s.parts d (Attribute.valuesAt p)) =
        true := by
  have hunique : ∀ {q : Option Attribute}, Attribute.RegularAt d q →
      ∀ w ∈ s.parts d (Attribute.valuesAt q), w.UniqueNames :=
    fun hq w hw => (regular_of_mem_parts hq.values w hw).uniqueNames
  rw [(regularAt_project ho).agrees_iff (regularAt_project hp), valuesAt_project ho,
    valuesAt_project hp, Value.sameSet_distinct (hunique ho) (hunique hp)]

/-! ## Resources -/

/-- The selected part of an attribute stands under its key. -/
lemma key_of_projectAttribute? {a b : Attribute} (h : s.projectAttribute? a = some b) :
    b.key = a.key := by
  rw [projectAttribute?_eq] at h
  split at h
  · cases h
  · cases h
    rfl

/-- The selected part of a resource is well formed. -/
lemma wellFormed_project (s : Selector) (m : AttributeMap) : (s.project m).WellFormed :=
  AttributeMap.wellFormed_ofList _

/-- **A projection, seen at one key.** -/
lemma lookup_project {m : AttributeMap} (hm : m.WellFormed) (k : List Char × List Char) :
    (s.project m).lookup k = (m.lookup k).bind s.projectAttribute? := by
  have hkey : ∀ a b : Attribute, s.projectAttribute? a = some b → b.key = a.key :=
    fun a b => key_of_projectAttribute?
  rw [project, AttributeMap.lookup_ofList (Keyed.nodup_filterMap hkey hm.nodup_toList),
    Keyed.get?_filterMap hkey hm.nodup_toList, hm.lookup_eq_get?]

end Selector

namespace AttributeMap

/-- The attributes that may be written. -/
def writable (m : AttributeMap) : AttributeMap :=
  .ofList (m.toList.filter fun a => !a.descriptor.isReadOnly)

/-- The writable part of a resource is well formed. -/
lemma wellFormed_writable (m : AttributeMap) : m.writable.WellFormed := wellFormed_ofList _

/-- The writable part of a resource, seen at one key. -/
lemma lookup_writable {m : AttributeMap} (hm : m.WellFormed) (k : List Char × List Char) :
    m.writable.lookup k = (m.lookup k).filter fun a => !a.descriptor.isReadOnly := by
  have hnodup := hm.nodup_toList.sublist
    ((List.filter_sublist (p := fun a : Attribute => !a.descriptor.isReadOnly)).map Attribute.key)
  rw [writable, lookup_ofList hnodup, Keyed.get?_filter hm.nodup_toList, hm.lookup_eq_get?]

end AttributeMap

/-! ## Resources of a type -/

namespace ResourceType

variable {t : ResourceType} {k : List Char × List Char} {d : Descriptor}

/-- The first descriptor with a key. -/
def descriptor? (t : ResourceType) (k : List Char × List Char) : Option Descriptor :=
  t.descriptors.find? fun d => decide (d.key = k)

/-- Descriptors are found by their keys. -/
lemma attribute?_eq_descriptor? (t : ResourceType) (schema name : String) :
    t.attribute? schema name = t.descriptor? (caseKey schema, caseKey name) := by
  rw [attribute?, descriptor?]
  congr 1
  funext d
  refine decide_eq_decide.mpr ?_
  rw [Descriptor.key, Prod.mk.injEq]
  exact Iff.rfl

/-- A descriptor that is found is one of the resource type. -/
lemma mem_of_descriptor? (h : t.descriptor? k = some d) : d ∈ t.descriptors :=
  List.mem_of_find?_eq_some h

/-- A descriptor that is found has the key. -/
lemma key_of_descriptor? (h : t.descriptor? k = some d) : d.key = k :=
  of_decide_eq_true (List.find?_some h :)

end ResourceType

namespace AttributeMap

variable {t : ResourceType} {m n : AttributeMap} {k : List Char × List Char} {d : Descriptor}

/-- A map is well formed and its attributes are regular as those of a resource type. -/
structure Regular (t : ResourceType) (m : AttributeMap) : Prop where
  wellFormed : m.WellFormed
  attributes : ∀ k a, m.lookup k = some a → ∃ d, t.descriptor? k = some d ∧ a.Regular d

/-- An attribute of a conforming map conforms to the descriptor of its key. -/
lemma Conforms.exists_descriptor (h : m.Conforms t) {a : Attribute} (ha : m.lookup k = some a) :
    ∃ d, t.descriptor? k = some d ∧ a.Conforms d := by
  obtain ⟨hmem, rfl⟩ := h.wellFormed.lookup_eq_some_iff.mp ha
  have hdescribed := h.described a hmem
  rw [ResourceType.attribute?_eq_descriptor?] at hdescribed
  exact ⟨a.descriptor, hdescribed, h.attributes a hmem⟩

/-- Conforming maps are regular. -/
lemma Conforms.regular (h : m.Conforms t) : m.Regular t := by
  refine ⟨h.wellFormed, fun k a ha => ?_⟩
  obtain ⟨d, hd, hconforms⟩ := h.exists_descriptor ha
  exact ⟨d, hd, hconforms.regular⟩

/-- What stands under the key of a descriptor conforms to it. -/
lemma Conforms.conforms_of_lookup (h : m.Conforms t) (hd : t.descriptor? k = some d) :
    ∀ a, m.lookup k = some a → a.Conforms d := by
  intro a ha
  obtain ⟨d', hd', hconforms⟩ := h.exists_descriptor ha
  rw [hd] at hd'
  cases hd'
  exact hconforms

/-- What stands under the key of a descriptor is regular. -/
lemma Regular.regularAt (h : m.Regular t) (hd : t.descriptor? k = some d) :
    Attribute.RegularAt d (m.lookup k) := by
  intro a ha
  obtain ⟨d', hd', hregular⟩ := h.attributes k a ha
  rw [hd] at hd'
  cases hd'
  exact hregular

/-- Nothing stands under a key without a descriptor. -/
lemma Regular.lookup_eq_none (h : m.Regular t) (hd : t.descriptor? k = none) :
    m.lookup k = none := by
  by_contra hne
  obtain ⟨a, ha⟩ := Option.ne_none_iff_exists'.mp hne
  obtain ⟨d, hd', -⟩ := h.attributes k a ha
  rw [hd] at hd'
  cases hd'

/-- The selected part of a regular map is regular. -/
lemma Regular.project (h : m.Regular t) (s : Selector) : (s.project m).Regular t := by
  refine ⟨s.wellFormed_project m, fun k a ha => ?_⟩
  rw [Selector.lookup_project h.wellFormed] at ha
  cases hd : t.descriptor? k with
  | none =>
    rw [h.lookup_eq_none hd] at ha
    cases ha
  | some d => exact ⟨d, rfl, Selector.regularAt_project (h.regularAt hd) a ha⟩

/-- Regular maps agree when they agree under the keys of all descriptors. -/
lemma Regular.agrees_iff (hm : m.Regular t) (hn : n.Regular t) : m.agrees n = true ↔
    ∀ k d, t.descriptor? k = some d →
      Option.Rel (fun a b => a.agrees b = true) (m.lookup k) (n.lookup k) := by
  rw [AttributeMap.agrees_iff hm.wellFormed hn.wellFormed]
  constructor
  · exact fun h k _ _ => h k
  · intro h k
    cases hd : t.descriptor? k with
    | none =>
      rw [hm.lookup_eq_none hd, hn.lookup_eq_none hd]
      exact .none
    | some d => exact h k d hd

/-- The writable parts of regular maps agree when the maps agree under the keys of all writable
descriptors. -/
lemma Regular.writable_agrees_iff (hm : m.Regular t) (hn : n.Regular t) :
    m.writable.agrees n.writable = true ↔
      ∀ k d, t.descriptor? k = some d → d.isReadOnly = false →
        Option.Rel (fun a b => a.agrees b = true) (m.lookup k) (n.lookup k) := by
  -- under the key of a descriptor all or nothing is writable
  have hfilter : ∀ {x : AttributeMap}, x.Regular t → ∀ {k d}, t.descriptor? k = some d →
      x.writable.lookup k = if d.isReadOnly then none else x.lookup k := by
    intro x hx k d hd
    rw [lookup_writable hx.wellFormed]
    cases ha : x.lookup k with
    | none => simp
    | some a =>
      rw [Option.filter, (hx.regularAt hd a ha).descriptor_eq]
      cases d.isReadOnly <;> rfl
  have hwritable : ∀ {x : AttributeMap}, x.Regular t → x.writable.Regular t := by
    intro x hx
    refine ⟨wellFormed_writable x, fun k a ha => hx.attributes k a ?_⟩
    rw [lookup_writable hx.wellFormed] at ha
    exact (Option.filter_eq_some_iff.mp ha).1
  rw [(hwritable hm).agrees_iff (hwritable hn)]
  refine forall_congr' fun k => forall_congr' fun d => forall_congr' fun hd => ?_
  rw [hfilter hm hd, hfilter hn hd]
  cases hread : d.isReadOnly with
  | true => exact iff_of_true .none fun h => by cases h
  | false => simp

end AttributeMap

end Scim
