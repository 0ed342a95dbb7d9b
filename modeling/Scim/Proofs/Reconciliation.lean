import Scim.Change
import Scim.Proofs.Keyed

set_option autoImplicit false

/-!
# Lists as sets

Values are compared by a Boolean equality that is an equivalence only among well-formed values.
This module states what the removal of repetitions and the reconciliation of two lists do under
such an equality.

## Main definitions

* `Scim.EquivOn` — `==` is an equivalence among the values with a property.
* `Scim.Listed` — a list holds a value up to `==`.

## Main results

* `Scim.Keyed.listed_distinct_iff` — dropping repetitions changes no membership.
* `Scim.Keyed.reconcile_eq` — reconciling two lists without repetitions is taking both
  differences.
* `Scim.Keyed.mem_gone_iff`, `mem_fresh_iff` — what reconciling the distinct elements of two
  lists leaves of each.
-/

namespace Scim

/-- `==` is an equivalence among the values with a property. -/
structure EquivOn {β : Type} [BEq β] (P : β → Prop) : Prop where
  refl : ∀ x, P x → (x == x) = true
  symm : ∀ x y, P x → P y → (x == y) = true → (y == x) = true
  trans : ∀ x y z, P x → P y → P z → (x == y) = true → (y == z) = true → (x == z) = true

/-- Whether a list holds a value up to `==`. -/
def Listed {β : Type} [BEq β] (xs : List β) (y : β) : Prop := ∃ x ∈ xs, (x == y) = true

instance {β : Type} [BEq β] (xs : List β) (y : β) : Decidable (Listed xs y) :=
  inferInstanceAs (Decidable (∃ x ∈ xs, (x == y) = true))

variable {β : Type} [BEq β] {P : β → Prop}

/-- A list without elements holds nothing. -/
@[simp] lemma not_listed_nil (y : β) : ¬ Listed [] y := by simp [Listed]

/-- Membership in two lists one after the other. -/
lemma listed_append {xs ys : List β} {z : β} :
    Listed (xs ++ ys) z ↔ Listed xs z ∨ Listed ys z := by
  simp only [Listed, List.mem_append]
  constructor
  · rintro ⟨x, hx | hx, h⟩
    · exact .inl ⟨x, hx, h⟩
    · exact .inr ⟨x, hx, h⟩
  · rintro (⟨x, hx, h⟩ | ⟨x, hx, h⟩)
    · exact ⟨x, .inl hx, h⟩
    · exact ⟨x, .inr hx, h⟩

/-- The test that looks for an equal element on the left. -/
lemma any_beq_iff {xs : List β} {y : β} : xs.any (· == y) = true ↔ Listed xs y := by
  simp [Listed, List.any_eq_true]

namespace EquivOn

/-- An element of a list is listed. -/
lemma listed_of_mem (h : EquivOn P) {xs : List β} (hxs : ∀ x ∈ xs, P x) {x : β} (hx : x ∈ xs) :
    Listed xs x :=
  ⟨x, hx, h.refl x (hxs x hx)⟩

/-- Membership depends on a value only up to `==`. -/
lemma listed_congr (h : EquivOn P) {xs : List β} (hxs : ∀ x ∈ xs, P x) {y z : β} (hy : P y)
    (hz : P z) (hyz : (y == z) = true) : Listed xs y ↔ Listed xs z := by
  constructor
  · rintro ⟨x, hx, hxy⟩
    exact ⟨x, hx, h.trans x y z (hxs x hx) hy hz hxy hyz⟩
  · rintro ⟨x, hx, hxz⟩
    exact ⟨x, hx, h.trans x z y (hxs x hx) hz hy hxz (h.symm y z hy hz hyz)⟩

/-- The test that looks for an equal element on the right. -/
lemma contains_iff (h : EquivOn P) {xs : List β} (hxs : ∀ x ∈ xs, P x) {y : β} (hy : P y) :
    xs.contains y = true ↔ Listed xs y := by
  rw [List.contains_iff_exists_mem_beq]
  constructor
  · rintro ⟨x, hx, hyx⟩
    exact ⟨x, hx, h.symm y x hy (hxs x hx) hyx⟩
  · rintro ⟨x, hx, hxy⟩
    exact ⟨x, hx, h.symm x y (hxs x hx) hy hxy⟩

end EquivOn

namespace Keyed

/-! ## The distinct elements of a list -/

/-- The distinct elements stand in the list in the same order. -/
lemma distinct_sublist (xs : List β) : (distinct xs).Sublist xs := by
  induction xs with
  | nil => exact List.Sublist.slnil
  | cons x xs ih => exact (List.filter_sublist.trans ih).cons_cons x

/-- Distinct elements are elements. -/
lemma mem_of_mem_distinct {x : β} {xs : List β} (h : x ∈ distinct xs) : x ∈ xs :=
  (distinct_sublist xs).subset h

/-- Only the empty list has no distinct elements. -/
@[simp] lemma distinct_eq_nil_iff {xs : List β} : distinct xs = [] ↔ xs = [] := by
  cases xs <;> simp [distinct]

/-- No two of the distinct elements are equal. -/
lemma pairwise_distinct (xs : List β) :
    (distinct xs).Pairwise fun x y => (x == y) = false := by
  induction xs with
  | nil => exact List.Pairwise.nil
  | cons x xs ih =>
    rw [distinct, List.pairwise_cons]
    refine ⟨fun y hy => ?_, ih.filter _⟩
    simpa using (List.mem_filter.mp hy).2

/-- When no two elements are equal, all are kept. -/
lemma distinct_eq_self {xs : List β} (h : xs.Pairwise fun x y => (x == y) = false) :
    distinct xs = xs := by
  induction xs with
  | nil => rfl
  | cons x xs ih =>
    obtain ⟨hhead, htail⟩ := List.pairwise_cons.mp h
    rw [distinct, ih htail, List.filter_eq_self.mpr fun y hy => by rw [hhead y hy]; rfl]

/-- Every element equals a distinct one. -/
lemma listed_distinct_of_mem (h : EquivOn P) {xs : List β} (hxs : ∀ x ∈ xs, P x) {x : β}
    (hx : x ∈ xs) : Listed (distinct xs) x := by
  induction xs with
  | nil => simp at hx
  | cons y ys ih =>
    have hys : ∀ z ∈ ys, P z := fun z hz => hxs z (List.mem_cons_of_mem _ hz)
    rcases List.mem_cons.mp hx with rfl | hx'
    · exact ⟨x, List.mem_cons_self, h.refl x (hxs x hx)⟩
    · obtain ⟨z, hz, hzx⟩ := ih hys hx'
      have hPz := hys z (mem_of_mem_distinct hz)
      have hPy := hxs y List.mem_cons_self
      by_cases hyz : (y == z) = true
      · exact ⟨y, List.mem_cons_self, h.trans y z x hPy hPz (hys x hx') hyz hzx⟩
      · exact ⟨z, List.mem_cons_of_mem _ (List.mem_filter.mpr ⟨hz, by simpa using hyz⟩), hzx⟩

/-- Dropping repetitions changes no membership. -/
lemma listed_distinct_iff (h : EquivOn P) {xs : List β} (hxs : ∀ x ∈ xs, P x) {y : β}
    (hy : P y) : Listed (distinct xs) y ↔ Listed xs y := by
  constructor
  · rintro ⟨x, hx, hxy⟩
    exact ⟨x, mem_of_mem_distinct hx, hxy⟩
  · rintro ⟨x, hx, hxy⟩
    obtain ⟨z, hz, hzx⟩ := listed_distinct_of_mem h hxs hx
    have hPz := hxs z (mem_of_mem_distinct hz)
    exact ⟨z, hz, h.trans z x y hPz (hxs x hx) hy hzx hxy⟩

/-- A condition that equal elements share may be asked before or after dropping repetitions. -/
lemma distinct_filter {p : β → Bool} {xs : List β}
    (hp : ∀ x ∈ xs, ∀ y ∈ xs, (x == y) = true → p x = p y) :
    distinct (xs.filter p) = (distinct xs).filter p := by
  induction xs with
  | nil => rfl
  | cons x xs ih =>
    have ih := ih fun y hy z hz =>
      hp y (List.mem_cons_of_mem _ hy) z (List.mem_cons_of_mem _ hz)
    by_cases hx : p x = true
    · rw [List.filter_cons_of_pos hx, distinct, distinct, List.filter_cons_of_pos hx, ih,
        List.filter_comm]
    · -- what `x` would have dropped fails the condition anyway
      rw [List.filter_cons_of_neg hx, distinct, List.filter_cons_of_neg hx, ih, List.filter_filter]
      refine List.filter_congr fun y hy => ?_
      have hy' := List.mem_cons_of_mem x (mem_of_mem_distinct hy)
      by_cases hxy : (x == y) = true
      · have hpy := hp x List.mem_cons_self y hy' hxy
        simp only [Bool.not_eq_true] at hx
        simp [← hpy, hx]
      · simp [hxy]

/-! ## Reconciliation -/

/-- Of a list without repetitions, erasing the first element that equals `y` drops everything
that equals `y`. -/
lemma eraseP_eq_filter (h : EquivOn P) {xs : List β} {y : β} (hxs : ∀ x ∈ xs, P x) (hy : P y)
    (hpair : xs.Pairwise fun x z => (x == z) = false) :
    xs.eraseP (· == y) = xs.filter fun x => !(y == x) := by
  induction xs with
  | nil => rfl
  | cons x xs ih =>
    rw [List.pairwise_cons] at hpair
    have hPx := hxs x List.mem_cons_self
    have hPxs : ∀ z ∈ xs, P z := fun z hz => hxs z (List.mem_cons_of_mem _ hz)
    by_cases hxy : (x == y) = true
    · have hyx := h.symm x y hPx hy hxy
      have hall : ∀ z ∈ xs, (!(y == z)) = true := by
        intro z hz
        have hne : ¬ (y == z) = true := fun hyz => by
          have := h.trans x y z hPx hy (hPxs z hz) hxy hyz
          simp [hpair.1 z hz] at this
        simpa using hne
      rw [List.eraseP_cons_of_pos (by simpa using hxy), List.filter_cons_of_neg (by simp [hyx]),
        List.filter_eq_self.mpr hall]
    · have hyx : ¬ (y == x) = true := fun hyx => hxy (h.symm y x hy hPx hyx)
      rw [List.eraseP_cons_of_neg (by simpa using hxy),
        List.filter_cons_of_pos (by simpa using hyx), ih hPxs hpair.2]

/-- **Reconciling is taking both differences.**  Of two lists without repetitions the first
result is what the second list lacks and the second what the first lacks, each in order.

**Proof sketch.**  Induction on the second list.  When its head is in `gone`, erasing the one
element that equals it drops exactly what the head excludes, and no later element of the second
list equals the erased one, so their membership in `gone` stays. -/
lemma reconcile_eq (h : EquivOn P) {gone ys : List β} (hg : ∀ x ∈ gone, P x)
    (hys : ∀ y ∈ ys, P y) (hgone : gone.Pairwise fun x y => (x == y) = false)
    (hfresh : ys.Pairwise fun x y => (x == y) = false) :
    reconcile gone ys =
      (gone.filter fun x => !ys.any (· == x), ys.filter fun y => !gone.any (· == y)) := by
  induction ys generalizing gone with
  | nil => simp [reconcile]
  | cons y ys ih =>
    have hPy := hys y List.mem_cons_self
    have hPys : ∀ z ∈ ys, P z := fun z hz => hys z (List.mem_cons_of_mem _ hz)
    rw [List.pairwise_cons] at hfresh
    by_cases hy : gone.contains y = true
    · have hsub : (gone.eraseP (· == y)).Sublist gone := List.eraseP_sublist
      have herase := eraseP_eq_filter h hg hPy hgone
      rw [reconcile, if_pos hy, ih (fun x hx => hg x (hsub.subset hx)) hPys
        (hgone.sublist hsub) hfresh.2, herase, List.filter_filter]
      have hlisted := any_beq_iff.mpr ((h.contains_iff hg hPy).mp hy)
      congr 1
      · refine List.filter_congr fun x _ => ?_
        cases hyx : (y == x) <;> simp [hyx]
      · rw [List.filter_cons_of_neg (by simp [hlisted])]
        refine List.filter_congr fun z hz => ?_
        -- what equals a later `z` does not equal `y`
        have hkeep : (gone.filter fun x => !(y == x)).any (· == z) = gone.any (· == z) := by
          rw [Bool.eq_iff_iff, any_beq_iff, any_beq_iff]
          constructor
          · rintro ⟨x, hx, hxz⟩
            exact ⟨x, (List.mem_filter.mp hx).1, hxz⟩
          · rintro ⟨x, hx, hxz⟩
            refine ⟨x, List.mem_filter.mpr ⟨hx, ?_⟩, hxz⟩
            have hne : ¬ (y == x) = true := fun hyx => by
              have := h.trans y x z hPy (hg x hx) (hPys z hz) hyx hxz
              simp [hfresh.1 z hz] at this
            simpa using hne
        rw [hkeep]
    · have hnot : ¬ Listed gone y := fun hl => hy ((h.contains_iff hg hPy).mpr hl)
      rw [reconcile, if_neg hy, ih hg hPys hgone hfresh.2]
      have hany : ¬ gone.any (· == y) = true := fun ha => hnot (any_beq_iff.mp ha)
      simp only [Prod.mk.injEq]
      constructor
      · refine List.filter_congr fun x hx => ?_
        have hyx : (y == x) = false := by
          have hne : ¬ (y == x) = true := fun hyx => hnot ⟨x, hx, h.symm y x hPy (hg x hx) hyx⟩
          simpa using hne
        simp [hyx]
      · rw [List.filter_cons_of_pos (by simpa using hany)]

section Distinct

variable (h : EquivOn P) {xs ys : List β} (hxs : ∀ x ∈ xs, P x) (hys : ∀ y ∈ ys, P y)

include h hxs hys in
/-- Reconciling the distinct elements of two lists, with membership in the lists themselves. -/
lemma reconcile_distinct :
    reconcile (distinct xs) (distinct ys) =
      ((distinct xs).filter fun x => !ys.any (· == x),
        (distinct ys).filter fun y => !xs.any (· == y)) := by
  have hx : ∀ x ∈ distinct xs, P x := fun x hx => hxs x (mem_of_mem_distinct hx)
  have hy : ∀ y ∈ distinct ys, P y := fun y hy => hys y (mem_of_mem_distinct hy)
  rw [reconcile_eq h hx hy (pairwise_distinct xs) (pairwise_distinct ys)]
  congr 1
  · refine List.filter_congr fun x hmem => ?_
    rw [Bool.eq_iff_iff.mpr ((any_beq_iff.trans (listed_distinct_iff h hys (hx x hmem))).trans
      any_beq_iff.symm)]
  · refine List.filter_congr fun y hmem => ?_
    rw [Bool.eq_iff_iff.mpr ((any_beq_iff.trans (listed_distinct_iff h hxs (hy y hmem))).trans
      any_beq_iff.symm)]

include h hxs hys in
/-- What reconciling leaves of the first list: its distinct elements that the second lacks. -/
lemma mem_gone_iff {x : β} :
    x ∈ (reconcile (distinct xs) (distinct ys)).1 ↔ x ∈ distinct xs ∧ ¬ Listed ys x := by
  rw [reconcile_distinct h hxs hys, List.mem_filter, ← any_beq_iff]
  simp

include h hxs hys in
/-- What reconciling leaves of the second list: its distinct elements that the first lacks. -/
lemma mem_fresh_iff {y : β} :
    y ∈ (reconcile (distinct xs) (distinct ys)).2 ↔ y ∈ distinct ys ∧ ¬ Listed xs y := by
  rw [reconcile_distinct h hxs hys, List.mem_filter, ← any_beq_iff]
  simp

include h hxs hys in
/-- Reconciling leaves all of the first list exactly when the lists share nothing. -/
lemma length_gone_eq_iff :
    (reconcile (distinct xs) (distinct ys)).1.length = (distinct xs).length ↔
      ∀ x ∈ xs, ¬ Listed ys x := by
  rw [reconcile_distinct h hxs hys, List.length_filter_eq_length_iff]
  constructor
  · intro hall x hx hl
    obtain ⟨z, hz, hzx⟩ := listed_distinct_of_mem h hxs hx
    have hPz := hxs z (mem_of_mem_distinct hz)
    have hzl := (h.listed_congr hys hPz (hxs x hx) hzx).mpr hl
    simpa [any_beq_iff.mpr hzl] using hall z hz
  · intro hall x hx
    simpa using fun ha => hall x (mem_of_mem_distinct hx) (any_beq_iff.mp ha)

include h hxs hys in
/-- Reconciling leaves nothing of the first list exactly when the second holds all of it. -/
lemma gone_eq_nil_iff :
    (reconcile (distinct xs) (distinct ys)).1 = [] ↔ ∀ x ∈ xs, Listed ys x := by
  rw [List.eq_nil_iff_forall_not_mem]
  simp only [mem_gone_iff h hxs hys, not_and, not_not]
  constructor
  · intro hall x hx
    obtain ⟨z, hz, hzx⟩ := listed_distinct_of_mem h hxs hx
    exact (h.listed_congr hys (hxs z (mem_of_mem_distinct hz)) (hxs x hx) hzx).mp (hall z hz)
  · exact fun hall x hx => hall x (mem_of_mem_distinct hx)

include h hxs hys in
/-- Reconciling leaves nothing of the second list exactly when the first holds all of it. -/
lemma fresh_eq_nil_iff :
    (reconcile (distinct xs) (distinct ys)).2 = [] ↔ ∀ y ∈ ys, Listed xs y := by
  rw [List.eq_nil_iff_forall_not_mem]
  simp only [mem_fresh_iff h hxs hys, not_and, not_not]
  constructor
  · intro hall y hy
    obtain ⟨z, hz, hzy⟩ := listed_distinct_of_mem h hys hy
    exact (h.listed_congr hxs (hys z (mem_of_mem_distinct hz)) (hys y hy) hzy).mp (hall z hz)
  · exact fun hall y hy => hall y (mem_of_mem_distinct hy)

end Distinct

end Keyed

end Scim
