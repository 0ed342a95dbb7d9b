import Scim.Proofs.Reconciliation

set_option autoImplicit false

/-!
# Lists as sets

The values of a multi-valued attribute are a list that stands for a set: neither their order nor
repetitions say anything, and equality is the `==` of values, which is an equivalence on those
with unique names only.  Two lists hold the same when each holds the elements of the other.
Reconciling two lists depends on what they hold only, and is taking both differences.

## Main definitions

* `Scim.SameListed` — two lists hold the elements of each other.

## Main results

* `Scim.sameListed_iff` — they do when they hold the same.
* `Scim.Keyed.listed_gone_iff`, `listed_fresh_iff` — reconciling lists up to equality.
* `Scim.SameListed.reconcile` — reconciling depends on what the lists hold only.
* `Scim.Keyed.reconcile_eq_removeAll` — reconciling two lists is taking both differences.
-/

namespace Scim

/-! ## Lists that hold the same -/

/-- Two lists hold the elements of each other, up to `==`. -/
def SameListed {β : Type} [BEq β] (xs ys : List β) : Prop :=
  (∀ x ∈ xs, Listed ys x) ∧ ∀ y ∈ ys, Listed xs y

section Lists

variable {β : Type} [BEq β] {P : β → Prop} {xs xs' ys ys' : List β}

instance (xs ys : List β) : Decidable (SameListed xs ys) :=
  inferInstanceAs (Decidable ((∀ x ∈ xs, Listed ys x) ∧ ∀ y ∈ ys, Listed xs y))

/-- The order of the two lists does not matter. -/
lemma SameListed.symm (h : SameListed xs ys) : SameListed ys xs := And.symm h

/-- Only the empty list holds what the empty list holds. -/
lemma SameListed.eq_nil_iff (h : SameListed xs ys) : xs = [] ↔ ys = [] := by
  have hnil : ∀ {zs ws : List β}, SameListed zs ws → zs = [] → ws = [] := by
    rintro zs ws hzw rfl
    exact List.eq_nil_iff_forall_not_mem.mpr fun w hw => not_listed_nil w (hzw.2 w hw)
  exact ⟨hnil h, hnil h.symm⟩

/-- Lists one after the other hold the same when they do so one by one. -/
lemma SameListed.append (hx : SameListed xs xs') (hy : SameListed ys ys') :
    SameListed (xs ++ ys) (xs' ++ ys') := by
  have hleft : ∀ {as as' bs bs' : List β}, SameListed as as' → SameListed bs bs' →
      ∀ z ∈ as ++ bs, Listed (as' ++ bs') z := by
    intro as as' bs bs' ha hb z hz
    exact listed_append.mpr ((List.mem_append.mp hz).imp (ha.1 z) (hb.1 z))
  exact ⟨hleft hx hy, hleft hx.symm hy.symm⟩

/-- A function that respects equality may be applied to all elements. -/
lemma SameListed.map {f : β → β} (hf : ∀ x y, P x → P y → (x == y) = true → (f x == f y) = true)
    (hxs : ∀ x ∈ xs, P x) (hys : ∀ y ∈ ys, P y) (h : SameListed xs ys) :
    SameListed (xs.map f) (ys.map f) := by
  have hleft : ∀ {as bs : List β}, (∀ x ∈ as, P x) → (∀ y ∈ bs, P y) → SameListed as bs →
      ∀ z ∈ as.map f, Listed (bs.map f) z := by
    intro as bs has hbs hab z hz
    obtain ⟨x, hx, rfl⟩ := List.mem_map.mp hz
    obtain ⟨y, hy, hyx⟩ := hab.1 x hx
    exact ⟨f y, List.mem_map_of_mem hy, hf y x (hbs y hy) (has x hx) hyx⟩
  exact ⟨hleft hxs hys h, hleft hys hxs h.symm⟩

variable (h : EquivOn P) (hxs : ∀ x ∈ xs, P x) (hxs' : ∀ x ∈ xs', P x) (hys : ∀ y ∈ ys, P y)
  (hys' : ∀ y ∈ ys', P y)

section

include h hxs hys

/-- Lists hold the elements of each other when they hold the same. -/
lemma sameListed_iff : SameListed xs ys ↔ ∀ z, P z → (Listed xs z ↔ Listed ys z) := by
  constructor
  · rintro ⟨hleft, hright⟩ z hz
    constructor
    · rintro ⟨x, hx, hxz⟩
      exact (h.listed_congr hys (hxs x hx) hz hxz).mp (hleft x hx)
    · rintro ⟨y, hy, hyz⟩
      exact (h.listed_congr hxs (hys y hy) hz hyz).mp (hright y hy)
  · intro hiff
    exact ⟨fun x hx => (hiff x (hxs x hx)).mp (h.listed_of_mem hxs hx),
      fun y hy => (hiff y (hys y hy)).mpr (h.listed_of_mem hys hy)⟩

omit hxs hys in
/-- Equality with each other is the same for equal elements. -/
lemma EquivOn.beq_congr {x x' y y' : β} (hx : P x) (hx' : P x') (hy : P y) (hy' : P y')
    (hxx : (x == x') = true) (hyy : (y == y') = true) : (x == y) = (x' == y') := by
  rw [Bool.eq_iff_iff]
  constructor
  · intro hxy
    exact h.trans x' y y' hx' hy hy' (h.trans x' x y hx' hx hy (h.symm x x' hx hx' hxx) hxy) hyy
  · intro hxy
    exact h.trans x y' y hx hy' hy (h.trans x x' y' hx hx' hy' hxx hxy) (h.symm y y' hy hy' hyy)

/-- Lists share nothing when they hold nothing in common. -/
lemma forall_not_listed_iff :
    (∀ x ∈ xs, ¬ Listed ys x) ↔ ∀ z, P z → Listed xs z → ¬ Listed ys z := by
  constructor
  · rintro hnot z hz ⟨x, hx, hxz⟩
    rw [← h.listed_congr hys (hxs x hx) hz hxz]
    exact hnot x hx
  · exact fun hnot x hx => hnot x (hxs x hx) (h.listed_of_mem hxs hx)

namespace Keyed

/-- What reconciling leaves of the first list, up to equality. -/
lemma listed_gone_iff {z : β} (hz : P z) :
    Listed (reconcile (distinct xs) (distinct ys)).1 z ↔ Listed xs z ∧ ¬ Listed ys z := by
  constructor
  · rintro ⟨x, hx, hxz⟩
    obtain ⟨hmem, hnot⟩ := (mem_gone_iff h hxs hys).mp hx
    have hx := mem_of_mem_distinct hmem
    exact ⟨⟨x, hx, hxz⟩, fun hl => hnot ((h.listed_congr hys (hxs x hx) hz hxz).mpr hl)⟩
  · rintro ⟨hlisted, hnot⟩
    obtain ⟨x, hx, hxz⟩ := (listed_distinct_iff h hxs hz).mpr hlisted
    have hPx := hxs x (mem_of_mem_distinct hx)
    exact ⟨x, (mem_gone_iff h hxs hys).mpr
      ⟨hx, fun hl => hnot ((h.listed_congr hys hPx hz hxz).mp hl)⟩, hxz⟩

/-- What reconciling leaves of the second list, up to equality. -/
lemma listed_fresh_iff {z : β} (hz : P z) :
    Listed (reconcile (distinct xs) (distinct ys)).2 z ↔ Listed ys z ∧ ¬ Listed xs z := by
  constructor
  · rintro ⟨y, hy, hyz⟩
    obtain ⟨hmem, hnot⟩ := (mem_fresh_iff h hxs hys).mp hy
    have hy := mem_of_mem_distinct hmem
    exact ⟨⟨y, hy, hyz⟩, fun hl => hnot ((h.listed_congr hxs (hys y hy) hz hyz).mpr hl)⟩
  · rintro ⟨hlisted, hnot⟩
    obtain ⟨y, hy, hyz⟩ := (listed_distinct_iff h hys hz).mpr hlisted
    have hPy := hys y (mem_of_mem_distinct hy)
    exact ⟨y, (mem_fresh_iff h hxs hys).mpr
      ⟨hy, fun hl => hnot ((h.listed_congr hxs hPy hz hyz).mp hl)⟩, hyz⟩

end Keyed

end

include h hxs hxs' hys hys'

/-- Whether lists hold the same depends on what they hold only. -/
lemma SameListed.congr (hx : SameListed xs xs') (hy : SameListed ys ys') :
    SameListed xs ys ↔ SameListed xs' ys' := by
  have hx := (sameListed_iff h hxs hxs').mp hx
  have hy := (sameListed_iff h hys hys').mp hy
  rw [sameListed_iff h hxs hys, sameListed_iff h hxs' hys']
  refine forall_congr' fun z => forall_congr' fun hz => ?_
  rw [hx z hz, hy z hz]

/-- **Reconciling depends on what the lists hold only.** -/
lemma SameListed.reconcile (hx : SameListed xs xs') (hy : SameListed ys ys') :
    SameListed (Keyed.reconcile (Keyed.distinct xs) (Keyed.distinct ys)).1
        (Keyed.reconcile (Keyed.distinct xs') (Keyed.distinct ys')).1 ∧
      SameListed (Keyed.reconcile (Keyed.distinct xs) (Keyed.distinct ys)).2
        (Keyed.reconcile (Keyed.distinct xs') (Keyed.distinct ys')).2 := by
  have hx := (sameListed_iff h hxs hxs').mp hx
  have hy := (sameListed_iff h hys hys').mp hy
  have hgone : ∀ {zs ws : List β}, (∀ z ∈ zs, P z) → (∀ w ∈ ws, P w) →
      ∀ z ∈ (Keyed.reconcile (Keyed.distinct zs) (Keyed.distinct ws)).1, P z := fun hzs hws z hz =>
    hzs z (Keyed.mem_of_mem_distinct ((Keyed.mem_gone_iff h hzs hws).mp hz).1)
  have hfresh : ∀ {zs ws : List β}, (∀ z ∈ zs, P z) → (∀ w ∈ ws, P w) →
      ∀ w ∈ (Keyed.reconcile (Keyed.distinct zs) (Keyed.distinct ws)).2, P w := fun hzs hws w hw =>
    hws w (Keyed.mem_of_mem_distinct ((Keyed.mem_fresh_iff h hzs hws).mp hw).1)
  constructor
  · rw [sameListed_iff h (hgone hxs hys) (hgone hxs' hys')]
    intro z hz
    rw [Keyed.listed_gone_iff h hxs hys hz, Keyed.listed_gone_iff h hxs' hys' hz, hx z hz, hy z hz]
  · rw [sameListed_iff h (hfresh hxs hys) (hfresh hxs' hys')]
    intro z hz
    rw [Keyed.listed_fresh_iff h hxs hys hz, Keyed.listed_fresh_iff h hxs' hys' hz, hx z hz,
      hy z hz]

end Lists

/-! ## Repetitions and differences -/

section Differences

variable {β : Type} [BEq β] {P : β → Prop} {xs ys : List β}

variable (h : EquivOn P) (hxs : ∀ x ∈ xs, P x) (hys : ∀ y ∈ ys, P y)

include h hxs hys

omit hys in
/-- A list and the list without repetitions hold the same. -/
lemma sameListed_distinct : SameListed (Keyed.distinct xs) xs :=
  (sameListed_iff h (fun x hx => hxs x (Keyed.mem_of_mem_distinct hx)) hxs).mpr
    fun _ hz => Keyed.listed_distinct_iff h hxs hz

/-- Dropping repetitions does not change whether two lists hold the same. -/
lemma sameListed_distinct_iff :
    SameListed (Keyed.distinct xs) (Keyed.distinct ys) ↔ SameListed xs ys :=
  SameListed.congr h (fun x hx => hxs x (Keyed.mem_of_mem_distinct hx)) hxs
    (fun y hy => hys y (Keyed.mem_of_mem_distinct hy)) hys (sameListed_distinct h hxs)
    (sameListed_distinct h hys)

/-- Dropping repetitions does not change whether two lists share something. -/
lemma forall_not_listed_distinct_iff :
    (∀ x ∈ Keyed.distinct xs, ¬ Listed (Keyed.distinct ys) x) ↔ ∀ x ∈ xs, ¬ Listed ys x := by
  rw [forall_not_listed_iff h hxs hys,
    forall_not_listed_iff h (fun x hx => hxs x (Keyed.mem_of_mem_distinct hx))
      fun y hy => hys y (Keyed.mem_of_mem_distinct hy)]
  refine forall_congr' fun z => forall_congr' fun hz => ?_
  rw [Keyed.listed_distinct_iff h hxs hz, Keyed.listed_distinct_iff h hys hz]

/-- Sharing nothing is symmetric. -/
lemma forall_not_listed_symm (hnot : ∀ x ∈ xs, ¬ Listed ys x) : ∀ y ∈ ys, ¬ Listed xs y := by
  rintro y hy ⟨x, hx, hxy⟩
  exact hnot x hx ⟨y, hy, h.symm x y (hxs x hx) (hys y hy) hxy⟩

/-- A difference of lists keeps what the other list does not hold. -/
lemma removeAll_eq_filter : xs.removeAll ys = xs.filter fun x => !ys.any (· == x) := by
  refine List.filter_congr fun x hx => ?_
  have hcontains : ys.contains x = ys.any (· == x) :=
    Bool.eq_iff_iff.mpr ((h.contains_iff hys (hxs x hx)).trans any_beq_iff.symm)
  exact congrArg not hcontains

/-- A difference is empty when the other list holds everything. -/
lemma removeAll_eq_nil_iff : xs.removeAll ys = [] ↔ ∀ x ∈ xs, Listed ys x := by
  rw [removeAll_eq_filter h hxs hys, List.filter_eq_nil_iff]
  simp only [Bool.not_eq_true', Bool.not_eq_false, any_beq_iff]

/-- A difference is the whole list when the other list holds nothing of it. -/
lemma removeAll_eq_self_iff : xs.removeAll ys = xs ↔ ∀ x ∈ xs, ¬ Listed ys x := by
  rw [removeAll_eq_filter h hxs hys, List.filter_eq_self]
  simp only [Bool.not_eq_true', ← Bool.not_eq_true, any_beq_iff]

/-- Lists hold the same when both differences are empty. -/
lemma sameListed_iff_removeAll :
    SameListed xs ys ↔ xs.removeAll ys = [] ∧ ys.removeAll xs = [] := by
  rw [removeAll_eq_nil_iff h hxs hys, removeAll_eq_nil_iff h hys hxs]
  exact Iff.rfl

/-- **Reconciling two lists is taking both differences.** -/
lemma Keyed.reconcile_eq_removeAll :
    reconcile (distinct xs) (distinct ys) =
      ((distinct xs).removeAll (distinct ys), (distinct ys).removeAll (distinct xs)) := by
  have hx : ∀ x ∈ distinct xs, P x := fun x hx => hxs x (mem_of_mem_distinct hx)
  have hy : ∀ y ∈ distinct ys, P y := fun y hy => hys y (mem_of_mem_distinct hy)
  rw [reconcile_eq h hx hy (pairwise_distinct xs) (pairwise_distinct ys),
    removeAll_eq_filter h hx hy, removeAll_eq_filter h hy hx]

end Differences

end Scim
