import Mathlib
import Scim.Keyed

set_option autoImplicit false

/-!
# Laws of lists with one element per key

What a look-up answers after an insertion, an erasure or a filter, and which keys a list then
holds.  Insertion into any list obeys the look-up law of a map; erasure does so when no key
occurs twice, which every operation preserves.

## Main results

* `Scim.Keyed.get?_insert`, `get?_erase`, `get?_filter` — look-ups after each operation.
* `Scim.Keyed.insert_eq_map`, `insert_of_not_mem`, `erase_eq_filter` — where things stand after
  each operation.
* `Scim.Keyed.nodup_insert`, `nodup_erase`, `nodup_ofList` — no operation repeats a key.
* `Scim.Keyed.ofList_eq_self` — a list without repeated keys is its own keyed list.
* `Scim.Keyed.forall_found_iff` — two lists that are equally long and in which each element of
  the first finds a partner in the second are related key by key.
* `Scim.Keyed.filter_flatMap` — what several elements contribute under one key is what the
  element with that key contributes.
-/

namespace Scim.Keyed

variable {α κ : Type} [DecidableEq κ] {key : α → κ}

/-! ## Look-ups -/

/-- What a look-up finds is in the list. -/
lemma mem_of_get? {k : κ} {x : α} {xs : List α} (h : get? key k xs = some x) : x ∈ xs := by
  induction xs with
  | nil => simp [get?] at h
  | cons y ys ih =>
    rw [get?] at h
    split at h
    · simp_all
    · exact List.mem_cons_of_mem _ (ih h)

/-- What a look-up finds has the key that was looked up. -/
lemma key_of_get? {k : κ} {x : α} {xs : List α} (h : get? key k xs = some x) : key x = k := by
  induction xs with
  | nil => simp [get?] at h
  | cons y ys ih =>
    rw [get?] at h
    split at h
    · simp_all
    · exact ih h

/-- A look-up fails exactly for the keys that the list does not hold. -/
lemma get?_eq_none_iff {k : κ} {xs : List α} : get? key k xs = none ↔ k ∉ xs.map key := by
  induction xs with
  | nil => simp [get?]
  | cons y ys ih =>
    by_cases hk : key y = k
    · simp [get?, hk]
    · have hk' : k ≠ key y := fun h => hk h.symm
      simp only [get?, if_neg hk, ih, List.map_cons, List.mem_cons, hk', false_or]

/-- A look-up succeeds exactly for the keys that the list holds. -/
lemma isSome_get?_iff {k : κ} {xs : List α} :
    (get? key k xs).isSome = true ↔ k ∈ xs.map key := by
  rw [Option.isSome_iff_ne_none, ne_eq, get?_eq_none_iff, not_not]

/-- An element whose key occurs once is found under it. -/
lemma get?_of_mem {x : α} {xs : List α} (hxs : (xs.map key).Nodup) (hx : x ∈ xs) :
    get? key (key x) xs = some x := by
  induction xs with
  | nil => simp at hx
  | cons y ys ih =>
    rw [List.map_cons, List.nodup_cons] at hxs
    rcases List.mem_cons.mp hx with rfl | hx
    · simp [get?]
    · have hne : key y ≠ key x := fun h => hxs.1 (h ▸ List.mem_map_of_mem hx)
      rw [get?, if_neg hne, ih hxs.2 hx]

/-- In a list without repeated keys a look-up finds exactly the element with that key. -/
lemma get?_eq_some_iff {k : κ} {x : α} {xs : List α} (hxs : (xs.map key).Nodup) :
    get? key k xs = some x ↔ x ∈ xs ∧ key x = k := by
  constructor
  · exact fun h => ⟨mem_of_get? h, key_of_get? h⟩
  · rintro ⟨hx, rfl⟩
    exact get?_of_mem hxs hx

/-- A filter keeps a found element when it satisfies the condition. -/
lemma get?_filter {p : α → Bool} {k : κ} {xs : List α} (hxs : (xs.map key).Nodup) :
    get? key k (xs.filter p) = (get? key k xs).filter p := by
  induction xs with
  | nil => simp [get?]
  | cons x xs ih =>
    rw [List.map_cons, List.nodup_cons] at hxs
    by_cases hk : key x = k
    · subst hk
      by_cases hp : p x
      · simp [get?, Option.filter, hp]
      · have hnone : get? key (key x) xs = none := get?_eq_none_iff.mpr hxs.1
        simp [get?, Option.filter, hp, ih hxs.2, hnone]
    · by_cases hp : p x <;> simp [get?, hk, hp, ih hxs.2]

/-- The same condition on the key alone: it may be asked before the look-up. -/
lemma get?_filter_key {p : κ → Bool} (k : κ) (xs : List α) :
    get? key k (xs.filter fun x => p (key x)) = if p k then get? key k xs else none := by
  induction xs with
  | nil => simp [get?]
  | cons x xs ih =>
    by_cases hk : key x = k
    · subst hk
      by_cases hp : p (key x)
      · simp [get?, hp]
      · simpa [hp] using ih
    · by_cases hp : p (key x) <;> simp [get?, hk, hp, ih]

/-- A map that keeps keys maps what is found. -/
lemma get?_filterMap {β : Type} {key' : β → κ} {f : α → Option β}
    (hf : ∀ x y, f x = some y → key' y = key x) {k : κ} {xs : List α}
    (hxs : (xs.map key).Nodup) :
    get? key' k (xs.filterMap f) = (get? key k xs).bind f := by
  induction xs with
  | nil => simp [get?]
  | cons x xs ih =>
    rw [List.map_cons, List.nodup_cons] at hxs
    cases hfx : f x with
    | none =>
      rw [List.filterMap_cons_none hfx, ih hxs.2]
      by_cases hk : key x = k
      · have hnone : get? key k xs = none := get?_eq_none_iff.mpr (hk ▸ hxs.1)
        simp [get?, hk, hfx, hnone]
      · simp [get?, hk]
    | some y =>
      rw [List.filterMap_cons_some hfx, get?, get?, hf x y hfx, ih hxs.2]
      by_cases hk : key x = k <;> simp [hk, hfx]

omit [DecidableEq κ] in
/-- The keys that a map which keeps keys leaves are among the old ones, in their order. -/
lemma map_filterMap_sublist {β : Type} {key' : β → κ} {f : α → Option β}
    (hf : ∀ x y, f x = some y → key' y = key x) (xs : List α) :
    ((xs.filterMap f).map key').Sublist (xs.map key) := by
  induction xs with
  | nil => exact List.Sublist.refl _
  | cons x xs ih =>
    cases hfx : f x with
    | none =>
      rw [List.filterMap_cons_none hfx]
      exact ih.cons _
    | some y =>
      rw [List.filterMap_cons_some hfx, List.map_cons, List.map_cons, hf x y hfx]
      exact ih.cons_cons _

omit [DecidableEq κ] in
/-- A map that keeps keys repeats none. -/
lemma nodup_filterMap {β : Type} {key' : β → κ} {f : α → Option β}
    (hf : ∀ x y, f x = some y → key' y = key x) {xs : List α} (hxs : (xs.map key).Nodup) :
    ((xs.filterMap f).map key').Nodup :=
  hxs.sublist (map_filterMap_sublist hf xs)

/-! ## Insertion -/

/-- One step of an insertion. -/
lemma insert_cons (x y : α) (ys : List α) :
    (insert key x (y :: ys)).2 =
      if key y = key x then x :: ys else y :: (insert key x ys).2 := by
  rw [insert]
  split <;> rfl

/-- After an insertion the new element stands under its key and everything else as before. -/
@[simp] lemma get?_insert (x : α) (k : κ) (xs : List α) :
    get? key k (insert key x xs).2 = if key x = k then some x else get? key k xs := by
  induction xs with
  | nil => simp [insert, get?]
  | cons y ys ih =>
    rw [insert_cons]
    by_cases hy : key y = key x
    · by_cases hk : key x = k <;> simp [get?, hy, hk]
    · rw [if_neg hy, get?, ih]
      by_cases hk : key x = k
      · rw [if_neg (hk ▸ hy), if_pos hk, if_pos hk]
      · simp [get?, hk]

/-- An insertion adds the key of the new element at the end, unless it is there. -/
lemma map_key_insert (x : α) (xs : List α) :
    (insert key x xs).2.map key =
      if key x ∈ xs.map key then xs.map key else xs.map key ++ [key x] := by
  induction xs with
  | nil => simp [insert]
  | cons y ys ih =>
    by_cases hy : key y = key x
    · simp [insert_cons, hy]
    · have hy' : key x ≠ key y := fun h => hy h.symm
      simp only [insert_cons, if_neg hy, List.map_cons, ih, List.mem_cons, hy', false_or]
      split <;> simp

/-- The keys after an insertion are the old ones and the new one. -/
lemma mem_map_key_insert {x : α} {k : κ} {xs : List α} :
    k ∈ (insert key x xs).2.map key ↔ k ∈ xs.map key ∨ k = key x := by
  rw [map_key_insert]
  split
  · rename_i hx
    exact ⟨.inl, fun h => h.elim id fun hk => hk ▸ hx⟩
  · rw [List.mem_append, List.mem_singleton]

/-- An insertion repeats no key. -/
lemma nodup_insert {x : α} {xs : List α} (hxs : (xs.map key).Nodup) :
    ((insert key x xs).2.map key).Nodup := by
  rw [map_key_insert]
  split
  · exact hxs
  · rename_i hx
    rw [List.nodup_append]
    refine ⟨hxs, List.nodup_singleton _, fun a ha b hb => ?_⟩
    rw [List.mem_singleton.mp hb]
    exact fun h => hx (h ▸ ha)

/-- After an insertion the list holds the new element and old ones of other keys. -/
lemma mem_insert {x y : α} {xs : List α} (h : y ∈ (insert key x xs).2) : y = x ∨ y ∈ xs := by
  induction xs with
  | nil => exact .inl (by simpa [insert] using h)
  | cons z zs ih =>
    rw [insert_cons] at h
    split at h
    · rcases List.mem_cons.mp h with h | h
      · exact .inl h
      · exact .inr (List.mem_cons_of_mem _ h)
    · rcases List.mem_cons.mp h with h | h
      · exact .inr (h ▸ List.mem_cons_self)
      · exact (ih h).imp_right (List.mem_cons_of_mem _)

/-- An element with a new key goes to the end. -/
lemma insert_of_not_mem {x : α} {xs : List α} (hx : key x ∉ xs.map key) :
    (insert key x xs).2 = xs ++ [x] := by
  induction xs with
  | nil => rfl
  | cons y ys ih =>
    rw [List.map_cons, List.mem_cons, not_or] at hx
    rw [insert_cons, if_neg (Ne.symm hx.1), List.cons_append, ih hx.2]

/-- Without repeated keys an insertion under a key of the list replaces the element with it. -/
lemma insert_eq_map {x : α} {xs : List α} (hxs : (xs.map key).Nodup) (hx : key x ∈ xs.map key) :
    (insert key x xs).2 = xs.map fun y => if key y = key x then x else y := by
  induction xs with
  | nil => simp at hx
  | cons y ys ih =>
    rw [List.map_cons, List.nodup_cons] at hxs
    rw [insert_cons, List.map_cons]
    by_cases hy : key y = key x
    · have hrest : ∀ z ∈ ys, (if key z = key x then x else z) = z := by
        intro z hz
        refine if_neg fun h => hxs.1 ?_
        rw [hy, ← h]
        exact List.mem_map_of_mem hz
      rw [if_pos hy, if_pos hy, List.map_congr_left hrest, List.map_id']
    · have hx' : key x ∈ ys.map key := (List.mem_cons.mp hx).resolve_left (Ne.symm hy)
      rw [if_neg hy, if_neg hy, ih hxs.2 hx']

/-- The list after an insertion is not empty. -/
lemma insert_ne_nil (x : α) (xs : List α) : (insert key x xs).2 ≠ [] := by
  cases xs with
  | nil => simp [insert]
  | cons y ys => rw [insert_cons]; split <;> simp

/-! ## Erasure -/

/-- One step of an erasure. -/
lemma erase_cons (k : κ) (y : α) (ys : List α) :
    (erase key k (y :: ys)).2 = if key y = k then ys else y :: (erase key k ys).2 := by
  rw [erase]
  split <;> rfl

/-- An erasure leaves a part of the list, in order. -/
lemma erase_sublist (key : α → κ) (k : κ) (xs : List α) : (erase key k xs).2.Sublist xs := by
  induction xs with
  | nil => simp [erase]
  | cons y ys ih =>
    rw [erase_cons]
    split
    · exact List.sublist_cons_self y ys
    · exact ih.cons_cons y

/-- An erasure repeats no key. -/
lemma nodup_erase {k : κ} {xs : List α} (hxs : (xs.map key).Nodup) :
    ((erase key k xs).2.map key).Nodup :=
  hxs.sublist ((erase_sublist key k xs).map key)

/-- Without repeated keys an erasure keeps exactly the elements of other keys. -/
lemma erase_eq_filter {k : κ} {xs : List α} (hxs : (xs.map key).Nodup) :
    (erase key k xs).2 = xs.filter fun x => key x ≠ k := by
  induction xs with
  | nil => rfl
  | cons y ys ih =>
    rw [List.map_cons, List.nodup_cons] at hxs
    by_cases hy : key y = k
    · have hall : ∀ x ∈ ys, decide (key x ≠ k) = true := by
        intro x hx
        exact decide_eq_true fun h => hxs.1 (hy ▸ h ▸ List.mem_map_of_mem hx)
      rw [erase_cons, if_pos hy, List.filter_cons_of_neg (by simp [hy]),
        List.filter_eq_self.mpr hall]
    · rw [erase_cons, if_neg hy, List.filter_cons_of_pos (by simp [hy]), ← ih hxs.2]

/-- An erasure of a key that the list does not hold changes nothing. -/
lemma erase_of_get?_eq_none {k : κ} {xs : List α} (h : get? key k xs = none) :
    (erase key k xs).2 = xs := by
  induction xs with
  | nil => rfl
  | cons y ys ih =>
    rw [get?] at h
    by_cases hy : key y = k
    · rw [if_pos hy] at h
      cases h
    · rw [if_neg hy] at h
      rw [erase_cons, if_neg hy, ih h]

/-- After an erasure nothing stands under its key and everything else as before. -/
lemma get?_erase {k k' : κ} {xs : List α} (hxs : (xs.map key).Nodup) :
    get? key k (erase key k' xs).2 = if k' = k then none else get? key k xs := by
  rw [erase_eq_filter hxs, get?_filter_key (p := fun x => decide (x ≠ k')) k xs]
  by_cases hk : k' = k
  · simp [hk]
  · simp [hk, Ne.symm hk]

/-- Erasing what was inserted under a new key leaves the list as it was. -/
lemma erase_insert {x : α} {xs : List α} (hx : key x ∉ xs.map key) :
    (erase key (key x) (insert key x xs).2).2 = xs := by
  induction xs with
  | nil => rw [insert, erase_cons, if_pos rfl]
  | cons y ys ih =>
    rw [List.map_cons, List.mem_cons, not_or] at hx
    rw [insert_cons, if_neg (Ne.symm hx.1), erase_cons, if_neg (Ne.symm hx.1), ih hx.2]

/-- Where a look-up finds an element, an insertion puts a new one under its key, and an erasure
leaves nothing. -/
lemma exists_append_of_get? {k : κ} {y : α} {xs : List α} (h : get? key k xs = some y) :
    ∃ before behind, xs = before ++ y :: behind ∧
      (∀ x, key x = k → (insert key x xs).2 = before ++ x :: behind) ∧
      (erase key k xs).2 = before ++ behind := by
  induction xs with
  | nil => cases h
  | cons z zs ih =>
    rw [get?] at h
    by_cases hz : key z = k
    · rw [if_pos hz] at h
      cases h
      refine ⟨[], zs, rfl, fun x hx => ?_, ?_⟩
      · rw [insert_cons, if_pos (hz.trans hx.symm), List.nil_append]
      · rw [erase_cons, if_pos hz, List.nil_append]
    · rw [if_neg hz] at h
      obtain ⟨before, behind, rfl, hinsert, herase⟩ := ih h
      refine ⟨z :: before, behind, rfl, fun x hx => ?_, ?_⟩
      · rw [insert_cons, if_neg fun he => hz (he.trans hx), hinsert x hx, List.cons_append]
      · rw [erase_cons, if_neg hz, herase, List.cons_append]

/-! ## The number of keys -/

/-- Without repeated keys there are as many elements as keys under which one is found. -/
lemma encard_found {xs : List α} (hxs : (xs.map key).Nodup) :
    {k | (get? key k xs).isSome = true}.encard = xs.length := by
  have hfound : {k | (get? key k xs).isSome = true} = ((xs.map key).toFinset : Set κ) := by
    ext k
    rw [List.coe_toFinset, Set.mem_ofPred_eq, Set.mem_ofPred_eq, isSome_get?_iff]
  rw [hfound, Set.encard_coe_eq_coe_finsetCard, List.toFinset_card_of_nodup hxs, List.length_map]

/-! ## Keyed lists of a list -/

/-- The keyed list of one more element. -/
lemma ofList_append (xs : List α) (x : α) :
    ofList key (xs ++ [x]) = (insert key x (ofList key xs)).2 := by
  rw [ofList, List.foldl_append]
  rfl

/-- A keyed list repeats no key. -/
lemma nodup_ofList (xs : List α) : ((ofList key xs).map key).Nodup := by
  induction xs using List.reverseRecOn with
  | nil => exact List.nodup_nil
  | append_singleton xs x ih =>
    rw [ofList_append]
    exact nodup_insert ih

/-- A keyed list holds elements of the list it was made of. -/
lemma mem_ofList {x : α} {xs : List α} (h : x ∈ ofList key xs) : x ∈ xs := by
  induction xs using List.reverseRecOn with
  | nil => exact h
  | append_singleton xs y ih =>
    rw [ofList_append] at h
    rw [List.mem_append, List.mem_singleton]
    exact (mem_insert h).symm.imp_left ih

/-- A list without repeated keys is its own keyed list. -/
lemma ofList_eq_self {xs : List α} (hxs : (xs.map key).Nodup) : ofList key xs = xs := by
  induction xs using List.reverseRecOn with
  | nil => rfl
  | append_singleton xs x ih =>
    rw [List.map_append, List.map_singleton, ← List.concat_eq_append, List.nodup_concat] at hxs
    rw [ofList_append, ih hxs.2, insert_of_not_mem hxs.1]

/-- The keyed list of a list with an element is not empty. -/
lemma ofList_eq_nil_iff {xs : List α} : ofList key xs = [] ↔ xs = [] := by
  constructor
  · intro h
    rcases List.eq_nil_or_concat xs with rfl | ⟨ys, y, rfl⟩
    · rfl
    · rw [List.concat_eq_append, ofList_append] at h
      exact absurd h (insert_ne_nil _ _)
  · rintro rfl
    rfl

/-- A keyed list has the keys of the list it was made of. -/
lemma mem_map_key_ofList {k : κ} {xs : List α} :
    k ∈ (ofList key xs).map key ↔ k ∈ xs.map key := by
  induction xs using List.reverseRecOn with
  | nil => rfl
  | append_singleton xs x ih =>
    rw [ofList_append, mem_map_key_insert, ih, List.map_append, List.mem_append,
      List.map_singleton, List.mem_singleton]

/-- The keyed list of a rearrangement of a list without repeated keys answers like that list. -/
lemma get?_ofList_of_mem_iff {xs ys : List α} (hxs : (xs.map key).Nodup)
    (h : ∀ x, x ∈ ys ↔ x ∈ xs) (k : κ) : get? key k (ofList key ys) = get? key k xs := by
  ext x
  rw [get?_eq_some_iff (nodup_ofList ys), get?_eq_some_iff hxs]
  constructor
  · rintro ⟨hx, hk⟩
    exact ⟨(h x).mp (mem_ofList hx), hk⟩
  · rintro ⟨hx, rfl⟩
    have hkey : key x ∈ (ofList key ys).map key :=
      mem_map_key_ofList.mpr (List.mem_map_of_mem ((h x).mpr hx))
    obtain ⟨y, hy, hyx⟩ := List.mem_map.mp hkey
    have hsame := List.inj_on_of_nodup_map hxs ((h y).mp (mem_ofList hy)) hx hyx
    exact ⟨hsame ▸ hy, rfl⟩

/-! ## Comparing two keyed lists -/

/-- **Comparison key by key.**  When neither list repeats a key, being equally long and finding
for each element of the first a partner in the second is a relation between the look-ups under
every key.

**Proof sketch.**  The keys of the first list are among those of the second.  Both lists hold
each key once and are equally long, so they hold the same keys, and a key of the second that the
first lacked would be one too many. -/
lemma forall_found_iff {R : α → α → Prop} {xs ys : List α} (hxs : (xs.map key).Nodup)
    (hys : (ys.map key).Nodup) :
    (xs.length = ys.length ∧ ∀ x ∈ xs, ∃ y, get? key (key x) ys = some y ∧ R x y) ↔
      ∀ k, Option.Rel R (get? key k xs) (get? key k ys) := by
  constructor
  · rintro ⟨hlen, hfound⟩ k
    have hsub : xs.map key ⊆ ys.map key := by
      intro k hk
      obtain ⟨x, hx, rfl⟩ := List.mem_map.mp hk
      obtain ⟨y, hy, -⟩ := hfound x hx
      exact key_of_get? hy ▸ List.mem_map_of_mem (mem_of_get? hy)
    have hperm : (xs.map key).Perm (ys.map key) :=
      (hxs.subperm hsub).perm_of_length_le (by simp [hlen])
    cases hx : get? key k xs with
    | none =>
      have hk : k ∉ ys.map key := fun h => get?_eq_none_iff.mp hx (hperm.mem_iff.mpr h)
      rw [get?_eq_none_iff.mpr hk]
      exact .none
    | some x =>
      obtain ⟨y, hy, hR⟩ := hfound x (mem_of_get? hx)
      rw [key_of_get? hx] at hy
      rw [hy]
      exact .some hR
  · intro hrel
    have hfound : ∀ x ∈ xs, ∃ y, get? key (key x) ys = some y ∧ R x y := by
      intro x hx
      have h := hrel (key x)
      rw [get?_of_mem hxs hx] at h
      cases hy : get? key (key x) ys with
      | none => rw [hy] at h; cases h
      | some y =>
        rw [hy] at h
        cases h with
        | some hR => exact ⟨y, rfl, hR⟩
    have hkeys : ∀ k, k ∈ xs.map key ↔ k ∈ ys.map key := by
      intro k
      have h := hrel k
      rw [← not_iff_not, ← get?_eq_none_iff, ← get?_eq_none_iff]
      cases hx : get? key k xs with
      | none =>
        rw [hx] at h
        cases hy : get? key k ys with
        | none => simp
        | some y => rw [hy] at h; cases h
      | some x =>
        rw [hx] at h
        cases hy : get? key k ys with
        | none => rw [hy] at h; cases h
        | some y => simp
    refine ⟨?_, hfound⟩
    simpa using ((List.perm_ext_iff_of_nodup hxs hys).mpr hkeys).length_eq

/-! ## Contributions by key -/

/-- When each element contributes things that carry its own key, those with a given key are the
contribution of the element with that key. -/
lemma filter_flatMap {β : Type} {tag : β → κ} {f : α → List β} {xs : List α}
    (hxs : (xs.map key).Nodup) (hf : ∀ x ∈ xs, ∀ y ∈ f x, tag y = key x) (k : κ) :
    (xs.flatMap f).filter (fun y => decide (tag y = k)) = ((get? key k xs).map f).getD [] := by
  induction xs with
  | nil => simp [get?]
  | cons x xs ih =>
    rw [List.map_cons, List.nodup_cons] at hxs
    have ih := ih hxs.2 fun y hy => hf y (List.mem_cons_of_mem _ hy)
    have hx := hf x List.mem_cons_self
    rw [List.flatMap_cons, List.filter_append, ih, get?]
    by_cases hk : key x = k
    · have hall : (f x).filter (fun y => decide (tag y = k)) = f x :=
        List.filter_eq_self.mpr fun y hy => by simp [hx y hy, hk]
      have hnone : get? key k xs = none := get?_eq_none_iff.mpr (hk ▸ hxs.1)
      simp [hall, hnone, hk]
    · have hno : (f x).filter (fun y => decide (tag y = k)) = [] :=
        List.filter_eq_nil_iff.mpr fun y hy => by simp [hx y hy, hk]
      simp [hno, hk]

/-- Nothing is contributed when no key contributes. -/
lemma flatMap_eq_nil_iff {β : Type} {f : α → List β} {xs : List α} (hxs : (xs.map key).Nodup) :
    xs.flatMap f = [] ↔ ∀ k, ((get? key k xs).map f).getD [] = [] := by
  rw [List.flatMap_eq_nil_iff]
  constructor
  · intro h k
    cases hx : get? key k xs with
    | none => rfl
    | some x => exact h x (mem_of_get? hx)
  · intro h x hx
    have hk := h (key x)
    rwa [get?_of_mem hxs hx] at hk

/-- A look-up finds the first of the elements with its key. -/
lemma head?_filter (k : κ) (xs : List α) :
    (xs.filter fun x => decide (key x = k)).head? = get? key k xs := by
  induction xs with
  | nil => rfl
  | cons x xs ih => by_cases hk : key x = k <;> simp [get?, hk, ih]

/-- Keys that no two elements share are not repeated. -/
lemma nodup_of_length_le {xs : List α}
    (h : ∀ k, (xs.filter fun x => decide (key x = k)).length ≤ 1) : (xs.map key).Nodup := by
  induction xs with
  | nil => simp
  | cons x xs ih =>
    rw [List.map_cons, List.nodup_cons]
    refine ⟨fun hmem => ?_, ih fun k => ?_⟩
    · obtain ⟨y, hy, hyx⟩ := List.mem_map.mp hmem
      have hle := h (key x)
      have hpos : 0 < (xs.filter fun z => decide (key z = key x)).length :=
        List.length_pos_of_mem (List.mem_filter.mpr ⟨hy, by simpa using hyx⟩)
      rw [List.filter_cons_of_pos (by simp), List.length_cons] at hle
      omega
    · refine le_trans ?_ (h k)
      exact ((List.sublist_cons_self x xs).filter _).length_le

end Scim.Keyed
