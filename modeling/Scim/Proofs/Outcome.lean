import Mathlib

set_option autoImplicit false

/-!
# Runs that may fail

How a successful run of a sequence, or of one step for each element of a list, comes apart into
its successful steps, and when two runs over lists whose elements are related end alike.

## Main definitions

* `Scim.Outcome.Alike` — two runs both fail, or both succeed with related results.
* `Scim.Outcome.Covers` — two lists of related elements, in whatever order.

## Main results

* `Scim.Outcome.bind_eq_ok_iff` — a sequence succeeds when both of its steps do.
* `Scim.Outcome.mapM_eq_ok`, `forM_eq_ok` — steps that all succeed make a run that succeeds.
* `Scim.Outcome.exists_of_mapM_eq_ok` — a run that succeeds has only steps that succeed.
* `Scim.Outcome.mapM_eq_ok_iff`, `mapM_eq_some_iff` — a run is what its steps are, one by one.
* `Scim.Outcome.mapM_map_eq_some` — reading what was written element by element.
* `Scim.Outcome.exists_filterMapM`, `exists_flatMapM` — a run over a list succeeds when all steps
  do.
* `Scim.Outcome.exists_of_mem_filterMapM`, `exists_of_mem_flatMapM` — each result of a successful
  run over a list comes from a step for one of its elements.
* `Scim.Outcome.alike_filterMapM`, `alike_flatMapM` — runs over related lists, in order or not, are
  alike when their steps are.
-/

namespace Scim.Outcome

variable {α β ε : Type}

/-- A sequence succeeds when both of its steps do. -/
lemma bind_eq_ok_iff {x : Except ε α} {f : α → Except ε β} {b : β} :
    (x >>= f) = .ok b ↔ ∃ a, x = .ok a ∧ f a = .ok b := by
  cases x with
  | error e => simp [bind, Except.bind]
  | ok a => simp [bind, Except.bind]

/-- Steps that all succeed make a run that succeeds. -/
lemma mapM_eq_ok {f : α → Except ε β} {g : α → β} {xs : List α}
    (h : ∀ x ∈ xs, f x = .ok (g x)) : xs.mapM f = .ok (xs.map g) := by
  induction xs with
  | nil => rfl
  | cons x xs ih =>
    rw [List.forall_mem_cons] at h
    rw [List.mapM_cons, h.1, ih h.2]
    rfl

/-- A run that succeeds has only steps that succeed. -/
lemma exists_of_mapM_eq_ok {f : α → Except ε β} {xs : List α} {ys : List β}
    (h : xs.mapM f = .ok ys) : ∀ x ∈ xs, ∃ y, f x = .ok y := by
  induction xs generalizing ys with
  | nil => simp
  | cons x xs ih =>
    rw [List.mapM_cons] at h
    obtain ⟨y, hy, h⟩ := bind_eq_ok_iff.mp h
    obtain ⟨zs, hzs, -⟩ := bind_eq_ok_iff.mp h
    exact List.forall_mem_cons.mpr ⟨⟨y, hy⟩, ih hzs⟩

/-- A run succeeds when its steps do, and its results are theirs, in order. -/
lemma mapM_eq_ok_iff {f : α → Except ε β} {xs : List α} {ys : List β} :
    xs.mapM f = .ok ys ↔ List.Forall₂ (fun x y => f x = .ok y) xs ys := by
  induction xs generalizing ys with
  | nil => simp [List.forall₂_nil_left_iff, pure, Except.pure, eq_comm]
  | cons x xs ih =>
    rw [List.mapM_cons, bind_eq_ok_iff, List.forall₂_cons_left_iff]
    refine exists_congr fun y => ?_
    simp only [bind_eq_ok_iff, ih, pure, Except.pure, Except.ok.injEq]
    constructor
    · rintro ⟨hy, zs, hzs, rfl⟩
      exact ⟨zs, hy, hzs, rfl⟩
    · rintro ⟨zs, hy, hzs, rfl⟩
      exact ⟨hy, zs, hzs, rfl⟩

/-- The same for steps that give no reason when they fail. -/
lemma mapM_eq_some_iff {f : α → Option β} {xs : List α} {ys : List β} :
    xs.mapM f = some ys ↔ List.Forall₂ (fun x y => f x = some y) xs ys := by
  induction xs generalizing ys with
  | nil => simp [List.forall₂_nil_left_iff, eq_comm]
  | cons x xs ih =>
    simp only [List.mapM_cons, Option.bind_eq_bind, Option.bind_eq_some_iff, ih,
      List.forall₂_cons_left_iff, Option.pure_def, Option.some.injEq]
    refine exists_congr fun y => ?_
    constructor
    · rintro ⟨hy, zs, hzs, rfl⟩
      exact ⟨zs, hy, hzs, rfl⟩
    · rintro ⟨zs, hy, hzs, rfl⟩
      exact ⟨hy, zs, hzs, rfl⟩

/-- Checks that all succeed make a check that succeeds. -/
lemma forM_eq_ok {f : α → Except ε PUnit} {xs : List α} (h : ∀ x ∈ xs, f x = .ok ()) :
    xs.forM f = .ok () := by
  induction xs with
  | nil => rfl
  | cons x xs ih =>
    rw [List.forall_mem_cons] at h
    exact bind_eq_ok_iff.mpr ⟨(), h.1, ih h.2⟩

/-- Writing the elements of a list and reading them back one by one. -/
lemma mapM_map_eq_some {f : α → β} {g : β → Option α} {xs : List α}
    (h : ∀ x ∈ xs, g (f x) = some x) : (xs.map f).mapM g = some xs := by
  induction xs with
  | nil => rfl
  | cons x xs ih =>
    rw [List.forall_mem_cons] at h
    rw [List.map_cons, List.mapM_cons, h.1, ih h.2]
    rfl

/-- Each result of a run whose steps may leave their element out comes from a step for one of the
elements. -/
lemma exists_of_mem_filterMapM {f : α → Except ε (Option β)} {xs : List α} {ys : List β}
    (h : xs.filterMapM f = .ok ys) : ∀ y ∈ ys, ∃ x ∈ xs, f x = .ok (some y) := by
  induction xs generalizing ys with
  | nil =>
    cases h
    simp
  | cons x xs ih =>
    rw [List.filterMapM_cons] at h
    obtain ⟨o, ho, h⟩ := bind_eq_ok_iff.mp h
    intro y hy
    cases o with
    | none =>
      obtain ⟨w, hw, hwy⟩ := ih h y hy
      exact ⟨w, List.mem_cons_of_mem _ hw, hwy⟩
    | some z =>
      obtain ⟨zs, hzs, h⟩ := bind_eq_ok_iff.mp h
      cases h
      rcases List.mem_cons.mp hy with rfl | hy
      · exact ⟨x, List.mem_cons_self, ho⟩
      · obtain ⟨w, hw, hwy⟩ := ih hzs y hy
        exact ⟨w, List.mem_cons_of_mem _ hw, hwy⟩

/-- The same for a run whose steps give several results. -/
lemma exists_of_mem_flatMapM {f : α → Except ε (List β)} {xs : List α} {ys : List β}
    (h : xs.flatMapM f = .ok ys) : ∀ y ∈ ys, ∃ x ∈ xs, ∃ zs, f x = .ok zs ∧ y ∈ zs := by
  induction xs generalizing ys with
  | nil =>
    cases h
    simp
  | cons x xs ih =>
    rw [List.flatMapM_cons] at h
    obtain ⟨zs, hzs, h⟩ := bind_eq_ok_iff.mp h
    obtain ⟨ws, hws, h⟩ := bind_eq_ok_iff.mp h
    cases h
    intro y hy
    rcases List.mem_append.mp hy with hy | hy
    · exact ⟨x, List.mem_cons_self, zs, hzs, hy⟩
    · obtain ⟨w, hw, us, hus, hyu⟩ := ih hws y hy
      exact ⟨w, List.mem_cons_of_mem _ hw, us, hus, hyu⟩

/-- A run all of whose steps succeed succeeds, with the results that the steps do not leave out. -/
lemma exists_filterMapM {f : α → Except ε (Option β)} {xs : List α}
    (h : ∀ x ∈ xs, ∃ o, f x = .ok o) :
    ∃ ys, xs.filterMapM f = .ok ys ∧ ∀ y, y ∈ ys ↔ ∃ x ∈ xs, f x = .ok (some y) := by
  induction xs with
  | nil => exact ⟨[], rfl, by simp⟩
  | cons x xs ih =>
    rw [List.forall_mem_cons] at h
    obtain ⟨⟨o, ho⟩, hxs⟩ := h
    obtain ⟨ys, hys, hmem⟩ := ih hxs
    cases o with
    | none => exact ⟨ys, by rw [List.filterMapM_cons, ho]; exact hys, fun y => by simp [ho, hmem]⟩
    | some z =>
      refine ⟨z :: ys, by rw [List.filterMapM_cons, ho, hys]; rfl, fun y => ?_⟩
      simp [ho, hmem, eq_comm]

/-- The same for a run whose steps give several results. -/
lemma exists_flatMapM {f : α → Except ε (List β)} {xs : List α} (h : ∀ x ∈ xs, ∃ ys, f x = .ok ys) :
    ∃ zs, xs.flatMapM f = .ok zs ∧ ∀ z, z ∈ zs ↔ ∃ x ∈ xs, ∃ ys, f x = .ok ys ∧ z ∈ ys := by
  induction xs with
  | nil => exact ⟨[], rfl, by simp⟩
  | cons x xs ih =>
    rw [List.forall_mem_cons] at h
    obtain ⟨⟨ys, hys⟩, hxs⟩ := h
    obtain ⟨zs, hzs, hmem⟩ := ih hxs
    refine ⟨ys ++ zs, by rw [List.flatMapM_cons, hys, hzs]; rfl, fun z => ?_⟩
    simp [hys, hmem]

/-- Writing the elements of a list and reading them back one by one, each as a related one. -/
lemma exists_filterMapM_map {γ : Type} {f : β → Except ε (Option γ)} {g : α → β}
    {R : α → γ → Prop} {xs : List α} (h : ∀ x ∈ xs, ∃ y, f (g x) = .ok (some y) ∧ R x y) :
    ∃ ys, (xs.map g).filterMapM f = .ok ys ∧ List.Forall₂ R xs ys := by
  induction xs with
  | nil => exact ⟨[], rfl, .nil⟩
  | cons x xs ih =>
    rw [List.forall_mem_cons] at h
    obtain ⟨⟨y, hy, hR⟩, hxs⟩ := h
    obtain ⟨ys, hys, hall⟩ := ih hxs
    exact ⟨y :: ys, by rw [List.map_cons, List.filterMapM_cons, hy, hys]; rfl, .cons hR hall⟩

/-- A run whose steps may leave their element out gives what each step gives, one after the
other. -/
lemma filterMapM_eq_flatMapM (f : α → Except ε (Option β)) (xs : List α) :
    xs.filterMapM f = xs.flatMapM fun x => (f x).map Option.toList := by
  induction xs with
  | nil => rfl
  | cons x xs ih =>
    rw [List.filterMapM_cons, List.flatMapM_cons, ih]
    cases f x with
    | error e => rfl
    | ok o =>
      cases o with
      | none => exact (id_map _).symm
      | some y =>
        show _ = (fun ys => [y] ++ ys) <$> _
        cases xs.flatMapM fun x => (f x).map Option.toList <;> rfl

/-- A run that succeeds has only steps that succeed. -/
lemma exists_of_flatMapM_eq_ok {f : α → Except ε (List β)} {xs : List α} {ys : List β}
    (h : xs.flatMapM f = .ok ys) : ∀ x ∈ xs, ∃ zs, f x = .ok zs := by
  induction xs generalizing ys with
  | nil => simp
  | cons x xs ih =>
    rw [List.flatMapM_cons] at h
    obtain ⟨zs, hzs, h⟩ := bind_eq_ok_iff.mp h
    obtain ⟨ws, hws, -⟩ := bind_eq_ok_iff.mp h
    exact List.forall_mem_cons.mpr ⟨⟨zs, hzs⟩, ih hws⟩

/-- Without repeated keys of the elements there are none of the results, when each result has the
key of its element. -/
lemma nodup_filterMapM {κ : Type} {key : α → κ} {key' : β → κ} {f : α → Except ε (Option β)}
    {xs : List α} {ys : List β} (h : xs.filterMapM f = .ok ys) (hxs : (xs.map key).Nodup)
    (hkey : ∀ x y, f x = .ok (some y) → key' y = key x) : (ys.map key').Nodup := by
  suffices hsub : (ys.map key').Sublist (xs.map key) from hxs.sublist hsub
  clear hxs
  induction xs generalizing ys with
  | nil =>
    cases h
    exact .slnil
  | cons x xs ih =>
    rw [List.filterMapM_cons] at h
    obtain ⟨o, ho, h⟩ := bind_eq_ok_iff.mp h
    cases o with
    | none => exact (ih h).cons _
    | some y =>
      obtain ⟨zs, hzs, h⟩ := bind_eq_ok_iff.mp h
      cases h
      rw [List.map_cons, List.map_cons, hkey x y ho]
      exact (ih hzs).cons_cons _

/-- Results of a run over a list are related in order, when those of one step are and those of
different steps are. -/
lemma pairwise_flatMapM {R : β → β → Prop} {f : α → Except ε (List β)} {xs : List α} {ys : List β}
    (h : xs.flatMapM f = .ok ys) (hself : ∀ x ∈ xs, ∀ zs, f x = .ok zs → zs.Pairwise R)
    (hcross : xs.Pairwise fun x y => ∀ zs ws, f x = .ok zs → f y = .ok ws →
      ∀ z ∈ zs, ∀ w ∈ ws, R z w) : ys.Pairwise R := by
  induction xs generalizing ys with
  | nil =>
    cases h
    exact List.Pairwise.nil
  | cons x xs ih =>
    rw [List.forall_mem_cons] at hself
    obtain ⟨hhead, htail⟩ := List.pairwise_cons.mp hcross
    rw [List.flatMapM_cons] at h
    obtain ⟨zs, hzs, h⟩ := bind_eq_ok_iff.mp h
    obtain ⟨ws, hws, h⟩ := bind_eq_ok_iff.mp h
    cases h
    refine List.pairwise_append.mpr ⟨hself.1 zs hzs, ih hws hself.2 htail, fun z hz w hw => ?_⟩
    obtain ⟨y, hy, us, hus, hwu⟩ := exists_of_mem_flatMapM hws w hw
    exact hhead y hy zs us hzs hus z hz w hwu

/-! ## Two runs -/

/-- Two runs both fail, for whatever reasons, or both succeed, with related results. -/
inductive Alike {γ : Type} (R : β → γ → Prop) : Except ε β → Except ε γ → Prop
  | error (e e' : ε) : Alike R (.error e) (.error e')
  | ok {b : β} {c : γ} (h : R b c) : Alike R (.ok b) (.ok c)

/-- Each element of either list is related to one of the other. -/
structure Covers {γ : Type} (R : β → γ → Prop) (bs : List β) (cs : List γ) : Prop where
  left : ∀ b ∈ bs, ∃ c ∈ cs, R b c
  right : ∀ c ∈ cs, ∃ b ∈ bs, R b c

variable {γ α' γ' : Type} {R : β → γ → Prop}

namespace Alike

variable {x : Except ε β} {y : Except ε γ}

/-- When the first run succeeds, so does the second. -/
lemma exists_right (h : Alike R x y) {b : β} (hx : x = .ok b) : ∃ c, y = .ok c ∧ R b c := by
  cases h with
  | error e e' => cases hx
  | ok h =>
    cases hx
    exact ⟨_, rfl, h⟩

/-- When the second run succeeds, so does the first. -/
lemma exists_left (h : Alike R x y) {c : γ} (hy : y = .ok c) : ∃ b, x = .ok b ∧ R b c := by
  cases h with
  | error e e' => cases hy
  | ok h =>
    cases hy
    exact ⟨_, rfl, h⟩

/-- A run is like itself. -/
lemma refl {S : β → β → Prop} (hS : ∀ b, S b b) (x : Except ε β) : Alike S x x := by
  cases x with
  | error e => exact .error e e
  | ok b => exact .ok (hS b)

/-- What is made of related results. -/
lemma map {δ δ' : Type} {S : δ → δ' → Prop} {f : β → δ} {g : γ → δ'} (h : Alike R x y)
    (hfg : ∀ b c, R b c → S (f b) (g c)) : Alike S (x.map f) (y.map g) := by
  cases h with
  | error e e' => exact .error e e'
  | ok h => exact .ok (hfg _ _ h)

/-- A weaker relation holds of the results that are not left out. -/
lemma imp_some {S : β → γ → Prop} {x : Except ε (Option β)} {y : Except ε (Option γ)}
    (h : Alike (Option.Rel R) x y)
    (hRS : ∀ b c, x = .ok (some b) → y = .ok (some c) → R b c → S b c) :
    Alike (Option.Rel S) x y := by
  cases h with
  | error e e' => exact .error e e'
  | ok h =>
    cases h with
    | none => exact .ok .none
    | some h => exact .ok (.some (hRS _ _ rfl rfl h))

/-- Sequences are alike when their steps are. -/
lemma bind {δ δ' : Type} {S : δ → δ' → Prop} {f : β → Except ε δ} {g : γ → Except ε δ'}
    (h : Alike R x y) (hfg : ∀ b c, x = .ok b → y = .ok c → R b c → Alike S (f b) (g c)) :
    Alike S (x >>= f) (y >>= g) := by
  cases h with
  | error e e' => exact .error e e'
  | ok h => exact hfg _ _ rfl rfl h

/-- Both runs fail, or both succeed with related results. -/
lemma error_or_ok (h : Alike R x y) : (∃ e e', x = .error e ∧ y = .error e') ∨
    ∃ b c, x = .ok b ∧ y = .ok c ∧ R b c := by
  cases h with
  | error e e' => exact .inl ⟨e, e', rfl, rfl⟩
  | ok h => exact .inr ⟨_, _, rfl, rfl, h⟩

end Alike

/-- Lists are related element by element when their elements in one place are. -/
lemma forall₂_imp_mem {S : β → γ → Prop} {bs : List β} {cs : List γ} (h : List.Forall₂ R bs cs)
    (hRS : ∀ b ∈ bs, ∀ c ∈ cs, R b c → S b c) : List.Forall₂ S bs cs := by
  induction h with
  | nil => exact .nil
  | cons hbc _ ih =>
    refine .cons (hRS _ List.mem_cons_self _ List.mem_cons_self hbc) (ih fun b hb c hc => ?_)
    exact hRS b (List.mem_cons_of_mem _ hb) c (List.mem_cons_of_mem _ hc)

/-- Lists whose elements are related in order. -/
lemma covers_of_forall₂ {bs : List β} {cs : List γ} (h : List.Forall₂ R bs cs) :
    Covers R bs cs := by
  induction h with
  | nil => exact ⟨by simp, by simp⟩
  | cons hbc _ ih =>
    constructor
    · intro b hb
      rcases List.mem_cons.mp hb with rfl | hb
      · exact ⟨_, List.mem_cons_self, hbc⟩
      · obtain ⟨c, hc, hR⟩ := ih.left b hb
        exact ⟨c, List.mem_cons_of_mem _ hc, hR⟩
    · intro c hc
      rcases List.mem_cons.mp hc with rfl | hc
      · exact ⟨_, List.mem_cons_self, hbc⟩
      · obtain ⟨b, hb, hR⟩ := ih.right c hc
        exact ⟨b, List.mem_cons_of_mem _ hb, hR⟩

/-- The order of the lists does not matter, and a weaker relation will do. -/
lemma Covers.imp_perm {S : β → γ → Prop} {bs : List β} {cs cs' : List γ} (h : Covers R bs cs)
    (hperm : cs.Perm cs') (hRS : ∀ b ∈ bs, ∀ c ∈ cs', R b c → S b c) : Covers S bs cs' := by
  constructor
  · intro b hb
    obtain ⟨c, hc, hR⟩ := h.left b hb
    exact ⟨c, hperm.subset hc, hRS b hb c (hperm.subset hc) hR⟩
  · intro c hc
    obtain ⟨b, hb, hR⟩ := h.right c (hperm.symm.subset hc)
    exact ⟨b, hb, hRS b hb c hc hR⟩

/-- Results that are both left out, or both kept and related. -/
lemma covers_toList {o : Option β} {p : Option γ} (h : Option.Rel R o p) :
    Covers R o.toList p.toList := by
  cases h with
  | none => exact ⟨by simp, by simp⟩
  | some h => exact ⟨by simpa using h, by simpa using h⟩

/-- **Runs over lists of related elements**, in order, are alike when their steps are. -/
lemma alike_filterMapM {Q : α → α' → Prop} {f : α → Except ε (Option β)}
    {g : α' → Except ε (Option γ)} {xs : List α} {ys : List α'} (h : List.Forall₂ Q xs ys)
    (hstep : ∀ x y, Q x y → Alike (Option.Rel R) (f x) (g y)) :
    Alike (List.Forall₂ R) (xs.filterMapM f) (ys.filterMapM g) := by
  induction h with
  | nil => exact .ok .nil
  | @cons x y xs ys hxy _ ih =>
    rw [List.filterMapM_cons, List.filterMapM_cons]
    have hhead := hstep x y hxy
    generalize f x = u at hhead ⊢
    generalize g y = v at hhead ⊢
    generalize xs.filterMapM f = us at ih ⊢
    generalize ys.filterMapM g = vs at ih ⊢
    cases hhead with
    | error e e' => exact .error e e'
    | ok hhead =>
      cases hhead with
      | none => exact ih
      | some hbc =>
        cases ih with
        | error e e' => exact .error e e'
        | ok htail => exact .ok (.cons hbc htail)

/-- **Runs over lists of related elements**, in whatever order, are alike when their steps are. -/
lemma alike_flatMapM {Q : α → α' → Prop} {f : α → Except ε (List β)} {g : α' → Except ε (List γ)}
    {xs : List α} {ys : List α'} (h : Covers Q xs ys)
    (hstep : ∀ x ∈ xs, ∀ y ∈ ys, Q x y → Alike (Covers R) (f x) (g y)) :
    Alike (Covers R) (xs.flatMapM f) (ys.flatMapM g) := by
  have hright : (∀ x ∈ xs, ∃ bs, f x = .ok bs) → ∀ y ∈ ys, ∃ cs, g y = .ok cs := by
    intro hxs y hy
    obtain ⟨x, hx, hxy⟩ := h.right y hy
    obtain ⟨bs, hbs⟩ := hxs x hx
    exact ((hstep x hx y hy hxy).exists_right hbs).imp fun _ hcs => hcs.1
  have hleft : (∀ y ∈ ys, ∃ cs, g y = .ok cs) → ∀ x ∈ xs, ∃ bs, f x = .ok bs := by
    intro hys x hx
    obtain ⟨y, hy, hxy⟩ := h.left x hx
    obtain ⟨cs, hcs⟩ := hys y hy
    exact ((hstep x hx y hy hxy).exists_left hcs).imp fun _ hbs => hbs.1
  cases hf : xs.flatMapM f with
  | error e =>
    cases hg : ys.flatMapM g with
    | error e' => exact .error e e'
    | ok cs =>
      obtain ⟨bs, hbs, -⟩ := exists_flatMapM (hleft (exists_of_flatMapM_eq_ok hg))
      rw [hf] at hbs
      cases hbs
  | ok bs =>
    have hsteps := exists_of_flatMapM_eq_ok hf
    obtain ⟨bs', hbs', hmem⟩ := exists_flatMapM hsteps
    obtain rfl : bs = bs' := Except.ok.inj (hf.symm.trans hbs')
    obtain ⟨cs, hcs, hmem'⟩ := exists_flatMapM (hright hsteps)
    rw [hcs]
    refine .ok ⟨fun b hb => ?_, fun c hc => ?_⟩
    · obtain ⟨x, hx, us, hus, hbu⟩ := (hmem b).mp hb
      obtain ⟨y, hy, hxy⟩ := h.left x hx
      obtain ⟨ws, hws, hcover⟩ := (hstep x hx y hy hxy).exists_right hus
      obtain ⟨c, hc, hbc⟩ := hcover.left b hbu
      exact ⟨c, (hmem' c).mpr ⟨y, hy, ws, hws, hc⟩, hbc⟩
    · obtain ⟨y, hy, ws, hws, hcw⟩ := (hmem' c).mp hc
      obtain ⟨x, hx, hxy⟩ := h.right y hy
      obtain ⟨us, hus, hcover⟩ := (hstep x hx y hy hxy).exists_left hws
      obtain ⟨b, hb, hbc⟩ := hcover.right c hcw
      exact ⟨b, (hmem b).mpr ⟨x, hx, us, hus, hb⟩, hbc⟩

/-- The same for runs whose steps may leave their element out. -/
lemma alike_filterMapM_covers {Q : α → α' → Prop} {f : α → Except ε (Option β)}
    {g : α' → Except ε (Option γ)} {xs : List α} {ys : List α'} (h : Covers Q xs ys)
    (hstep : ∀ x ∈ xs, ∀ y ∈ ys, Q x y → Alike (Option.Rel R) (f x) (g y)) :
    Alike (Covers R) (xs.filterMapM f) (ys.filterMapM g) := by
  rw [filterMapM_eq_flatMapM, filterMapM_eq_flatMapM]
  exact alike_flatMapM h fun x hx y hy hxy =>
    (hstep x hx y hy hxy).map fun _ _ => covers_toList

end Scim.Outcome
