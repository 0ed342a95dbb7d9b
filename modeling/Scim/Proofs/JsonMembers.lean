import Scim.Json.Basic
import Scim.Proofs.Keyed

set_option autoImplicit false

/-!
# The members of an object

An object lists its members by ascending key, whatever the order in which they were put into it.
When no two of them have one key, the object holds exactly these members, and so it depends on
their set only.

## Main definitions

* `Scim.Json.Ascending` — members are listed by strictly ascending key.

## Main results

* `Scim.Json.mem_putAll` — members of different keys are all kept.
* `Scim.Json.lookup_putAll` — of members with one key the last is found.
* `Scim.Json.ofMembers_congr` — the order of the members does not matter.
-/

namespace Scim.Json

variable {key : String} {value : Json} {m : String × Json} {members more : List (String × Json)}

/-- A member with a new key is added. -/
lemma put_perm (h : key ∉ members.map Prod.fst) :
    (put key value members).Perm ((key, value) :: members) := by
  induction members with
  | nil => rfl
  | cons m rest ih =>
    obtain ⟨k, v⟩ := m
    rw [List.map_cons, List.mem_cons, not_or] at h
    rw [put, if_neg h.1]
    split
    · rfl
    · exact ((ih h.2).cons (k, v)).trans (List.Perm.swap _ _ _)

/-- Putting a member adds no other one. -/
lemma eq_or_mem_of_mem_put (h : m ∈ put key value members) : m = (key, value) ∨ m ∈ members := by
  induction members with
  | nil => exact .inl (List.mem_singleton.mp h)
  | cons n rest ih =>
    obtain ⟨k, v⟩ := n
    rw [put] at h
    split at h
    · exact (List.mem_cons.mp h).imp_right (List.mem_cons_of_mem _)
    · split at h
      · exact List.mem_cons.mp h
      · rcases List.mem_cons.mp h with rfl | h
        · exact .inr List.mem_cons_self
        · exact (ih h).imp_right (List.mem_cons_of_mem _)

/-- Putting many members adds no other ones. -/
lemma mem_or_mem_of_mem_putAll (h : m ∈ putAll members more) : m ∈ members ∨ m ∈ more := by
  induction more generalizing members with
  | nil => exact .inl h
  | cons n more ih =>
    rcases ih h with hput | hmore
    · exact (eq_or_mem_of_mem_put hput).symm.imp_right (by rintro rfl; exact List.mem_cons_self)
    · exact .inr (List.mem_cons_of_mem _ hmore)

/-- Members are listed by strictly ascending key. -/
def Ascending (members : List (String × Json)) : Prop := members.Pairwise fun m n => m.1 < n.1

/-- A member is put into its place. -/
lemma Ascending.put (h : Ascending members) (key : String) (value : Json) :
    Ascending (put key value members) := by
  induction members with
  | nil => exact List.pairwise_singleton _ _
  | cons m rest ih =>
    obtain ⟨k, v⟩ := m
    obtain ⟨hhead, hrest⟩ := List.pairwise_cons.mp h
    rw [Json.put]
    split
    · rename_i heq
      exact List.pairwise_cons.mpr ⟨fun n hn => heq ▸ hhead n hn, hrest⟩
    · rename_i hne
      split
      · rename_i hlt
        refine List.pairwise_cons.mpr ⟨fun n hn => ?_, h⟩
        rcases List.mem_cons.mp hn with rfl | hn
        · exact hlt
        · exact String.lt_trans hlt (hhead n hn)
      · rename_i hnot
        refine List.pairwise_cons.mpr ⟨fun n hn => ?_, ih hrest⟩
        rcases eq_or_mem_of_mem_put hn with rfl | hn
        · exact lt_of_le_of_ne (not_lt.mp hnot) (Ne.symm hne)
        · exact hhead n hn

/-- Members are put into their places one after the other. -/
lemma Ascending.putAll (h : Ascending members) (more : List (String × Json)) :
    Ascending (putAll members more) := by
  induction more generalizing members with
  | nil => exact h
  | cons m more ih => exact ih (h.put m.1 m.2)

/-- No key is repeated where members are listed by strictly ascending key. -/
lemma Ascending.nodup_keys (h : Ascending members) : (members.map Prod.fst).Nodup := by
  refine List.pairwise_map.mpr (h.imp fun {m n} hlt heq => ?_)
  rw [heq] at hlt
  exact String.lt_irrefl _ hlt

/-- A look-up asks the first pair first. -/
lemma lookup_cons_eq {α β : Type} [BEq α] [LawfulBEq α] [DecidableEq α] (k : α) (m : α × β)
    (members : List (α × β)) :
    (m :: members).lookup k = if k = m.1 then some m.2 else members.lookup k := by
  rw [List.lookup_cons]
  by_cases hk : k = m.1
  · rw [if_pos hk, beq_iff_eq.mpr hk]
  · rw [if_neg hk, beq_false_of_ne hk]

/-- A member that was put is found, and hides no other one. -/
lemma lookup_put (key : String) (value : Json) (members : List (String × Json)) (k : String) :
    (put key value members).lookup k = if k = key then some value else members.lookup k := by
  induction members with
  | nil => exact lookup_cons_eq k (key, value) []
  | cons m rest ih =>
    obtain ⟨l, v⟩ := m
    rw [put]
    split
    · rename_i heq
      subst heq
      simp only [lookup_cons_eq]
      split <;> rfl
    · rename_i hne
      split
      · exact lookup_cons_eq k (key, value) _
      · rw [lookup_cons_eq, ih, lookup_cons_eq]
        split_ifs with hl hkey
        · exact absurd (hkey.symm.trans hl) hne
        · rfl
        · rfl
        · rfl

/-- Of members with one key the last is found. -/
lemma lookup_putAll (members more : List (String × Json)) (k : String) :
    (putAll members more).lookup k = (more.reverse.lookup k).or (members.lookup k) := by
  induction more generalizing members with
  | nil => rfl
  | cons m more ih =>
    rw [putAll, List.foldl_cons]
    change (putAll _ more).lookup k = _
    rw [ih, lookup_put, List.reverse_cons, List.lookup_append, Option.or_assoc, lookup_cons_eq]
    split <;> rfl

/-- Members of different keys are all kept. -/
lemma putAll_perm (members : List (String × Json)) (h : ((members ++ more).map Prod.fst).Nodup) :
    (putAll members more).Perm (members ++ more) := by
  induction more generalizing members with
  | nil => rw [List.append_nil]; rfl
  | cons m more ih =>
    have hnew : m.1 ∉ members.map Prod.fst := by
      rw [List.map_append, List.map_cons, List.nodup_append] at h
      exact fun hmem => h.2.2 _ hmem _ List.mem_cons_self rfl
    have hput : (put m.1 m.2 members ++ more).Perm (members ++ m :: more) :=
      ((put_perm hnew).append_right more).trans List.perm_middle.symm
    exact (ih _ ((hput.map Prod.fst).nodup_iff.mpr h)).trans hput

/-- An object made of members of different keys holds exactly these. -/
lemma mem_putAll (h : (more.map Prod.fst).Nodup) : m ∈ putAll [] more ↔ m ∈ more :=
  (putAll_perm [] h).mem_iff

/-- **The order of the members does not matter.**  Objects made of the same members, no two of
which have one key, are the same. -/
theorem ofMembers_congr (hmembers : (members.map Prod.fst).Nodup)
    (hmore : (more.map Prod.fst).Nodup) (h : ∀ m, m ∈ members ↔ m ∈ more) :
    ofMembers members = ofMembers more := by
  have hperm : (putAll [] members).Perm (putAll [] more) :=
    (putAll_perm [] hmembers).trans
      (((List.perm_ext_iff_of_nodup hmembers.of_map hmore.of_map).mpr h).trans
        (putAll_perm [] hmore).symm)
  have hascending : ∀ members, Ascending (putAll [] members) :=
    fun members => Ascending.putAll List.Pairwise.nil members
  have heq : putAll [] members = putAll [] more :=
    List.Perm.eq_of_pairwise (fun _ _ _ _ hlt hgt => absurd hgt (String.lt_asymm hlt))
      (hascending members) (hascending more) hperm
  rw [ofMembers, ofMembers, heq]

end Scim.Json
