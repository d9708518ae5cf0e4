import Mathlib

namespace Boltq.Lib
open List

theorem replace_perm [DecidableEq α] {l : List α} (hs : s ∈ l) :
    (l.replace s t).Perm (t :: l.erase s) := by
  induction l with
  | nil => cases hs
  | cons x l ih =>
    by_cases he : x = s
    · subst he
      rw [replace_cons_self, erase_cons_head]
    · have hs := (mem_cons.mp hs).resolve_left (Ne.symm he)
      rw [replace_cons, erase_cons_tail (by simpa using he), beq_false_of_ne (Ne.symm he)]
      exact ((ih hs).cons x).trans (List.Perm.swap t x _)

section Adjust
variable [DecidableEq κ] {k : κ} {g : α → α} {l : List (κ × α)}

def adjust (k : κ) (g : α → α) (l : List (κ × α)) : List (κ × α) :=
  l.map (fun e => if e.1 = k then (e.1, g e.2) else e)

theorem map_fst_adjust (k : κ) (g : α → α) (l : List (κ × α)) :
    (adjust k g l).map Prod.fst = l.map Prod.fst := by
  rw [adjust, map_map]
  apply map_congr_left
  intro e _
  rw [Function.comp_apply]
  split <;> rfl

theorem mem_adjust_of_ne (he : e ∈ l) (hne : e.1 ≠ k) : e ∈ adjust k g l :=
  mem_map.mpr ⟨e, he, if_neg hne⟩

theorem mem_adjust (he : e ∈ adjust k g l) : e ∈ l ∨ ∃ a, (k, a) ∈ l ∧ e = (k, g a) := by
  obtain ⟨⟨k', a⟩, hin, rfl⟩ := mem_map.mp he
  by_cases hk : k' = k
  · subst hk
    exact .inr ⟨a, hin, if_pos rfl⟩
  · rw [if_neg hk]
    exact .inl hin

theorem sum_adjust (f : α → Nat) (hn : (l.map Prod.fst).Nodup) (ha : (k, a) ∈ l) :
    ((adjust k g l).map (fun e => f e.2)).sum + f a = (l.map (fun e => f e.2)).sum + f (g a) := by
  induction l with
  | nil => cases ha
  | cons e l ih =>
    obtain ⟨hnew, hn⟩ := nodup_cons.mp hn
    rcases mem_cons.mp ha with rfl | ha
    · have hsame : adjust k g l = l := by
        refine (map_congr_left ?_).trans (map_id l)
        intro e he
        exact if_neg (fun hk => hnew (mem_map.mpr ⟨e, he, hk⟩))
      have hcons : adjust k g ((k, a) :: l) = (k, g a) :: adjust k g l := by
        rw [adjust, map_cons, if_pos rfl, adjust]
      rw [hcons, hsame, map_cons, map_cons, sum_cons, sum_cons]
      dsimp only
      omega
    · have hne : e.1 ≠ k := fun hk => hnew (hk ▸ mem_map_of_mem ha)
      have hcons : adjust k g (e :: l) = e :: adjust k g l := by
        rw [adjust, map_cons, if_neg hne, adjust]
      have hrest := ih hn ha
      rw [hcons, map_cons, map_cons, sum_cons, sum_cons]
      omega

end Adjust

theorem exists_iterate_settled (f : α → α) (Inv Settled : α → Prop) (size : α → Nat)
    (hkeep : ∀ a, Inv a → Inv (f a)) (hless : ∀ a, Inv a → ¬ Settled a → size (f a) < size a)
    (ha : Inv a) : ∃ n, Settled (f^[n] a) := by
  induction hn : size a using Nat.strong_induction_on generalizing a with
  | _ n ih =>
    by_cases hs : Settled a
    · exact ⟨0, hs⟩
    · obtain ⟨m, hm⟩ := ih _ (hn ▸ hless a ha hs) (hkeep a ha) rfl
      exact ⟨m + 1, hm⟩

end Boltq.Lib
