import Mathlib

namespace Boltq.Lib
open List

section Rounds
variable {α : Type u} {groups : List (List α)}

def roundAt (groups : List (List α)) (i : Nat) : List α := groups.filterMap (fun g => g[i]?)

def roundsLoop (groups : List (List α)) (n : Nat) : Nat → Nat → List α → List α
  | 0, _, out => out
  | fuel+1, i, out =>
    if n ≤ out.length then out else roundsLoop groups n fuel (i + 1) (out ++ roundAt groups i)

theorem roundsLoop_eq (fuel i : Nat) (out : List α)
    (h : (out ++ (range' i fuel).flatMap (roundAt groups)).length ≤ n) :
    roundsLoop groups n fuel i out = out ++ (range' i fuel).flatMap (roundAt groups) := by
  induction fuel generalizing i out with
  | zero => exact (append_nil out).symm
  | succ fuel ih =>
    unfold roundsLoop
    split
    · rename_i hfull
      rw [length_append] at h
      rw [eq_nil_of_length_eq_zero (by omega :
        ((range' i (fuel + 1)).flatMap (roundAt groups)).length = 0), append_nil]
    · rw [range'_succ, flatMap_cons, ← append_assoc] at h ⊢
      exact ih (i + 1) (out ++ roundAt groups i) h

theorem filterMap_getElem?_range (g : List α) (h : g.length ≤ n) :
    (range n).flatMap (fun i => g[i]?.toList) = g := by
  induction g generalizing n with
  | nil => simp
  | cons x g ih =>
    obtain ⟨n, rfl⟩ := Nat.exists_eq_succ_of_ne_zero (by rw [length_cons] at h; omega : n ≠ 0)
    rw [range_succ_eq_map, flatMap_cons, flatMap_map]
    simp only [getElem?_cons_zero, Option.toList_some, getElem?_cons_succ,
      singleton_append]
    rw [ih (Nat.le_of_succ_le_succ h)]

theorem rounds_perm (h : ∀ g ∈ groups, g.length ≤ n) :
    ((range n).flatMap (roundAt groups)).Perm groups.flatten := by
  induction groups with
  | nil => simp [roundAt]
  | cons g groups ih =>
    obtain ⟨hg, hrest⟩ := forall_mem_cons.mp h
    have hround : roundAt (g :: groups) = fun i => g[i]?.toList ++ roundAt groups i := by
      funext i
      unfold roundAt
      rw [filterMap_cons]
      cases g[i]? <;> rfl
    rw [hround, flatten_cons]
    refine (flatMap_append_perm _ _ _).symm.trans ?_
    rw [filterMap_getElem?_range g hg]
    exact (ih hrest).append_left g

theorem flatMap_filter_perm [DecidableEq κ] (f : α → κ) (l : List α) {ks : List κ} (h : ks.Nodup) :
    (ks.flatMap (fun k => l.filter (fun a => decide (f a = k)))).Perm
      (l.filter (fun a => decide (f a ∈ ks))) := by
  induction ks with
  | nil => simp
  | cons k ks ih =>
    obtain ⟨hk, hks⟩ := nodup_cons.mp h
    rw [flatMap_cons]
    refine ((ih hks).append_left _).trans ?_
    have hsplit := filter_append_perm (fun a => decide (f a = k))
      (l.filter (fun a => decide (f a ∈ k :: ks)))
    rw [filter_filter, filter_filter] at hsplit
    have hleft : (fun a => decide (f a = k) && decide (f a ∈ k :: ks)) =
        fun a => decide (f a = k) := by
      funext a
      by_cases he : f a = k <;> simp [he]
    have hright : (fun a => !decide (f a = k) && decide (f a ∈ k :: ks)) =
        fun a => decide (f a ∈ ks) := by
      funext a
      by_cases he : f a = k
      · simp [he, hk]
      · simp [he]
    rwa [hleft, hright] at hsplit

end Rounds

section Probing
variable {n : Nat} {taken : Nat → Bool}

def probe (n : Nat) (taken : Nat → Bool) : Nat → Nat → Option Nat
  | 0, _ => none
  | fuel+1, i => if taken i then probe n taken fuel ((i + 1) % n) else some i

theorem probe_some (h : probe n taken fuel i = some r) (hi : i < n) : r < n ∧ taken r = false := by
  induction fuel generalizing i with
  | zero => cases h
  | succ fuel ih =>
    unfold probe at h
    split at h
    · exact ih h (Nat.mod_lt _ (by omega))
    rename_i hfree
    cases h
    exact ⟨hi, by simpa using hfree⟩

theorem probe_none (h : probe n taken fuel i = none) (hi : i < n) :
    ∀ t < fuel, taken ((i + t) % n) = true := by
  induction fuel generalizing i with
  | zero => exact fun t ht => absurd ht (Nat.not_lt_zero t)
  | succ fuel ih =>
    unfold probe at h
    split at h
    · rename_i htaken
      intro t ht
      cases t with
      | zero => rwa [Nat.add_zero, Nat.mod_eq_of_lt hi]
      | succ t =>
        have hrest := ih h (Nat.mod_lt _ (by omega)) t (by omega)
        rwa [Nat.mod_add_mod, Nat.add_assoc, Nat.add_comm 1 t] at hrest
    · cases h

theorem probe_finds (taken : Nat → Bool) (hk : k < n) (hfree : taken k = false) (hi : i < n) :
    ∃ r, probe n taken n i = some r ∧ r < n ∧ taken r = false := by
  cases hp : probe n taken n i with
  | some r => exact ⟨r, rfl, probe_some hp hi⟩
  | none =>
    have hall := probe_none hp hi ((k + n - i) % n) (Nat.mod_lt _ (by omega))
    rw [Nat.add_mod_mod, show i + (k + n - i) = k + n by omega, Nat.add_mod_right,
      Nat.mod_eq_of_lt hk, hfree] at hall
    cases hall

theorem probe_congr {f g : Nat → Bool} (h : ∀ i < n, f i = g i) (hi : i < n) :
    probe n f fuel i = probe n g fuel i := by
  induction fuel generalizing i with
  | zero => rfl
  | succ fuel ih =>
    rw [probe, probe, h i hi, ih (Nat.mod_lt _ (by omega))]

end Probing

theorem countP_range (p : Nat → Prop) [DecidablePred p] (m : Nat) :
    (range m).countP (fun i => decide (p i)) = Nat.count p m := by
  induction m with
  | zero => rfl
  | succ m ih =>
    rw [range_succ, countP_append, ih, Nat.count_succ, countP_singleton]
    simp only [decide_eq_true_eq]

theorem countP_mod_le (hn : 0 < n) (m k k' : Nat) (hk : k < n) (hk' : k' < n) :
    (range m).countP (fun i => decide (i % n = k)) ≤
      (range m).countP (fun i => decide (i % n = k')) + 1 := by
  have hmod : ∀ k < n, (fun i => i % n = k) = fun i => i ≡ k [MOD n] := by
    intro k hk
    funext i
    rw [Nat.ModEq, Nat.mod_eq_of_lt hk]
  have hcount : ∀ k < n, (range m).countP (fun i => decide (i % n = k)) =
      m / n + if k < m % n then 1 else 0 := by
    intro k hk
    rw [countP_range]
    simp only [hmod k hk]
    rw [Nat.count_modEq_card m hn k, Nat.mod_eq_of_lt hk]
  rw [hcount k hk, hcount k' hk']
  split <;> split <;> omega

end Boltq.Lib
