import Mathlib

namespace Boltq.Lib
open List

def searchLoop (f : Nat → Bool) : Nat → Nat → Nat → Nat
  | 0, i, _ => i
  | fuel+1, i, j =>
    if i < j then
      if f ((i + j) / 2) then searchLoop f fuel i ((i + j) / 2)
      else searchLoop f fuel ((i + j) / 2 + 1) j
    else i

def search (n : Nat) (f : Nat → Bool) : Nat := searchLoop f n 0 n

def searchList (xs : List α) (p : α → Bool) : Nat :=
  search xs.length (fun i => (xs[i]?).any p)

theorem search_loop_eq (f : Nat → Bool) (k n : Nat)
    (low : ∀ i, i < k → f i = false) (high : ∀ i, k ≤ i → i < n → f i = true) :
    ∀ fuel i j, i ≤ k → k ≤ j → j ≤ n → j - i ≤ fuel → searchLoop f fuel i j = k := by
  intro fuel
  induction fuel with
  | zero =>
    intro i j hi hj hn hf
    simp only [searchLoop]
    omega
  | succ fuel ih =>
    intro i j hi hj hn hf
    simp only [searchLoop]
    split
    · rename_i hij
      split
      · rename_i hm
        have hk : k ≤ (i + j) / 2 := by
          by_contra hc
          rw [low _ (by omega)] at hm
          contradiction
        exact ih i _ hi hk (by omega) (by omega)
      · rename_i hm
        have hk : (i + j) / 2 < k := by
          by_contra hc
          exact hm (high _ (by omega) (by omega))
        exact ih _ j (by omega) hj hn (by omega)
    · omega

theorem search_eq (f : Nat → Bool) (k n : Nat) (hk : k ≤ n)
    (low : ∀ i, i < k → f i = false) (high : ∀ i, k ≤ i → i < n → f i = true) : search n f = k :=
  search_loop_eq f k n low high n 0 n (Nat.zero_le k) hk (Nat.le_refl n) (by omega)

def Split (p : α → Bool) (xs : List α) : Prop :=
  xs.Pairwise (fun a b => p a = true → p b = true)

theorem Split.find (h : Split p xs) :
    (∀ i (hi : i < xs.length), i < xs.findIdx p → p xs[i] = false) ∧
    (∀ i (hi : i < xs.length), xs.findIdx p ≤ i → p xs[i] = true) := by
  constructor
  · intro i hi hlt
    simpa using not_of_lt_findIdx hlt
  intro i hi hle
  have hk : xs.findIdx p < xs.length := Nat.lt_of_le_of_lt hle hi
  have hat : p xs[xs.findIdx p] = true := findIdx_getElem
  rcases Nat.eq_or_lt_of_le hle with he | hlt
  · simpa only [he] using hat
  · exact pairwise_iff_getElem.mp h _ i hk hi hlt hat

theorem Split.search_list (h : Split p xs) : searchList xs p = xs.findIdx p := by
  obtain ⟨low, high⟩ := h.find
  apply search_eq _ _ _ findIdx_le_length
  · intro i hi
    have hlen : i < xs.length := Nat.lt_of_lt_of_le hi findIdx_le_length
    simp [getElem?_eq_getElem hlen, low i hlen hi]
  · intro i hi hlen
    simp [getElem?_eq_getElem hlen, high i hlen hi]

theorem Split.take_eq_filter (h : Split p xs) :
    xs.take (searchList xs p) = xs.filter (fun a => !p a) := by
  rw [h.search_list]
  induction xs with
  | nil => rfl
  | cons x xs ih =>
    obtain ⟨hx, ht⟩ := pairwise_cons.mp h
    cases hp : p x with
    | false => simp [findIdx_cons, hp, ih ht]
    | true =>
      have hall : xs.filter (fun a => !p a) = [] :=
        filter_eq_nil_iff.mpr (fun a ha => by simp [hx a ha hp])
      simp [findIdx_cons, hp, hall]

theorem Split.sublist {ys : List α} (h : Split p xs) (hs : ys.Sublist xs) : Split p ys :=
  List.Pairwise.sublist hs h

theorem Split.boundary (h : Split p xs) : xs[searchList xs p]? = xs.find? p := by
  rw [h.search_list, find?_eq_getElem?_findIdx]

theorem Split.before (h : Split p xs) : xs[searchList xs p - 1]? =
      if searchList xs p = 0 then xs[0]? else (xs.filter (fun a => !p a)).getLast? := by
  split
  · rename_i h0
    rw [h0]
  · rename_i h0
    have hle : searchList xs p ≤ xs.length := h.search_list ▸ findIdx_le_length
    rw [← h.take_eq_filter, getLast?_eq_getElem?, length_take,
      Nat.min_eq_left hle, getElem?_take, if_pos (by omega)]

theorem Split.drop_before (h : Split p xs) (hpos : searchList xs p ≠ 0) :
    ∃ old x rest, xs = old ++ x :: rest ∧ p x = false ∧
      xs.drop (searchList xs p - 1) = x :: rest := by
  obtain ⟨i, hi⟩ := Nat.exists_eq_succ_of_ne_zero hpos
  have hle : searchList xs p ≤ xs.length := h.search_list ▸ findIdx_le_length
  have hlt : i < xs.length := by omega
  have hd : xs.drop i = xs[i] :: xs.drop (i + 1) := drop_eq_getElem_cons hlt
  refine ⟨xs.take i, xs[i], xs.drop (i + 1), ?_, ?_, ?_⟩
  · rw [← hd, take_append_drop]
  · exact h.find.1 i hlt (by rw [← h.search_list]; omega)
  · rw [hi, Nat.succ_sub_one, hd]

theorem lt_countP_iff {xs : List α} (h : xs.Pairwise (fun a b => p b = true → p a = true))
    (hk : xs[k]? = some x) : k < xs.countP p ↔ p x = true := by
  induction xs generalizing k with
  | nil => cases hk
  | cons y xs ih =>
    obtain ⟨hy, ht⟩ := pairwise_cons.mp h
    cases hp : p y with
    | true =>
      rw [countP_cons, hp, if_pos rfl]
      cases k with
      | zero =>
        cases Option.some.inj hk
        simp [hp]
      | succ k =>
        rw [← ih ht hk]
        omega
    | false =>
      have hall : ∀ b ∈ y :: xs, ¬ p b = true := by
        intro b hb hpb
        rcases mem_cons.mp hb with rfl | hb
        · rw [hp] at hpb
          cases hpb
        · rw [hy b hb hpb] at hp
          cases hp
      rw [countP_eq_zero.mpr hall]
      exact ⟨fun hlt => absurd hlt (Nat.not_lt_zero k),
        fun hx => absurd hx (hall x (mem_of_getElem? hk))⟩

end Boltq.Lib
