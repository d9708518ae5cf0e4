import Boltq.Lib.Tables

namespace Boltq.Lib
open List

structure PriorityQueue (α : Type u) where
  levels : List (List α)
  cap : Nat
  deriving DecidableEq

namespace PriorityQueue
variable {α : Type u}

def new (n cap : Nat) : PriorityQueue α := ⟨List.replicate n [], cap⟩

section
variable (q : PriorityQueue α)

def push (i : Nat) (a : α) : Option (PriorityQueue α) :=
  match q.levels[i]? with
  | none => none
  | some l => if l.length < q.cap then some { q with levels := q.levels.set i (l ++ [a]) } else none

def popHighest : List (List α) → Option (α × List (List α))
  | [] => none
  | l :: ls =>
    match popHighest ls with
    | some (a, ls) => some (a, l :: ls)
    | none =>
      match l with
      | [] => none
      | a :: l => some (a, l :: ls)

def tryPop : Option (α × PriorityQueue α) :=
  (popHighest q.levels).map (fun r => (r.1, { q with levels := r.2 }))

def drain : List α := q.levels.reverse.flatten

def isFull : Bool := q.levels.all (fun l => q.cap ≤ l.length)

def purge : PriorityQueue α := { q with levels := q.levels.map (fun _ => []) }

def Room (i : Nat) : Prop := ∃ l ∈ q.levels[i]?, l.length < q.cap

end

instance (q : PriorityQueue α) (i : Nat) : Decidable (q.Room i) :=
  decidable_of_iff ((q.levels[i]?).any (fun l => l.length < q.cap) = true) (by
    simp [Room, Option.any_eq_true])

@[simp] theorem drain_new (n cap : Nat) : (new n cap : PriorityQueue α).drain = [] := by
  simp [new, drain]

@[simp] theorem drain_purge (q : PriorityQueue α) : q.purge.drain = [] := by
  simp [purge, drain]

theorem push_of_room {q : PriorityQueue α} (h : q.Room i) (a : α) : ∃ q', q.push i a = some q' := by
  obtain ⟨l, hl, hlt⟩ := h
  unfold push
  rw [Option.mem_def.mp hl]
  exact ⟨_, if_pos hlt⟩

theorem flatten_set {ls : List (List α)} (h : ls[i]? = some l) (a : α) :
    (ls.set i (l ++ [a])).flatten.Perm (a :: ls.flatten) := by
  induction ls generalizing i with
  | nil => cases h
  | cons x ls ih =>
    cases i with
    | zero =>
      cases h
      rw [set_cons_zero, flatten_cons, flatten_cons, append_assoc]
      exact perm_middle
    | succ i =>
      rw [set_cons_succ, flatten_cons, flatten_cons]
      exact (List.Perm.append_left x (ih h)).trans perm_middle

theorem drain_perm (q : PriorityQueue α) : q.drain.Perm q.levels.flatten :=
  (reverse_perm _).flatten

theorem push_perm {q q' : PriorityQueue α} (h : q.push i a = some q') :
    q'.drain.Perm (a :: q.drain) := by
  unfold push at h
  split at h
  · cases h
  rename_i l hl
  split at h
  · cases h
    exact (drain_perm _).trans ((flatten_set hl a).trans (List.Perm.cons a (drain_perm q).symm))
  · cases h

theorem push_levels {q : PriorityQueue α} (h : q.push i a = some q') : q'.cap = q.cap ∧
    ∀ j, q'.levels[j]? = if i = j then (q.levels[j]?).map (· ++ [a]) else q.levels[j]? := by
  unfold push at h
  split at h
  · cases h
  rename_i l hl
  split at h
  · cases h
    refine ⟨rfl, fun j => ?_⟩
    by_cases hij : i = j
    · subst hij
      rw [if_pos rfl, List.getElem?_set_self (List.getElem?_eq_some_iff.mp hl).1, hl]
      rfl
    · rw [if_neg hij, List.getElem?_set_ne hij]
  · cases h

theorem push_length {q : PriorityQueue α} (h : q.push i a = some q') :
    q'.levels.length = q.levels.length := by
  unfold push at h
  split at h
  · cases h
  split at h
  · cases h
    exact length_set
  · cases h

theorem popHighest_none (h : popHighest ls = none) : ls.reverse.flatten = [] := by
  induction ls with
  | nil => rfl
  | cons l ls ih =>
    simp only [popHighest] at h
    split at h
    · cases h
    rename_i hn
    split at h
    · rw [reverse_cons, flatten_append, ih hn]
      rfl
    · cases h

theorem popHighest_drain (h : popHighest ls = some (a, ls')) :
    ls.reverse.flatten = a :: ls'.reverse.flatten := by
  induction ls generalizing ls' with
  | nil => cases h
  | cons l ls ih =>
    simp only [popHighest] at h
    split at h
    · rename_i b rest hrest
      cases h
      rw [reverse_cons, reverse_cons, flatten_append, flatten_append, ih hrest]
      rfl
    · rename_i hnone
      split at h
      · cases h
      cases h
      -- nothing is left above, so the level's first element comes first
      rw [reverse_cons, reverse_cons, flatten_append, flatten_append,
        popHighest_none hnone]
      rfl

theorem tryPop_drain {q : PriorityQueue α} (h : q.tryPop = some (a, q')) :
    q.drain = a :: q'.drain := by
  obtain ⟨⟨b, ls⟩, hp, he⟩ := Option.map_eq_some_iff.mp h
  cases he
  exact popHighest_drain hp

theorem tryPop_none {q : PriorityQueue α} (h : q.tryPop = none) : q.drain = [] :=
  popHighest_none (Option.map_eq_none_iff.mp h)

structure Sorted (key : α → Nat) (n c : Nat) (q : PriorityQueue α) : Prop where
  levels : q.levels.length = n
  cap : q.cap = c
  level : ∀ i l, q.levels[i]? = some l → l.length ≤ c ∧ ∀ a ∈ l, key a = i

def refill (key : α → Nat) (n c : Nat) (xs : List α) : PriorityQueue α :=
  xs.foldl (fun q a => (q.push (key a) a).getD q) (new n c)

section Sorted
variable {key : α → Nat} {n c : Nat} {q q' : PriorityQueue α} {a : α}

theorem sorted_new : Sorted key n c (new n c) where
  levels := length_replicate
  cap := rfl
  level := by
    intro i l hl
    obtain rfl := List.eq_of_mem_replicate (List.mem_of_getElem? hl)
    exact ⟨Nat.zero_le _, nofun⟩

theorem Sorted.push (h : Sorted key n c q) (hp : q.push (key a) a = some q') :
    Sorted key n c q' := by
  unfold PriorityQueue.push at hp
  split at hp
  · cases hp
  rename_i l hl
  split at hp
  · rename_i hlt
    cases hp
    refine ⟨length_set.trans h.levels, h.cap, ?_⟩
    intro i l' hl'
    by_cases hi : key a = i
    · subst hi
      rw [List.getElem?_set_self (List.getElem?_eq_some_iff.mp hl).1] at hl'
      cases hl'
      refine ⟨?_, ?_⟩
      · rw [length_append, length_singleton]
        have := h.cap
        omega
      · intro b hb
        rcases mem_append.mp hb with hb | hb
        · exact (h.level _ l hl).2 b hb
        · rw [mem_singleton.mp hb]
    · rw [List.getElem?_set_ne hi] at hl'
      exact h.level i l' hl'
  · cases hp

theorem popHighest_level (h : popHighest ls = some (a, ls')) : ls'.length = ls.length ∧
      ∀ (i : Nat) (l' : List α), ls'[i]? = some l' → ∃ l, ls[i]? = some l ∧ l' <:+ l := by
  induction ls generalizing ls' with
  | nil => cases h
  | cons l ls ih =>
    simp only [popHighest] at h
    split at h
    · rename_i b rest hrest
      cases h
      obtain ⟨hlen, hall⟩ := ih hrest
      refine ⟨by rw [length_cons, length_cons, hlen], ?_⟩
      intro i l' hl'
      cases i with
      | zero => exact ⟨l, rfl, Option.some.inj hl' ▸ suffix_refl l⟩
      | succ i => exact hall i l' hl'
    · split at h
      · cases h
      cases h
      refine ⟨rfl, ?_⟩
      intro i l' hl'
      cases i with
      | zero => exact ⟨_, rfl, Option.some.inj hl' ▸ suffix_cons _ _⟩
      | succ i => exact ⟨l', hl', suffix_refl l'⟩

theorem Sorted.tryPop (h : Sorted key n c q) (hp : q.tryPop = some (a, q')) : Sorted key n c q' := by
  obtain ⟨⟨b, ls⟩, hpop, he⟩ := Option.map_eq_some_iff.mp hp
  cases he
  obtain ⟨hlen, hall⟩ := popHighest_level hpop
  refine ⟨hlen.trans h.levels, h.cap, ?_⟩
  intro i l' hl'
  obtain ⟨l, hl, hsuf⟩ := hall i l' hl'
  obtain ⟨hcap, hkey⟩ := h.level i l hl
  exact ⟨Nat.le_trans hsuf.length_le hcap, fun b hb => hkey b (hsuf.mem hb)⟩

theorem Sorted.purge (h : Sorted key n c q) : Sorted key n c q.purge where
  levels := (length_map _).trans h.levels
  cap := h.cap
  level := by
    intro i l hl
    rw [show q.purge.levels = q.levels.map (fun _ => []) from rfl, getElem?_map] at hl
    obtain ⟨_, _, rfl⟩ := Option.map_eq_some_iff.mp hl
    exact ⟨Nat.zero_le _, nofun⟩

theorem filter_flatten (key : α → Nat) (ls : List (List α)) (off : Nat)
    (h : ∀ j l, ls[j]? = some l → ∀ a ∈ l, key a = off + j) (i : Nat) :
    ls.reverse.flatten.filter (fun a => key a = off + i) = (ls[i]?).getD [] := by
  induction ls generalizing off i with
  | nil => rfl
  | cons l ls ih =>
    have hl : ∀ a ∈ l, key a = off := h 0 l rfl
    have hrest : ∀ j m, ls[j]? = some m → ∀ a ∈ m, key a = off + 1 + j := by
      intro j m hm a ha
      rw [h (j + 1) m hm a ha]
      omega
    rw [reverse_cons, flatten_append, filter_append, flatten_singleton]
    cases i with
    | zero =>
      have hnone : ls.reverse.flatten.filter (fun a => key a = off + 0) = [] := by
        rw [filter_eq_nil_iff]
        intro a ha
        obtain ⟨m, hm, ham⟩ := mem_flatten.mp ha
        obtain ⟨j, hj⟩ := mem_iff_getElem?.mp (mem_reverse.mp hm)
        have hkey := hrest j m hj a ham
        simp only [decide_eq_true_eq]
        omega
      rw [hnone, nil_append, filter_eq_self.mpr]
      · rfl
      · exact fun a ha => decide_eq_true (hl a ha)
    | succ i =>
      have hnone : l.filter (fun a => key a = off + (i + 1)) = [] := by
        rw [filter_eq_nil_iff]
        intro a ha
        have hkey := hl a ha
        simp only [decide_eq_true_eq]
        omega
      have hi : off + (i + 1) = off + 1 + i := by omega
      rw [hnone, append_nil, hi, ih (off + 1) hrest i]
      rfl

theorem pushAll_levels (key : α → Nat) (xs : List α) (q : PriorityQueue α)
    (hkey : ∀ x ∈ xs, key x < q.levels.length) (hroom : ∀ i l, q.levels[i]? = some l →
      l.length + (xs.filter (fun a => key a = i)).length ≤ q.cap) :
    let q' := xs.foldl (fun q a => (q.push (key a) a).getD q) q
    q'.cap = q.cap ∧
      ∀ i, q'.levels[i]? = (q.levels[i]?).map (· ++ xs.filter (fun a => key a = i)) := by
  induction xs generalizing q with
  | nil =>
    refine ⟨rfl, fun i => ?_⟩
    simp
  | cons x xs ih =>
    have hcons : ∀ i, (x :: xs).filter (fun a => key a = i) =
        (if key x = i then [x] else []) ++ xs.filter (fun a => key a = i) := by
      intro i
      by_cases hi : key x = i <;> simp [hi]
    obtain ⟨l, hl⟩ : ∃ l, q.levels[key x]? = some l :=
      ⟨_, List.getElem?_eq_getElem (hkey x mem_cons_self)⟩
    have hx := hroom (key x) l hl
    rw [hcons, if_pos rfl, length_append, length_singleton] at hx
    obtain ⟨q1, hq1⟩ := push_of_room ⟨l, hl, by omega⟩ x
    obtain ⟨hcap, hlev⟩ := push_levels hq1
    have hkey1 : ∀ y ∈ xs, key y < q1.levels.length := by
      intro y hy
      rw [push_length hq1]
      exact hkey y (mem_cons_of_mem _ hy)
    obtain ⟨hcap', hlev'⟩ := ih q1 hkey1 (by
      intro i m hm
      rw [hlev i] at hm
      rw [hcap]
      split at hm
      · rename_i hi
        subst hi
        rw [hl] at hm
        cases hm
        rw [length_append, length_singleton]
        omega
      · rename_i hi
        have hm' := hroom i m hm
        rw [hcons, if_neg hi, nil_append] at hm'
        exact hm')
    dsimp only
    rw [foldl_cons, hq1, Option.getD_some]
    refine ⟨hcap'.trans hcap, fun i => ?_⟩
    rw [hlev' i, hlev i, hcons i]
    by_cases hi : key x = i
    · rw [if_pos hi, if_pos hi, Option.map_map]
      congr 1
      funext m
      exact append_assoc m [x] _
    · rw [if_neg hi, if_neg hi, nil_append]

theorem Sorted.refill_drain (h : Sorted key n c q) : refill key n c q.drain = q := by
  have hlevel : ∀ i, q.drain.filter (fun a => key a = i) = (q.levels[i]?).getD [] := by
    intro i
    have hf := filter_flatten key q.levels 0 (fun j l hl a ha => by
      rw [(h.level j l hl).2 a ha, Nat.zero_add]) i
    rw [Nat.zero_add] at hf
    exact hf
  have hnew : ∀ i l, (new n c : PriorityQueue α).levels[i]? = some l → l = [] :=
    fun i l hl => List.eq_of_mem_replicate (List.mem_of_getElem? hl)
  have hlen : (new n c : PriorityQueue α).levels.length = n := List.length_replicate
  obtain ⟨hcap, hlev⟩ := pushAll_levels key q.drain (new n c)
    (by
      intro x hx
      obtain ⟨l, hl, hxl⟩ := mem_flatten.mp hx
      obtain ⟨j, hj⟩ := mem_iff_getElem?.mp (mem_reverse.mp hl)
      rw [(h.level j l hj).2 x hxl, hlen, ← h.levels]
      exact (List.getElem?_eq_some_iff.mp hj).1)
    (by
      intro i l hl
      rw [hnew i l hl, hlevel i]
      cases hq : q.levels[i]? with
      | none => exact Nat.zero_le _
      | some m =>
        rw [length_nil, Nat.zero_add]
        exact (h.level i m hq).1)
  have hlevels : (refill key n c q.drain).levels = q.levels := by
    refine ext_getElem? (fun i => ?_)
    rw [show (refill key n c q.drain).levels[i]? = _ from hlev i, hlevel i]
    cases hi : (new n c : PriorityQueue α).levels[i]? with
    | none =>
      rw [List.getElem?_eq_none_iff, hlen, ← h.levels, ← List.getElem?_eq_none_iff] at hi
      rw [hi]
      rfl
    | some l =>
      have hlt := (List.getElem?_eq_some_iff.mp hi).1
      rw [hlen, ← h.levels] at hlt
      rw [hnew i l hi, List.getElem?_eq_getElem hlt]
      rfl
  obtain ⟨levels, cap⟩ := q
  show PriorityQueue.mk (refill key n c _).levels (refill key n c _).cap = _
  rw [hlevels, show (refill key n c _).cap = _ from hcap]
  exact congrArg _ h.cap.symm

theorem sorted_refill (xs : List α) : Sorted key n c (refill key n c xs) := by
  unfold refill
  have hnew : Sorted key n c (new n c) := sorted_new
  generalize (new n c : PriorityQueue α) = q at hnew
  induction xs generalizing q with
  | nil => exact hnew
  | cons x xs ih =>
    rw [foldl_cons]
    refine ih _ ?_
    cases hp : q.push (key x) x with
    | none => exact hnew
    | some q' => exact hnew.push hp

theorem mem_refill (h : a ∈ (refill key n c xs).drain) : a ∈ xs := by
  have hpush : ∀ (xs : List α) (q : PriorityQueue α),
      a ∈ (xs.foldl (fun q a => (q.push (key a) a).getD q) q).drain → a ∈ q.drain ∨ a ∈ xs := by
    intro xs
    induction xs with
    | nil => exact fun q hq => .inl hq
    | cons x xs ih =>
      intro q hq
      rw [foldl_cons] at hq
      rcases ih _ hq with hq | hq
      · cases hp : q.push (key x) x with
        | none =>
          rw [hp] at hq
          exact .inl hq
        | some q' =>
          rw [hp] at hq
          rcases mem_cons.mp ((push_perm hp).mem_iff.mp hq) with rfl | hq
          · exact .inr mem_cons_self
          · exact .inl hq
      · exact .inr (mem_cons_of_mem x hq)
  rcases hpush xs _ h with hnew | hx
  · rw [drain_new] at hnew
    cases hnew
  · exact hx

end Sorted

section Map
variable {β : Type v} (f : α → β)

def map (q : PriorityQueue α) : PriorityQueue β := ⟨q.levels.map (List.map f), q.cap⟩

theorem map_new (n cap : Nat) : (new n cap : PriorityQueue α).map f = new n cap := by
  simp [map, new]

theorem map_congr {f : α → γ} (hfg : ∀ a b, f a = g b → f' a = g' b) {q : PriorityQueue α}
    {q' : PriorityQueue β} (h : q.map f = q'.map g) : q.map f' = q'.map g' := by
  obtain ⟨hlevels, hcap⟩ := PriorityQueue.mk.inj h
  unfold map
  rw [hcap, list_map_congr (fun l m hlm => list_map_congr hfg hlm) hlevels]

section
variable (q : PriorityQueue α)

theorem map_isFull : (q.map f).isFull = q.isFull := by
  unfold isFull map
  rw [all_map]
  congr 1
  funext l
  exact congrArg (fun k => decide (q.cap ≤ k)) (length_map f)

theorem map_drain : (q.map f).drain = q.drain.map f := by
  unfold drain map
  rw [← map_reverse, map_flatten]

theorem map_purge : (q.map f).purge = q.purge.map f := by
  unfold purge map
  rw [map_map, map_map]
  rfl

theorem map_push (i : Nat) (a : α) : (q.map f).push i (f a) = (q.push i a).map (map f) := by
  unfold push map
  rw [getElem?_map]
  cases q.levels[i]? with
  | none => rfl
  | some l =>
    dsimp only [Option.map_some]
    rw [length_map]
    split
    · simp only [Option.map_some, map_set, map_append, map_singleton]
    · rfl

end

theorem map_refill (hkey : ∀ a, key' (f a) = key a) (n c : Nat) (xs : List α) :
    (refill key n c xs).map f = refill key' n c (xs.map f) := by
  unfold refill
  rw [← map_new f n c]
  generalize (new n c : PriorityQueue α) = q
  induction xs generalizing q with
  | nil => rfl
  | cons x xs ih =>
    rw [map_cons, foldl_cons, foldl_cons, ih, hkey, map_push]
    cases q.push (key x) x <;> rfl

theorem map_popHighest (ls : List (List α)) : popHighest (ls.map (List.map f)) =
      (popHighest ls).map (fun r => (f r.1, r.2.map (List.map f))) := by
  induction ls with
  | nil => rfl
  | cons l ls ih =>
    simp only [map_cons, popHighest, ih]
    cases popHighest ls with
    | some r => rfl
    | none => cases l <;> rfl

theorem map_tryPop (q : PriorityQueue α) :
    (q.map f).tryPop = q.tryPop.map (fun r => (f r.1, r.2.map f)) := by
  unfold tryPop
  show (popHighest (q.levels.map (List.map f))).map _ = _
  rw [map_popHighest, Option.map_map, Option.map_map]
  rfl

theorem push_cases {f : α → γ} {q : PriorityQueue α} {q' : PriorityQueue β} (hq : q.map f = q'.map g)
    (ha : f a = g a') (i : Nat) : (q.push i a = none ∧ q'.push i a' = none) ∨
    ∃ r r', q.push i a = some r ∧ q'.push i a' = some r' ∧ r.map f = r'.map g :=
  map_eq_map_cases (by rw [← map_push, ← map_push, hq, ha])

theorem tryPop_cases {f : α → γ} {q : PriorityQueue α} {q' : PriorityQueue β}
    (hq : q.map f = q'.map g) : (q.tryPop = none ∧ q'.tryPop = none) ∨
    ∃ r r', q.tryPop = some r ∧ q'.tryPop = some r' ∧ f r.1 = g r'.1 ∧ r.2.map f = r'.2.map g := by
  have hpop : q.tryPop.map (fun r => (f r.1, r.2.map f)) = q'.tryPop.map (fun r => (g r.1, r.2.map g)) := by
    rw [← map_tryPop, ← map_tryPop, hq]
  rcases map_eq_map_cases hpop with hn | ⟨r, r', hr, hr', hmap⟩
  · exact .inl hn
  · exact .inr ⟨r, r', hr, hr', Prod.mk.inj hmap⟩

end Map

end PriorityQueue
end Boltq.Lib
