import Boltq.Lib.Tables

namespace Boltq.Lib
open Std List Option TreeMap

def latest {κ : Type u} {α : Type v} [DecidableEq κ] (k : κ) : List (κ × α) → Option α
  | [] => none
  | (k', a) :: rs => (latest k rs).or (if k' = k then some a else none)

def replay {κ : Type u} {α : Type v} {cmp : κ → κ → Ordering} (rs : List (κ × α)) :
    TreeMap κ α cmp :=
  rs.foldl (fun t r => t.insert r.1 r.2) ∅

def Rising {κ : Type u} {α : Type v} [LT α] (rs : List (κ × α)) : Prop :=
  rs.Pairwise (fun x y => x.1 = y.1 → x.2 < y.2)

section Latest
variable {κ : Type u} {α : Type v} [DecidableEq κ] {k : κ} {a b : α} {rs : List (κ × α)}

theorem latest_append (k : κ) (xs ys : List (κ × α)) :
    latest k (xs ++ ys) = (latest k ys).or (latest k xs) := by
  induction xs with
  | nil => simp [latest]
  | cons x xs ih =>
    simp only [cons_append, latest, ih, Option.or_assoc]

theorem mem_of_latest (h : latest k rs = some a) : (k, a) ∈ rs := by
  induction rs with
  | nil => cases h
  | cons x rs ih =>
    obtain ⟨k', b⟩ := x
    rcases or_eq_some_iff.mp h with h | ⟨_, h⟩
    · exact mem_cons_of_mem _ (ih h)
    split at h
    · rename_i hk
      cases h
      exact hk ▸ mem_cons_self
    · cases h

theorem latest_of_mem (h : (k, a) ∈ rs) : ∃ b, latest k rs = some b := by
  induction rs with
  | nil => cases h
  | cons x rs ih =>
    simp only [latest]
    cases hl : latest k rs with
    | some b => exact ⟨b, rfl⟩
    | none =>
      rcases mem_cons.mp h with rfl | h
      · exact ⟨a, if_pos rfl⟩
      obtain ⟨b, hb⟩ := ih h
      rw [hl] at hb
      cases hb

theorem Rising.le_latest [Preorder α] (h : Rising rs) (hm : (k, a) ∈ rs)
    (hl : latest k rs = some b) : a ≤ b := by
  induction rs with
  | nil => cases hm
  | cons x rs ih =>
    obtain ⟨hx, hrs⟩ := pairwise_cons.mp h
    rcases or_eq_some_iff.mp hl with hlast | ⟨hnone, hhead⟩
    · rcases mem_cons.mp hm with rfl | hm
      · exact (hx _ (mem_of_latest hlast) rfl).le
      · exact ih hrs hm hlast
    · rcases mem_cons.mp hm with rfl | hm
      · rw [if_pos rfl] at hhead
        cases hhead
        exact le_rfl
      · obtain ⟨c, hc⟩ := latest_of_mem hm
        rw [hnone] at hc
        cases hc

theorem Rising.snoc [Preorder α] (h : Rising rs) (hl : ∀ b ∈ latest k rs, b < a) :
    Rising (rs ++ [(k, a)]) := by
  refine pairwise_append.mpr ⟨h, pairwise_singleton _ _, ?_⟩
  intro x hx y hy he
  obtain rfl := mem_singleton.mp hy
  obtain ⟨k', c⟩ := x
  obtain rfl : k' = k := he
  obtain ⟨b, hb⟩ := latest_of_mem hx
  exact (h.le_latest hx hb).trans_lt (hl b hb)

variable {cmp : κ → κ → Ordering} [TransCmp cmp] [LawfulEqCmp cmp]

theorem getElem?_replay (k : κ) (rs : List (κ × α)) :
    (replay rs : TreeMap κ α cmp)[k]? = latest k rs := by
  have hfold : ∀ (t : TreeMap κ α cmp),
      (rs.foldl (fun t r => t.insert r.1 r.2) t)[k]? = (latest k rs).or t[k]? := by
    induction rs with
    | nil => exact fun t => rfl
    | cons x rs ih =>
      intro t
      rw [foldl_cons, ih, latest, Option.or_assoc, TreeMap.getElem?_insert]
      simp only [LawfulEqCmp.compare_eq_iff_eq]
      split <;> rfl
  exact (hfold ∅).trans (by simp)

theorem latest_filter_toList (k : κ) (t : TreeMap κ α cmp) (p : κ × α → Bool) :
    latest k (t.toList.filter p) = (t[k]?).filter (fun a => p (k, a)) := by
  cases hl : latest k (t.toList.filter p) with
  | some a =>
    obtain ⟨hm, hp⟩ := mem_filter.mp (mem_of_latest hl)
    rw [mem_toList_iff_getElem?_eq_some.mp hm, filter_some, if_pos hp]
  | none =>
    cases ht : t[k]? with
    | none => rfl
    | some a =>
      rw [filter_some]
      split
      · rename_i hp
        obtain ⟨b, hb⟩ := latest_of_mem
          (mem_filter.mpr ⟨mem_toList_iff_getElem?_eq_some.mpr ht, hp⟩)
        rw [hl] at hb
        cases hb
      · rfl

theorem latest_toList (k : κ) (t : TreeMap κ α cmp) : latest k t.toList = t[k]? := by
  have hall := latest_filter_toList k t (fun _ => true)
  rw [filter_true] at hall
  rw [hall]
  cases t[k]? <;> rfl

omit [DecidableEq κ] in
theorem Rising.toList [LT α] (t : TreeMap κ α cmp) : Rising t.toList := by
  have hd : t.toList.Pairwise (fun x y => ¬ cmp x.1 y.1 = .eq) := distinct_keys_toList
  refine hd.imp ?_
  intro x y hne he
  rw [he] at hne
  exact absurd ReflCmp.compare_self hne

end Latest
end Boltq.Lib
