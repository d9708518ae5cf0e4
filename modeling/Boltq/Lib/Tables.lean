import Mathlib

namespace Boltq.Lib
open Std List TreeMap Option

variable {κ : Type u} {α : Type v} {cmp : κ → κ → Ordering} [TransCmp cmp] [LawfulEqCmp cmp]

theorem insert_cases {t : TreeMap κ α cmp} (h : (t.insert k a)[k']? = some b) :
    (k' = k ∧ b = a) ∨ (k' ≠ k ∧ t[k']? = some b) := by
  rw [TreeMap.getElem?_insert] at h
  split at h
  · rename_i he
    exact .inl ⟨(LawfulEqCmp.eq_of_compare he).symm, (Option.some.inj h).symm⟩
  · rename_i hne
    refine .inr ⟨?_, h⟩
    rintro rfl
    exact hne ReflCmp.compare_self

theorem getElem?_insert_other {t : TreeMap κ α cmp} (a : α) (h : k' ≠ k) :
    (t.insert k a)[k']? = t[k']? := by
  rw [TreeMap.getElem?_insert, if_neg]
  exact fun he => h (LawfulEqCmp.eq_of_compare he).symm

theorem getElem?_erase_other {t : TreeMap κ α cmp} (h : k' ≠ k) : (t.erase k)[k']? = t[k']? := by
  rw [getElem?_erase, if_neg]
  exact fun he => h (LawfulEqCmp.eq_of_compare he).symm

theorem getElem?_of_erase {t : TreeMap κ α cmp} {k k' : κ} {a : α} (h : (t.erase k)[k']? = some a) :
    t[k']? = some a := by
  by_cases hk : k' = k
  · rw [hk, getElem?_erase_self] at h
    cases h
  · exact (getElem?_erase_other hk).symm.trans h

omit [LawfulEqCmp cmp] in
theorem mem_of_getElem? {t : TreeMap κ α cmp} (h : t[k]? = some a) : k ∈ t :=
  mem_iff_isSome_getElem?.mpr (isSome_of_eq_some h)

theorem mem_insert_iff {t : TreeMap κ α cmp} : k' ∈ t.insert k a ↔ k' = k ∨ k' ∈ t := by
  rw [mem_insert, LawfulEqCmp.compare_eq_iff_eq, eq_comm]

theorem mem_erase_iff {t : TreeMap κ α cmp} : k' ∈ t.erase k ↔ k' ≠ k ∧ k' ∈ t := by
  rw [mem_erase, ne_eq, LawfulEqCmp.compare_eq_iff_eq, eq_comm]

theorem mem_set_insert_iff {t : TreeSet κ cmp} : k' ∈ t.insert k ↔ k' = k ∨ k' ∈ t := by
  rw [TreeSet.mem_insert, LawfulEqCmp.compare_eq_iff_eq, eq_comm]

theorem mem_set_erase_iff {t : TreeSet κ cmp} : k' ∈ t.erase k ↔ k' ≠ k ∧ k' ∈ t := by
  rw [TreeSet.mem_erase, ne_eq, LawfulEqCmp.compare_eq_iff_eq, eq_comm]

theorem mem_filter_iff {t : TreeMap κ α cmp} {p : κ → Bool} {k : κ} :
    k ∈ t.filter (fun k _ => p k) ↔ k ∈ t ∧ p k = true := by
  rw [mem_iff_isSome_getElem?, getElem?_filter', mem_iff_isSome_getElem?]
  cases t[k]? with
  | none => simp
  | some a => simp [Option.filter]

theorem mem_set_filter_iff {t : TreeSet κ cmp} : k ∈ t.filter p ↔ k ∈ t ∧ p k = true := by
  simp [TreeSet.mem_filter]

theorem getElem?_ofList_toList (t : TreeMap κ α cmp) (k : κ) :
    (ofList t.toList cmp)[k]? = t[k]? := by
  classical
  let _ : BEq κ := instBEqOfDecidableEq
  have _ : LawfulBEqCmp cmp := ⟨fun {a b} => by
    rw [beq_iff_eq]
    exact ⟨fun he => LawfulEqCmp.eq_of_compare he, fun he => he ▸ ReflCmp.compare_self⟩⟩
  cases hk : t[k]? with
  | none =>
    apply getElem?_ofList_of_contains_eq_false
    rw [contains_eq_mem, decide_eq_false_iff_not]
    intro hmem
    obtain ⟨⟨k', a⟩, hin, rfl⟩ := mem_map.mp hmem
    rw [mem_toList_iff_getElem?_eq_some, hk] at hin
    cases hin
  | some a =>
    apply getElem?_ofList_of_mem ReflCmp.compare_self distinct_keys_toList
    exact mem_toList_iff_getElem?_eq_some.mpr hk

theorem mem_ofList_toList {t : TreeMap κ α cmp} : k ∈ ofList t.toList cmp ↔ k ∈ t := by
  rw [mem_iff_isSome_getElem?, getElem?_ofList_toList, ← mem_iff_isSome_getElem?]

theorem filter_keys_eq {t : TreeMap κ α cmp} {u : TreeMap κ β cmp}
    (h : ∀ k, p k = true → (k ∈ t ↔ k ∈ u)) : t.keys.filter p = u.keys.filter p := by
  have hperm : (t.keys.filter p).Perm (u.keys.filter p) := by
    rw [perm_ext_iff_of_nodup (nodup_keys.filter p) (nodup_keys.filter p)]
    intro k
    rw [mem_filter, mem_filter, TreeMap.mem_keys, TreeMap.mem_keys]
    exact ⟨fun ⟨hk, hp⟩ => ⟨(h k hp).mp hk, hp⟩, fun ⟨hk, hp⟩ => ⟨(h k hp).mpr hk, hp⟩⟩
  have hanti : ∀ a b, a ∈ t.keys.filter p → b ∈ u.keys.filter p → cmp a b = .lt → cmp b a = .lt →
      a = b := by
    intro a b _ _ hab hba
    have hswap : cmp a b = (cmp b a).swap := OrientedCmp.eq_swap
    rw [hab, hba] at hswap
    cases hswap
  exact List.Perm.eq_of_pairwise hanti (ordered_keys.filter p)
    (ordered_keys.filter p) hperm

theorem keys_perm_cons {t u : TreeMap κ α cmp} (hk : k ∉ t) (hu : ∀ k', k' ∈ u ↔ k' = k ∨ k' ∈ t) :
    u.keys.Perm (k :: t.keys) := by
  rw [perm_ext_iff_of_nodup nodup_keys
    (nodup_cons.mpr ⟨fun hin => hk (TreeMap.mem_keys.mp hin), nodup_keys⟩)]
  intro k'
  rw [mem_cons, TreeMap.mem_keys, TreeMap.mem_keys, hu]

theorem toList_perm {t u : TreeMap κ α cmp} (h : ∀ k : κ, t[k]? = u[k]?) : t.toList.Perm u.toList := by
  have hnodup : ∀ t : TreeMap κ α cmp, t.toList.Nodup := fun t =>
    Pairwise.of_map Prod.fst (fun _ _ hne he => hne (congrArg Prod.fst he))
      (map_fst_toList_eq_keys ▸ nodup_keys)
  rw [perm_ext_iff_of_nodup (hnodup t) (hnodup u)]
  rintro ⟨k, a⟩
  rw [mem_toList_iff_getElem?_eq_some, mem_toList_iff_getElem?_eq_some, h]

theorem toList_insert_erase (t : TreeMap κ α cmp) (k : κ) (a : α) :
    (t.insert k a).toList.Perm ((k, a) :: (t.erase k).toList) := by
  classical
  let _ : BEq κ := instBEqOfDecidableEq
  have _ : LawfulBEqCmp cmp := ⟨fun {a b} => by
    rw [beq_iff_eq]
    exact ⟨fun he => LawfulEqCmp.eq_of_compare he, fun he => he ▸ ReflCmp.compare_self⟩⟩
  have hins : ∀ k' : κ, (t.insert k a)[k']? = ((t.erase k).insert k a)[k']? := by
    intro k'
    by_cases hk : k' = k
    · rw [hk, getElem?_insert_self, getElem?_insert_self]
    · rw [getElem?_insert_other a hk, getElem?_insert_other a hk, getElem?_erase_other hk]
  refine (toList_perm hins).trans (toList_insert_perm.trans (.cons _ (.of_eq ?_)))
  rw [filter_eq_self]
  rintro ⟨k', a'⟩ hm
  rw [mem_toList_iff_getElem?_eq_some] at hm
  have hne : k ≠ k' := by
    rintro rfl
    rw [getElem?_erase_self] at hm
    cases hm
  simp [hne]

theorem getElem?_set_cases {l : List α} (h : (l.set i a)[j]? = some b) :
    (j = i ∧ b = a) ∨ (j ≠ i ∧ l[j]? = some b) := by
  by_cases hj : j = i
  · subst hj
    have hlt : j < l.length := by
      simpa using (List.getElem?_eq_some_iff.mp h).1
    rw [List.getElem?_set_self hlt] at h
    exact .inl ⟨rfl, (some.inj h).symm⟩
  · rw [List.getElem?_set_ne (Ne.symm hj)] at h
    exact .inr ⟨hj, h⟩

theorem getElem?_concat_cases (h : (l ++ [a])[i]? = some b) :
    (i = l.length ∧ b = a) ∨ l[i]? = some b := by
  rw [getElem?_append] at h
  split at h
  · exact .inr h
  rw [getElem?_singleton] at h
  split at h
  · exact .inl ⟨by omega, (some.inj h).symm⟩
  · cases h

theorem map_eq_map_cases {x : Option α} {y : Option β} (h : x.map f = y.map g) :
    (x = none ∧ y = none) ∨ ∃ a b, x = some a ∧ y = some b ∧ f a = g b := by
  cases x with
  | none =>
    cases y with
    | none => exact .inl ⟨rfl, rfl⟩
    | some b => cases h
  | some a =>
    cases y with
    | none => cases h
    | some b => exact .inr ⟨a, b, rfl, rfl, some.inj h⟩

theorem list_map_congr {f : α → γ} {g : β → γ} {f' : α → δ} {g' : β → δ}
    (hfg : ∀ a b, f a = g b → f' a = g' b) {l : List α} {m : List β} (h : l.map f = m.map g) :
    l.map f' = m.map g' := by
  induction l generalizing m with
  | nil =>
    cases m with
    | nil => rfl
    | cons b m => cases h
  | cons a l ih =>
    cases m with
    | nil => cases h
    | cons b m =>
      obtain ⟨hab, hrest⟩ := cons.inj h
      rw [map_cons, map_cons, hfg a b hab, ih hrest]

section
variable (t : TreeMap κ α cmp)
include t

theorem find?_toList [DecidableEq κ] (k : κ) :
    t.toList.find? (fun x => x.1 = k) = (t[k]?).map (fun a => (k, a)) := by
  cases hf : t.toList.find? (fun x => x.1 = k) with
  | none =>
    cases hk : t[k]? with
    | none => rfl
    | some a =>
      have hin := find?_eq_none.mp hf _ (mem_toList_iff_getElem?_eq_some.mpr hk)
      exact absurd rfl (fun he => hin (decide_eq_true he))
  | some x =>
    obtain ⟨k', a⟩ := x
    have hk' : k' = k := by simpa using find?_some hf
    subst hk'
    rw [mem_toList_iff_getElem?_eq_some.mp (mem_of_find?_eq_some hf)]
    rfl

theorem sum_toList [DecidableEq κ] (k : κ) (f : κ × α → Nat)
    (h : ∀ x ∈ t.toList, x.1 ≠ k → f x = 0) :
    (t.toList.map f).sum = (t[k]?).elim 0 (fun a => f (k, a)) := by
  have hsum : ∀ l : List (κ × α), l.Pairwise (fun x y => ¬ cmp x.1 y.1 = .eq) →
      (∀ x ∈ l, x.1 ≠ k → f x = 0) → (l.map f).sum = (l.find? (fun x => x.1 = k)).elim 0 f := by
    intro l
    induction l with
    | nil => exact fun _ _ => rfl
    | cons x l ih =>
      intro hd hz
      obtain ⟨hx, hd⟩ := pairwise_cons.mp hd
      have hrest := ih hd (fun y hy => hz y (mem_cons_of_mem _ hy))
      rw [map_cons, sum_cons, hrest]
      by_cases hk : x.1 = k
      · have hnone : l.find? (fun x => x.1 = k) = none := by
          rw [find?_eq_none]
          intro y hy hyk
          exact hx y hy (by rw [hk, of_decide_eq_true hyk]; exact ReflCmp.compare_self)
        rw [hnone, find?_cons_of_pos (by simpa using hk)]
        rfl
      · rw [find?_cons_of_neg (by simpa using hk), hz x mem_cons_self hk, Nat.zero_add]
  rw [hsum _ distinct_keys_toList h, find?_toList]
  cases t[k]? <;> rfl

theorem countP_toList [DecidableEq κ] (k : κ) (p : α → Bool) :
    t.toList.countP (fun x => x.1 = k ∧ p x.2) = (t[k]?).elim 0 (fun a => if p a then 1 else 0) := by
  rw [← flatMap_singleton' t.toList, countP_flatMap, sum_toList t k]
  · simp
  · intro x _ hk
    simp [hk]

end

theorem length_le_size {t : TreeMap κ α cmp} {ks : List κ} (hn : ks.Nodup) (h : ∀ k ∈ ks, k ∈ t) :
    ks.length ≤ t.size := by
  rw [← length_keys]
  exact (subperm_of_subset hn (fun k hk => TreeMap.mem_keys.mpr (h k hk))).length_le

end Boltq.Lib
