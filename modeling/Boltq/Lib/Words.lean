import Mathlib

namespace Boltq.Lib
open List

section Wildcards
variable {α : Type u} {star hash : α}

inductive Aligned (star hash : α) : List α → List α → Prop where
  | nil : Aligned star hash [] []
  | star {ws ps} (w : α) (rest : Aligned star hash ws ps) :
      Aligned star hash (w :: ws) (star :: ps)
  | hash {ws ps} (skip : List α) (rest : Aligned star hash ws ps) :
      Aligned star hash (skip ++ ws) (hash :: ps)
  | word {ws ps} (w : α) (plain : w ≠ star ∧ w ≠ hash) (rest : Aligned star hash ws ps) :
      Aligned star hash (w :: ws) (w :: ps)

theorem Aligned.last (ws : List α) : Aligned star hash ws [hash] := by
  rw [← append_nil ws]
  exact .hash ws .nil

theorem Aligned.initial (h : Aligned star hash ws (us ++ ps))
    (hplain : ∀ u ∈ us, u ≠ star ∧ u ≠ hash) : us <+: ws := by
  induction us generalizing ws with
  | nil => exact nil_prefix
  | cons u us ih =>
    rw [forall_mem_cons] at hplain
    cases h with
    | star w rest => exact absurd rfl hplain.1.1
    | hash skip rest => exact absurd rfl hplain.1.2
    | word w plain rest => simpa using ih rest hplain.2

theorem Aligned.append_iff (hplain : ∀ u ∈ us, u ≠ star ∧ u ≠ hash) :
    Aligned star hash (us ++ ws) (us ++ ps) ↔ Aligned star hash ws ps := by
  induction us with
  | nil => rfl
  | cons u us ih =>
    rw [forall_mem_cons] at hplain
    rw [← ih hplain.2]
    constructor
    · intro h
      generalize hws : (u :: us) ++ ws = ws' at h
      cases h with
      | star w rest => exact absurd rfl hplain.1.1
      | hash skip rest => exact absurd rfl hplain.1.2
      | word w plain rest =>
        cases hws
        exact rest
    · exact .word u hplain.1

theorem aligned_iff [DecidableEq α] {m : List α → List α → Bool} {ws ps : List α} (hne : star ≠ hash)
    (hnil : ∀ ws, m ws [] = decide (ws = []))
    (hhash : ∀ ws ps, m ws (hash :: ps) = (decide (ps = []) || ws.tails.any (m · ps)))
    (hempty : ∀ p ps, p ≠ hash → m [] (p :: ps) = false)
    (hword : ∀ w ws p ps, p ≠ hash → m (w :: ws) (p :: ps) =
      ((decide (p = star) || decide (p = w)) && m ws ps)) :
    m ws ps = true ↔ Aligned star hash ws ps := by
  induction ps generalizing ws with
  | nil =>
    rw [hnil, decide_eq_true_eq]
    constructor
    · rintro rfl
      exact .nil
    · intro h
      cases h
      rfl
  | cons p ps ih =>
    by_cases hp : p = hash
    · subst hp
      simp only [hhash, Bool.or_eq_true, decide_eq_true_eq, any_eq_true, mem_tails, ih]
      constructor
      · rintro (rfl | ⟨rest, ⟨skip, rfl⟩, h⟩)
        · exact .last ws
        · exact .hash skip h
      · intro h
        cases h with
        | star w rest => exact absurd rfl hne
        | hash skip rest => exact .inr ⟨_, suffix_append _ _, rest⟩
        | word w plain rest => exact absurd rfl plain.2
    · cases ws with
      | nil =>
        rw [hempty p ps hp]
        constructor
        · nofun
        intro h
        generalize hws : ([] : List α) = ws' at h
        cases h with
        | hash skip rest => exact absurd rfl hp
        | _ => cases hws
      | cons w ws =>
        simp only [hword w ws p ps hp, Bool.and_eq_true, Bool.or_eq_true, decide_eq_true_eq, ih]
        constructor
        · rintro ⟨heq, h⟩
          by_cases hs : p = star
          · subst hs
            exact .star w h
          · obtain rfl := heq.resolve_left hs
            exact .word p ⟨hs, hp⟩ h
        · intro h
          generalize hws : w :: ws = ws' at h
          cases h with
          | star w' rest =>
            cases hws
            exact ⟨.inl rfl, rest⟩
          | hash skip rest => exact absurd rfl hp
          | word w' plain rest =>
            cases hws
            exact ⟨.inr rfl, rest⟩

end Wildcards

theorem splitOn_append_left [DecidableEq α] (h : sep ∉ xs) (ys : List α) :
    (xs ++ ys).splitOn sep = (ys.splitOn sep).modifyHead (xs ++ ·) := by
  induction xs with
  | nil => cases h' : ys.splitOn sep <;> simp_all
  | cons x xs ih =>
    rw [mem_cons, not_or] at h
    have hx : (x == sep) = false := by simpa using Ne.symm h.1
    have hrest := ih h.2
    simp_all [splitOn, splitOnP_cons_eq_if_modifyHead, Function.comp_def]

theorem splitOn_append_cons [DecidableEq α] (sep : α) (xs ys : List α) :
    (xs ++ sep :: ys).splitOn sep = xs.splitOn sep ++ ys.splitOn sep :=
  splitOnP_append_cons xs ys (beq_self_eq_true sep)

section Utf8
open String

theorem splitOnAux_dot (l m r : List Char) (acc : List String) :
    splitOnAux (ofList (l ++ m ++ r)) "." ⟨utf8Len l⟩ ⟨utf8Len l + utf8Len m⟩ 0 acc =
      acc.reverse ++ (splitOnPPrepend (· == '.') r m.reverse).map ofList := by
  induction r generalizing l m acc with
  | nil =>
    rw [splitOnAux, if_pos (by simp [-ofList_append]), extract_of_valid]
    simp
  | cons c r ih =>
    have hpos : 0 < c.utf8Size := Char.utf8Size_pos c
    have hget := get_of_valid (l ++ m) (c :: r)
    have hnext := next_of_valid (l ++ m) c r
    have hex := extract_of_valid l m (c :: r)
    have hdot : Pos.Raw.get "." 0 = '.' ∧ Pos.Raw.next "." 0 = ⟨1⟩ ∧
      Pos.Raw.atEnd "." ⟨1⟩ = true := by decide
    rw [utf8Len_append] at hget hnext
    rw [splitOnAux, if_neg (by simp [-ofList_append]; omega), hget, hnext, hdot.1, hdot.2.1]
    by_cases hc : c = '.'
    · have hrest := ih (l ++ m ++ ['.']) [] (ofList m :: acc)
      have hsize : Char.utf8Size '.' = 1 := by decide
      simp_all [splitOnPPrepend_cons_eq_if, Pos.Raw.unoffsetBy, Nat.add_assoc]
    · have hrest := ih l (m ++ [c]) acc
      simp_all [splitOnPPrepend_cons_eq_if, Pos.Raw.unoffsetBy, Nat.add_assoc]

theorem splitOn_dot (s : String) : s.splitOn "." = (s.toList.splitOn '.').map ofList := by
  have h := splitOnAux_dot [] [] s.toList []
  simpa [String.splitOn, List.splitOn] using h

theorem dot_notMem_utf8 (hc : c ≠ '.') : 46 ∉ utf8EncodeChar c := by
  have hv : c.toNat ≠ 46 := fun h => hc (Char.ext (UInt32.toNat_inj.mp h))
  have hval : c.val.toNat = c.toNat := rfl
  unfold utf8EncodeChar
  dsimp only
  split_ifs <;> simp [← UInt8.toNat_inj] <;> omega

theorem splitOn_utf8 (cs : List Char) :
    (cs.flatMap utf8EncodeChar).splitOn 46 = (cs.splitOn '.').map (·.flatMap utf8EncodeChar) := by
  induction cs with
  | nil => rfl
  | cons c cs ih =>
    by_cases hc : c = '.'
    · subst hc
      have hdot : utf8EncodeChar '.' = [46] := by decide
      rw [flatMap_cons, hdot]
      exact (splitOn_append_cons 46 [] _).trans (congrArg ([] :: ·) ih)
    · rw [flatMap_cons, splitOn_append_left (dot_notMem_utf8 hc), ih,
        ← singleton_append, splitOn_append_left (by simpa using Ne.symm hc)]
      cases splitOn '.' cs <;> simp

end Utf8
end Boltq.Lib
