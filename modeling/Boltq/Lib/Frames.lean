import Boltq.Lib.Bytes

namespace Boltq.Lib
open List

def stored (enc : α → Bytes) (xs : List α) : Bytes := xs.flatMap enc

def offset (enc : α → Bytes) (xs : List α) (i : Nat) : Nat := (stored enc (xs.take i)).length

section Layout
variable {α : Type u} {β : Type v} {enc : α → Bytes}

@[simp] theorem stored_nil : stored enc ([] : List α) = [] := rfl

@[simp] theorem stored_cons (x : α) (xs : List α) :
    stored enc (x :: xs) = enc x ++ stored enc xs := by simp [stored]

@[simp] theorem stored_append (xs ys : List α) :
    stored enc (xs ++ ys) = stored enc xs ++ stored enc ys := by simp [stored]

theorem length_stored (xs : List α) :
    (stored enc xs).length = (xs.map (fun x => (enc x).length)).sum := by
  induction xs with
  | nil => rfl
  | cons x xs ih => simp [ih]

theorem length_le_stored (hne : ∀ x ∈ xs, enc x ≠ []) : xs.length ≤ (stored enc xs).length := by
  induction xs with
  | nil => exact Nat.le_refl 0
  | cons x xs ih =>
    have hx : 0 < (enc x).length := length_pos_iff.mpr (hne x (by simp))
    have ht := ih (fun y hy => hne y (by simp [hy]))
    rw [length_cons, stored_cons, length_append]
    omega

@[simp] theorem offset_zero (xs : List α) : offset enc xs 0 = 0 := rfl

theorem offset_cons_succ (x : α) (xs : List α) (i : Nat) :
    offset enc (x :: xs) (i + 1) = (enc x).length + offset enc xs i := by
  simp [offset]

theorem offset_length (xs : List α) : offset enc xs xs.length = (stored enc xs).length := by
  simp [offset]

theorem offset_append {xs : List α} (ys : List α) (h : i ≤ xs.length) :
    offset enc (xs ++ ys) i = offset enc xs i := by
  simp [offset, take_append_of_le_length h]

theorem offset_succ (h : xs[i]? = some x) :
    offset enc xs (i + 1) = offset enc xs i + (enc x).length := by
  simp only [offset, take_add_one, h, Option.toList_some, stored_append, stored_cons,
    stored_nil, append_nil, length_append]

theorem drop_stored (xs : List α) (i : Nat) :
    (stored enc xs).drop (offset enc xs i) = stored enc (xs.drop i) := by
  have h : stored enc xs = stored enc (xs.take i) ++ stored enc (xs.drop i) := by
    rw [← stored_append, take_append_drop]
  rw [offset, h, drop_left]

theorem take_stored (xs : List α) (i : Nat) :
    (stored enc xs).take (offset enc xs i) = stored enc (xs.take i) := by
  have h : stored enc xs = stored enc (xs.take i) ++ stored enc (xs.drop i) := by
    rw [← stored_append, take_append_drop]
  rw [offset, h, take_left]

theorem offset_add_drop (xs : List α) (i : Nat) :
    offset enc xs i + (stored enc (xs.drop i)).length = (stored enc xs).length := by
  rw [offset, ← length_append, ← stored_append, take_append_drop]

theorem offset_take {xs : List α} (h : i ≤ n) : offset enc (xs.take n) i = offset enc xs i := by
  rw [offset, offset, take_take, Nat.min_eq_left h]

theorem stored_map (f : β → α) (ys : List β) :
    stored enc (ys.map f) = stored (fun y => enc (f y)) ys := by
  simp [stored, flatMap_map]

theorem offset_mono (h : i ≤ j) : offset enc xs i ≤ offset enc xs j := by
  obtain ⟨d, rfl⟩ := Nat.exists_eq_add_of_le h
  simp only [offset, take_add, stored_append, length_append]
  omega

theorem offset_lt (hne : ∀ x ∈ xs, enc x ≠ []) (hij : i < j) (hj : j ≤ xs.length) :
    offset enc xs i < offset enc xs j := by
  have hi : i < xs.length := Nat.lt_of_lt_of_le hij hj
  have hs : offset enc xs (i + 1) = _ := offset_succ (List.getElem?_eq_getElem hi)
  have hp : 0 < (enc xs[i]).length := length_pos_iff.mpr (hne _ (getElem_mem hi))
  have hm : offset enc xs (i + 1) ≤ offset enc xs j := offset_mono hij
  omega

theorem lt_of_offset_lt (h : offset enc xs i < offset enc xs j) : i < j := by
  apply Nat.lt_of_not_le
  intro hle
  have hm : offset enc xs j ≤ offset enc xs i := offset_mono hle
  omega

theorem take_stored_fixed (hw : ∀ x, (enc x).length = w) (xs : List α) (i : Nat) :
    (stored enc xs).take (w * i) = stored enc (xs.take i) := by
  induction xs generalizing i with
  | nil => simp
  | cons x xs ih =>
    cases i with
    | zero => simp
    | succ i =>
      have hx := hw x
      rw [stored_cons, take_append, take_of_length_le (by rw [hx]; exact Nat.le_mul_of_pos_right _ (Nat.succ_pos i)),
        hx, Nat.mul_succ, Nat.add_sub_cancel, ih, take_succ_cons, stored_cons]

def whole (enc : α → Bytes) : Nat → List α → List α
  | _, [] => []
  | n, x :: xs => if (enc x).length ≤ n then x :: whole enc (n - (enc x).length) xs else []

theorem whole_initial (n : Nat) (xs : List α) : whole enc n xs <+: xs := by
  induction xs generalizing n with
  | nil => exact List.nil_prefix
  | cons x xs ih =>
    unfold whole
    split
    · exact cons_prefix_cons.mpr ⟨rfl, ih _⟩
    · exact List.nil_prefix

theorem whole_all (h : (stored enc xs).length ≤ n) : whole enc n xs = xs := by
  induction xs generalizing n with
  | nil => rfl
  | cons x xs ih =>
    rw [stored_cons, length_append] at h
    rw [whole, if_pos (by omega), ih (by omega)]

theorem cut_stored (n : Nat) (xs : List α) :
    ∃ t, (stored enc xs).take n = stored enc (whole enc n xs) ++ t ∧
      (t = [] ∨ ∃ x ∈ xs, t <+: enc x ∧ t ≠ enc x) := by
  induction xs generalizing n with
  | nil => exact ⟨[], by simp [whole], .inl rfl⟩
  | cons x xs ih =>
    unfold whole
    split
    · rename_i hn
      obtain ⟨t, ht, hs⟩ := ih (n - (enc x).length)
      refine ⟨t, ?_, hs.imp id (fun ⟨y, hy, hp⟩ => ⟨y, mem_cons_of_mem x hy, hp⟩)⟩
      rw [stored_cons, stored_cons, take_append, take_of_length_le hn, ht,
        append_assoc]
    · rename_i hn
      refine ⟨(enc x).take n, ?_, .inr ⟨x, mem_cons_self, List.take_prefix n _, ?_⟩⟩
      · rw [stored_cons, take_append, Nat.sub_eq_zero_of_le (by omega)]
        simp
      · intro he
        have hlen := congrArg List.length he
        rw [length_take] at hlen
        omega

end Layout

def scan (next : Bytes → Option (α × Bytes)) : Nat → Bytes → List α × Bytes
  | 0, bs => ([], bs)
  | fuel+1, bs =>
    match next bs with
    | none => ([], bs)
    | some (x, rest) => let (xs, left) := scan next fuel rest; (x :: xs, left)

theorem scan_stored (enc : α → Bytes) (next : Bytes → Option (α × Bytes)) (xs : List α)
    (t : Bytes) (fuel : Nat) (hf : xs.length ≤ fuel)
    (hx : ∀ x ∈ xs, ∀ rest, next (enc x ++ rest) = some (x, rest)) (ht : next t = none) :
    scan next fuel (stored enc xs ++ t) = (xs, t) := by
  induction xs generalizing fuel with
  | nil => cases fuel <;> simp [scan, ht]
  | cons x xs ih =>
    cases fuel with
    | zero => simp at hf
    | succ fuel =>
      have hh := hx x (by simp) (stored enc xs ++ t)
      have hr := ih fuel (by simpa using hf) (fun y hy => hx y (by simp [hy]))
      simp [scan, hh, hr]

theorem scan_forall {next : Bytes → Option (α × Bytes)} {P : α → Prop}
    (h : ∀ bs x rest, next bs = some (x, rest) → P x) (fuel : Nat) (bs : Bytes) :
    ∀ x ∈ (scan next fuel bs).1, P x := by
  induction fuel generalizing bs with
  | zero => simp [scan]
  | succ fuel ih =>
    simp only [scan]
    cases hn : next bs with
    | none => simp
    | some p =>
      obtain ⟨x, rest⟩ := p
      intro y hy
      rcases mem_cons.mp hy with rfl | hy
      · exact h _ _ _ hn
      · exact ih rest y hy

inductive FrameRead where
  | eof
  | badLength
  | shortBody
  | body (sum : Nat) (body rest : Bytes)
  deriving DecidableEq

def readFrame (lo hi : Nat) (bs : Bytes) : FrameRead :=
  if bs.length < 8 then .eof
  else if unle ((bs.drop 4).take 4) < lo ∨ unle ((bs.drop 4).take 4) > hi then .badLength
  else if (bs.drop 8).length < unle ((bs.drop 4).take 4) then .shortBody
  else .body (unle (bs.take 4)) ((bs.drop 8).take (unle ((bs.drop 4).take 4)))
    ((bs.drop 8).drop (unle ((bs.drop 4).take 4)))

def frame (b : Bytes) : Bytes := le 4 (crc32 b) ++ le 4 b.length ++ b

@[simp] theorem length_frame (b : Bytes) : (frame b).length = 8 + b.length := by
  simp only [frame, length_append, length_le]

theorem frame_ne_nil (b : Bytes) : frame b ≠ [] := by
  intro h
  have := congrArg List.length h
  simp at this

theorem frame_fields (b rest : Bytes) (hb : b.length < 256 ^ 4) :
    unle ((frame b ++ rest).take 4) = crc32 b ∧
    unle (((frame b ++ rest).drop 4).take 4) = b.length ∧ (frame b ++ rest).drop 8 = b ++ rest := by
  have h4 : (le 4 (crc32 b)).length = 4 := length_le 4 _
  have h4' : (le 4 b.length).length = 4 := length_le 4 _
  refine ⟨?_, ?_, ?_⟩
  · simp [frame, h4, unle_le_of_lt (crc32_lt b)]
  · simp [frame, h4, h4', unle_le_of_lt hb]
  · simp [frame, drop_append, h4, h4']

theorem readFrame_frame (b rest : Bytes) (hl : lo ≤ b.length) (hh : b.length ≤ hi)
    (hw : hi < 256 ^ 4) : readFrame lo hi (frame b ++ rest) = .body (crc32 b) b rest := by
  obtain ⟨hs, hn, hd⟩ := frame_fields b rest (Nat.lt_of_le_of_lt hh hw)
  unfold readFrame
  rw [hs, hn, hd]
  rw [if_neg (by simp; omega), if_neg (by omega), if_neg (by simp)]
  simp

theorem readFrame_length {sum : Nat} (h : readFrame lo hi bs = .body sum body rest) :
    lo ≤ body.length ∧ body.length ≤ hi := by
  unfold readFrame at h
  split at h
  · cases h
  split at h
  · cases h
  split at h
  · cases h
  cases h
  rw [length_take]
  omega

theorem readFrame_split {sum : Nat} (h : readFrame lo hi bs = .body sum body rest) :
    bs = le 4 sum ++ le 4 body.length ++ body ++ rest := by
  unfold readFrame at h
  split at h
  · cases h
  split at h
  · cases h
  split at h
  · cases h
  cases h
  have hsum : le 4 (unle (bs.take 4)) = bs.take 4 := le_unle _ (by rw [length_take]; omega)
  have hlen : le 4 (unle ((bs.drop 4).take 4)) = (bs.drop 4).take 4 :=
    le_unle _ (by rw [length_take, length_drop]; omega)
  rw [length_take, Nat.min_eq_left (by omega), hsum, hlen, append_assoc _ (List.take _ _),
    take_append_drop, show bs.drop 8 = (bs.drop 4).drop 4 by rw [drop_drop],
    append_assoc, take_append_drop, take_append_drop]

theorem readFrame_cut (b t : Bytes) (hl : lo ≤ b.length) (hh : b.length ≤ hi) (hw : hi < 256 ^ 4)
    (ht : t <+: frame b) (hne : t ≠ frame b) :
    readFrame lo hi t = .eof ∨ readFrame lo hi t = .shortBody := by
  obtain ⟨u, hu⟩ := ht
  have hlen : t.length < 8 + b.length := by
    have h1 := congrArg List.length hu
    simp only [length_append, length_frame] at h1
    have h2 : u ≠ [] := by
      intro he
      exact hne (by simpa [he] using hu)
    have := length_pos_iff.mpr h2
    omega
  by_cases h8 : t.length < 8
  · exact .inl (by simp [readFrame, h8])
  right
  have hn : unle ((t.drop 4).take 4) = b.length := by
    have h := (frame_fields b [] (Nat.lt_of_le_of_lt hh hw)).2.1
    rw [append_nil, ← hu, drop_append_of_le_length (by omega),
      take_append_of_le_length (by simp; omega)] at h
    exact h
  unfold readFrame
  rw [hn, if_neg h8, if_neg (by omega), if_pos (by simp; omega)]

end Boltq.Lib
