import Boltq.Stream.Record

namespace Boltq.Stream
open Lib List

class SegmentStore (S : Type) where
  createSegment (baseSeq : Nat) (indexInterval : Int) : S
  openSegment (files : S) (indexInterval : Int) (readOnly : Bool) : Except Err S
  baseSeq : S → Nat
  lastSequence : S → Nat
  bytes : S → Int
  append (s : S) (rec : Record) (encoded : Bytes) : Except Err S
  read (s : S) (fromSeq maxRecords : Nat) (maxBytes : Int) : List Record × Option Err
  truncateTo (s : S) (seq : Nat) : Except Err S
  reopenWritable : S → S

namespace SegmentStore
variable {S : Type} [SegmentStore S]

def isEmpty (s : S) : Bool := decide (lastSequence s < baseSeq s)

def firstTimestamp (s : S) : Int :=
  match read s (baseSeq s) 1 0 with
  | (r :: _, none) => r.timestamp
  | _ => 0

end SegmentStore

def readRecords (maxBytes : Int) : Nat → Int → List Record → List Record
  | 0, _, _ => []
  | _+1, _, [] => []
  | max+1, bytesRead, r :: rs =>
    if 0 < maxBytes ∧ maxBytes ≤ bytesRead + r.bodyLen then [r]
    else r :: readRecords maxBytes max (bytesRead + r.bodyLen) rs

theorem readRecords_prefix (maxBytes : Int) (max : Nat) (bytesRead : Int) (rs : List Record) :
    ∃ k, readRecords maxBytes max bytesRead rs = rs.take k ∧ k ≤ max ∧ k ≤ rs.length ∧
      (k = max ∨ k = rs.length ∨
        0 < maxBytes ∧ maxBytes ≤ bytesRead + ((rs.take k).map Record.bodyLen).sum) ∧
      (0 < max → rs ≠ [] → 0 < k) := by
  induction max generalizing bytesRead rs with
  | zero => exact ⟨0, by simp [readRecords], by simp, by simp, .inl rfl, by simp⟩
  | succ max ih =>
    cases rs with
    | nil => exact ⟨0, by simp [readRecords], by simp, by simp, .inr (.inl rfl), by simp⟩
    | cons r rs =>
      by_cases hb : 0 < maxBytes ∧ maxBytes ≤ bytesRead + r.bodyLen
      · refine ⟨1, by simp [readRecords, hb], by omega, by simp, ?_, by simp⟩
        exact .inr (.inr ⟨hb.1, by simpa using hb.2⟩)
      obtain ⟨k, hk, hm, hl, hs, _⟩ := ih (bytesRead + r.bodyLen) rs
      refine ⟨k + 1, by simp [readRecords, hb, hk], by omega, by simpa using hl, ?_, by simp⟩
      rcases hs with hs | hs | ⟨h0, hs⟩
      · exact .inl (by omega)
      · exact .inr (.inl (by simp [hs]))
      · refine .inr (.inr ⟨h0, ?_⟩)
        simp only [take_succ_cons, map_cons, sum_cons, Int.natCast_add]
        omega

def Dense (base : Nat) (rs : List Record) : Prop :=
  ∀ i r, rs[i]? = some r → r.seq = base + i

class LawfulSegmentStore (S : Type) extends SegmentStore S where
  Valid : S → Prop
  Writable : S → Prop
  Fits : Record → Prop
  records : S → List Record
  base_pos {s : S} (h : Valid s) : 0 < baseSeq s
  dense {s : S} (h : Valid s) : Dense (baseSeq s) (records s)
  last {s : S} (h : Valid s) : lastSequence s + 1 = baseSeq s + (records s).length
  size {s : S} (h : Valid s) : bytes s = ((records s).map Record.encodedSize).sum
  fits {s : S} (h : Valid s) : ∀ r ∈ records s, Fits r
  create {base : Nat} (iv : Int) (h : 0 < base) :
    Valid (createSegment base iv) ∧ Writable (createSegment base iv) ∧
      baseSeq (createSegment base iv) = base ∧ records (createSegment base iv) = []
  append_ok {s : S} {rec : Record} {bs : Bytes} (h : Valid s) (hw : Writable s) (hf : Fits rec)
    (he : rec.encode = .ok bs) (hs : rec.seq = lastSequence s + 1)
    (hroom : bytes s + bs.length < 2 ^ 63 ∨ records s = []) :
    ∃ t, append s rec bs = .ok t ∧ Valid t ∧ Writable t ∧ baseSeq t = baseSeq s ∧
      records t = records s ++ [rec.canonical]
  reopen {s : S} (h : Valid s) :
    Valid (reopenWritable s) ∧ Writable (reopenWritable s) ∧
      baseSeq (reopenWritable s) = baseSeq s ∧ records (reopenWritable s) = records s
  truncate {s : S} {seq : Nat} (h : Valid s) (hw : Writable s) (hb : baseSeq s < seq) :
    ∃ t, truncateTo s seq = .ok t ∧ Valid t ∧ Writable t ∧ baseSeq t = baseSeq s ∧
      records t = (records s).take (seq - baseSeq s)
  open_ok {s : S} (iv : Int) (ro : Bool) (h : Valid s) :
    ∃ t, openSegment s iv ro = .ok t ∧ Valid t ∧ (ro = false → Writable t) ∧
      baseSeq t = baseSeq s ∧ records t = records s
  read_ok {s : S} (from_ max : Nat) (maxBytes : Int) (h : Valid s) :
    read s from_ max maxBytes =
      (readRecords maxBytes max 0 ((records s).drop (from_ - baseSeq s)), none)

theorem Dense.head (h : Dense base (r :: rs)) : r.seq = base := h 0 r rfl

theorem Dense.drop (h : Dense base rs) (n : Nat) : Dense (base + n) (rs.drop n) := by
  intro i r hr
  rw [getElem?_drop] at hr
  have hseq := h _ r hr
  omega

theorem Dense.concat (hx : Dense base xs) (hy : Dense (base + xs.length) ys) :
    Dense base (xs ++ ys) := by
  intro i r hr
  by_cases hi : i < xs.length
  · rw [getElem?_append_left hi] at hr
    exact hx i r hr
  · rw [getElem?_append_right (by omega)] at hr
    have hseq := hy _ r hr
    omega

theorem Dense.append {r : Record} (h : Dense base rs) (hr : r.seq = base + rs.length) :
    Dense base (rs ++ [r]) := by
  refine h.concat (fun i x hx => ?_)
  obtain ⟨hi, rfl⟩ := List.getElem?_eq_some_iff.mp hx
  obtain rfl : i = 0 := Nat.lt_one_iff.mp hi
  exact hr

theorem Dense.next_seq (h : Dense base xs) :
    xs.getLast?.elim base (fun r => r.seq + 1) = base + xs.length := by
  cases hl : xs.getLast? with
  | none => rw [List.getLast?_eq_none_iff.mp hl, Option.elim_none, length_nil, Nat.add_zero]
  | some r =>
    rw [List.getLast?_eq_getElem?] at hl
    have hlen := (List.getElem?_eq_some_iff.mp hl).1
    have hseq := h _ r hl
    rw [Option.elim_some]
    omega

section
variable (h : Dense base rs)
include h

theorem Dense.take (n : Nat) : Dense base (rs.take n) := by
  intro i x hx
  rw [getElem?_take] at hx
  split at hx
  · exact h i x hx
  · cases hx

theorem Dense.increasing : rs.Pairwise (fun a b => a.seq < b.seq) := by
  rw [pairwise_iff_getElem]
  intro i j hi hj hij
  rw [h i _ (getElem?_eq_getElem hi), h j _ (getElem?_eq_getElem hj)]
  omega

theorem Dense.filter_ge (n : Nat) :
    rs.filter (fun r => decide (n ≤ r.seq)) = rs.drop (n - base) := by
  induction rs generalizing base with
  | nil => simp
  | cons r rs ih =>
    have h0 := h.head
    have hih := ih (h.drop 1)
    by_cases hn : n ≤ base
    · rw [show n - (base + 1) = 0 by omega] at hih
      rw [show n - base = 0 by omega, filter_cons, hih]
      simp [h0, hn]
    · rw [show n - base = n - (base + 1) + 1 by omega, drop_succ_cons, ← hih, filter_cons]
      simp [h0, hn]

theorem Dense.filter_lt (n : Nat) :
    rs.filter (fun r => decide (r.seq < n)) = rs.take (n - base) := by
  induction rs generalizing base with
  | nil => simp
  | cons r rs ih =>
    have h0 := h.head
    have hih := ih (h.drop 1)
    by_cases hn : n ≤ base
    · rw [show n - (base + 1) = 0 by omega] at hih
      rw [show n - base = 0 by omega, filter_cons, hih]
      simp [h0, hn]
    · rw [show n - base = n - (base + 1) + 1 by omega, take_succ_cons, ← hih, filter_cons]
      simp [h0, Nat.lt_of_not_le hn]

end

structure RecSegment where
  baseSeq : Nat
  recs : List Record
  deriving DecidableEq

namespace RecSegment

def lastSequence (s : RecSegment) : Nat := s.recs.getLast?.elim (s.baseSeq - 1) Record.seq

instance : SegmentStore RecSegment where
  createSegment base _ := ⟨base, []⟩
  openSegment s _ _ := .ok s
  baseSeq := RecSegment.baseSeq
  lastSequence := RecSegment.lastSequence
  bytes s := (s.recs.map Record.encodedSize).sum
  append s rec _ := .ok { s with recs := s.recs ++ [rec.canonical] }
  read s fromSeq maxRecords maxBytes :=
    (readRecords maxBytes maxRecords 0 (s.recs.filter (fun r => decide (fromSeq ≤ r.seq))), none)
  truncateTo s seq := .ok { s with recs := s.recs.filter (fun r => decide (r.seq < seq)) }
  reopenWritable s := s

theorem lastSequence_eq {s : RecSegment} (hb : 0 < s.baseSeq) (hd : Dense s.baseSeq s.recs) :
    s.lastSequence + 1 = s.baseSeq + s.recs.length := by
  unfold lastSequence
  cases hl : s.recs.getLast? with
  | none =>
    simp only [List.getLast?_eq_none_iff.mp hl, Option.elim_none, length_nil]
    omega
  | some r =>
    rw [List.getLast?_eq_getElem?] at hl
    have hlen := (List.getElem?_eq_some_iff.mp hl).1
    have := hd _ r hl
    simp only [Option.elim_some]
    omega

/-- The record-level segments store records faithfully, whatever the record. -/
instance : LawfulSegmentStore RecSegment where
  Valid s := 0 < s.baseSeq ∧ Dense s.baseSeq s.recs
  Writable _ := True
  Fits _ := True
  records := RecSegment.recs
  base_pos h := h.1
  dense h := h.2
  last h := lastSequence_eq h.1 h.2
  size _ := rfl
  fits _ _ _ := trivial
  create _ h := ⟨⟨h, fun i r hr => by simp [SegmentStore.createSegment] at hr⟩, trivial, rfl, rfl⟩
  append_ok := by
    intro s rec bs h _ _ _ hs _
    refine ⟨_, rfl, ⟨h.1, ?_⟩, trivial, rfl, rfl⟩
    have hl := lastSequence_eq h.1 h.2
    exact h.2.append (by simpa [SegmentStore.lastSequence, hl] using hs)
  reopen h := ⟨h, trivial, rfl, rfl⟩
  truncate := by
    intro s seq h _ _
    have hf := h.2.filter_lt seq
    exact ⟨_, rfl, ⟨h.1, hf ▸ h.2.take _⟩, trivial, rfl, hf⟩
  open_ok _ _ h := ⟨_, rfl, h, fun _ => trivial, rfl, rfl⟩
  read_ok from_ max maxBytes h := by
    simp only [SegmentStore.read, h.2.filter_ge from_]
    rfl

end RecSegment
end Boltq.Stream
