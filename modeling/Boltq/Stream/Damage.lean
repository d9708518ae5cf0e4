import Boltq.Stream.Refinement

namespace Boltq.Stream
open Lib List Record

/-- The first record is refused: its length is out of range or its checksum does not match. -/
def corrupt (bs : Bytes) : Bool :=
  match readFrame recordBodyHeaderSize maxRecordSize bs with
  | .badLength => true
  | .body sum body _ => decide (crc32 body ≠ sum)
  | .eof | .shortBody => false

/-- The bytes of the records, some overwritten by bytes that are refused. -/
inductive Reported : List Record → Bytes → Prop
  | nil : Reported [] []
  | intact (r : Record) {rs : List Record} {bs : Bytes} (h : Reported rs bs) :
      Reported (r :: rs) (encoded r ++ bs)
  | damaged (r : Record) {rs : List Record} {f bs : Bytes} (hl : f.length = (encoded r).length)
      (hc : corrupt (f ++ bs) = true) (h : Reported rs bs) : Reported (r :: rs) (f ++ bs)

namespace Reported
variable {rs : List Record} {bs : Bytes}

theorem of_stored (rs : List Record) : Reported rs (stored encoded rs) := by
  induction rs with
  | nil => exact .nil
  | cons r rs ih =>
    rw [stored_cons]
    exact .intact r ih

theorem length (h : Reported rs bs) : bs.length = (stored encoded rs).length := by
  induction h with
  | nil => rfl
  | intact r h ih => rw [stored_cons, length_append, length_append, ih]
  | damaged r hl hc h ih => rw [stored_cons, length_append, length_append, ih, hl]

theorem drop (h : Reported rs bs) (j : Nat) :
    Reported (rs.drop j) (bs.drop (offset encoded rs j)) := by
  induction h generalizing j with
  | nil => simpa [offset] using Reported.nil
  | @intact r rs bs h ih =>
    cases j with
    | zero => exact .intact r h
    | succ j =>
      rw [drop_succ_cons, offset_cons_succ, drop_length_add_append]
      exact ih j
  | @damaged r rs f bs hl hc h ih =>
    cases j with
    | zero => exact .damaged r hl hc h
    | succ j =>
      rw [drop_succ_cons, offset_cons_succ, ← hl, drop_length_add_append]
      exact ih j

end Reported

namespace FileSegment
variable {s : FileSegment} {rs : List Record}

theorem readLoop_corrupt (h : corrupt bs = true) (fromSeq : Nat) (maxBytes : Int) (fuel max : Nat)
    (bytesRead : Int) (out : List Record) :
    readLoop fromSeq maxBytes (fuel + 1) (max + 1) bs bytesRead out = (out, some .corruptRecord) := by
  unfold corrupt at h
  rw [readLoop]
  split at h
  · rename_i hf
    rw [hf]
  · rename_i sum body rest hf
    rw [hf]
    dsimp only
    rw [if_pos (of_decide_eq_true h)]
  · cases h
  · cases h

theorem readLoop_reported (fromSeq : Nat) (maxBytes : Int) (h : Reported rs bs)
    (hs : ∀ r ∈ rs, Sound r) (fuel max : Nat) (bytesRead : Int) (out : List Record)
    (hf : rs.length ≤ fuel) :
    readLoop fromSeq maxBytes fuel max bs bytesRead out = (out ++ readRecords maxBytes max bytesRead
          (rs.filter (fun r => decide (fromSeq ≤ r.seq))), none) ∨
      ∃ out', readLoop fromSeq maxBytes fuel max bs bytesRead out = (out', some .corruptRecord) := by
  induction h generalizing fuel max bytesRead out with
  | nil => exact .inl (readLoop_stored fromSeq maxBytes (forall_mem_nil _) fuel max bytesRead out hf)
  | @intact r rs bs h ih =>
    have hr := hs r mem_cons_self
    have ht := fun y hy => hs y (mem_cons_of_mem r hy)
    cases max with
    | zero => exact .inl (by cases fuel <;> simp [readLoop, readRecords])
    | succ max =>
      obtain ⟨fuel, rfl⟩ : ∃ n, fuel = n + 1 := ⟨fuel - 1, by rw [length_cons] at hf; omega⟩
      have hf' : rs.length ≤ fuel := Nat.le_of_succ_le_succ hf
      simp only [readLoop, hr.readFrame, ne_eq, not_true_eq_false, ↓reduceIte, hr.bodySeq,
        hr.decode, length_body, filter_cons]
      by_cases hlt : r.seq < fromSeq
      · simp only [if_pos hlt, Nat.not_le.mpr hlt, decide_false, Bool.false_eq_true, ↓reduceIte]
        exact ih ht fuel (max + 1) bytesRead out hf'
      simp only [if_neg hlt, Nat.le_of_not_lt hlt, decide_true, ↓reduceIte, readRecords]
      split
      · exact .inl rfl
      rcases ih ht fuel max (bytesRead + r.bodyLen) (out ++ [r]) hf' with hok | herr
      · exact .inl (by rw [hok, append_assoc]; rfl)
      · exact .inr herr
  | @damaged r rs f bs hl hc h ih =>
    cases max with
    | zero => exact .inl (by cases fuel <;> simp [readLoop, readRecords])
    | succ max =>
      obtain ⟨fuel, rfl⟩ : ∃ n, fuel = n + 1 := ⟨fuel - 1, by rw [length_cons] at hf; omega⟩
      exact .inr ⟨out, readLoop_corrupt hc fromSeq maxBytes fuel max bytesRead out⟩

structure Tells (s : FileSegment) (rs : List Record) : Prop where
  base : 0 < s.baseSeq
  sound : ∀ r ∈ rs, Sound r
  dense : Dense s.baseSeq rs
  log : Reported rs s.log
  size : s.size = (stored encoded rs).length
  last : s.lastSeq + 1 = s.baseSeq + rs.length
  index : Indexes s.baseSeq rs s.index

theorem Holds.tells (h : Holds s rs) : Tells s rs :=
  ⟨h.base, h.sound, h.dense, h.log ▸ Reported.of_stored rs, h.size, h.last, h.index⟩

theorem Tells.fileSection (h : Tells s rs) (j : Nat) :
    fileSection s.log (offset encoded rs j : Nat) s.size = s.log.drop (offset encoded rs j) := by
  have hadd : _ = (stored encoded rs).length := offset_add_drop rs j
  have hlen := h.log.length
  rw [Stream.fileSection, if_neg (by omega), Int.toNat_natCast, h.size,
    take_of_length_le (by rw [length_drop]; omega)]

theorem Tells.read_eq (h : Tells s rs) (fromSeq max : Nat) (maxBytes : Int) :
    ∃ j, j ≤ fromSeq - s.baseSeq ∧ (rs = [] ∧ s.read fromSeq max maxBytes = ([], none) ∨
      s.read fromSeq max maxBytes = readLoop fromSeq maxBytes
        (s.log.drop (offset encoded rs j)).length max (s.log.drop (offset encoded rs j)) 0 []) := by
  obtain ⟨j, hpos, hj, hlt⟩ := seekPos_spec h.index fromSeq
  refine ⟨j, hj, ?_⟩
  unfold FileSegment.read
  simp only [hpos]
  split
  · rename_i hle
    rw [h.size] at hle
    exact .inl ⟨nil_of_seek_end hlt (Int.ofNat_le.mp hle), rfl⟩
  · rw [h.fileSection j]
    exact .inr rfl

theorem Tells.length_le (h : Tells s rs) (j : Nat) :
    (rs.drop j).length ≤ (s.log.drop (offset encoded rs j)).length := by
  rw [(h.log.drop j).length]
  exact length_le_stored (fun r _ => encoded_ne_nil r)

theorem Tells.read (h : Tells s rs) (fromSeq max : Nat) (maxBytes : Int) :
    s.read fromSeq max maxBytes =
        (readRecords maxBytes max 0 (rs.drop (fromSeq - s.baseSeq)), none) ∨
      ∃ out, s.read fromSeq max maxBytes = (out, some .corruptRecord) := by
  obtain ⟨j, hj, ⟨hnil, hread⟩ | hread⟩ := h.read_eq fromSeq max maxBytes
  · subst hnil
    refine .inl (hread.trans ?_)
    cases max <;> simp [readRecords]
  · rw [hread]
    rcases readLoop_reported fromSeq maxBytes (h.log.drop j)
      (fun r hr => h.sound r (mem_of_mem_drop hr)) _ max 0 [] (h.length_le j) with hok | herr
    · refine .inl ?_
      rw [hok, (h.dense.drop j).filter_ge fromSeq, drop_drop, nil_append]
      congr 3
      omega
    · exact .inr herr

def overwrite (s : FileSegment) (pos : Nat) (f : Bytes) : FileSegment :=
  { s with log := s.log.take pos ++ f ++ s.log.drop (pos + f.length) }

theorem Holds.overwrite_log (h : Holds s rs) (hd : rs[d]? = some r) {f : Bytes}
    (hl : f.length = (encoded r).length) : (s.overwrite (offset encoded rs d) f).log =
      stored encoded (rs.take d) ++ (f ++ stored encoded (rs.drop (d + 1))) := by
  rw [overwrite, h.log, take_stored, hl, ← offset_succ hd, drop_stored, append_assoc]

theorem reported_damage {f : Bytes} (hl : f.length = (encoded r).length)
    (hc : corrupt (f ++ stored encoded zs) = true) :
    Reported (ys ++ r :: zs) (stored encoded ys ++ (f ++ stored encoded zs)) := by
  induction ys with
  | nil =>
    rw [stored_nil, nil_append, nil_append]
    exact .damaged r hl hc (.of_stored zs)
  | cons y ys ih =>
    rw [stored_cons, append_assoc]
    exact .intact y ih

theorem Holds.overwrite (h : Holds s rs) (hd : rs[d]? = some r) {f : Bytes}
    (hl : f.length = (encoded r).length)
    (hc : corrupt (f ++ stored encoded (rs.drop (d + 1))) = true) :
    Tells (s.overwrite (offset encoded rs d) f) rs := by
  obtain ⟨hlt, rfl⟩ := List.getElem?_eq_some_iff.mp hd
  have hsplit : rs.take d ++ rs[d] :: rs.drop (d + 1) = rs := by
    rw [getElem_cons_drop, take_append_drop]
  refine ⟨h.base, h.sound, h.dense, ?_, h.size, h.last, h.index⟩
  rw [h.overwrite_log hd hl]
  have hrep : Reported (rs.take d ++ rs[d] :: rs.drop (d + 1)) _ := reported_damage hl hc
  rwa [hsplit] at hrep

end FileSegment

namespace Partition

/-- The bytes of segment `i` from `pos` on are overwritten in place. -/
def damage (p : Partition FileSegment) (i pos : Nat) (f : Bytes) : Partition FileSegment :=
  { p with
    older := p.older.modify i (fun s => s.overwrite pos f)
    active := if i = p.older.length then p.active.overwrite pos f else p.active }

theorem modify_middle (g : α → α) (xs ys : List α) (a : α) :
    (xs ++ a :: ys).modify xs.length g = xs ++ g a :: ys := by
  induction xs with
  | nil => rfl
  | cons x xs ih => rw [cons_append, length_cons, modify_succ_cons, ih, cons_append]

theorem damage_segments {p : Partition FileSegment} {before after : List FileSegment}
    {seg : FileSegment} (h : p.segments = before ++ seg :: after) (pos : Nat) (f : Bytes) :
    (p.damage before.length pos f).segments = before ++ seg.overwrite pos f :: after := by
  unfold Partition.segments at h
  rcases eq_nil_or_concat after with rfl | ⟨rest, last, rfl⟩
  · obtain ⟨hold, hact⟩ := append_inj' h rfl
    cases hact
    rw [Partition.segments, damage, hold, modify_eq_self (Nat.le_refl _), if_pos rfl]
  · rw [concat_eq_append, ← cons_append, ← append_assoc] at h
    obtain ⟨hold, hact⟩ := append_inj' h rfl
    cases hact
    have hne : before.length ≠ p.older.length := by
      rw [hold, length_append, length_cons]
      omega
    rw [Partition.segments, damage, if_neg hne, hold, modify_middle]
    simp

def zeros (n : Nat) : Bytes := List.replicate n 0

end Partition

end Boltq.Stream
