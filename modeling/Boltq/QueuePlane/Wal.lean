import Boltq.QueuePlane.SpillFiles

namespace Boltq.QueuePlane
open Lib List

inductive LogRecord where
  | publish (m : Message)
  | ack (msgID : Bytes)
  | metadata (type : UInt8) (data : Bytes)
  deriving DecidableEq

def LogRecord.body (c : Codec) : LogRecord → Bytes
  | .publish m => 0x01 :: c.encode m
  | .ack msgID => 0x02 :: msgID
  | .metadata type data => type :: data

def decodeRecord (c : Codec) : Bytes → Option LogRecord
  | [] => none
  | type :: data =>
    if type = 0x01 then (c.decode data).map .publish
    else if type = 0x02 then some (.ack data)
    else some (.metadata type data)

def written (body : Bytes) : Bytes := le 4 body.length ++ le 4 (crc32 body) ++ body

def LogRecord.bytes (c : Codec) (r : LogRecord) : Bytes := written (r.body c)

def nextRecord (bs : Bytes) : Option (Bytes × Bytes) :=
  if bs.length < 8 then none
  else
    let totalLen := unle (bs.take 4)
    let checksum := unle ((bs.drop 4).take 4)
    if totalLen < 1 ∨ (bs.drop 8).length < totalLen then none
    else
      let body := (bs.drop 8).take totalLen
      if crc32 body ≠ checksum then none else some (body, (bs.drop 8).drop totalLen)

def readAllRecords (c : Codec) (file : Bytes) : List LogRecord :=
  (scan nextRecord file.length file).1.filterMap (decodeRecord c)

structure Wal where
  file : Bytes := []
  records : List LogRecord := []

namespace Wal

inductive Op where
  | write (r : LogRecord)
  | crash (n : Nat)
  | new

def step (c : Codec) (w : Wal) : Op → Option Wal
  | .write r => some ⟨w.file ++ r.bytes c, w.records ++ [r]⟩
  | .crash n => some ⟨w.file.take n, whole (LogRecord.bytes c) n w.records⟩
  | .new => some w

def Step (c : Codec) (w : Wal) (op : Op) (w' : Wal) : Prop := w.step c op = some w'

def Fits (c : Codec) (r : LogRecord) : Prop :=
  (r.body c).length < 2 ^ 32 ∧ decodeRecord c (r.body c) = some r
  deriving Decidable

/-- A record is written at the end of whole records and fits its frame. -/
def Ends (c : Codec) (w : Wal) : Op → Prop
  | .write r => w.file = stored (LogRecord.bytes c) w.records ∧ Fits c r
  | _ => True

instance (c : Codec) (w : Wal) (op : Op) : Decidable (w.Ends c op) := by
  unfold Ends
  split <;> infer_instance

theorem body_pos (c : Codec) (r : LogRecord) : 0 < (r.body c).length := by
  cases r <;> simp [LogRecord.body]

theorem written_fields (body rest : Bytes) (hb : body.length < 2 ^ 32) :
    unle ((written body ++ rest).take 4) = body.length ∧
    unle (((written body ++ rest).drop 4).take 4) = crc32 body ∧
    (written body ++ rest).drop 8 = body ++ rest := by
  simp [written, unle_le_of_lt (w := 4) hb, unle_le_of_lt (crc32_lt body)]

theorem length_written (body : Bytes) : (written body).length = 8 + body.length := by
  simp only [written, length_append, length_le]

theorem nextRecord_written (hb : body.length < 2 ^ 32) (hpos : 0 < body.length) (rest : Bytes) :
    nextRecord (written body ++ rest) = some (body, rest) := by
  obtain ⟨hn, hs, hd⟩ := written_fields body rest hb
  unfold nextRecord
  rw [hn, hs, hd, if_neg (by rw [length_append, length_written]; omega)]
  rw [if_neg (by rw [length_append]; omega)]
  simp

theorem nextRecord_cut (hb : body.length < 2 ^ 32) (ht : t <+: written body) (hne : t ≠ written body) :
    nextRecord t = none := by
  obtain ⟨u, hu⟩ := ht
  have hshort : t.length < 8 + body.length := by
    have hlen := congrArg length hu
    have hpos : 0 < u.length := length_pos_iff.mpr fun he => hne (by simpa [he] using hu)
    rw [length_append, length_written] at hlen
    omega
  unfold nextRecord
  split
  · rfl
  -- the length in front is that of the whole record
  have hn : unle (t.take 4) = body.length := by
    have h := (written_fields body [] hb).1
    rwa [append_nil, ← hu, take_append_of_le_length (by omega)] at h
  rw [hn, if_pos (.inr (by simp; omega))]

structure Torn (c : Codec) (w : Wal) : Prop where
  fit : ∀ r ∈ w.records, Fits c r
  tail : ∃ t, w.file = stored (LogRecord.bytes c) w.records ++ t ∧
    (t = [] ∨ ∃ r, Fits c r ∧ t <+: r.bytes c ∧ t ≠ r.bytes c)

theorem Torn.step (h : Torn c w) (hc : w.Ends c op) (hs : w.Step c op w') : Torn c w' := by
  cases op with
  | write r =>
    cases hs
    refine ⟨?_, [], by simp [hc.1], .inl rfl⟩
    simpa [or_imp, forall_and] using ⟨h.fit, hc.2⟩
  | new =>
    cases hs
    exact h
  | crash n =>
    cases hs
    obtain ⟨t, hf, ht⟩ := h.tail
    refine ⟨fun r hr => h.fit r ((whole_initial n w.records).subset hr), ?_⟩
    rcases Nat.le_total n (stored (LogRecord.bytes c) w.records).length with hn | hn
    · obtain ⟨t', ht', hcut⟩ : ∃ t, (stored (LogRecord.bytes c) w.records).take n = _ ∧ _ :=
        cut_stored n w.records
      refine ⟨t', ?_, hcut.imp_right fun ⟨r, hr, hp⟩ => ⟨r, h.fit r hr, hp⟩⟩
      rw [hf, take_append_of_le_length hn, ht']
    · refine ⟨t.take (n - (stored (LogRecord.bytes c) w.records).length), ?_, ?_⟩
      · rw [hf, whole_all hn, take_append, take_of_length_le hn]
      rcases ht with rfl | ⟨r, hr, hp, hne⟩
      · simp
      refine .inr ⟨r, hr, (List.take_prefix _ t).trans hp, fun he => hne (hp.eq_of_length_le ?_)⟩
      rw [← he]
      exact length_take_le' _ _

theorem Torn.read (h : Torn c w) : readAllRecords c w.file = w.records := by
  obtain ⟨t, hf, ht⟩ := h.tail
  have hnone : nextRecord t = none := by
    rcases ht with rfl | ⟨r, hr, hp, hne⟩
    · rfl
    · exact nextRecord_cut hr.1 hp hne
  have hstored : stored (LogRecord.bytes c) w.records = stored written (w.records.map (·.body c)) := by
    rw [stored_map]
    rfl
  have hturns : w.records.length ≤ w.file.length := by
    have hle : w.records.length ≤ (stored (LogRecord.bytes c) w.records).length :=
      length_le_stored fun r _ => ne_nil_of_length_pos (by rw [LogRecord.bytes, length_written]; omega)
    rw [hf, length_append]
    omega
  have hscan := scan_stored written nextRecord (w.records.map (·.body c)) t w.file.length
    (by simpa using hturns) (fun body hb rest => ?_) hnone
  · rw [← hstored, ← hf] at hscan
    rw [readAllRecords, hscan, filterMap_map]
    exact (filterMap_congr fun r hr => (h.fit r hr).2).trans filterMap_some
  · obtain ⟨r, hr, rfl⟩ := mem_map.mp hb
    exact nextRecord_written (h.fit r hr).1 (body_pos c r) rest

/-- Over any writes, crashes and openings, the reader finds the records that were whole before a
crash and those written after it, if nothing is written after a torn record. -/
theorem log_survives_crashes (c : Codec) {ops : List Op} {w : Wal} (hr : Run (Step c) (Ends c) {} ops w) :
    readAllRecords c w.file = w.records :=
  (hr.invariant (Torn c) ⟨nofun, [], rfl, .inl rfl⟩ (fun _ _ _ hi hc hs => hi.step hc hs)).read

def mute : Codec := ⟨fun _ => [], fun _ => none⟩

/-- The second record is cut off as a whole, and a third one written in its place. -/
theorem log_survives_crashes_whole :
    ∃ w, Run (Step mute) (Ends mute) {} [.write (.ack [97]), .write (.ack [98]), .crash 10, .new,
        .write (.ack [99]), .new] w ∧ readAllRecords mute w.file = [.ack [97], .ack [99]] := by
  refine Run.shown (fun w => w.records = [.ack [97], .ack [99]]) (by decide +kernel) ?_
  rintro w hr hw
  exact (log_survives_crashes mute hr).trans hw

/-- A record is torn, and what is written after it is not found again. -/
theorem log_loses_after_torn_record :
    ∃ w, Run (Step mute) always {} [.write (.ack [97]), .crash 9, .new, .write (.ack [98]), .new] w ∧
      w.records = [.ack [98]] ∧ readAllRecords mute w.file = [] :=
  Run.found _ (by decide +kernel)

end Wal
end Boltq.QueuePlane
