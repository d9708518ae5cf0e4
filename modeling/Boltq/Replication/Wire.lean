import Boltq.Replication.CatchUp
import Boltq.Stream.Bounds

namespace Boltq.Replication.Wire
open Lib Boltq.Stream List

structure RecordsHeader where
  topic : Bytes
  partition : Int32
  count : Nat
  deriving DecidableEq

def recordsHeaderSize : Nat := 10

def encodeRecordsHeader (h : RecordsHeader) : Bytes :=
  le 4 h.partition.toUInt32.toNat ++ (le 4 h.count ++ (le 2 h.topic.length ++ h.topic))

inductive BatchErr where
  | shortHeader
  | topicTruncated
  | truncatedFrame
  | overrunsBatch
  | decode (e : FrameErr)
  deriving DecidableEq

def decodeRecordsHeader (b : Bytes) : Option (Except BatchErr (RecordsHeader × Nat)) :=
  if b.length < recordsHeaderSize then some (.error .shortHeader)
  else do
    let topicLen ← Checked.field b 8 10
    if b.length < recordsHeaderSize + topicLen then some (.error .topicTruncated)
    else do
      let partition ← Checked.field b 0 4
      let count ← Checked.field b 4 8
      let topic ← slice b recordsHeaderSize (recordsHeaderSize + topicLen)
      some (.ok (⟨topic, (UInt32.ofNat partition).toInt32, count⟩, recordsHeaderSize + topicLen))

def encodeFrames : List Record → Except Err Bytes
  | [] => .ok []
  | r :: recs =>
    match r.encode with
    | .error e => .error e
    | .ok frame => (encodeFrames recs).map (frame ++ ·)

def encodeBatch (topic : Bytes) (partition : Int32) (recs : List Record) : Except Err Bytes :=
  (encodeFrames recs).map
    (encodeRecordsHeader ⟨topic, partition, recs.length % 2 ^ 32⟩ ++ ·)

def nextRecordFrame (b : Bytes) : Option (Except BatchErr (Bytes × Nat)) :=
  if b.length < 8 then some (.error .truncatedFrame)
  else do
    let bodyLen ← Checked.field b 4 8
    let total := 8 + bodyLen
    if total > b.length then some (.error .overrunsBatch)
    else do
      let frame ← slice b 0 total
      some (.ok (frame, total))

def nextBatchRecord (body : Bytes) : Option (Except BatchErr (Record × Bytes)) := do
  match ← nextRecordFrame body with
  | .error e => some (.error e)
  | .ok (frame, n) => do
    let rest ← slice body n body.length
    match ← Checked.decodeRecord frame with
    | .error e => some (.error (.decode e))
    | .ok rec => some (.ok (rec, rest))

structure Handed where
  topic : Bytes
  partitionCount : Int
  partition : Int32
  record : Record
  deriving DecidableEq

inductive BatchEnd where
  | applied
  | refetch
  | refused (e : TopicErr)
  | failed (e : BatchErr)
  deriving DecidableEq

def refusal : TopicErr → BatchEnd
  | .partition (.replicationGap _ _) => .refetch
  | e => .refused e

structure BatchOutcome (σ : Type) where
  log : σ
  handed : List Handed
  left : Bytes
  ended : BatchEnd

section Follower
variable {σ : Type} (apply : Handed → σ → σ × Except TopicErr Unit)

def applyFrames (call : Record → Handed) : Nat → Bytes → σ → List Handed → Option (BatchOutcome σ)
  | 0, body, s, handed => some ⟨s, handed, body, .applied⟩
  | count+1, body, s, handed => do
    match ← nextBatchRecord body with
    | .error e => some ⟨s, handed, body, .failed e⟩
    | .ok (rec, rest) =>
      match apply (call rec) s with
      | (t, .error e) => some ⟨t, handed ++ [call rec], rest, refusal e⟩
      | (t, .ok _) => applyFrames call count rest t (handed ++ [call rec])

structure BatchAssignment where
  topic : Bytes
  partition : Int32
  partitionCount : Int

section
variable (assignments : List BatchAssignment)

def partitionCountOf (h : RecordsHeader) : Int :=
  ((assignments.find? (fun a => a.topic = h.topic ∧ a.partition = h.partition)).map
    BatchAssignment.partitionCount).getD 0

def callFor (h : RecordsHeader) (rec : Record) : Handed :=
  ⟨h.topic, partitionCountOf assignments h, h.partition, rec⟩

def applyBatch (payload : Bytes) (s : σ) : Option (BatchOutcome σ) := do
  match ← decodeRecordsHeader payload with
  | .error e => some ⟨s, [], payload, .failed e⟩
  | .ok (h, offset) => do
    let body ← slice payload offset payload.length
    applyFrames apply (callFor assignments h) h.count body s []

end

def handAll : List Handed → σ → List Handed → σ × List Handed × BatchEnd
  | [], s, handed => (s, handed, .applied)
  | c :: calls, s, handed =>
    match apply c s with
    | (t, .error e) => (t, handed ++ [c], refusal e)
    | (t, .ok _) => handAll calls t (handed ++ [c])

end Follower

def Intact (b : Bytes) (r : Record) (rest : Bytes) : Prop :=
  ∃ body, b = frame body ++ rest ∧ body.length ≤ maxRecordSize ∧ decodeRecordBody body = .ok r

inductive Frames : Bytes → List Record → Bytes → Prop where
  | nil (b : Bytes) : Frames b [] b
  | cons {b rest left : Bytes} {r : Record} {recs : List Record} (first : Intact b r rest)
      (more : Frames rest recs left) : Frames b (r :: recs) left

theorem decodeRecordBody_min (h : decodeRecordBody body = .ok r) :
    recordBodyHeaderSize ≤ body.length := by
  unfold decodeRecordBody at h
  split at h
  · cases h
  · omega

theorem nextRecordFrame_eq (b : Bytes) :
    nextRecordFrame b = some (if b.length < 8 then .error .truncatedFrame
      else if b.length < 8 + field 4 4 b then .error .overrunsBatch
      else .ok (b.take (8 + field 4 4 b), 8 + field 4 4 b)) := by
  unfold nextRecordFrame
  by_cases h8 : b.length < 8
  · rw [if_pos h8, if_pos h8]
  rw [if_neg h8, if_neg h8, Checked.field_eq (by omega) (by omega)]
  simp only [Option.bind_eq_bind, Option.bind_some, Nat.reduceSub]
  by_cases hover : b.length < 8 + field 4 4 b
  · rw [if_pos hover, if_pos hover]
  · rw [if_neg hover, if_neg hover, slice_of_le (Nat.zero_le _) (by omega)]
    rfl

theorem nextBatchRecord_eq (b : Bytes) :
    nextBatchRecord b = some (if b.length < 8 then .error .truncatedFrame
      else if b.length < 8 + field 4 4 b then .error .overrunsBatch
      else match decodeRecord (b.take (8 + field 4 4 b)) with
        | .error e => .error (.decode e)
        | .ok r => .ok (r, b.drop (8 + field 4 4 b))) := by
  unfold nextBatchRecord
  rw [nextRecordFrame_eq]
  simp only [Option.bind_eq_bind, Option.bind_some]
  by_cases h8 : b.length < 8
  · rw [if_pos h8, if_pos h8]
  by_cases hover : b.length < 8 + field 4 4 b
  · rw [if_neg h8, if_neg h8, if_pos hover, if_pos hover]
  rw [if_neg h8, if_neg h8, if_neg hover, if_neg hover]
  simp only [slice_to_end (Nat.le_of_not_lt hover), Checked.decodeRecord_eq, Option.bind_some]
  cases decodeRecord (b.take (8 + field 4 4 b)) with
  | error e => rfl
  | ok r => rfl

theorem nextBatchRecord_intact (h : Intact b r rest) : nextBatchRecord b = some (.ok (r, rest)) := by
  obtain ⟨body, rfl, hl, hd⟩ := h
  have hmin := decodeRecordBody_min hd
  have hmax := maxRecordSize_lt
  obtain ⟨_, hlen, _⟩ := frame_fields body rest (by omega)
  have hfield : field 4 4 (frame body ++ rest) = body.length := hlen
  have hsize := length_frame body
  have htake : (frame body ++ rest).take (8 + body.length) = frame body := take_left' hsize
  have hdrop : (frame body ++ rest).drop (8 + body.length) = rest := drop_left' hsize
  have hframe := readFrame_frame body [] hmin hl hmax
  rw [append_nil] at hframe
  have hrec : decodeRecord (frame body) = .ok r := by
    simp only [decodeRecord, hframe, ne_eq, not_true_eq_false, if_false, hd]
    rfl
  rw [nextBatchRecord_eq, hfield, htake, hdrop, hrec,
    if_neg (by rw [length_append]; omega), if_neg (by rw [length_append]; omega)]

theorem decodeRecord_intact (h : decodeRecord f = .ok r) : ∃ tail, Intact f r tail := by
  unfold decodeRecord at h
  cases hf : readFrame recordBodyHeaderSize maxRecordSize f with
  | eof | badLength | shortBody =>
    rw [hf] at h
    cases h
  | body sum body tail =>
    rw [hf] at h
    dsimp only at h
    split at h
    · cases h
    rename_i hsum
    cases hd : decodeRecordBody body with
    | error e =>
      rw [hd] at h
      cases h
    | ok r' =>
      rw [hd] at h
      cases h
      have hsplit := readFrame_split hf
      rw [← not_not.mp hsum] at hsplit
      exact ⟨tail, body, hsplit, (readFrame_length hf).2, hd⟩

theorem nextBatchRecord_ok (h : nextBatchRecord b = some (.ok (r, rest))) : Intact b r rest := by
  rw [nextBatchRecord_eq] at h
  by_cases h8 : b.length < 8
  · rw [if_pos h8] at h
    cases h
  by_cases hover : b.length < 8 + field 4 4 b
  · rw [if_neg h8, if_pos hover] at h
    cases h
  rw [if_neg h8, if_neg hover] at h
  have hsize : (b.take (8 + field 4 4 b)).length = 8 + field 4 4 b := by
    rw [length_take]
    omega
  cases hd : decodeRecord (b.take (8 + field 4 4 b)) with
  | error e =>
    rw [hd] at h
    cases h
  | ok r' =>
    rw [hd] at h
    cases h
    obtain ⟨tail, body, hf, hl, hbody⟩ := decodeRecord_intact hd
    -- the length field of the cut frame is that of the bytes it was cut from
    have hfield : field 4 4 (b.take (8 + field 4 4 b)) = field 4 4 b := by
      unfold field
      rw [drop_take, take_take, Nat.min_eq_left (by omega)]
    obtain ⟨_, hlen, _⟩ := frame_fields body tail (by have := maxRecordSize_lt; omega)
    rw [← hf] at hlen
    have htail : tail = [] := by
      apply eq_nil_of_length_eq_zero
      have hcut := congrArg length hf
      rw [length_append, length_frame] at hcut
      have : field 4 4 (b.take (8 + field 4 4 b)) = body.length := hlen
      omega
    rw [htail, append_nil] at hf
    exact ⟨body, by rw [← hf, take_append_drop], hl, hbody⟩

theorem nextBatchRecord_cases (b : Bytes) :
    (∃ r rest, nextBatchRecord b = some (.ok (r, rest)) ∧ Intact b r rest) ∨
    ∃ e, nextBatchRecord b = some (.error e) ∧ ∀ r rest, ¬ Intact b r rest := by
  obtain ⟨x, hx⟩ : ∃ x, nextBatchRecord b = some x := ⟨_, nextBatchRecord_eq b⟩
  cases x with
  | ok p =>
    obtain ⟨r, rest⟩ := p
    exact .inl ⟨r, rest, hx, nextBatchRecord_ok hx⟩
  | error e =>
    refine .inr ⟨e, hx, fun r rest hi => ?_⟩
    rw [nextBatchRecord_intact hi] at hx
    cases hx

theorem decodeRecordsHeader_eq (b : Bytes) :
    decodeRecordsHeader b = some (if b.length < 10 then .error .shortHeader
      else if b.length < 10 + field 8 2 b then .error .topicTruncated
      else .ok (⟨(b.drop 10).take (field 8 2 b), (UInt32.ofNat (field 0 4 b)).toInt32, field 4 4 b⟩,
        10 + field 8 2 b)) := by
  unfold decodeRecordsHeader recordsHeaderSize
  by_cases h10 : b.length < 10
  · rw [if_pos h10, if_pos h10]
  rw [if_neg h10, if_neg h10, Checked.field_eq (by omega) (by omega)]
  simp only [Option.bind_eq_bind, Option.bind_some, Nat.reduceSub]
  by_cases ht : b.length < 10 + field 8 2 b
  · rw [if_pos ht, if_pos ht]
  rw [if_neg ht, if_neg ht, Checked.field_eq (by omega) (by omega),
    Checked.field_eq (by omega) (by omega), slice_of_le (by omega) (by omega)]
  simp only [Option.bind_some, Nat.reduceSub, Nat.add_sub_cancel_left]

theorem decodeRecordsHeader_cases (b : Bytes) : (∃ e, decodeRecordsHeader b = some (.error e)) ∨
    ∃ h offset, decodeRecordsHeader b = some (.ok (h, offset)) ∧ offset ≤ b.length := by
  rw [decodeRecordsHeader_eq]
  by_cases h10 : b.length < 10
  · exact .inl ⟨_, by rw [if_pos h10]⟩
  by_cases ht : b.length < 10 + field 8 2 b
  · exact .inl ⟨_, by rw [if_neg h10, if_pos ht]⟩
  · exact .inr ⟨_, _, by rw [if_neg h10, if_neg ht], by omega⟩

theorem decodeRecordsHeader_encode {h : RecordsHeader} (rest : Bytes) (hc : h.count < 2 ^ 32)
    (ht : h.topic.length ≤ 65535) : decodeRecordsHeader (encodeRecordsHeader h ++ rest) =
      some (.ok (h, recordsHeaderSize + h.topic.length)) := by
  obtain ⟨topic, partition, count⟩ := h
  have hpart : partition.toUInt32.toNat < 256 ^ 4 := partition.toUInt32.toNat_lt
  have hbytes : encodeRecordsHeader ⟨topic, partition, count⟩ ++ rest =
      le 4 partition.toUInt32.toNat ++ (le 4 count ++ (le 2 topic.length ++ (topic ++ rest))) := by
    simp only [encodeRecordsHeader, append_assoc]
  have hf0 : field 0 4 (encodeRecordsHeader ⟨topic, partition, count⟩ ++ rest) =
      partition.toUInt32.toNat := by
    rw [hbytes]
    simp [field, unle_le_of_lt hpart]
  have hf4 : field 4 4 (encodeRecordsHeader ⟨topic, partition, count⟩ ++ rest) = count := by
    rw [hbytes]
    simp [field, unle_le_of_lt (show count < 256 ^ 4 from hc)]
  have hf8 : field 8 2 (encodeRecordsHeader ⟨topic, partition, count⟩ ++ rest) = topic.length := by
    rw [hbytes]
    simp [field, unle_le_of_lt (show topic.length < 256 ^ 2 by dsimp only at ht; omega)]
  have hlen : (encodeRecordsHeader ⟨topic, partition, count⟩ ++ rest).length =
      10 + topic.length + rest.length := by
    rw [hbytes]
    simp only [length_append, length_le]
    omega
  have htopic : ((encodeRecordsHeader ⟨topic, partition, count⟩ ++ rest).drop 10).take
      topic.length = topic := by
    rw [hbytes]
    simp
  rw [decodeRecordsHeader_eq, hf0, hf4, hf8, hlen, htopic, if_neg (by omega), if_neg (by omega)]
  simp [recordsHeaderSize]

section Follower
variable {σ : Type} (apply : Handed → σ → σ × Except TopicErr Unit)

def BatchEnd.ofLog : BatchEnd → BatchEnd
  | .failed _ => .applied
  | e => e

structure Contained (apply : Handed → σ → σ × Except TopicErr Unit) (call : Record → Handed)
    (count : Nat) (body : Bytes) (s : σ) (handed : List Handed) (recs : List Record)
    (out : BatchOutcome σ) : Prop where
  frames : Frames body recs out.left
  handing : handAll apply (recs.map call) s handed = (out.log, out.handed, out.ended.ofLog)
  counted : recs.length ≤ count
  complete : out.ended = .applied → recs.length = count
  stopped : ∀ e, out.ended = .failed e →
    recs.length < count ∧ ∀ r rest, ¬ Intact out.left r rest

theorem refusal_ofLog (e : TopicErr) : (refusal e).ofLog = refusal e ∧ refusal e ≠ .applied ∧
    ∀ f, refusal e ≠ .failed f := by
  unfold refusal
  split <;> simp [BatchEnd.ofLog]

theorem applyFrames_contained (call : Record → Handed) (count : Nat) (body : Bytes) (s : σ)
    (handed : List Handed) : ∃ out recs, applyFrames apply call count body s handed = some out ∧
      Contained apply call count body s handed recs out := by
  induction count generalizing body s handed with
  | zero =>
    exact ⟨_, [], rfl, .nil body, rfl, Nat.le_refl 0, fun _ => rfl, fun _ h => by cases h⟩
  | succ count ih =>
    unfold applyFrames
    rcases nextBatchRecord_cases body with ⟨r, rest, hr, hi⟩ | ⟨e, he, hn⟩
    · rw [hr]
      simp only [Option.bind_eq_bind, Option.bind_some]
      cases ha : apply (call r) s with
      | mk t res =>
        cases res with
        | error e =>
          obtain ⟨hof, hna, hnf⟩ := refusal_ofLog e
          refine ⟨_, [r], rfl, .cons hi (.nil rest), ?_, ?_, fun h => absurd h hna,
            fun f h => absurd h (hnf f)⟩
          · simp only [map_cons, map_nil, handAll, ha, hof]
          · rw [length_singleton]
            omega
        | ok u =>
          obtain ⟨out, recs, hout, hc⟩ := ih rest t (handed ++ [call r])
          refine ⟨out, r :: recs, hout, .cons hi hc.frames, ?_, ?_, ?_, ?_⟩
          · simp only [map_cons, handAll, ha, hc.handing]
          · have := hc.counted
            rw [length_cons]
            omega
          · intro h
            rw [length_cons, hc.complete h]
          · intro e h
            obtain ⟨hlt, hleft⟩ := hc.stopped e h
            exact ⟨by rw [length_cons]; omega, hleft⟩
    · rw [he]
      refine ⟨_, [], rfl, .nil body, rfl, Nat.zero_le _, fun h => ?_, fun _ _ => ⟨Nat.succ_pos _, hn⟩⟩
      cases h

theorem applyFrames_frames (hf : Frames body recs left) (call : Record → Handed) (s : σ)
    (handed : List Handed) : ∃ out, applyFrames apply call recs.length body s handed = some out ∧
      handAll apply (recs.map call) s handed = (out.log, out.handed, out.ended) ∧
      (out.ended = .applied → out.left = left) := by
  induction hf generalizing s handed with
  | nil b => exact ⟨_, rfl, rfl, fun _ => rfl⟩
  | @cons b rest left r recs hi more ih =>
    rw [length_cons, applyFrames, nextBatchRecord_intact hi]
    simp only [Option.bind_eq_bind, Option.bind_some, map_cons, handAll]
    cases ha : apply (call r) s with
    | mk t res =>
      cases res with
      | error e => exact ⟨_, rfl, rfl, fun h => absurd h (refusal_ofLog e).2.1⟩
      | ok u => exact ih t (handed ++ [call r])

end Follower

structure SameRecord (r t : Record) : Prop where
  fields : t = { r with headers := t.headers }
  headers : t.headers.entries.Perm r.headers.entries

theorem SameRecord.bodyLen (h : SameRecord r t) : t.bodyLen = r.bodyLen := by
  have hlen : (encodeHeaders t.headers).length = (encodeHeaders r.headers).length := by
    rw [encodeHeaders, encodeHeaders, length_stored, length_stored]
    exact (h.headers.map _).sum_nat
  rw [h.fields]
  unfold Record.bodyLen Record.bodyHeaderSize
  dsimp only
  omega

theorem SameRecord.sound (h : SameRecord r t) (hr : Sound r) : Sound t := by
  have hfit : t.headers.Fit := fun e he => hr.headers e (h.headers.subset he)
  have hsize : t.bodyLen ≤ maxRecordSize := h.bodyLen ▸ hr.size
  have hcanon := hr.canonical
  obtain ⟨hfields, _⟩ := h
  rw [hfields] at hsize ⊢
  refine ⟨⟨hr.range.seq, hr.range.timestamp_low, hr.range.timestamp_high, hr.range.epoch⟩, hfit,
    hr.key, hsize, ?_⟩
  have hflags := congrArg Record.flags hcanon
  simp only [Record.canonical] at hflags ⊢
  rw [hflags]

theorem forall_sound (h : List.Forall₂ SameRecord recs sent) (hs : ∀ r ∈ recs, Sound r) :
    ∀ r ∈ sent, Sound r := by
  induction h with
  | nil => exact forall_mem_nil _
  | cons h _ ih =>
    obtain ⟨hr, hrest⟩ := forall_mem_cons.mp hs
    exact forall_mem_cons.mpr ⟨h.sound hr, ih hrest⟩

theorem encodeFrames_sound (hs : ∀ r ∈ recs, Sound r) :
    encodeFrames recs = .ok (stored encoded recs) := by
  induction recs with
  | nil => rfl
  | cons r recs ih =>
    have hr := hs r mem_cons_self
    rw [encodeFrames, encode_of_sizes hr.size hr.key, ih (fun x hx => hs x (mem_cons_of_mem r hx)),
      stored_cons]
    rfl

theorem encodeBatch_sound (topic : Bytes) (partition : Int32) (hs : ∀ r ∈ recs, Sound r)
    (hc : recs.length < 2 ^ 32) : encodeBatch topic partition recs =
      .ok (encodeRecordsHeader ⟨topic, partition, recs.length⟩ ++ stored encoded recs) := by
  rw [encodeBatch, encodeFrames_sound hs, Nat.mod_eq_of_lt hc]
  rfl

theorem length_encodeRecordsHeader (h : RecordsHeader) :
    (encodeRecordsHeader h).length = recordsHeaderSize + h.topic.length := by
  simp only [encodeRecordsHeader, length_append, length_le, recordsHeaderSize]
  omega

theorem frames_stored (hs : ∀ r ∈ recs, Sound r) : Frames (stored encoded recs) recs [] := by
  induction recs with
  | nil => exact .nil []
  | cons r recs ih =>
    have hr := hs r mem_cons_self
    rw [stored_cons]
    exact .cons ⟨r.body, rfl, length_body r ▸ hr.size, hr.decode⟩
      (ih (fun x hx => hs x (mem_cons_of_mem r hx)))

section Transport
variable {σ : Type} (apply : Handed → σ → σ × Except TopicErr Unit)

theorem applyBatch_encodeBatch (assignments : List BatchAssignment) {topic : Bytes}
    (ht : topic.length ≤ 65535) (partition : Int32) (hs : ∀ r ∈ recs, Sound r)
    (hc : recs.length < 2 ^ 32) (s : σ) :
    ∃ payload out, encodeBatch topic partition recs = .ok payload ∧
      applyBatch apply assignments payload s = some out ∧
      handAll apply (recs.map (callFor assignments ⟨topic, partition, recs.length⟩)) s [] =
        (out.log, out.handed, out.ended) ∧ (out.ended = .applied → out.left = []) := by
  obtain ⟨out, hout, hhand, hleft⟩ := applyFrames_frames apply (frames_stored hs)
    (callFor assignments ⟨topic, partition, recs.length⟩) s []
  have hsize := length_encodeRecordsHeader ⟨topic, partition, recs.length⟩
  dsimp only at hsize
  refine ⟨_, out, encodeBatch_sound topic partition hs hc, ?_, hhand, hleft⟩
  unfold applyBatch
  rw [decodeRecordsHeader_encode _ hc ht]
  simp only [Option.bind_eq_bind, Option.bind_some]
  rw [slice_to_end (by rw [length_append]; omega), ← hsize, drop_left]
  exact hout

theorem applyBatch_contained (assignments : List BatchAssignment) (payload : Bytes) (s : σ) :
    (∃ e, decodeRecordsHeader payload = some (.error e) ∧
      applyBatch apply assignments payload s = some ⟨s, [], payload, .failed e⟩) ∨
    ∃ h offset out recs, decodeRecordsHeader payload = some (.ok (h, offset)) ∧
      applyBatch apply assignments payload s = some out ∧
      Contained apply (callFor assignments h) h.count (payload.drop offset) s [] recs out := by
  unfold applyBatch
  rcases decodeRecordsHeader_cases payload with ⟨e, he⟩ | ⟨h, offset, hh, hle⟩
  · exact .inl ⟨e, he, by rw [he]; rfl⟩
  obtain ⟨out, recs, hout, hc⟩ := applyFrames_contained apply
    (callFor assignments h) h.count (payload.drop offset) s []
  refine .inr ⟨h, offset, out, recs, hh, ?_, hc⟩
  rw [hh]
  simp only [Option.bind_eq_bind, Option.bind_some]
  rw [slice_to_end hle]
  exact hout

/-- A batch of records read from any log arrives as those records, to the last
byte; from other bytes the follower's log is handed whole records with the right
checksum up to the first that is none, and nothing outside the bytes is read. -/
theorem batches_arrive_faithfully (assignments : List BatchAssignment) (s : σ)
    (p : Partition FileSegment) (fromSeq : Nat) (maxRecords : Int) {sent : List Record}
    (hsent : List.Forall₂ SameRecord (p.readFrom fromSeq maxRecords).1 sent) {topic : Bytes}
    (ht : topic.length ≤ 65535) (partition : Int32) :
    (∃ payload out, encodeBatch topic partition sent = .ok payload ∧
      applyBatch apply assignments payload s = some out ∧
      handAll apply (sent.map (callFor assignments ⟨topic, partition, sent.length⟩)) s [] =
        (out.log, out.handed, out.ended) ∧ (out.ended = .applied → out.left = [])) ∧ ∀ payload,
      (∃ e, decodeRecordsHeader payload = some (.error e) ∧
        applyBatch apply assignments payload s = some ⟨s, [], payload, .failed e⟩) ∨
      ∃ h offset out recs, decodeRecordsHeader payload = some (.ok (h, offset)) ∧
        applyBatch apply assignments payload s = some out ∧
        Contained apply (callFor assignments h) h.count (payload.drop offset) s [] recs out := by
  have hsound := forall_sound hsent (p.readFrom_sound fromSeq maxRecords)
  have hcount : sent.length < 2 ^ 32 := by
    rw [← hsent.length_eq]
    exact p.readFrom_count fromSeq maxRecords
  exact ⟨applyBatch_encodeBatch apply assignments ht partition hsound hcount s,
    fun payload => applyBatch_contained apply assignments payload s⟩

end Transport

def appendTo {S : Type} [SegmentStore S] (c : Handed) (q : Partition S) :
    Partition S × Except TopicErr Unit :=
  ((q.appendReplicated c.record).1, (q.appendReplicated c.record).2.mapError .partition)

theorem handAll_appendTo [SegmentStore S] (calls handed : List Handed) (q : Partition S) :
    (handAll appendTo calls q handed).1 = Replication.applyBatch q (calls.map Handed.record) := by
  induction calls generalizing q handed with
  | nil => rfl
  | cons c calls ih =>
    simp only [handAll, appendTo, map_cons, Replication.applyBatch]
    cases q.appendReplicated c.record with
    | mk t res =>
      cases res with
      | error e => rfl
      | ok u => exact ih _ t

theorem sent_batch_is_applied (p q : Partition FileSegment) (fromSeq : Nat) (maxRecords : Int)
    (assignments : List BatchAssignment) {topic : Bytes} (ht : topic.length ≤ 65535)
    (partition : Int32) :
    ∃ payload out, encodeBatch topic partition (p.readFrom fromSeq maxRecords).1 = .ok payload ∧
      applyBatch appendTo assignments payload q = some out ∧
      out.log = Replication.applyBatch q (p.readFrom fromSeq maxRecords).1 := by
  obtain ⟨payload, out, henc, happ, hhand, _⟩ := applyBatch_encodeBatch appendTo assignments ht
    partition (p.readFrom_sound fromSeq maxRecords) (p.readFrom_count fromSeq maxRecords) q
  refine ⟨payload, out, henc, happ, ?_⟩
  have hlog := congrArg Prod.fst hhand
  rw [handAll_appendTo, map_map] at hlog
  exact hlog.symm.trans (congrArg (Replication.applyBatch q) (map_id _))

theorem two_records_are_applied : ∃ p : Partition FileSegment,
    Run Partition.Succeeds Partition.Storable Partition.freshFiles Partition.threeAppends p ∧
      (p.readFrom 1 10).1.length = 2 ∧
      ∃ payload out, encodeBatch [99] 0 (p.readFrom 1 10).1 = .ok payload ∧
        applyBatch appendTo [⟨[99], 0, 4⟩] payload Partition.freshFiles = some out ∧
        out.log.nextSeq = 3 := by
  obtain ⟨p, hrun, hlen, hnext⟩ := Run.executed Partition.Storable Partition.exec
    Partition.freshFiles Partition.threeAppends
    (fun p : Partition FileSegment => (p.readFrom 1 10).1.length = 2 ∧
      (Replication.applyBatch Partition.freshFiles (p.readFrom 1 10).1).nextSeq = 3)
    (by decide +kernel)
  obtain ⟨payload, out, henc, happ, hlog⟩ := sent_batch_is_applied p Partition.freshFiles 1 10
    [⟨[99], 0, 4⟩] (by decide : ([99] : Bytes).length ≤ 65535) 0
  exact ⟨p, hrun, hlen, payload, out, henc, happ, hlog ▸ hnext⟩

def takeAll (c : Handed) (log : List Handed) : List Handed × Except TopicErr Unit :=
  (log ++ [c], .ok ())

theorem handAll_takeAll (calls log handed : List Handed) :
    handAll takeAll calls log handed = (log ++ calls, handed ++ calls, .applied) := by
  induction calls generalizing log handed with
  | nil => simp [handAll]
  | cons c calls ih => simp [handAll, takeAll, ih]

theorem SameRecord.refl (r : Record) : SameRecord r r := ⟨rfl, .refl _⟩

theorem batches_arrive_two_records : ∃ p : Partition FileSegment,
      Run Partition.Succeeds Partition.Storable Partition.freshFiles Partition.threeAppends p ∧
      (p.readFrom 1 10).1.length = 2 ∧
      ∃ payload out, encodeBatch [99] 0 (p.readFrom 1 10).1 = .ok payload ∧
        applyBatch takeAll [⟨[99], 0, 4⟩] payload [] = some out ∧
        out.handed.map Handed.record = (p.readFrom 1 10).1 ∧ out.left = [] := by
  obtain ⟨p, hrun, hlen⟩ := Run.executed Partition.Storable Partition.exec Partition.freshFiles
    Partition.threeAppends
    (fun p : Partition FileSegment => (p.readFrom 1 10).1.length = 2) (by decide +kernel)
  obtain ⟨⟨payload, out, henc, happ, hhand, hleft⟩, _⟩ :=
    batches_arrive_faithfully takeAll [⟨[99], 0, 4⟩] [] p 1 10
      (forall₂_same.mpr (fun r _ => SameRecord.refl r))
      (by decide : ([99] : Bytes).length ≤ 65535) 0
  rw [handAll_takeAll, Prod.mk.injEq, Prod.mk.injEq] at hhand
  refine ⟨p, hrun, hlen, payload, out, henc, happ, ?_, hleft hhand.2.2.symm⟩
  rw [← hhand.2.1, nil_append, map_map]
  exact map_id _

end Boltq.Replication.Wire
