import Boltq.Replication.Wire
import Boltq.Stream.Cursor

namespace Boltq.Replication.Protocol
open Lib Boltq.Stream Replication.Wire List

def msgRecords : UInt8 := 0x03

def maxFramePayload : Nat := 16 * 2 ^ 20

inductive ProtocolErr where
  | frameTooLarge (bytes : Nat)
  | shortFetch
  | fetchTopicLength
  deriving DecidableEq

def writeFrame (typ : UInt8) (payload : Bytes) : Except ProtocolErr Bytes :=
  if payload.length > maxFramePayload then .error (.frameTooLarge payload.length)
  else .ok (typ :: (le 4 payload.length ++ payload))

def readFrame (bs : Bytes) : Option (Except ProtocolErr (UInt8 × Bytes × Bytes)) :=
  match bs with
  | [] => none
  | typ :: rest =>
    if rest.length < 4 then none
    else
      let length := unle (rest.take 4)
      if length > maxFramePayload then some (.error (.frameTooLarge length))
      else if (rest.drop 4).length < length then none
      else some (.ok (typ, (rest.drop 4).take length, (rest.drop 4).drop length))

theorem readFrame_writeFrame (h : writeFrame typ payload = .ok bytes) (rest : Bytes) :
    readFrame (bytes ++ rest) = some (.ok (typ, payload, rest)) := by
  unfold writeFrame at h
  split at h
  · cases h
  rename_i hle
  have hfit : payload.length < 256 ^ 4 := by
    unfold maxFramePayload at hle
    omega
  cases h
  rw [cons_append, append_assoc, readFrame]
  dsimp only
  rw [take_left' (length_le 4 _), drop_left' (length_le 4 _), unle_le_of_lt hfit,
    if_neg (by rw [length_append, length_le]; omega), if_neg hle,
    if_neg (by rw [length_append]; omega), take_left, drop_left]

structure FetchRequest where
  topic : Bytes
  partitionCount : Int32
  partition : Int32
  fromSeq : Nat
  deriving DecidableEq

def fetchHeaderSize : Nat := 18

def FetchRequest.encode (f : FetchRequest) : Bytes :=
  le 8 f.fromSeq ++ (le 4 f.partition.toUInt32.toNat ++ (le 4 f.partitionCount.toUInt32.toNat ++
    (le 2 f.topic.length ++ f.topic)))

def decodeFetch (b : Bytes) : Option (Except ProtocolErr FetchRequest) :=
  if b.length < fetchHeaderSize then some (.error .shortFetch)
  else do
    let topicLen ← Checked.field b 16 18
    if fetchHeaderSize + topicLen ≠ b.length then some (.error .fetchTopicLength)
    else do
      let fromSeq ← Checked.field b 0 8
      let partition ← Checked.field b 8 12
      let partitionCount ← Checked.field b 12 16
      let topic ← slice b fetchHeaderSize b.length
      some (.ok ⟨topic, (UInt32.ofNat partitionCount).toInt32, (UInt32.ofNat partition).toInt32,
        fromSeq⟩)

theorem decodeFetch_topic (h : decodeFetch b = some (.ok req)) : req.topic.length ≤ 65535 := by
  unfold decodeFetch at h
  split at h
  · cases h
  rename_i hlong
  unfold fetchHeaderSize at hlong h
  rw [Checked.field_eq (by omega) (by omega), Checked.field_eq (by omega) (by omega),
    Checked.field_eq (by omega) (by omega), Checked.field_eq (by omega) (by omega),
    slice_to_end (by omega)] at h
  simp only [Option.bind_eq_bind, Option.bind_some] at h
  split at h
  · cases h
  rename_i hlen
  cases h
  have hlt := field_lt 16 (18 - 16) b
  rw [length_drop]
  omega

inductive Turn where
  | gap (report : Bytes) (next : Nat)
  | ended
  | failed (e : Err)
  | wait
  | refused (e : ProtocolErr)
  | shipped (frame : Bytes) (next : Nat)
  deriving DecidableEq

def gapReport (req : FetchRequest) (first : Nat) : Bytes :=
  nameBytes "retention gap on " ++ req.topic ++ nameBytes "/" ++
    signedDecimal req.partition.toInt ++ nameBytes ": resuming at " ++ decimal first

def streamTurn (cfg : LeaderConfig) (visit : List Record → List Record)
    (p : Partition FileSegment) (req : FetchRequest) (fromSeq : Nat) : Turn :=
  match p.readFrom fromSeq cfg.batchRecords with
  | (_, some (.seqTruncated _ _)) => .gap (gapReport req p.firstSeq) p.firstSeq
  | (_, some .closed) => .ended
  | (_, some e) => .failed e
  | (recs, none) =>
    match recs.getLast? with
    | none => .wait
    | some last =>
      match encodeBatch req.topic req.partition (visit recs) with
      | .error e => .failed e
      | .ok payload =>
        match writeFrame msgRecords payload with
        | .error e => .refused e
        | .ok frame => .shipped frame (last.seq + 1)

theorem batchBytes_visited (h : List.Forall₂ SameRecord recs sent) :
    batchBytes sent = batchBytes recs := by
  induction h with
  | nil => rfl
  | cons h _ ih =>
    simp only [batchBytes, map_cons, sum_cons, Record.encodedSize, h.bodyLen] at ih ⊢
    rw [ih]

theorem length_stored_encoded (recs : List Record) :
    (stored encoded recs).length = batchBytes recs := by
  rw [length_stored]
  exact congrArg sum (map_congr_left fun r _ => length_encoded r)

theorem encodeBatch_readFrom (p : Partition FileSegment) (fromSeq : Nat) (maxRecords : Int)
    (hsent : List.Forall₂ SameRecord (p.readFrom fromSeq maxRecords).1 sent) {topic : Bytes}
    (ht : topic.length ≤ 65535) (partition : Int32) :
    ∃ payload, encodeBatch topic partition sent = .ok payload ∧
      payload.length ≤ maxFramePayload := by
  have hcount : sent.length < 2 ^ 32 := by
    rw [← hsent.length_eq]
    exact p.readFrom_count fromSeq maxRecords
  refine ⟨_, encodeBatch_sound topic partition
    (forall_sound hsent (p.readFrom_sound fromSeq maxRecords)) hcount, ?_⟩
  have hbytes := p.readFrom_bytes fromSeq maxRecords
  rw [length_append, length_encodeRecordsHeader, length_stored_encoded,
    batchBytes_visited hsent]
  simp only [maxRecordSize, maxFramePayload, recordsHeaderSize] at hbytes ⊢
  omega

theorem batch_fits_a_frame (cfg : LeaderConfig) (visit : List Record → List Record)
    (hvisit : ∀ recs, List.Forall₂ SameRecord recs (visit recs)) (p : Partition FileSegment)
    {bytes : Bytes} {req : FetchRequest} (hreq : decodeFetch bytes = some (.ok req))
    (fromSeq : Nat) : (∀ e, streamTurn cfg visit p req fromSeq ≠ .refused e) ∧
    ∀ recs last, p.readFrom fromSeq cfg.batchRecords = (recs, none) → recs.getLast? = some last →
      ∃ payload frame, encodeBatch req.topic req.partition (visit recs) = .ok payload ∧
        payload.length ≤ maxFramePayload ∧ writeFrame msgRecords payload = .ok frame ∧
        streamTurn cfg visit p req fromSeq = .shipped frame (last.seq + 1) ∧
        ∀ rest, readFrame (frame ++ rest) = some (.ok (msgRecords, payload, rest)) := by
  obtain ⟨payload, henc, hle⟩ := encodeBatch_readFrom p fromSeq cfg.batchRecords
    (hvisit (p.readFrom fromSeq cfg.batchRecords).1) (decodeFetch_topic hreq) req.partition
  have hframe : writeFrame msgRecords payload =
      .ok (msgRecords :: (le 4 payload.length ++ payload)) := if_neg (Nat.not_lt.mpr hle)
  have hship : ∀ recs last, p.readFrom fromSeq cfg.batchRecords = (recs, none) →
      recs.getLast? = some last → streamTurn cfg visit p req fromSeq =
        .shipped (msgRecords :: (le 4 payload.length ++ payload)) (last.seq + 1) := by
    intro recs last hread hlast
    rw [hread] at henc
    simp only [streamTurn, hread, hlast, henc, hframe]
  refine ⟨fun e he => ?_, fun recs last hread hlast => ?_⟩
  · unfold streamTurn at he hship
    split at he
    · cases he
    · cases he
    · cases he
    · rename_i recs hread
      cases hlast : recs.getLast? with
      | none =>
        rw [hlast] at he
        cases he
      | some last =>
        have hturn := hship recs last hread hlast
        rw [hread] at hturn
        dsimp only at hturn
        rw [hturn] at he
        cases he
  · refine ⟨payload, _, ?_, hle, hframe, hship recs last hread hlast,
      readFrame_writeFrame hframe⟩
    rw [hread] at henc
    exact henc

/-- Whatever a partition holds, whatever batch size is configured and wherever a
follower asks to be served from, what one read returns is one frame: no turn of
the loop has its frame refused, and the follower reads the batch from it. A log
whose records have headers that fit their length fields is shipped from every
position it holds. -/
theorem every_batch_fits_a_frame (cfg : LeaderConfig) (visit : List Record → List Record)
    (hvisit : ∀ recs, List.Forall₂ SameRecord recs (visit recs)) {bytes : Bytes}
    {req : FetchRequest} (hreq : decodeFetch bytes = some (.ok req)) :
    (∀ (p : Partition FileSegment) fromSeq,
      (∀ e, streamTurn cfg visit p req fromSeq ≠ .refused e) ∧
      ∀ recs last, p.readFrom fromSeq cfg.batchRecords = (recs, none) →
        recs.getLast? = some last →
        ∃ payload frame, encodeBatch req.topic req.partition (visit recs) = .ok payload ∧
          payload.length ≤ maxFramePayload ∧ writeFrame msgRecords payload = .ok frame ∧
          streamTurn cfg visit p req fromSeq = .shipped frame (last.seq + 1) ∧
          ∀ rest, readFrame (frame ++ rest) = some (.ok (msgRecords, payload, rest))) ∧
    ∀ topic id pcfg (p₀ p : Partition FileSegment) ops,
      Partition.openPartition topic id ⟨[], []⟩ pcfg = .ok p₀ →
      Run Partition.Succeeds Partition.Storable p₀ ops p →
      ∀ fromSeq, p.firstSeq ≤ fromSeq → fromSeq < p.nextSeq →
        ∃ frame next, streamTurn cfg visit p req fromSeq = .shipped frame next ∧
          fromSeq < next := by
  refine ⟨fun p fromSeq => batch_fits_a_frame cfg visit hvisit p hreq fromSeq, ?_⟩
  intro topic id pcfg p₀ p ops h0 hr fromSeq hf hn
  have hopen := (Partition.Reached.run h0 hr).opened
  obtain ⟨out, hread, hne, hserved⟩ := hopen.presents.read fromSeq cfg.batchRecords (4 * 2 ^ 20)
    hf (hopen.next ▸ hn)
  obtain ⟨last, hlast⟩ := Option.isSome_iff_exists.mp (getLast?_isSome.mpr hne)
  obtain ⟨payload, frame, -, -, -, hship, -⟩ :=
    (batch_fits_a_frame cfg visit hvisit p hreq fromSeq).2 out last hread hlast
  refine ⟨frame, last.seq + 1, hship, Nat.lt_succ_of_le ?_⟩
  have hdense := hopen.wf.dense.drop (fromSeq - p.firstSeq)
  rw [Nat.add_sub_cancel' hf] at hdense
  obtain ⟨i, hi⟩ := getElem?_of_mem (hserved.run.subset (mem_of_getLast? hlast))
  have hseq := hdense i last hi
  omega

theorem every_batch_fits_three_records :
    decodeFetch (FetchRequest.encode ⟨[99], 1, 0, 1⟩) = some (.ok ⟨[99], 1, 0, 1⟩) ∧
    ∃ p : Partition FileSegment,
      Run Partition.Succeeds Partition.Storable Partition.freshFiles Partition.threeAppends p ∧
      ∃ recs last payload frame, p.readFrom 1 256 = (recs, none) ∧ recs.getLast? = some last ∧
        encodeBatch [99] 0 recs = .ok payload ∧ payload.length ≤ maxFramePayload ∧
        streamTurn { batchRecords := 256 } id p ⟨[99], 1, 0, 1⟩ 1 =
          .shipped frame (last.seq + 1) := by
  have hreq : decodeFetch (FetchRequest.encode ⟨[99], 1, 0, 1⟩) = some (.ok ⟨[99], 1, 0, 1⟩) := by
    decide +kernel
  refine ⟨hreq, ?_⟩
  obtain ⟨p, hrun, hread, hne⟩ := Run.executed Partition.Storable Partition.exec
    Partition.freshFiles Partition.threeAppends
    (fun p : Partition FileSegment =>
      (p.readFrom 1 256).2 = none ∧ (p.readFrom 1 256).1.getLast?.isSome = true) (by decide +kernel)
  obtain ⟨last, hlast⟩ := Option.isSome_iff_exists.mp hne
  have hrecs : p.readFrom 1 256 = ((p.readFrom 1 256).1, none) := Prod.ext rfl hread
  obtain ⟨hfits, _⟩ := every_batch_fits_a_frame { batchRecords := 256 }
    id (fun _ => forall₂_same.mpr fun r _ => SameRecord.refl r) hreq
  obtain ⟨payload, frame, henc, hle, _, hturn, _⟩ := (hfits p 1).2 _ last hrecs hlast
  exact ⟨p, hrun, _, last, payload, frame, hrecs, hlast, henc, hle, hturn⟩

/-- A record with a header too long for its length field is appended, and no turn ships it. -/
theorem long_header_is_never_shipped :
    ∃ p : Partition FileSegment,
      Run Partition.Succeeds always Partition.freshFiles
        [.append Partition.longHeader 1] p ∧
      p.firstSeq ≤ 1 ∧ 1 < p.nextSeq ∧
      streamTurn { batchRecords := 1 } id p ⟨[99], 1, 0, 1⟩ 1 = .failed .corruptRecord := by
  obtain ⟨p, hp, hf, hn, hread⟩ := Partition.append_longHeader
  refine ⟨p, .snoc [] _ _ _ .nil trivial hp, by omega, by omega, ?_⟩
  unfold streamTurn Partition.readFrom
  rw [hread]

end Boltq.Replication.Protocol
