import Boltq.Stream.Epoch
import Boltq.Stream.Store

namespace Boltq.Stream
open Lib SegmentStore

structure PartitionConfig where
  segmentBytes : Int
  indexInterval : Int
  retentionBytes : Int
  retentionAge : Int
  int64 : segmentBytes < 2 ^ 63
  deriving DecidableEq

def defaultPartitionConfig : PartitionConfig where
  segmentBytes := 256 * 2 ^ 20
  indexInterval := 4 * 2 ^ 10
  retentionBytes := 0
  retentionAge := 0
  int64 := by decide

def PartitionConfig.applyDefaults (c : PartitionConfig) : PartitionConfig :=
  { c with
    segmentBytes := if c.segmentBytes ≤ 0 then defaultPartitionConfig.segmentBytes else c.segmentBytes
    indexInterval :=
      if c.indexInterval ≤ 0 then defaultPartitionConfig.indexInterval else c.indexInterval
    int64 := by
      split
      · exact defaultPartitionConfig.int64
      · exact c.int64 }

structure Partition (S : Type) where
  topic : String
  id : Int
  cfg : PartitionConfig
  older : List S
  active : S
  nextSeq : Nat
  firstSeq : Nat
  closed : Bool
  epochs : LeaderEpochCache
  curEpoch : Nat
  enforceLeadership : Bool
  isLeader : Bool
  byteCount : Int
  deriving DecidableEq

structure Disk (S : Type) where
  files : List S
  checkpoint : List EpochEntry
  deriving DecidableEq

def stampAs (seq epoch : Nat) (now : Int) (rec : Record) : Record :=
  { rec with seq, epoch, timestamp := if rec.timestamp = 0 then now else rec.timestamp }

namespace Partition
variable {S : Type} [SegmentStore S]

section
variable (p : Partition S)

def segments : List S := p.older ++ [p.active]

def disk : Disk S := ⟨p.segments, p.epochs.entries⟩

def openSegments (iv : Int) : List S → Except Err (List S)
  | [] => .ok []
  | s :: rest =>
    match openSegment s iv (!rest.isEmpty), openSegments iv rest with
    | .ok t, .ok ts => .ok (t :: ts)
    | .error e, _ => .error e
    | _, .error e => .error e

def fresh (topic : String) (id : Int) (cfg : PartitionConfig) (epochs : LeaderEpochCache) :
    Partition S where
  topic := topic
  id := id
  cfg := cfg
  older := []
  active := createSegment 1 cfg.indexInterval
  nextSeq := 1
  firstSeq := 1
  closed := false
  epochs := epochs
  curEpoch := epochs.latest.1
  enforceLeadership := false
  isLeader := false
  byteCount := 0

def openPartition (topic : String) (id : Int) (disk : Disk S) (cfg : PartitionConfig) :
    Except Err (Partition S) :=
  let cfg := cfg.applyDefaults
  let epochs := LeaderEpochCache.openEpochCache disk.checkpoint
  let files := disk.files.insertionSort (fun a b => baseSeq a ≤ baseSeq b)
  match openSegments cfg.indexInterval files with
  | .error e => .error e
  | .ok segs =>
    match segs.getLast? with
    | none => .ok (fresh topic id cfg epochs)
    | some active => .ok { (fresh topic id cfg epochs : Partition S) with
        older := segs.dropLast
        active
        nextSeq := lastSequence active + 1
        firstSeq := segs.head?.elim 1 baseSeq
        byteCount := (segs.map bytes).sum }

def rollLocked (base : Nat) : Partition S :=
  { p with older := p.older ++ [p.active], active := createSegment base p.cfg.indexInterval }

def makeRoom (seq n : Nat) : Partition S :=
  if bytes p.active + n > p.cfg.segmentBytes ∧ isEmpty p.active = false then p.rollLocked seq else p

def write (rec : Record) (encoded : Bytes) : Partition S × Except Err Unit :=
  let q := p.makeRoom rec.seq encoded.length
  match SegmentStore.append q.active rec encoded with
  | .error e => (q, .error e)
  | .ok s => ({ q with
      active := s, nextSeq := rec.seq + 1, byteCount := q.byteCount + encoded.length }, .ok ())

def stamp (rec : Record) (now : Int) : Record :=
  stampAs p.nextSeq p.curEpoch now rec

def append (rec : Record) (now : Int) : Partition S × Except Err Nat :=
  if rec.flags &&& flagEphemeral ≠ 0 then (p, .error .persistEphemeral)
  else if p.closed then (p, .error .closed)
  else if p.enforceLeadership ∧ p.isLeader = false then
    (p, .error (.notPartitionLeader p.topic p.id))
  else
    match (p.stamp rec now).encode with
    | .error e => (p, .error e)
    | .ok encoded =>
      match p.write (p.stamp rec now) encoded with
      | (q, .error e) => (q, .error e)
      | (q, .ok _) => (q, .ok p.nextSeq)

def noteEpoch (rec : Record) : Except Err (Partition S) :=
  if p.curEpoch < rec.epoch then
    match p.epochs.assign rec.epoch rec.seq with
    | .error e => .error e
    | .ok epochs => .ok { p with epochs, curEpoch := rec.epoch }
  else .ok p

def appendReplicated (rec : Record) : Partition S × Except Err Unit :=
  if rec.flags &&& flagEphemeral ≠ 0 then (p, .error .replicateEphemeral)
  else if rec.seq = 0 then (p, .error .noSequence)
  else if p.closed then (p, .error .closed)
  else if rec.seq < p.nextSeq then (p, .ok ())
  else if rec.seq > p.nextSeq then (p, .error (.replicationGap rec.seq p.nextSeq))
  else
    match p.noteEpoch rec with
    | .error e => (p, .error e)
    | .ok q =>
      match rec.encode with
      | .error e => (q, .error e)
      | .ok encoded => q.write rec encoded

end

def appendEach (now : Int) : List Record → Partition S → List Nat →
    Partition S × Except Err (List Nat)
  | [], p, seqs => (p, .ok seqs)
  | rec :: recs, p, seqs =>
    if rec.flags &&& flagEphemeral ≠ 0 then (p, .error .persistEphemeral)
    else
      match (p.stamp rec now).encode with
      | .error e => (p, .error e)
      | .ok encoded =>
        match p.write (p.stamp rec now) encoded with
        | (q, .error e) => (q, .error e)
        | (q, .ok _) => appendEach now recs q (seqs ++ [p.nextSeq])

section
variable (p : Partition S)

def appendBatch (recs : List Record) (now : Int) : Partition S × Except Err (List Nat) :=
  if recs = [] then (p, .ok [])
  else if p.closed then (p, .error .closed)
  else if p.enforceLeadership ∧ p.isLeader = false then
    (p, .error (.notPartitionLeader p.topic p.id))
  else appendEach now recs p []

def becomeLeader (epoch : Nat) : Partition S × Except Err Unit :=
  if epoch = undefinedEpoch then (p, .error .epochZero)
  else if p.closed then (p, .error .closed)
  else if epoch ≤ p.curEpoch then (p, .error (.epochNotNewer epoch p.curEpoch))
  else
    match p.epochs.assign epoch p.nextSeq with
    | .error e => (p, .error e)
    | .ok epochs => ({ p with epochs, curEpoch := epoch, isLeader := true }, .ok ())

def reassertLeadership (epoch : Nat) : Partition S × Except Err Unit :=
  if p.closed then (p, .error .closed)
  else if epoch ≠ p.curEpoch then (p, .error (.cannotReassert epoch p.curEpoch))
  else ({ p with isLeader := true }, .ok ())

def resign : Partition S := { p with isLeader := false }

def setEnforceLeadership (on : Bool) : Partition S :=
  { p with enforceLeadership := on }

def leaderEpoch : Nat × Nat := p.epochs.latest

def endOffsetForEpoch (epoch : Nat) : Nat × Nat :=
  p.epochs.endOffsetFor epoch p.nextSeq

end

def dropTail (seq : Nat) : List S → S → Int → List S × S × Int
  | [], active, count => ([], active, count)
  | s :: older, active, count =>
    if baseSeq active < seq then (s :: older, active, count)
    else dropTail seq older s (count - bytes active)

def truncateTo (p : Partition S) (seq : Nat) : Partition S × Except Err Nat :=
  if p.closed then (p, .error .closed)
  else if p.nextSeq ≤ seq then (p, .ok 0)
  else if seq ≤ p.firstSeq then (p, .error (.refuseTruncate p.topic p.id seq p.firstSeq))
  else
    let (older, last, count) := dropTail seq p.older.reverse p.active p.byteCount
    let active := SegmentStore.reopenWritable last
    let q := { p with older := older.reverse, active, byteCount := count }
    match SegmentStore.truncateTo active seq with
    | .error e => (q, .error e)
    | .ok cut =>
      let epochs := p.epochs.truncateFromSeq seq
      ({ q with
          active := cut
          byteCount := count + (bytes cut - bytes active)
          nextSeq := seq
          epochs
          curEpoch := epochs.latest.1 }, .ok (p.nextSeq - seq))

def readLoop (maxRecords : Nat) (maxBytes : Int) :
    List S → Nat → List Record → Int → List Record × Option Err
  | [], _, out, _ => (out, none)
  | seg :: rest, fromSeq, out, bytesRead =>
    if rest.isEmpty = false ∧ lastSequence seg < fromSeq then
      readLoop maxRecords maxBytes rest fromSeq out bytesRead
    else if maxRecords ≤ out.length then (out, none)
    else if 0 < maxBytes ∧ maxBytes - bytesRead ≤ 0 then (out, none)
    else
      match SegmentStore.read seg fromSeq (maxRecords - out.length)
          (if 0 < maxBytes then maxBytes - bytesRead else 0) with
      | (_, some e) => (out, some e)
      | (recs, none) =>
        readLoop maxRecords maxBytes rest (recs.getLast?.elim fromSeq (fun r => r.seq + 1))
          (out ++ recs) (bytesRead + (recs.map Record.encodedSize).sum)

def read (p : Partition S) (fromSeq : Nat) (maxRecords maxBytes : Int) : List Record × Option Err :=
  let maxRecords := if maxRecords ≤ 0 then 100 else maxRecords
  if p.closed then ([], some .closed)
  else
    let fromSeq := if fromSeq = 0 then p.firstSeq else fromSeq
    if fromSeq < p.firstSeq then ([], some (.seqTruncated fromSeq p.firstSeq))
    else readLoop maxRecords.toNat maxBytes p.segments fromSeq [] 0

def expired (p : Partition S) (cutoff : Int) (next : S) : Bool :=
  decide (0 < p.cfg.retentionBytes ∧ p.cfg.retentionBytes < p.byteCount) ||
    decide (0 < cutoff ∧ 0 < firstTimestamp next ∧ firstTimestamp next < cutoff)

def dropOldest (p : Partition S) (oldest next : S) (rest : List S) : Partition S :=
  { p with
    older := rest
    firstSeq := baseSeq next
    epochs := p.epochs.truncateBeforeSeq (baseSeq next)
    byteCount := p.byteCount - bytes oldest }

def retain (cutoff : Int) : List S → Partition S → Nat → Partition S × Nat
  | [], p, removed => (p, removed)
  | oldest :: rest, p, removed =>
    if p.closed then (p, removed)
    else if p.expired cutoff (rest.head?.getD p.active) then
      retain cutoff rest (p.dropOldest oldest (rest.head?.getD p.active) rest) (removed + 1)
    else (p, removed)

def enforceRetention (p : Partition S) (now : Int) : Partition S × Nat :=
  if p.cfg.retentionBytes ≤ 0 ∧ p.cfg.retentionAge ≤ 0 then (p, 0)
  else retain (if 0 < p.cfg.retentionAge then now - p.cfg.retentionAge else 0) p.older p 0

def close (p : Partition S) : Partition S := { p with closed := true }

end Partition
end Boltq.Stream
