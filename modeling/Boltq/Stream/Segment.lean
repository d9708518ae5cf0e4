import Boltq.Lib.Search
import Boltq.Stream.Store

namespace Boltq.Stream
open Lib

structure IndexEntry where
  seq : Nat
  pos : Int
  deriving DecidableEq, Repr

def indexEntrySize : Nat := 16

def encodeIndexEntry (e : IndexEntry) : Bytes := le 8 e.seq ++ le 8 (wordOfInt e.pos)

def nextIndexEntry (data : Bytes) : Option (IndexEntry × Bytes) :=
  if data.length < indexEntrySize then none
  else some (⟨unle (data.take 8), intOfWord (unle ((data.drop 8).take 8))⟩,
    data.drop indexEntrySize)

def loadIndex (data : Bytes) : List IndexEntry := (scan nextIndexEntry data.length data).1

structure FileSegment where
  baseSeq : Nat
  readOnly : Bool
  log : Bytes
  idx : Bytes
  index : List IndexEntry
  size : Int
  lastSeq : Nat
  sinceIdx : Int
  indexInterval : Int
  deriving DecidableEq

def nextIntact (bs : Bytes) : Option (Bytes × Bytes) :=
  match readFrame recordBodyHeaderSize maxRecordSize bs with
  | .body sum body rest => if crc32 body = sum then some (body, rest) else none
  | _ => none

def fileSection (file : Bytes) (start limit : Int) : Bytes :=
  if start < 0 then [] else (file.drop start.toNat).take (limit - start).toNat

def prevSeq (seq : Nat) : Nat := if seq = 0 then 2 ^ 64 - 1 else seq - 1

theorem prevSeq_succ (hpos : 0 < seq) : prevSeq seq + 1 = seq := by
  rw [prevSeq, if_neg (Nat.ne_of_gt hpos), Nat.sub_add_cancel hpos]

namespace FileSegment

def createSegment (baseSeq : Nat) (indexInterval : Int) : FileSegment where
  baseSeq := baseSeq
  readOnly := false
  log := []
  idx := []
  index := []
  size := 0
  lastSeq := baseSeq - 1
  sinceIdx := 0
  indexInterval := indexInterval

section
variable (s : FileSegment)

def recover : Except Err FileSegment :=
  let fileSize : Int := s.log.length
  let index := s.index.rdropWhile (fun e => decide (fileSize ≤ e.pos))
  let pos := index.getLast?.elim 0 IndexEntry.pos
  let lastSeq := index.getLast?.elim s.lastSeq (fun e => prevSeq e.seq)
  let tail := fileSection s.log pos fileSize
  let bodies := (scan nextIntact tail.length tail).1
  let size := pos + (bodies.map (fun b => recordFrameHeaderSize + b.length)).sum
  let t := { s with index, size, lastSeq := bodies.getLast?.elim lastSeq bodySeq }
  if size = fileSize ∨ s.readOnly then .ok t
  else if size < 0 then .error (.truncateTorn size)
  else .ok { t with log := s.log.take size.toNat }

def load (files : FileSegment) (indexInterval : Int) (readOnly : Bool) : FileSegment :=
  { files with
    readOnly
    index := loadIndex files.idx
    size := 0
    lastSeq := files.baseSeq - 1
    sinceIdx := 0
    indexInterval }

def openSegment (files : FileSegment) (indexInterval : Int) (readOnly : Bool) :
    Except Err FileSegment :=
  (files.load indexInterval readOnly).recover

def noteIndex (seq : Nat) : FileSegment :=
  if s.indexInterval ≤ s.sinceIdx ∨ s.index = [] then
    { s with
      idx := s.idx ++ encodeIndexEntry ⟨seq, s.size⟩
      index := s.index ++ [⟨seq, s.size⟩]
      sinceIdx := 0 }
  else s

def append (encoded : Bytes) (seq : Nat) : Except Err FileSegment :=
  if s.readOnly then .error (.appendReadOnly s.baseSeq)
  else
    let t := s.noteIndex seq
    .ok { t with
      log := t.log ++ encoded
      size := t.size + encoded.length
      sinceIdx := t.sinceIdx + encoded.length
      lastSeq := seq }

def seekPos (seq : Nat) : Int :=
  let i := searchList s.index (fun e => decide (seq < e.seq))
  if i = 0 then 0 else (s.index[i - 1]?).elim 0 IndexEntry.pos

def readLoop (fromSeq : Nat) (maxBytes : Int) :
    Nat → Nat → Bytes → Int → List Record → List Record × Option Err
  | _, 0, _, _, out => (out, none)
  | 0, _, _, _, out => (out, none)
  | fuel+1, max+1, bs, bytesRead, out =>
    match readFrame recordBodyHeaderSize maxRecordSize bs with
    | .eof => (out, none)
    | .badLength => (out, some .corruptRecord)
    | .shortBody => (out, none)
    | .body sum body rest =>
      if crc32 body ≠ sum then (out, some .corruptRecord)
      else if bodySeq body < fromSeq then readLoop fromSeq maxBytes fuel (max+1) rest bytesRead out
      else
        match decodeRecordBody body with
        | .error e => (out, some e)
        | .ok r =>
          if 0 < maxBytes ∧ maxBytes ≤ bytesRead + body.length then (out ++ [r], none)
          else readLoop fromSeq maxBytes fuel max rest (bytesRead + body.length) (out ++ [r])

def read (fromSeq maxRecords : Nat) (maxBytes : Int) : List Record × Option Err :=
  let start := s.seekPos fromSeq
  if s.size ≤ start then ([], none)
  else
    let bs := fileSection s.log start s.size
    readLoop fromSeq maxBytes bs.length maxRecords bs 0 []

def scanLoop (seq : Nat) (size : Int) : Nat → Bytes → Int → Except Err Int
  | 0, _, _ => .ok size
  | fuel+1, bs, pos =>
    if size ≤ pos then .ok size
    else
      match readFrame recordBodyHeaderSize maxRecordSize bs with
      | .eof => .ok size
      | .badLength => .error .corruptRecord
      | .shortBody => .ok size
      | .body _ body rest =>
        if seq ≤ bodySeq body then .ok pos
        else scanLoop seq size fuel rest (pos + recordFrameHeaderSize + body.length)

def scanForOffset (seq : Nat) : Except Err Int :=
  let pos := s.seekPos seq
  let bs := fileSection s.log pos s.size
  scanLoop seq s.size (bs.length + 1) bs pos

def truncateTo (seq : Nat) : Except Err FileSegment :=
  if s.readOnly then .error (.truncateReadOnly s.baseSeq)
  else if s.lastSeq < seq then .ok s
  else
    match s.scanForOffset seq with
    | .error e => .error e
    | .ok pos =>
      if s.size ≤ pos then .ok s
      else
        let index := s.index.take (searchList s.index (fun e => decide (seq ≤ e.seq)))
        .ok { s with
          log := s.log.take pos.toNat
          idx := stored encodeIndexEntry index
          index
          size := pos
          lastSeq := seq - 1
          sinceIdx := 0 }

def reopenWritable : FileSegment := { s with readOnly := false }

end

instance : SegmentStore FileSegment where
  createSegment := createSegment
  openSegment := openSegment
  baseSeq := FileSegment.baseSeq
  lastSequence := FileSegment.lastSeq
  bytes := FileSegment.size
  append s rec encoded := s.append encoded rec.seq
  read := read
  truncateTo := truncateTo
  reopenWritable := reopenWritable

end FileSegment
end Boltq.Stream
