import Boltq.Lib.Digits

namespace Boltq.Stream
open Lib List

inductive LogErr where
  | topicEmpty
  | topicTooLong
  | closed
  | topicExists (name : Bytes) (partitions : Nat) (requested : Int)
  | noPartitions (name : Bytes)
  | partitionGap (name : Bytes) (index : Nat) (found : Int)
  deriving DecidableEq, Repr

def plainByte (c : UInt8) : Bool :=
  decide (97 ≤ c ∧ c ≤ 122) || decide (65 ≤ c ∧ c ≤ 90) || decide (48 ≤ c ∧ c ≤ 57) ||
    decide (c = 46) || decide (c = 45) || decide (c = 95)

def percent : UInt8 := 37

def encodeByte (c : UInt8) : Bytes :=
  if plainByte c then [c] else [percent, hexDigit (c.toNat / 16), hexDigit (c.toNat % 16)]

def encodeTopicDir (name : Bytes) : Bytes := name.flatMap encodeByte

def decodeTopicDir : Bytes → Option Bytes
  | [] => some []
  | c :: dir =>
    if c ≠ percent then (decodeTopicDir dir).map (c :: ·)
    else
      match dir with
      | a :: b :: rest =>
        match hexVal a, hexVal b with
        | some hi, some lo => (decodeTopicDir rest).map (UInt8.ofNat (hi * 16 + lo) :: ·)
        | _, _ => none
      | _ => none

theorem decodeTopicDir_encodeByte (c : UInt8) (dir : Bytes) :
    decodeTopicDir (encodeByte c ++ dir) = (decodeTopicDir dir).map (c :: ·) := by
  unfold encodeByte
  split
  · rename_i hplain
    have hne : c ≠ percent := by
      rintro rfl
      exact absurd hplain (by decide)
    rw [singleton_append, decodeTopicDir.eq_def]
    simp only [if_pos hne]
  · have hlt := c.toNat_lt
    have hbyte : UInt8.ofNat (c.toNat / 16 * 16 + c.toNat % 16) = c := by
      rw [Nat.div_add_mod']
      exact UInt8.ofNat_toNat
    simp only [cons_append, nil_append, decodeTopicDir, ne_eq, not_true_eq_false,
      if_false, hexVal_hexDigit (by omega : c.toNat / 16 < 16),
      hexVal_hexDigit (by omega : c.toNat % 16 < 16), hbyte]

theorem decodeTopicDir_encodeTopicDir (name : Bytes) :
    decodeTopicDir (encodeTopicDir name) = some name := by
  induction name with
  | nil => rfl
  | cons c name ih =>
    change decodeTopicDir (encodeByte c ++ encodeTopicDir name) = _
    rw [decodeTopicDir_encodeByte, ih]
    rfl

theorem encodeTopicDir_inj (h : encodeTopicDir a = encodeTopicDir b) : a = b := by
  have ha := decodeTopicDir_encodeTopicDir a
  rw [h, decodeTopicDir_encodeTopicDir] at ha
  exact (Option.some.inj ha).symm

def validTopicName (name : Bytes) : Except LogErr Unit :=
  if name = [] then .error .topicEmpty
  else if (encodeTopicDir name).length > 200 then .error .topicTooLong
  else .ok ()

def parseInt32 (s : Bytes) : Option Int :=
  match s with
  | [] => none
  | c :: rest =>
    match parseDecimal (if c = 43 ∨ c = 45 then rest else s) with
    | none => none
    | some n =>
      if c = 45 then if n ≤ 2 ^ 31 then some (-n) else none
      else if n < 2 ^ 31 then some n else none

theorem parseInt32_decimal (h : n < 2 ^ 31) : parseInt32 (decimal n) = some (n : Int) := by
  obtain ⟨d, s, hd, hs⟩ := decimal_head n
  have hparse := parseDecimal_decimal n
  have hsign : hexDigit d ≠ 43 ∧ hexDigit d ≠ 45 :=
    (by decide : ∀ d < 10, hexDigit d ≠ 43 ∧ hexDigit d ≠ 45) d hd
  have hplain : ¬ (hexDigit d = 43 ∨ hexDigit d = 45) := by
    rintro (h43 | h45)
    · exact hsign.1 h43
    · exact hsign.2 h45
  rw [hs] at hparse ⊢
  simp only [parseInt32, if_neg hplain, if_neg hsign.2, hparse, if_pos h]

abbrev Path := List Bytes

abbrev Dirs := List Path

def joinPath (base : Path) (elem : Bytes) : Path :=
  if elem = [46] then base
  else if elem = [46, 46] then base.dropLast
  else base ++ [elem]

def mkdir (dirs : Dirs) (p : Path) : Dirs := if p ∈ dirs then dirs else dirs ++ [p]

def mkdirAll (dirs : Dirs) (p : Path) : Dirs := p.inits.foldl mkdir dirs

def readDir (dirs : Dirs) (p : Path) : List Bytes :=
  (dirs.filterMap (fun q => if q.dropLast = p ∧ q ≠ [] then q.getLast? else none)).insertionSort
    (fun a b => a ≤ b)

def findGap : Nat → List Int → Option (Nat × Int)
  | _, [] => none
  | i, id :: ids => if id = i then findGap (i + 1) ids else some (i, id)

def openTopicDir (dirs : Dirs) (dir : Path) (name dirName : Bytes) : Except LogErr Nat :=
  let ids := ((readDir dirs (joinPath dir dirName)).filterMap parseInt32).insertionSort
    (fun a b => a ≤ b)
  if ids = [] then .error (.noPartitions name)
  else
    match findGap 0 ids with
    | some (i, id) => .error (.partitionGap name i id)
    | none => .ok ids.length

abbrev Topic := Bytes × Nat

def setTopic (topics : List Topic) (t : Topic) : List Topic :=
  topics.filter (fun u => u.1 ≠ t.1) ++ [t]

def openTopics (dirs : Dirs) (dir : Path) : List Bytes → List Topic → Except LogErr (List Topic)
  | [], topics => .ok topics
  | d :: ds, topics =>
    match decodeTopicDir d with
    | none => openTopics dirs dir ds topics
    | some name =>
      match openTopicDir dirs dir name d with
      | .error e => .error e
      | .ok n => openTopics dirs dir ds (setTopic topics (name, n))

structure Log where
  dir : Path
  defaultPartitions : Int32
  topics : List Topic
  closed : Bool
  deriving DecidableEq

namespace Log

def openLog (dirs : Dirs) (dir : Path) (defaultPartitions : Int32) : Dirs × Except LogErr Log :=
  let dirs := mkdirAll dirs dir
  match openTopics dirs dir (readDir dirs dir) [] with
  | .error e => (dirs, .error e)
  | .ok topics => (dirs, .ok {
      dir
      defaultPartitions := if defaultPartitions ≤ 0 then 16 else defaultPartitions
      topics
      closed := false })

def find (l : Log) (name : Bytes) : Option Nat :=
  (l.topics.find? (fun t => t.1 = name)).map Prod.snd

def wanted (l : Log) (partitions : Int32) : Nat :=
  (if partitions ≤ 0 then l.defaultPartitions else partitions).toInt.toNat

def createPaths (l : Log) (name : Bytes) (n : Nat) : List Path :=
  let topicDir := joinPath l.dir (encodeTopicDir name)
  (List.range n).flatMap (fun id => [topicDir, joinPath topicDir (decimal id)])

def beforeCreate (l : Log) (name : Bytes) (partitions : Int32) : Except LogErr (Option Nat) :=
  match validTopicName name with
  | .error e => .error e
  | .ok _ =>
    if l.closed then .error .closed
    else
      match l.find name with
      | none => .ok none
      | some n =>
        if n ≠ l.wanted partitions then .error (.topicExists name n (l.wanted partitions))
        else .ok (some n)

def createTopic (l : Log) (dirs : Dirs) (name : Bytes) (partitions : Int32) :
    Log × Dirs × Except LogErr Nat :=
  match l.beforeCreate name partitions with
  | .error e => (l, dirs, .error e)
  | .ok (some n) => (l, dirs, .ok n)
  | .ok none =>
    ({ l with topics := setTopic l.topics (name, l.wanted partitions) },
      (l.createPaths name (l.wanted partitions)).foldl mkdir dirs, .ok (l.wanted partitions))

def getOrCreateTopic (l : Log) (dirs : Dirs) (name : Bytes) : Log × Dirs × Except LogErr Nat :=
  match l.find name with
  | some n => (l, dirs, .ok n)
  | none => l.createTopic dirs name l.defaultPartitions

def close (l : Log) : Log := { l with topics := [], closed := true }

end Log

theorem mem_mkdir : q ∈ mkdir dirs p ↔ q ∈ dirs ∨ q = p := by
  unfold mkdir
  split
  · rename_i hp
    exact ⟨.inl, fun h => h.elim id (fun he => he ▸ hp)⟩
  · simp

theorem nodup_mkdir {dirs : Dirs} (h : dirs.Nodup) (p : Path) : (mkdir dirs p).Nodup := by
  unfold mkdir
  split
  · exact h
  · rename_i hp
    exact nodup_append.mpr ⟨h, by simp, fun a ha b hb hab => hp (by simp_all)⟩

theorem mem_mkdirs {ps : List Path} : q ∈ ps.foldl mkdir dirs ↔ q ∈ dirs ∨ q ∈ ps := by
  induction ps generalizing dirs with
  | nil => simp
  | cons p ps ih => rw [foldl_cons, ih, mem_mkdir, mem_cons, or_assoc]

theorem nodup_mkdirs {dirs : Dirs} (h : dirs.Nodup) (ps : List Path) :
    (ps.foldl mkdir dirs).Nodup := by
  induction ps generalizing dirs with
  | nil => exact h
  | cons p ps ih => exact ih (nodup_mkdir h p)

theorem mem_mkdirAll : q ∈ mkdirAll dirs p ↔ q ∈ dirs ∨ q <+: p := by
  rw [mkdirAll, mem_mkdirs, mem_inits]

theorem mem_readDir : n ∈ readDir dirs p ↔ p ++ [n] ∈ dirs := by
  rw [readDir, mem_insertionSort, mem_filterMap]
  constructor
  · rintro ⟨q, hq, hn⟩
    split at hn
    · rename_i hp
      obtain ⟨rfl, hne⟩ := hp
      rwa [dropLast_append_getLast? n hn]
    · cases hn
  · intro h
    exact ⟨p ++ [n], h, by simp⟩

theorem nodup_readDir {dirs : Dirs} (h : dirs.Nodup) (p : Path) : (readDir dirs p).Nodup := by
  rw [readDir, (perm_insertionSort _ _).nodup_iff]
  apply h.filterMap
  intro a b n ha hb
  split at ha <;> split at hb
  · rename_i hpa hpb
    rw [← dropLast_append_getLast? n ha, ← dropLast_append_getLast? n hb, hpa.1, hpb.1]
  all_goals simp_all

theorem findGap_range (i n : Nat) :
    findGap i ((range' i n).map (fun k : Nat => (k : Int))) = none := by
  induction n generalizing i with
  | zero => rfl
  | succ n ih =>
    rw [range'_succ, map_cons, findGap, if_pos rfl]
    exact ih (i + 1)

theorem parse_decimals (hn : n ≤ 2 ^ 31) :
    ((range n).map decimal).filterMap parseInt32 = (range n).map (fun k : Nat => (k : Int)) := by
  rw [filterMap_map, ← filterMap_eq_map]
  apply filterMap_congr
  intro k hk
  have hlt := mem_range.mp hk
  exact parseInt32_decimal (by omega)

theorem openTopicDir_ok {dirs : Dirs} (hd : dirs.Nodup) (name : Bytes) (hpos : 0 < n)
    (hn : n ≤ 2 ^ 31) (h : ∀ c, joinPath dir dirName ++ [c] ∈ dirs ↔ ∃ i < n, c = decimal i) :
    openTopicDir dirs dir name dirName = .ok n := by
  have hperm : (readDir dirs (joinPath dir dirName)).Perm ((range n).map decimal) := by
    apply (perm_ext_iff_of_nodup (nodup_readDir hd _)
      (nodup_range.map (fun a b hab => decimal_inj hab))).mpr
    intro c
    rw [mem_readDir, h, mem_map]
    simp [eq_comm]
  have hsorted : ((range n).map (fun k : Nat => (k : Int))).Pairwise (fun a b => a ≤ b) :=
    pairwise_map.mpr (pairwise_le_range.imp Int.ofNat_le.mpr)
  have hids : ((readDir dirs (joinPath dir dirName)).filterMap parseInt32).insertionSort
      (fun a b => a ≤ b) = (range n).map (fun k : Nat => (k : Int)) := by
    apply List.Perm.eq_of_pairwise' (pairwise_insertionSort _ _) hsorted
    exact (perm_insertionSort _ _).trans (parse_decimals hn ▸ hperm.filterMap parseInt32)
  unfold openTopicDir
  simp only [hids]
  rw [if_neg (by simpa using Nat.ne_of_gt hpos), range_eq_range', findGap_range]
  simp

end Boltq.Stream
