import Boltq.Stream.Refinement
import Boltq.Stream.Topics

namespace Boltq.Stream
open Lib SegmentStore LawfulSegmentStore List

def Partition.readFrom {S : Type} [SegmentStore S] (p : Partition S) (fromSeq : Nat)
    (maxRecords : Int) : List Record × Option Err :=
  p.read fromSeq maxRecords (4 * 2 ^ 20)

structure KeyScan where
  recs : List Record
  next : Nat
  scanned : Nat

def KeyScan.examine (key : Bytes) (limit : Nat) : List Record → KeyScan → KeyScan
  | [], s => s
  | r :: batch, s =>
    if r.key = key then
      if (s.recs ++ [r]).length = limit then ⟨s.recs ++ [r], r.seq + 1, s.scanned + 1⟩
      else examine key limit batch ⟨s.recs ++ [r], r.seq + 1, s.scanned + 1⟩
    else examine key limit batch ⟨s.recs, r.seq + 1, s.scanned + 1⟩

def Partition.scanForKey {S : Type} [SegmentStore S] (p : Partition S) (key : Bytes)
    (limit scanLimit : Nat) : Nat → KeyScan → KeyScan × Option Err
  | 0, s => (s, none)
  | turns+1, s =>
    if s.recs.length < limit ∧ s.scanned < scanLimit then
      match p.readFrom s.next (min (scanLimit - s.scanned) 512 : Nat) with
      | (_, some e) => (s, some e)
      | ([], none) => (s, none)
      | (r :: batch, none) => p.scanForKey key limit scanLimit turns (s.examine key limit (r :: batch))
    else (s, none)

structure KeyPage where
  recs : List Record
  pid : Nat
  nextSeq : Nat
  err : Option TopicErr
  scanned : Nat
  deriving DecidableEq

namespace TopicLog
variable {S : Type} [SegmentStore S]

def readKeyOnly (l : TopicLog S) (topic : String) (key : Bytes) (fromSeq : Nat)
    (limit scanLimit : Int) : KeyPage :=
  if limit ≤ 0 then ⟨[], 0, fromSeq, none, 0⟩
  else
    let scanLimit := if scanLimit ≤ 0 then 4096 else scanLimit
    match l.topics[topic]? with
    | none => ⟨[], 0, fromSeq, some (.noSuchTopic topic), 0⟩
    | some ps =>
      let pid := partitionForKey ps.length key
      match ps[pid]? with
      | none => ⟨[], 0, fromSeq, some (.noSuchPartition topic pid), 0⟩
      | some p =>
        match p.scanForKey key limit.toNat scanLimit.toNat scanLimit.toNat ⟨[], fromSeq, 0⟩ with
        | (s, some e) => ⟨s.recs, pid, s.next, some (.partition e), s.scanned⟩
        | (s, none) => ⟨s.recs, pid, s.next, none, s.scanned⟩

def keyPages (l : TopicLog S) (topic : String) (key : Bytes) (limit scanLimit : Int) :
    Nat → Nat → Option (List KeyPage)
  | 0, _ => none
  | calls+1, fromSeq =>
    let page := l.readKeyOnly topic key fromSeq limit scanLimit
    if page.nextSeq = fromSeq then some [page]
    else (l.keyPages topic key limit scanLimit calls page.nextSeq).map (page :: ·)

theorem keyPages_last {l : TopicLog S} (calls : Nat)
    (h : (l.readKeyOnly topic key n limit scanLimit).nextSeq = n) :
    l.keyPages topic key limit scanLimit (calls + 1) n =
      some [l.readKeyOnly topic key n limit scanLimit] :=
  if_pos h

end TopicLog

def Partition.position (p : Partition S) (fromSeq : Nat) : Nat :=
  if fromSeq = 0 then p.firstSeq else fromSeq

def Partition.Retains (p : Partition S) (fromSeq : Nat) : Prop :=
  fromSeq = 0 ∨ p.firstSeq ≤ fromSeq

theorem Partition.Retains.le {p : Partition S} (h : p.Retains n) : p.firstSeq ≤ p.position n := by
  unfold position
  rcases h with rfl | h
  · exact Nat.le_refl _
  · split <;> omega

section Scanning
variable {S : Type} [LawfulSegmentStore S] {p : Partition S} {key : Bytes}

def Partition.ahead (p : Partition S) (fromSeq : Nat) : List Record :=
  p.records.drop (p.position fromSeq - p.firstSeq)

theorem Partition.ahead_eq_filter (hw : p.WellFormed) :
    p.ahead n = p.records.filter (fun r => decide (n ≤ r.seq)) := by
  rw [ahead, hw.dense.filter_ge, position]
  split
  · simp_all
  · rfl

structure Scanned (p : Partition S) (key : Bytes) (fromSeq : Nat) (s : KeyScan) : Prop where
  next : p.position s.next = p.position fromSeq + s.scanned
  start : s.scanned = 0 → s.next = fromSeq
  within : s.scanned ≤ (p.ahead fromSeq).length
  found : s.recs = ((p.ahead fromSeq).take s.scanned).filter (fun r => decide (r.key = key))

section
variable (h : Scanned p key n s)
include h

theorem Scanned.ahead (hn : p.Retains n) :
    p.ahead s.next = (p.ahead n).drop s.scanned := by
  have hle := hn.le
  rw [Partition.ahead, Partition.ahead, h.next, drop_drop]
  congr 1
  omega

theorem Scanned.retains (hn : p.Retains n) : p.Retains s.next := by
  have hle := hn.le
  have hnext := h.next
  unfold Partition.position at hnext hle
  unfold Partition.Retains
  by_cases h0 : s.next = 0
  · exact .inl h0
  · rw [if_neg h0] at hnext
    omega

theorem Scanned.step (hw : p.WellFormed) (hn : p.Retains n)
    (hr : p.ahead s.next = r :: rest) : Scanned p key n
      ⟨s.recs ++ [r].filter (fun r => decide (r.key = key)), r.seq + 1, s.scanned + 1⟩ ∧
    p.ahead (r.seq + 1) = rest := by
  have hle := (h.retains hn).le
  have hget : p.records[p.position s.next - p.firstSeq]? = some r := by
    have h0 := congrArg head? hr
    rwa [Partition.ahead, head?_drop] at h0
  have hseq := hw.dense _ r hget
  have hnext := h.next
  have htake : (p.ahead n).take (s.scanned + 1) = (p.ahead n).take s.scanned ++ [r] := by
    rw [take_add, ← h.ahead hn, hr]
    rfl
  refine ⟨⟨?_, by simp, ?_, ?_⟩, ?_⟩
  · change p.position (r.seq + 1) = _
    rw [Partition.position, if_neg (by omega)]
    dsimp only
    omega
  · have hlen := congrArg length (h.ahead hn)
    rw [hr, length_drop, length_cons] at hlen
    change s.scanned + 1 ≤ _
    omega
  · change s.recs ++ _ = _
    rw [htake, filter_append, h.found]
  · have htail : rest = (p.ahead s.next).tail := by rw [hr, tail_cons]
    rw [htail, Partition.ahead, Partition.ahead, tail_drop, Partition.position,
      if_neg (by omega)]
    congr 1
    omega

end

theorem KeyScan.examine_scanned (limit : Nat) (h : Scanned p key n s) (hw : p.WellFormed)
    (hn : p.Retains n) (hb : batch <+: p.ahead s.next) :
    Scanned p key n (s.examine key limit batch) ∧ s.scanned ≤ (s.examine key limit batch).scanned ∧
      (batch ≠ [] → s.scanned < (s.examine key limit batch).scanned) ∧
      (s.examine key limit batch).scanned ≤ s.scanned + batch.length := by
  induction batch generalizing s with
  | nil => exact ⟨h, Nat.le_refl _, by simp, Nat.le_refl _⟩
  | cons r batch ih =>
    obtain ⟨rest, hrest⟩ := hb
    obtain ⟨hs, hnext⟩ := h.step hw hn hrest.symm
    have hb : batch <+: p.ahead (r.seq + 1) := ⟨rest, hnext.symm⟩
    unfold examine
    by_cases hk : r.key = key
    · rw [filter_cons_of_pos (by simpa using hk), filter_nil] at hs
      rw [if_pos hk]
      split
      · exact ⟨hs, Nat.le_succ _, fun _ => Nat.lt_succ_self _, by simp⟩
      · obtain ⟨h1, h2, _, h4⟩ := ih hs hb
        refine ⟨h1, ?_, ?_, ?_⟩ <;> simp only [length_cons] at * <;> omega
    · rw [filter_cons_of_neg (by simpa using hk), filter_nil, append_nil] at hs
      rw [if_neg hk]
      obtain ⟨h1, h2, _, h4⟩ := ih hs hb
      refine ⟨h1, ?_, ?_, ?_⟩ <;> simp only [length_cons] at * <;> omega

theorem Partition.Open.readFrom (h : p.Open) (hn : p.Retains n) (most : Nat) (hm : 0 < most) :
    ∃ batch, p.readFrom n most = (batch, none) ∧ batch <+: p.ahead n ∧ batch.length ≤ most ∧
      (batch = [] → p.ahead n = []) := by
  have hread : p.readFrom n most = p.read (p.position n) most (4 * 2 ^ 20) := by
    unfold Partition.readFrom Partition.read Partition.position
    by_cases h0 : n = 0
    · have hpos := h.wf.first_pos
      simp only [h0, if_true]
      rw [if_neg (by omega : p.firstSeq ≠ 0)]
    · simp only [h0, if_false]
  obtain ⟨batch, hb, hserved⟩ := h.read hn.le (most : Int) (4 * 2 ^ 20)
  rw [if_neg (by omega), Int.toNat_natCast] at hserved
  refine ⟨batch, hread.trans hb, hserved.run, hserved.most, ?_⟩
  intro hnil
  by_contra hne
  exact hserved.some hm (by omega) hne hnil

theorem Partition.Open.scanForKey (h : p.Open) (limit : Nat) (hn : p.Retains n) (turns : Nat)
    (hs : Scanned p key n s) (hle : s.scanned ≤ scanLimit) :
    ∃ t, p.scanForKey key limit scanLimit turns s = (t, none) ∧ Scanned p key n t ∧
      s.scanned ≤ t.scanned ∧ t.scanned ≤ scanLimit ∧
      (0 < turns → s.recs.length < limit → s.scanned < scanLimit → t.scanned = s.scanned →
        p.ahead s.next = []) := by
  induction turns generalizing s with
  | zero => exact ⟨s, rfl, hs, Nat.le_refl _, hle, by simp⟩
  | succ turns ih =>
    unfold Partition.scanForKey
    by_cases hgo : s.recs.length < limit ∧ s.scanned < scanLimit
    · rw [if_pos hgo]
      obtain ⟨batch, hread, hpre, hmost, hend⟩ := h.readFrom (hs.retains hn)
        (min (scanLimit - s.scanned) 512) (by omega)
      rw [hread]
      cases batch with
      | nil => exact ⟨s, rfl, hs, Nat.le_refl _, hle, fun _ _ _ _ => hend rfl⟩
      | cons r batch =>
        obtain ⟨hex, _, hmore, hbound⟩ := KeyScan.examine_scanned limit hs h.wf hn hpre
        have hmore := hmore (by simp)
        obtain ⟨t, ht, hst, hge, hlt, _⟩ := ih hex (by omega)
        exact ⟨t, ht, hst, by omega, hlt, by omega⟩
    · rw [if_neg hgo]
      exact ⟨s, rfl, hs, Nat.le_refl _, hle, fun _ h1 h2 => absurd ⟨h1, h2⟩ hgo⟩

variable {l : TopicLog S} {topic : String} {ps : List (Partition S)}

theorem TopicLog.readKeyOnly_scanned (h : p.Open) (ht : l.topics[topic]? = some ps)
    (hp : ps[partitionForKey ps.length key]? = some p) (hn : p.Retains n) (hl : 1 ≤ limit)
    (hs : 1 ≤ scanLimit) : ∃ t, l.readKeyOnly topic key n limit scanLimit =
        ⟨t.recs, partitionForKey ps.length key, t.next, none, t.scanned⟩ ∧
      Scanned p key n t ∧ t.scanned ≤ scanLimit.toNat ∧ (t.scanned = 0 → p.ahead n = []) := by
  have h0 : Scanned p key n ⟨[], n, 0⟩ := ⟨rfl, fun _ => rfl, Nat.zero_le _, by simp⟩
  obtain ⟨t, hscan, hst, _, hle, hend⟩ := h.scanForKey limit.toNat hn scanLimit.toNat h0
    (Nat.zero_le scanLimit.toNat)
  refine ⟨t, ?_, hst, hle, hend (by omega) ?_ (by dsimp only; omega)⟩
  · unfold readKeyOnly
    rw [if_neg (by omega), if_neg (by omega), ht]
    simp only [hp, hscan]
  · change 0 < limit.toNat
    omega

theorem Scanned.moves (h : Scanned p key n s) (hs : 0 < s.scanned) : s.next ≠ n := by
  have hnext := h.next
  intro he
  rw [he] at hnext
  omega

theorem TopicLog.keyPages_ahead (h : p.Open) (ht : l.topics[topic]? = some ps)
    (hp : ps[partitionForKey ps.length key]? = some p) (hl : 1 ≤ limit) (hs : 1 ≤ scanLimit)
    (calls : Nat) (hn : p.Retains n) (hleft : (p.ahead n).length < calls) :
    ∃ pages, l.keyPages topic key limit scanLimit calls n = some pages ∧
      pages.flatMap KeyPage.recs = (p.ahead n).filter (fun r => decide (r.key = key)) ∧
      ∀ page ∈ pages, page.err = none ∧ page.pid = partitionForKey ps.length key ∧
        page.scanned ≤ scanLimit := by
  induction calls generalizing n with
  | zero => exact absurd hleft (Nat.not_lt_zero _)
  | succ calls ih =>
    obtain ⟨t, hpage, hst, hle, hend⟩ := readKeyOnly_scanned h ht hp hn hl hs
    have hfirst : (t.scanned : Int) ≤ scanLimit := by omega
    by_cases h0 : t.scanned = 0
    · refine ⟨_, keyPages_last calls (by rw [hpage]; exact hst.start h0), ?_, ?_⟩
      · simp [hpage, hst.found, h0, hend h0]
      · simp only [hpage, mem_singleton, forall_eq, true_and]
        exact hfirst
    · have hahead := hst.ahead hn
      have hlen : (p.ahead t.next).length < calls := by
        have := hst.within
        rw [hahead, length_drop]
        omega
      obtain ⟨pages, hpages, hrecs, hall⟩ := ih (hst.retains hn) hlen
      refine ⟨l.readKeyOnly topic key n limit scanLimit :: pages, ?_, ?_, ?_⟩
      · rw [keyPages, hpage]
        rw [if_neg (hst.moves (by omega)), hpages, Option.map_some]
      · rw [flatMap_cons, hrecs, hahead, hpage, hst.found, ← filter_append,
          take_append_drop]
      intro page hmem
      rcases mem_cons.mp hmem with rfl | hmem
      · rw [hpage]
        exact ⟨rfl, rfl, hfirst⟩
      · exact hall page hmem

end Scanning

section Paging
variable {S : Type} [LawfulSegmentStore S] {p₀ p : Partition S}

/-- Asking for a key page after page, each from where the last one stopped, ends
and gives every record of the key from the start on, once and in order. -/
theorem keyed_pages_are_exact {topic name : String} {id : Int} {cfg : PartitionConfig}
    {ops : List Op} {l : TopicLog S} {ps : List (Partition S)} {key : Bytes} {fromSeq : Nat}
    {limit scanLimit : Int} (ho : Partition.openPartition topic id ⟨[], []⟩ cfg = .ok p₀)
    (hr : Run Partition.Succeeds Partition.Storable p₀ ops p) (ht : l.topics[name]? = some ps)
    (hp : ps[partitionForKey ps.length key]? = some p)
    (hf : fromSeq = 0 ∨ p.firstSeq ≤ fromSeq) (hl : 1 ≤ limit) (hs : 1 ≤ scanLimit) :
    ∃ calls pages, l.keyPages name key limit scanLimit calls fromSeq = some pages ∧
      pages.flatMap KeyPage.recs =
        p.records.filter (fun r => decide (fromSeq ≤ r.seq ∧ r.key = key)) ∧
      (pages.flatMap KeyPage.recs).Pairwise (fun a b => a.seq < b.seq) ∧
      ∀ page ∈ pages, page.err = none ∧ page.pid = partitionForKey ps.length key ∧
        page.scanned ≤ scanLimit := by
  have hopen : p.Open := hr.invariant Partition.Open (Partition.Open.fresh topic id cfg ho).1
    (fun _ _ _ h hst hs => (h.refines hst hs).1)
  obtain ⟨pages, hpages, hrecs, hall⟩ := TopicLog.keyPages_ahead hopen ht hp hl hs _ hf
    (Nat.lt_succ_self _)
  have hexact : pages.flatMap KeyPage.recs =
      p.records.filter (fun r => decide (fromSeq ≤ r.seq ∧ r.key = key)) := by
    rw [hrecs, Partition.ahead_eq_filter hopen.wf, filter_filter]
    apply filter_congr
    intro r _
    simp [Bool.decide_and, Bool.and_comm]
  refine ⟨_, pages, hpages, hexact, ?_, hall⟩
  rw [hexact]
  exact hopen.wf.dense.increasing.filter _

end Paging

def twoKeys : List Op :=
  [.append { Record.ofPayload [1] with key := [7] } 5, .append { Record.ofPayload [2] with key := [8] } 6,
    .append { Record.ofPayload [3] with key := [7] } 7]

theorem keyed_pages_of_two_keys : ∃ p : Partition FileSegment,
      Run Partition.Succeeds Partition.Storable Partition.freshFiles twoKeys p ∧
      ∃ calls pages, (oneTopic p).keyPages "chat" [7] 1 2 calls 0 = some pages ∧
        (pages.flatMap KeyPage.recs).map Record.seq = [1, 3] := by
  obtain ⟨p, hrun, hrecs⟩ := Run.executed Partition.Storable Partition.exec Partition.freshFiles
    twoKeys
    (fun p : Partition FileSegment =>
      (p.records.filter (fun r => decide (0 ≤ r.seq ∧ r.key = [7]))).map Record.seq = [1, 3])
    (by decide +kernel)
  have hkey : [p][partitionForKey [p].length [7]]? = some p := rfl
  obtain ⟨calls, pages, hpages, hexact, _⟩ := keyed_pages_are_exact
    (Partition.open_fresh "chat" 0 Partition.smallSegments) hrun (oneTopic_topics p) hkey (.inl rfl)
    (by decide : (1 : Int) ≤ 1) (by decide : (1 : Int) ≤ 2)
  exact ⟨p, hrun, calls, pages, hpages, by rw [hexact]; exact hrecs⟩

/-- A record with a header value that is too long is in the log, and a read for
its key fails before it and never gets past it. -/
theorem keyed_read_stops_at_long_header : ∃ p : Partition FileSegment,
      Run Partition.Succeeds always Partition.freshFiles [.append Partition.longHeader 1] p ∧
      p.firstSeq ≤ 1 ∧ 1 < p.nextSeq ∧ Partition.longHeader.key = [] ∧
      (oneTopic p).readKeyOnly "chat" [] 1 1 1 =
        ⟨[], 0, 1, some (.partition .corruptRecord), 0⟩ := by
  obtain ⟨p, hp, hf, hn, hread⟩ := Partition.append_longHeader
  refine ⟨p, .snoc [] _ _ _ .nil trivial hp, by omega, by omega, rfl, ?_⟩
  have hscan : p.scanForKey [] 1 1 1 ⟨[], 1, 0⟩ = (⟨[], 1, 0⟩, some .corruptRecord) := by
    have hbatch : p.readFrom 1 (min (1 - 0) 512 : Nat) = ([], some .corruptRecord) := hread _
    simp only [Partition.scanForKey, length_nil, Nat.zero_lt_one, and_self, if_true, hbatch]
  unfold TopicLog.readKeyOnly
  rw [if_neg (by decide), oneTopic_topics]
  simp only [partitionForKey, true_or, if_true, getElem?_cons_zero]
  rw [if_neg (by decide)]
  rw [show (1 : Int).toNat = 1 from rfl, hscan]

end Boltq.Stream
