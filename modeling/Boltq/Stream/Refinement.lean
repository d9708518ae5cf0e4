import Boltq.Lib.Run
import Boltq.Stream.Steps
import Boltq.Stream.FileStore

namespace Boltq.Stream
open Lib SegmentStore LawfulSegmentStore List

structure SeqLog where
  first : Nat
  records : List Record

namespace SeqLog

def empty : SeqLog := ⟨1, []⟩

def next (l : SeqLog) : Nat := l.first + l.records.length

def push (l : SeqLog) (rs : List Record) : SeqLog := { l with records := l.records ++ rs }

def cut (l : SeqLog) (seq : Nat) : SeqLog := { l with records := l.records.take (seq - l.first) }

def drop (l : SeqLog) (n : Nat) : SeqLog := ⟨l.first + n, l.records.drop n⟩

inductive Step (l : SeqLog) : Op → SeqLog → Prop where
  | append (rec : Record) (now : Int) (epoch : Nat) :
      Step l (.append rec now) (l.push [(stampAs l.next epoch now rec).canonical])
  | appendBatch (recs : List Record) (now : Int) (epoch : Nat) :
      Step l (.appendBatch recs now) (l.push ((stampAll epoch now l.next recs).map Record.canonical))
  | appendReplicated (rec : Record) (next : rec.seq = l.next) :
      Step l (.appendReplicated rec) (l.push [rec.canonical])
  | duplicate (rec : Record) (held : rec.seq < l.next) : Step l (.appendReplicated rec) l
  | truncateTo (seq : Nat) (above : l.first < seq) (below : seq < l.next) :
      Step l (.truncateTo seq) (l.cut seq)
  | truncateNothing (seq : Nat) (above : l.next ≤ seq) : Step l (.truncateTo seq) l
  | enforceRetention (now : Int) (n : Nat) (held : n ≤ l.records.length) :
      Step l (.enforceRetention now) (l.drop n)
  | becomeLeader (epoch : Nat) : Step l (.becomeLeader epoch) l
  | reassertLeadership (epoch : Nat) : Step l (.reassertLeadership epoch) l
  | resign : Step l .resign l
  | enforceLeadership (on : Bool) : Step l (.enforceLeadership on) l
  | reopen (cfg : PartitionConfig) : Step l (.reopen cfg) l

end SeqLog

namespace Partition
variable {S : Type} [LawfulSegmentStore S] {p q : Partition S}

def log (p : Partition S) : SeqLog := ⟨p.firstSeq, p.records⟩

structure Open (p : Partition S) : Prop where
  wf : p.WellFormed
  closed : p.closed = false

theorem Open.next (h : p.Open) : p.nextSeq = p.log.next := h.wf.next_eq

theorem Open.relabel (h : p.Open) (epochs : LeaderEpochCache) (epoch : Nat) (on lead : Bool) :
    { p with epochs, curEpoch := epoch, enforceLeadership := on, isLeader := lead :
      Partition S }.Open :=
  ⟨⟨h.wf.covers, h.wf.writable, h.wf.filled, h.wf.count⟩, h.closed⟩

theorem Extended.open (h : Extended p q rs) (hp : p.closed = false) : q.Open :=
  ⟨h.wf, h.closed.trans hp⟩

theorem Extended.log (h : Extended p q rs) : q.log = p.log.push rs := by
  unfold Partition.log SeqLog.push
  rw [h.firstSeq, h.records]

theorem Cut.log (h : Cut p q seq) : q.log = p.log.cut seq := by
  have hfirst : q.firstSeq = p.firstSeq := by rw [h.same]
  unfold Partition.log SeqLog.cut
  rw [hfirst, h.records]

theorem noteEpoch_log {rec : Record} {m : Partition S} (h : p.Open) (hm : p.noteEpoch rec = .ok m) :
    m.closed = false ∧ m.log = p.log := by
  rcases noteEpoch_effect hm with ⟨_, rfl⟩ | ⟨epochs, _, _, rfl⟩
  · exact ⟨h.closed, rfl⟩
  · exact ⟨h.closed, rfl⟩

theorem reopen_open (cfg : PartitionConfig) (h : p.Open) (hs : p.Succeeds (.reopen cfg) q) :
    q.Open ∧ q.log = p.log := by
  obtain ⟨m, hm, hw, hr, hf, _, _, _, hcl⟩ := reopen_effect cfg h.wf
  have hq : openPartition p.topic p.id p.close.disk cfg = .ok q := toOption_some.mp hs
  rw [hm] at hq
  cases hq
  refine ⟨⟨hw, hcl⟩, ?_⟩
  unfold Partition.log
  rw [hr, hf]

theorem Open.refines (h : p.Open) (hst : p.Storable op) (hs : p.Succeeds op q) :
    q.Open ∧ p.log.Step op q.log := by
  cases op with
  | append rec now =>
    obtain ⟨b, hb⟩ := okState_some.mp hs
    rcases append_cases h.wf hst with ⟨e, hq⟩ | ⟨m, hq, hext⟩
    · rw [hq] at hb
      cases hb
    rw [hq] at hb
    cases hb
    refine ⟨hext.open h.closed, ?_⟩
    rw [hext.log, stamp, h.next]
    exact .append rec now p.curEpoch
  | appendBatch recs now =>
    obtain ⟨b, hb⟩ := okState_some.mp hs
    obtain ⟨rs, hext, _, hall⟩ := appendBatch_cases h.wf hst
    rw [hb] at hext hall
    refine ⟨hext.open h.closed, ?_⟩
    rw [hext.log, hall b rfl, h.next]
    exact .appendBatch recs now p.curEpoch
  | appendReplicated rec =>
    obtain ⟨b, hb⟩ := okState_some.mp hs
    rcases appendReplicated_cases h.wf hst with ⟨e, hq⟩ | ⟨hlt, hq⟩ | ⟨m, hseq, hm, hres⟩
    · rw [hq] at hb
      cases hb
    · rw [hq] at hb
      cases hb
      exact ⟨h, .duplicate rec (h.next ▸ hlt)⟩
    · obtain ⟨hcl, hlog⟩ := noteEpoch_log h hm
      rcases hres with ⟨e, hq⟩ | ⟨t, hq, hext⟩
      · rw [hq] at hb
        cases hb
      rw [hq] at hb
      cases hb
      refine ⟨hext.open hcl, ?_⟩
      rw [hext.log, hlog]
      exact .appendReplicated rec (h.next ▸ hseq)
  | becomeLeader epoch =>
    obtain ⟨b, hb⟩ := okState_some.mp hs
    rcases becomeLeader_cases p epoch with ⟨e, hq⟩ | ⟨epochs, _, _, hq⟩
    · rw [hq] at hb
      cases hb
    · rw [hq] at hb
      cases hb
      exact ⟨h.relabel epochs epoch p.enforceLeadership true, .becomeLeader epoch⟩
  | reassertLeadership epoch =>
    obtain ⟨b, hb⟩ := okState_some.mp hs
    rcases reassertLeadership_cases p epoch with ⟨e, hq⟩ | ⟨_, hq⟩
    · rw [hq] at hb
      cases hb
    · rw [hq] at hb
      cases hb
      exact ⟨h.relabel p.epochs p.curEpoch p.enforceLeadership true, .reassertLeadership epoch⟩
  | resign =>
    cases Option.some.inj hs
    exact ⟨h.relabel p.epochs p.curEpoch p.enforceLeadership false, .resign⟩
  | enforceLeadership on =>
    cases Option.some.inj hs
    exact ⟨h.relabel p.epochs p.curEpoch on p.isLeader, .enforceLeadership on⟩
  | truncateTo seq =>
    obtain ⟨b, hb⟩ := okState_some.mp hs
    rcases truncateTo_cases seq h.wf with ⟨e, hq⟩ | ⟨hle, hq⟩ | ⟨m, hq, hcut⟩
    · rw [hq] at hb
      cases hb
    · rw [hq] at hb
      cases hb
      exact ⟨h, .truncateNothing seq (h.next ▸ hle)⟩
    · rw [hq] at hb
      cases hb
      have hcl : q.closed = false := by
        rw [hcut.same]
        exact h.closed
      rw [hcut.log]
      exact ⟨⟨hcut.wf, hcl⟩, .truncateTo seq hcut.above (h.next ▸ hcut.below)⟩
  | enforceRetention now =>
    cases Option.some.inj hs
    obtain ⟨hw, dropped, hr, hf, _, _, hcl⟩ := enforceRetention_effect now h.wf
    have hlog : (p.enforceRetention now).1.log = p.log.drop dropped.length := by
      unfold Partition.log SeqLog.drop
      simp only [hf, hr, drop_left]
    rw [hlog]
    refine ⟨⟨hw, hcl.trans h.closed⟩, .enforceRetention now dropped.length ?_⟩
    unfold Partition.log
    rw [hr, length_append]
    exact Nat.le_add_right _ _
  | reopen cfg =>
    obtain ⟨ho, hlog⟩ := reopen_open cfg h hs
    rw [hlog]
    exact ⟨ho, .reopen cfg⟩

structure Served (maxBytes spent : Int) (room : Nat) (avail taken : List Record) : Prop where
  run : taken <+: avail
  most : taken.length ≤ room
  stop : taken.length = room ∨ taken = avail ∨
    0 < maxBytes ∧ maxBytes ≤ spent + (taken.map Record.encodedSize).sum
  some : 0 < room → ¬ (0 < maxBytes ∧ maxBytes ≤ spent) → avail ≠ [] → taken ≠ []

theorem readLoop_done (segs : List S) (fromSeq : Nat) (out : List Record) (spent : Int)
    (h : maxRecords ≤ out.length ∨ 0 < maxBytes ∧ maxBytes ≤ spent) :
    readLoop maxRecords maxBytes segs fromSeq out spent = (out, none) := by
  induction segs generalizing fromSeq with
  | nil => rfl
  | cons seg rest ih =>
    simp only [readLoop]
    split
    · exact ih fromSeq
    rcases h with hmax | hbytes
    · rw [if_pos hmax]
    split
    · rfl
    · rw [if_pos ⟨hbytes.1, by omega⟩]

theorem sum_bodyLen_le (rs : List Record) :
    (rs.map Record.bodyLen).sum ≤ (rs.map Record.encodedSize).sum := by
  induction rs with
  | nil => simp
  | cons r rs ih =>
    simp only [map_cons, sum_cons, Record.encodedSize]
    omega

theorem next_after (hd : Dense base rs) (hb : base ≤ fromSeq) (hlt : fromSeq < base + rs.length) :
    (rs.drop (fromSeq - base)).getLast?.elim fromSeq (fun r => r.seq + 1) = base + rs.length := by
  have hnext := (hd.drop (fromSeq - base)).next_seq
  rw [Nat.add_sub_cancel' hb, length_drop] at hnext
  omega

theorem served_nothing {out : List Record} (avail : List Record)
    (h : maxRecords ≤ out.length ∨ 0 < maxBytes ∧ maxBytes ≤ spent) :
    Served maxBytes spent (maxRecords - out.length) avail [] := by
  refine ⟨List.nil_prefix, Nat.zero_le _, ?_, ?_⟩
  · rcases h with hmax | hbytes
    · exact .inl (Nat.sub_eq_zero_of_le hmax).symm
    · exact .inr (.inr (by simpa using hbytes))
  · intro hroom hbytes
    rcases h with hmax | hspent
    · omega
    · exact absurd hspent hbytes

theorem Served.append (hx : xs ≠ []) (hl : xs.length ≤ room)
    (h : Served maxBytes (spent + (xs.map Record.encodedSize).sum) (room - xs.length) ys taken) :
    Served maxBytes spent room (xs ++ ys) (xs ++ taken) := by
  refine ⟨(prefix_append_right_inj xs).mpr h.run, ?_, ?_, fun _ _ _ => by simp [hx]⟩
  · have := h.most
    rw [length_append]
    omega
  · rcases h.stop with hroom | hall | hbytes
    · exact .inl (by rw [length_append]; omega)
    · exact .inr (.inl (by rw [hall]))
    · refine .inr (.inr ⟨hbytes.1, ?_⟩)
      simp only [map_append, sum_append, Int.natCast_add]
      omega

theorem Served.cut {maxBytes spent : Int} {room k : Nat} {xs : List Record} (ys : List Record)
    (hpos : 0 < k) (hlen : k ≤ xs.length) (hmost : k ≤ room) (hfull : k = room ∨
      0 < maxBytes ∧ maxBytes ≤ spent + ((xs.take k).map Record.encodedSize).sum) :
    Served maxBytes spent room (xs ++ ys) (xs.take k) := by
  have hk : (xs.take k).length = k := length_take_of_le hlen
  refine ⟨(List.take_prefix k xs).trans (prefix_append xs _), hk.le.trans hmost, ?_, ?_⟩
  · rcases hfull with hmax | hbytes
    · exact .inl (hk.trans hmax)
    · exact .inr (.inr hbytes)
  · intro _ _ _ hnil
    rw [hnil] at hk
    exact absurd hk (Nat.ne_of_lt hpos)

theorem readRecords_budget (maxBytes spent : Int) (room : Nat) (xs : List Record) :
    ∃ k, readRecords (if 0 < maxBytes then maxBytes - spent else 0) room 0 xs = xs.take k ∧
      k ≤ room ∧ k ≤ xs.length ∧ (0 < room → xs ≠ [] → 0 < k) ∧ (k = xs.length ∨ k = room ∨
        0 < maxBytes ∧ maxBytes ≤ spent + ((xs.take k).map Record.encodedSize).sum) := by
  obtain ⟨k, hk, hmost, hlen, hstop, hpos⟩ := readRecords_prefix
    (if 0 < maxBytes then maxBytes - spent else 0) room 0 xs
  refine ⟨k, hk, hmost, hlen, hpos, ?_⟩
  rcases hstop with hmax | hend | ⟨hbudget, hbytes⟩
  · exact .inr (.inl hmax)
  · exact .inl hend
  have hle := sum_bodyLen_le (xs.take k)
  split at hbudget
  · rename_i hb
    rw [if_pos hb] at hbytes
    exact .inr (.inr ⟨hb, by omega⟩)
  · omega

theorem read_segment {seg : S} (maxBytes spent : Int) {fromSeq : Nat} (room : Nat)
    {xs : List Record} (hv : Valid seg)
    (hxs : (LawfulSegmentStore.records seg).drop (fromSeq - baseSeq seg) = xs) :
    ∃ k, SegmentStore.read seg fromSeq room (if 0 < maxBytes then maxBytes - spent else 0) =
        (xs.take k, none) ∧ k ≤ room ∧ k ≤ xs.length ∧ (0 < room → xs ≠ [] → 0 < k) ∧
      (k = xs.length ∨ k = room ∨
        0 < maxBytes ∧ maxBytes ≤ spent + ((xs.take k).map Record.encodedSize).sum) := by
  obtain ⟨k, hk, hrest⟩ := readRecords_budget maxBytes spent room xs
  exact ⟨k, by rw [read_ok _ _ _ hv, hxs, hk], hrest⟩

theorem readLoop_skip {maxRecords : Nat} {maxBytes : Int} {seg : S} (hv : Valid seg)
    (more : List S) {fromSeq : Nat} {out : List Record} {spent : Int}
    (hdone : ¬ (maxRecords ≤ out.length ∨ 0 < maxBytes ∧ maxBytes ≤ spent))
    (hpast : baseSeq seg + (LawfulSegmentStore.records seg).length ≤ fromSeq) :
    readLoop maxRecords maxBytes (seg :: more) fromSeq out spent =
      readLoop maxRecords maxBytes more fromSeq out spent := by
  have hlast := LawfulSegmentStore.last hv
  cases more with
  | nil =>
    have hend : readLoop maxRecords maxBytes ([] : List S) fromSeq out spent = (out, none) := rfl
    have hnone : (LawfulSegmentStore.records seg).drop (fromSeq - baseSeq seg) = [] :=
      drop_eq_nil_of_le (by omega)
    obtain ⟨k, hread, _⟩ := read_segment maxBytes spent (maxRecords - out.length) hv hnone
    rw [hend, readLoop, if_neg (by simp), if_neg (fun h => hdone (.inl h)),
      if_neg (fun h => hdone (.inr ⟨h.1, by omega⟩)), hread]
    simp [readLoop]
  | cons s more => rw [readLoop, if_pos ⟨rfl, by omega⟩]

theorem readLoop_through (maxRecords : Nat) (maxBytes : Int) {base mid : Nat} {segs : List S}
    (hc : Covers base segs mid) (after : List S) {fromSeq : Nat} (hb : base ≤ fromSeq)
    (out : List Record) (spent : Int) (hout : out.length ≤ maxRecords) :
    ∃ taken, Served maxBytes spent (maxRecords - out.length)
        ((segs.flatMap LawfulSegmentStore.records).drop (fromSeq - base)) taken ∧
      (readLoop maxRecords maxBytes (segs ++ after) fromSeq out spent = (out ++ taken, none) ∧
          (maxRecords ≤ (out ++ taken).length ∨
            0 < maxBytes ∧ maxBytes ≤ spent + (taken.map Record.encodedSize).sum) ∨
        taken = (segs.flatMap LawfulSegmentStore.records).drop (fromSeq - base) ∧
          readLoop maxRecords maxBytes (segs ++ after) fromSeq out spent =
            readLoop maxRecords maxBytes after (max fromSeq mid) (out ++ taken)
              (spent + (taken.map Record.encodedSize).sum)) := by
  induction segs generalizing base fromSeq out spent with
  | nil =>
    have hmid : base = mid := hc
    refine ⟨[], ⟨by simp, Nat.zero_le _, .inr (.inl (by simp)), by simp⟩, .inr ⟨by simp, ?_⟩⟩
    simp [Nat.max_eq_left (hmid ▸ hb)]
  | cons seg rest ih =>
    by_cases hdone : maxRecords ≤ out.length ∨ 0 < maxBytes ∧ maxBytes ≤ spent
    · refine ⟨[], served_nothing _ hdone, .inl ⟨?_, by simpa using hdone⟩⟩
      rw [readLoop_done _ fromSeq out spent hdone, append_nil]
    obtain ⟨hv, hbase, hrest⟩ := hc
    have hlast := LawfulSegmentStore.last hv
    have hdense := LawfulSegmentStore.dense hv
    rw [hbase] at hlast hdense
    rw [flatMap_cons, drop_append, cons_append]
    generalize hxs : (LawfulSegmentStore.records seg).drop (fromSeq - base) = xs
    obtain ⟨k, hread, hmost, hlen, hpos, hstop⟩ := read_segment maxBytes spent
      (maxRecords - out.length) hv (hbase ▸ hxs)
    have hlength := congrArg length hxs
    rw [length_drop] at hlength
    by_cases hin : fromSeq < base + (LawfulSegmentStore.records seg).length
    · have hne : xs ≠ [] := length_pos_iff.mp (by omega)
      have hnext := next_after hdense hb hin
      rw [hxs] at hnext
      rw [show fromSeq - base - (LawfulSegmentStore.records seg).length = 0 by omega, drop_zero,
        readLoop, if_neg (by omega), if_neg (fun h => hdone (.inl h)),
        if_neg (fun h => hdone (.inr ⟨h.1, by omega⟩)), hread]
      rcases hstop with rfl | hfull
      · simp only [take_length, hnext]
        obtain ⟨taken, hserved, hafter⟩ := ih hrest (Nat.le_refl _) (out ++ xs)
          (spent + (xs.map Record.encodedSize).sum) (by rw [length_append]; omega)
        have hmid := hrest.le
        rw [Nat.sub_self, drop_zero, append_assoc, Int.add_assoc, ← Int.natCast_add,
          ← sum_append, ← map_append, Nat.max_eq_right hmid] at hafter
        refine ⟨xs ++ taken, Served.append hne hmost (by simpa [Nat.sub_sub] using hserved), ?_⟩
        rw [Nat.max_eq_right (by omega)]
        rcases hafter with hstopped | ⟨hall, hloop⟩
        · exact .inl hstopped
        · exact .inr ⟨by rw [hall], hloop⟩
      · have hk : (xs.take k).length = k := length_take_of_le hlen
        have hused : maxRecords ≤ (out ++ xs.take k).length ∨
            0 < maxBytes ∧ maxBytes ≤ spent + ((xs.take k).map Record.encodedSize).sum := by
          rcases hfull with hmax | hbytes
          · exact .inl (by rw [length_append]; omega)
          · exact .inr hbytes
        exact ⟨xs.take k, Served.cut _ (hpos (by omega) hne) hlen hmost hfull,
          .inl ⟨readLoop_done _ _ _ _ hused, hused⟩⟩
    · have hnil : xs = [] := length_eq_zero_iff.mp (by omega)
      subst hnil
      rw [nil_append, Nat.sub_sub, readLoop_skip hv (rest ++ after) hdone (by omega)]
      exact ih hrest (Nat.le_of_not_lt hin) out spent hout

theorem readLoop_served {next : Nat} {segs : List S} (hc : Covers base segs next) (hb : base ≤ fromSeq)
    (out : List Record) (spent : Int) (hout : out.length ≤ maxRecords) :
    ∃ taken, readLoop maxRecords maxBytes segs fromSeq out spent = (out ++ taken, none) ∧
      Served maxBytes spent (maxRecords - out.length)
        ((segs.flatMap LawfulSegmentStore.records).drop (fromSeq - base)) taken := by
  obtain ⟨taken, hserved, hloop⟩ := readLoop_through maxRecords maxBytes hc [] hb out spent hout
  rw [append_nil] at hloop
  rcases hloop with ⟨hstopped, _⟩ | ⟨_, hthrough⟩
  · exact ⟨taken, hstopped, hserved⟩
  · exact ⟨taken, hthrough, hserved⟩

theorem Open.read (h : p.Open) (hf : p.firstSeq ≤ fromSeq) (maxRecords maxBytes : Int) :
    ∃ out, p.read fromSeq maxRecords maxBytes = (out, none) ∧
      Served maxBytes 0 (if maxRecords ≤ 0 then 100 else maxRecords).toNat
        (p.records.drop (fromSeq - p.firstSeq)) out := by
  have hpos := h.wf.first_pos
  unfold Partition.read
  simp only [h.closed, Bool.false_eq_true, ↓reduceIte]
  rw [if_neg (by omega : fromSeq ≠ 0), if_neg (by omega)]
  obtain ⟨taken, htaken, hserved⟩ := readLoop_served h.wf.covers hf [] 0 (Nat.zero_le _)
  exact ⟨taken, htaken, hserved⟩

structure Presents (p : Partition S) (l : SeqLog) : Prop where
  first : p.firstSeq = l.first
  next : p.nextSeq = l.next
  records : p.records = l.records
  numbered : Dense l.first l.records
  chained : ∀ i a b, p.segments[i]? = some a → p.segments[i + 1]? = some b →
    baseSeq b = lastSequence a + 1
  count : p.byteCount = (p.segments.map bytes).sum
  read : ∀ fromSeq maxRecords maxBytes, l.first ≤ fromSeq → fromSeq < l.next →
    ∃ out, p.read fromSeq maxRecords maxBytes = (out, none) ∧ out ≠ [] ∧
      Served maxBytes 0 (if maxRecords ≤ 0 then 100 else maxRecords).toNat
        (l.records.drop (fromSeq - l.first)) out

theorem Open.presents (h : p.Open) : p.Presents p.log := by
  refine ⟨rfl, h.next, rfl, h.wf.dense, fun i => h.wf.covers.chained i, h.wf.count, ?_⟩
  intro fromSeq maxRecords maxBytes hf hn
  have hlow : p.firstSeq ≤ fromSeq := hf
  obtain ⟨out, hout, hserved⟩ := h.read hlow maxRecords maxBytes
  refine ⟨out, hout, hserved.some ?_ (by omega) ?_, hserved⟩
  · split <;> omega
  rw [← h.next, h.wf.next_eq] at hn
  apply length_pos_iff.mp
  rw [length_drop]
  omega

theorem Open.fresh (topic : String) (id : Int) (cfg : PartitionConfig)
    (ho : openPartition topic id ⟨[], []⟩ cfg = .ok p) : p.Open ∧ p.log = .empty := by
  obtain ⟨q, hq, hw, hr, hf, _, hcl, _⟩ := open_empty (S := S) topic id cfg []
  rw [ho] at hq
  cases hq
  refine ⟨⟨hw, hcl⟩, ?_⟩
  unfold Partition.log SeqLog.empty
  rw [hr, hf]

/-- A partition over segment files refines an append-only sequence, as long as
the records appended fit the fields they are encoded in. -/
theorem partition_refines_sequence (topic : String) (id : Int) (cfg : PartitionConfig)
    {p₀ p : Partition FileSegment} {ops : List Op}
    (ho : openPartition topic id ⟨[], []⟩ cfg = .ok p₀) (hr : Run Succeeds Storable p₀ ops p) :
    ∃ l, Run SeqLog.Step always .empty ops l ∧ p.Presents l := by
  obtain ⟨hopen, hlog⟩ := Open.fresh topic id cfg ho
  obtain ⟨hp, hrun⟩ := Run.refine SeqLog.Step Partition.log Open hr hopen
    (fun t a u ht hst hs => ht.refines hst hs)
  exact ⟨p.log, hlog ▸ hrun, hp.presents⟩

def threeAppends : List Op :=
  [.append (.ofPayload [1]) 5, .appendBatch [.ofPayload [2], .ofPayload [3]] 6, .truncateTo 3,
    .reopen { defaultPartitionConfig with indexInterval := 1 }]

def smallSegments : PartitionConfig := { defaultPartitionConfig with segmentBytes := 40, int64 := by decide }

def freshFiles : Partition FileSegment := fresh "chat" 0 smallSegments.applyDefaults ⟨[]⟩

instance (p : Partition FileSegment) (op : Op) : Decidable (p.Storable op) :=
  match op with
  | .append rec now =>
    inferInstanceAs (Decidable ((p.stamp rec now).InRange ∧ (p.stamp rec now).headers.Fit))
  | .appendBatch recs now =>
    inferInstanceAs (Decidable (∀ r ∈ stampAll p.curEpoch now p.nextSeq recs,
      r.InRange ∧ r.headers.Fit))
  | .appendReplicated rec => inferInstanceAs (Decidable (rec.InRange ∧ rec.headers.Fit))
  | .becomeLeader _ | .reassertLeadership _ | .resign | .enforceLeadership _ | .truncateTo _
  | .enforceRetention _ | .reopen _ => inferInstanceAs (Decidable True)

theorem three_appends_refine_sequence :
    ∃ p : Partition FileSegment, Run Succeeds Storable freshFiles threeAppends p ∧
      p.segments.length = 2 ∧ p.records.map Record.payload = [[1], [2]] ∧
      ∃ l, Run SeqLog.Step always .empty threeAppends l ∧ p.Presents l := by
  obtain ⟨p, hrun, hlen, hrec⟩ := Run.executed Storable exec freshFiles threeAppends
    (fun p : Partition FileSegment => p.segments.length = 2 ∧
      p.records.map Record.payload = [[1], [2]]) (by decide +kernel)
  exact ⟨p, hrun, hlen, hrec,
    partition_refines_sequence "chat" 0 smallSegments (open_fresh "chat" 0 smallSegments) hrun⟩

theorem readFrame_encoded {r : Record} (hl : r.bodyLen ≤ maxRecordSize) :
    readFrame recordBodyHeaderSize maxRecordSize (encoded r) = .body (crc32 r.body) r.body [] := by
  have h := readFrame_frame r.body [] (length_body r ▸ bodyLen_ge r) (length_body r ▸ hl)
    maxRecordSize_lt
  rwa [append_nil] at h

theorem fileSection_all (file : Bytes) : fileSection file 0 file.length = file := by
  rw [fileSection, if_neg (by decide)]
  simp

theorem read_undecodable (iv : Int) {r : Record} (hseq : r.seq = 1) (hl : r.bodyLen ≤ maxRecordSize)
    (hd : decodeRecordBody r.body = .error e) :
    ∃ t, (FileSegment.createSegment 1 iv).append (encoded r) r.seq = .ok t ∧
      ∀ maxBytes, t.read 1 1 maxBytes = ([], some e) := by
  have hbody : bodySeq r.body = 1 := by
    rw [← hseq]
    simpa using bodySeq_body (r := r) (by omega) []
  have hlen := length_encoded r
  have hloop : ∀ maxBytes, FileSegment.readLoop 1 maxBytes (encoded r).length 1 (encoded r) 0 [] =
      ([], some e) := by
    intro maxBytes
    rw [hlen, Nat.add_comm]
    simp [FileSegment.readLoop, readFrame_encoded hl, hbody, hd]
  have hseek : searchList [(⟨1, 0⟩ : IndexEntry)] (fun e => decide (1 < e.seq)) = 1 := by decide
  refine ⟨_, rfl, fun maxBytes => ?_⟩
  simp only [FileSegment.read, FileSegment.seekPos, FileSegment.createSegment,
    FileSegment.noteIndex, hseq, or_true, if_true, nil_append, hseek, Nat.one_ne_zero, if_false,
    Nat.sub_self, getElem?_cons_zero, Option.elim_some, Int.zero_add, fileSection_all]
  rw [if_neg (by omega), hloop]

theorem append_undecodable (topic : String) (id : Int) (cfg : PartitionConfig) {rec : Record}
    (now : Int) (hfl : rec.flags &&& flagEphemeral = 0) (hr : (stampAs 1 0 now rec).InRange)
    (hk : rec.key.length ≤ 0xFFFF) (hl : (stampAs 1 0 now rec).bodyLen ≤ maxRecordSize)
    (hd : decodeHeaders (encodeHeaders rec.headers) = .error e) : ∃ p : Partition FileSegment,
      Succeeds (fresh topic id cfg ⟨[]⟩) (.append rec now) p ∧ p.firstSeq = 1 ∧ p.nextSeq = 2 ∧
      ∀ maxBytes, p.read 1 1 maxBytes = ([], some e) := by
  have hbody : decodeRecordBody (stampAs 1 0 now rec).body = .error e := by
    rw [decodeRecordBody_headers hr hk hl]
    simp [stampAs, hd, Except.map]
  obtain ⟨t, ht, hread⟩ := read_undecodable cfg.indexInterval rfl hl hbody
  have hstamp : (fresh topic id cfg ⟨[]⟩ : Partition FileSegment).stamp rec now =
      stampAs 1 0 now rec := rfl
  have henc : (stampAs 1 0 now rec).encode = .ok (encoded (stampAs 1 0 now rec)) :=
    encode_of_sizes hl hk
  have hroom : ∀ n, (fresh topic id cfg ⟨[]⟩ : Partition FileSegment).makeRoom
      (stampAs 1 0 now rec).seq n = fresh topic id cfg ⟨[]⟩ :=
    fun n => if_neg (fun h => Bool.noConfusion h.2)
  have hseg : SegmentStore.append (fresh topic id cfg ⟨[]⟩ : Partition FileSegment).active
      (stampAs 1 0 now rec) (encoded (stampAs 1 0 now rec)) = .ok t := ht
  have hwrite : (fresh topic id cfg ⟨[]⟩ : Partition FileSegment).write (stampAs 1 0 now rec)
      (encoded (stampAs 1 0 now rec)) = ({ fresh topic id cfg ⟨[]⟩ with
        active := t, nextSeq := 2, byteCount := 0 + (encoded (stampAs 1 0 now rec)).length },
        .ok ()) := by
    unfold write
    simp only [hroom, hseg]
    rfl
  have happ : (fresh topic id cfg ⟨[]⟩ : Partition FileSegment).append rec now =
      ({ fresh topic id cfg ⟨[]⟩ with
        active := t, nextSeq := 2, byteCount := 0 + (encoded (stampAs 1 0 now rec)).length },
        .ok 1) := by
    unfold append
    rw [if_neg (fun h => h hfl), if_neg (by simp [fresh]), if_neg (by simp [fresh]), hstamp, henc]
    simp only [hwrite]
    rfl
  refine ⟨_, okState_some.mpr ⟨1, happ⟩, rfl, rfl, fun maxBytes => ?_⟩
  have hloop : ∀ maxBytes, SegmentStore.read t 1 1 maxBytes = ([], some e) := hread
  simp [Partition.read, fresh, segments, readLoop, hloop]

def longHeader : Record :=
  { Record.ofPayload [] with
    headers := ⟨[([], List.replicate 65536 0xFF)], List.nodup_singleton _⟩ }

theorem nextHeader_empty (v : Bytes) : nextHeader (0 :: 0 :: 0 :: 0 :: v) = some (([], []), v) := by
  simp [nextHeader, unle]

theorem nextHeader_short (v : Bytes) (h : v.length < 65537) :
    nextHeader (0xFF :: 0xFF :: v) = none := by
  simp [nextHeader, unle, h]

theorem encodeHeader_long {v : Bytes} (h : v.length = 65536) :
    encodeHeader ([], v) = 0 :: 0 :: 0 :: 0 :: v := by
  simp [encodeHeader, le, h]

theorem encodeHeaders_one (e : Bytes × Bytes) (h : ([e].map Prod.fst).Nodup) :
    encodeHeaders ⟨[e], h⟩ = encodeHeader e :=
  append_nil _

theorem encodeHeaders_long : encodeHeaders longHeader.headers =
      0 :: 0 :: 0 :: 0 :: 0xFF :: 0xFF :: replicate 65534 0xFF := by
  rw [longHeader, encodeHeaders_one, encodeHeader_long length_replicate, replicate_succ,
    replicate_succ]

theorem decodeHeaders_short (v : Bytes) (h : v.length < 65537) :
    decodeHeaders (0 :: 0 :: 0 :: 0 :: 0xFF :: 0xFF :: v) = .error .corruptRecord := by
  simp [decodeHeaders, scan, nextHeader_empty, nextHeader_short v h]

theorem decodeHeaders_long :
    decodeHeaders (encodeHeaders longHeader.headers) = .error .corruptRecord := by
  have hlen : (replicate 65534 0xFF : Bytes).length < 65537 := by
    rw [length_replicate]
    decide
  rw [encodeHeaders_long]
  exact decodeHeaders_short _ hlen

theorem bodyLen_long {r : Record} (hh : r.headers = longHeader.headers) (hs : r.bodyHeaderSize = 27)
    (hk : r.key = []) (hp : r.payload = []) : r.bodyLen ≤ maxRecordSize := by
  have hsix : ∀ v : Bytes, (0 :: 0 :: 0 :: 0 :: 0xFF :: 0xFF :: v).length = v.length + 6 :=
    fun _ => rfl
  have hlen : (encodeHeaders longHeader.headers).length = 65540 := by
    rw [encodeHeaders_long, hsix, length_replicate]
  rw [Record.bodyLen, hh, hlen, hs, hk, hp]
  decide

theorem append_longHeader :
    ∃ p : Partition FileSegment, Succeeds freshFiles (.append longHeader 1) p ∧
      p.firstSeq = 1 ∧ p.nextSeq = 2 ∧
      ∀ maxBytes, p.read 1 1 maxBytes = ([], some .corruptRecord) := by
  have hrange : (stampAs 1 0 1 longHeader).InRange :=
    ⟨(by decide : (1 : Nat) < 2 ^ 64), (by decide : -2 ^ 63 ≤ (1 : Int)),
      (by decide : (1 : Int) < 2 ^ 63), (by decide : (0 : Nat) < 2 ^ 32)⟩
  exact append_undecodable "chat" 0 smallSegments.applyDefaults 1
    (by decide : (0 : UInt8) &&& flagEphemeral = 0) hrange (Nat.zero_le _)
    (bodyLen_long rfl rfl rfl rfl) decodeHeaders_long

/-- The record is appended, and no read of its sequence gives it back. -/
theorem long_header_breaks_read : ∃ p : Partition FileSegment,
      Run Succeeds always freshFiles [.append longHeader 1] p ∧ p.firstSeq ≤ 1 ∧ 1 < p.nextSeq ∧
      p.read 1 1 0 = ([], some .corruptRecord) := by
  obtain ⟨p, hp, hf, hn, hread⟩ := append_longHeader
  exact ⟨p, .snoc [] _ _ _ .nil trivial hp, by omega, by omega, hread 0⟩

end Partition
end Boltq.Stream
