import Boltq.Stream.Refinement
import Boltq.Stream.History

namespace Boltq.Stream
open Lib SegmentStore List

inductive FlushFault where
  | create
  | write
  | sync
  | close
  | rename
  deriving DecidableEq

inductive AssignErr where
  | order (epoch startSeq lastEpoch lastStart : Nat)
  | checkpoint (f : FlushFault)
  deriving DecidableEq

inductive TermFail where
  | assign (e : AssignErr)
  | call (e : Err)
  deriving DecidableEq

structure TermState (S : Type) where
  part : Partition S
  checkpoint : List EpochEntry
  deriving DecidableEq

namespace TermState
variable {S : Type}

section
variable (s : TermState S)

def flushLocked (fault : Option FlushFault) : TermState S × Except AssignErr Unit :=
  match fault with
  | some f => (s, .error (.checkpoint f))
  | none => ({ s with checkpoint := s.part.epochs.entries }, .ok ())

def addEntry (e : EpochEntry) : TermState S :=
  { s with part := { s.part with epochs := ⟨s.part.epochs.entries ++ [e]⟩ } }

def assign (fault : Option FlushFault) (epoch startSeq : Nat) :
    TermState S × Except AssignErr Unit :=
  if epoch = undefinedEpoch then (s, .ok ())
  else
    match s.part.epochs.entries.getLast? with
    | none => (s.addEntry ⟨epoch, startSeq⟩).flushLocked fault
    | some last =>
      if epoch ≤ last.epoch then (s, .ok ())
      else if startSeq < last.startSeq then
        (s, .error (.order epoch startSeq last.epoch last.startSeq))
      else (s.addEntry ⟨epoch, startSeq⟩).flushLocked fault

def becomeLeader (fault : Option FlushFault) (epoch : Nat) : TermState S × Except TermFail Unit :=
  if epoch = undefinedEpoch then (s, .error (.call .epochZero))
  else if s.part.closed then (s, .error (.call .closed))
  else if epoch ≤ s.part.curEpoch then (s, .error (.call (.epochNotNewer epoch s.part.curEpoch)))
  else
    match s.assign fault epoch s.part.nextSeq with
    | (t, .error e) => (t, .error (.assign e))
    | (t, .ok _) => ({ t with part := { t.part with curEpoch := epoch, isLeader := true } }, .ok ())

def noteEpoch (fault : Option FlushFault) (rec : Record) : TermState S × Except AssignErr Unit :=
  if s.part.curEpoch < rec.epoch then
    match s.assign fault rec.epoch rec.seq with
    | (t, .error e) => (t, .error e)
    | (t, .ok _) => ({ t with part := { t.part with curEpoch := rec.epoch } }, .ok ())
  else (s, .ok ())

end

def writeRecord [SegmentStore S] (s : TermState S) (rec : Record) :
    TermState S × Except TermFail Unit :=
  match rec.encode with
  | .error e => (s, .error (.call e))
  | .ok encoded =>
    ({ s with part := (s.part.write rec encoded).1 }, (s.part.write rec encoded).2.mapError .call)

def appendReplicated [SegmentStore S] (s : TermState S) (fault : Option FlushFault) (rec : Record) :
    TermState S × Except TermFail Unit :=
  if rec.flags &&& flagEphemeral ≠ 0 then (s, .error (.call .replicateEphemeral))
  else if rec.seq = 0 then (s, .error (.call .noSequence))
  else if s.part.closed then (s, .error (.call .closed))
  else if rec.seq < s.part.nextSeq then (s, .ok ())
  else if rec.seq > s.part.nextSeq then
    (s, .error (.call (.replicationGap rec.seq s.part.nextSeq)))
  else
    match s.noteEpoch fault rec with
    | (t, .error e) => (t, .error (.assign e))
    | (t, .ok _) => t.writeRecord rec

theorem assign_cases (s : TermState S) (fault : Option FlushFault) (epoch startSeq : Nat) :
    (epoch ≤ s.part.epochs.latest.1 ∧ s.assign fault epoch startSeq = (s, .ok ())) ∨
    (s.part.epochs.latest.1 < epoch ∧ startSeq < s.part.epochs.latest.2 ∧
      s.assign fault epoch startSeq = (s, .error (.order epoch startSeq
        s.part.epochs.latest.1 s.part.epochs.latest.2))) ∨
    (s.part.epochs.latest.1 < epoch ∧ s.part.epochs.latest.2 ≤ startSeq ∧
      s.assign fault epoch startSeq = (s.addEntry ⟨epoch, startSeq⟩).flushLocked fault) := by
  unfold assign LeaderEpochCache.latest
  by_cases h0 : epoch = undefinedEpoch
  · rw [if_pos h0]
    refine .inl ⟨?_, rfl⟩
    rw [h0]
    exact Nat.zero_le _
  · have hpos : undefinedEpoch < epoch := Nat.pos_of_ne_zero h0
    rw [if_neg h0]
    cases s.part.epochs.entries.getLast? with
    | none => exact .inr (.inr ⟨hpos, Nat.zero_le _, rfl⟩)
    | some last =>
      dsimp only
      by_cases hle : epoch ≤ last.epoch
      · exact .inl ⟨hle, if_pos hle⟩
      rw [if_neg hle]
      by_cases hlt : startSeq < last.startSeq
      · exact .inr (.inl ⟨Nat.lt_of_not_le hle, hlt, if_pos hlt⟩)
      · exact .inr (.inr ⟨Nat.lt_of_not_le hle, Nat.le_of_not_lt hlt, if_neg hlt⟩)

/-- An error of `assign` leaves the history in memory alone exactly if it is the one about the
order: the last term starts beyond the new one. -/
theorem assign_failed {s : TermState S} (h : s.assign fault epoch startSeq = (t, .error e)) :
    t.checkpoint = s.checkpoint ∧ t.part.curEpoch = s.part.curEpoch ∧
      s.part.epochs.latest.1 < epoch ∧
      (t.part.epochs = s.part.epochs ↔ startSeq < s.part.epochs.latest.2) := by
  rcases s.assign_cases fault epoch startSeq with ⟨_, ha⟩ | ⟨hlt, hord, ha⟩ | ⟨hlt, hord, ha⟩
  · rw [ha] at h
    cases h
  · rw [ha] at h
    cases h
    exact ⟨rfl, rfl, hlt, iff_of_true rfl hord⟩
  · rw [ha] at h
    cases fault with
    | none => cases h
    | some f =>
      cases h
      refine ⟨rfl, rfl, hlt, iff_of_false (fun he => ?_) (by omega)⟩
      have hlen := congrArg (fun c => c.entries.length) he
      simp [addEntry] at hlen

theorem assign_ok {s : TermState S} (hn : s.part.epochs.latest.1 < epoch)
    (h : s.assign fault epoch startSeq = (t, .ok ())) :
    t = { s with
      part := { s.part with epochs := ⟨s.part.epochs.entries ++ [⟨epoch, startSeq⟩]⟩ }
      checkpoint := s.part.epochs.entries ++ [⟨epoch, startSeq⟩] } := by
  rcases s.assign_cases fault epoch startSeq with ⟨hle, _⟩ | ⟨_, _, ha⟩ | ⟨_, _, ha⟩
  · omega
  · rw [ha] at h
    cases h
  rw [ha] at h
  cases fault with
  | some f => cases h
  | none =>
    cases h
    rfl

theorem write_epochs [SegmentStore S] (p : Partition S) (rec : Record) (encoded : Bytes) :
    (p.write rec encoded).1.epochs = p.epochs ∧ (p.write rec encoded).1.curEpoch = p.curEpoch := by
  unfold Partition.write Partition.makeRoom
  dsimp only
  split <;> split <;> exact ⟨rfl, rfl⟩

theorem writeRecord_keeps [SegmentStore S] (s : TermState S) (rec : Record) :
    (s.writeRecord rec).1.part.epochs = s.part.epochs ∧
    (s.writeRecord rec).1.part.curEpoch = s.part.curEpoch ∧
    (s.writeRecord rec).1.checkpoint = s.checkpoint ∧
    ∀ e, (s.writeRecord rec).2 ≠ .error (.assign e) := by
  unfold writeRecord
  split
  · exact ⟨rfl, rfl, rfl, fun _ h => by cases h⟩
  rename_i encoded _
  obtain ⟨he, hc⟩ := write_epochs s.part rec encoded
  refine ⟨he, hc, rfl, fun e h => ?_⟩
  cases hw : (s.part.write rec encoded).2 with
  | error e' =>
    rw [hw] at h
    cases h
  | ok u =>
    rw [hw] at h
    cases h

inductive Call where
  | becomeLeader (epoch : Nat)
  | appendReplicated (rec : Record)
  deriving DecidableEq

def Call.epoch : Call → Nat
  | .becomeLeader epoch => epoch
  | .appendReplicated rec => rec.epoch

def Call.AtHead (c : Call) (s : TermState S) : Prop :=
  match c with
  | .becomeLeader _ => True
  | .appendReplicated rec => rec.seq = s.part.nextSeq

def call [SegmentStore S] (s : TermState S) (fault : Option FlushFault) :
    Call → TermState S × Except TermFail Unit
  | .becomeLeader epoch => s.becomeLeader fault epoch
  | .appendReplicated rec => s.appendReplicated fault rec

theorem call_assign [SegmentStore S] {s : TermState S}
    (h : s.call fault c = (t, .error (.assign e))) :
    s.part.curEpoch < c.epoch ∧ s.assign fault c.epoch s.part.nextSeq = (t, .error e) := by
  cases c with
  | becomeLeader epoch =>
    simp only [call, becomeLeader] at h
    split at h
    · cases h
    split at h
    · cases h
    split at h
    · cases h
    rename_i hnew
    split at h
    · rename_i ha
      cases h
      exact ⟨Nat.lt_of_not_le hnew, ha⟩
    · cases h
  | appendReplicated rec =>
    simp only [call, appendReplicated] at h
    split at h
    · cases h
    split at h
    · cases h
    split at h
    · cases h
    split at h
    · cases h
    rename_i hold
    split at h
    · cases h
    rename_i hgap
    have hseq : s.part.nextSeq = rec.seq := by omega
    split at h
    · rename_i hnote
      cases h
      unfold noteEpoch at hnote
      split at hnote
      · rename_i hnew
        split at hnote
        · rename_i ha
          cases hnote
          exact ⟨hnew, hseq ▸ ha⟩
        · cases hnote
      · cases hnote
    · exact absurd (congrArg Prod.snd h) ((writeRecord_keeps _ rec).2.2.2 e)

theorem call_records [SegmentStore S] {s : TermState S} {c : Call} (hc : s.part.curEpoch < c.epoch)
    (hn : s.part.epochs.latest.1 < c.epoch) (hh : c.AtHead s) (h : s.call fault c = (t, .ok ())) :
    t.part.epochs.entries = s.part.epochs.entries ++ [⟨c.epoch, s.part.nextSeq⟩] ∧
      t.checkpoint = t.part.epochs.entries ∧ t.part.curEpoch = c.epoch := by
  cases c with
  | becomeLeader epoch =>
    simp only [call, becomeLeader] at h
    split at h
    · cases h
    split at h
    · cases h
    split at h
    · cases h
    split at h
    · cases h
    rename_i ha
    cases h
    cases assign_ok hn ha
    exact ⟨rfl, rfl, rfl⟩
  | appendReplicated rec =>
    have hseq : rec.seq = s.part.nextSeq := hh
    have hnew : s.part.curEpoch < rec.epoch := hc
    simp only [call, appendReplicated] at h
    split at h
    · cases h
    split at h
    · cases h
    split at h
    · cases h
    rw [if_neg (by omega), if_neg (by omega)] at h
    split at h
    · cases h
    rename_i m _ hnote
    obtain ⟨hepochs, hcur, hdisk, _⟩ := writeRecord_keeps m rec
    rw [h] at hepochs hcur hdisk
    unfold noteEpoch at hnote
    rw [if_pos hnew] at hnote
    split at hnote
    · cases hnote
    rename_i ha
    cases hnote
    cases assign_ok hn ha
    rw [hepochs, hcur, hdisk, ← hseq]
    exact ⟨rfl, rfl, rfl⟩

end TermState

inductive PromoteErr where
  | epochZero
  | closed
  | notNewer (epoch current : Nat)
  | promote (topic : String) (id : Int) (e : TermFail)
  deriving DecidableEq

structure TermLog (S : Type) where
  partitions : List (TermState S)
  closed : Bool
  leaderEpoch : Nat
  deriving DecidableEq

namespace TermLog
variable {S : Type}

def promoteAll (epoch : Nat) : List (TermState S) → List (Option FlushFault) →
    List (TermState S) × Except PromoteErr Unit
  | [], _ => ([], .ok ())
  | s :: rest, faults =>
    match s.becomeLeader faults.head?.join epoch with
    | (t, .error e) => (t :: rest, .error (.promote s.part.topic s.part.id e))
    | (t, .ok _) => (t :: (promoteAll epoch rest faults.tail).1,
        (promoteAll epoch rest faults.tail).2)

def becomeLeader (l : TermLog S) (faults : List (Option FlushFault)) (epoch : Nat) :
    TermLog S × Except PromoteErr Unit :=
  if epoch = undefinedEpoch then (l, .error .epochZero)
  else if l.closed then (l, .error .closed)
  else if epoch ≤ l.leaderEpoch then (l, .error (.notNewer epoch l.leaderEpoch))
  else
    match promoteAll epoch l.partitions faults with
    | (ps, .error e) => ({ l with partitions := ps }, .error e)
    | (ps, .ok _) => ({ l with partitions := ps, leaderEpoch := epoch }, .ok ())

/-- The partition can be promoted: it is open, not on the term yet, and its history does not
end beyond its head. -/
structure Ready (epoch : Nat) (s : TermState S) : Prop where
  isOpen : s.part.closed = false
  below : s.part.curEpoch < epoch
  order : epoch ≤ s.part.epochs.latest.1 ∨ s.part.epochs.latest.2 ≤ s.part.nextSeq

theorem becomeLeader_cases (h0 : epoch ≠ undefinedEpoch) (s : TermState S)
    (fault : Option FlushFault) :
    (¬ Ready epoch s ∧ ∃ e, s.becomeLeader fault epoch = (s, .error e)) ∨
    (Ready epoch s ∧ (fault = none ∨ epoch ≤ s.part.epochs.latest.1) ∧
      ∃ t, s.becomeLeader fault epoch = (t, .ok ()) ∧ t.part.curEpoch = epoch) ∨
    (Ready epoch s ∧ fault ≠ none ∧ s.part.epochs.latest.1 < epoch ∧
      ∃ t e, s.becomeLeader fault epoch = (t, .error e) ∧ Ready epoch t) := by
  unfold TermState.becomeLeader
  rw [if_neg h0]
  split
  · rename_i hc
    exact .inl ⟨fun h => Bool.false_ne_true (h.isOpen.symm.trans hc), _, rfl⟩
  rename_i hc
  split
  · rename_i hle
    exact .inl ⟨fun h => Nat.not_le_of_lt h.below hle, _, rfl⟩
  rename_i hlt
  have hready := fun h => Ready.mk (Bool.eq_false_iff.mpr hc) (Nat.lt_of_not_le hlt) h
  rcases s.assign_cases fault epoch s.part.nextSeq with ⟨hle, ha⟩ | ⟨hn, hord, ha⟩ | ⟨hn, hord, ha⟩
  · rw [ha]
    exact .inr (.inl ⟨hready (.inl hle), .inr hle, _, rfl, rfl⟩)
  · rw [ha]
    exact .inl ⟨fun h => by have := h.order; omega, _, rfl⟩
  · rw [ha]
    cases fault with
    | none => exact .inr (.inl ⟨hready (.inr hord), .inl rfl, _, rfl, rfl⟩)
    | some f =>
      refine .inr (.inr ⟨hready (.inr hord), nofun, hn, _, _, rfl, ?_⟩)
      have hl := LeaderEpochCache.latest_append s.part.epochs.entries ⟨epoch, s.part.nextSeq⟩
      exact ⟨Bool.eq_false_iff.mpr hc, Nat.lt_of_not_le hlt, .inl (by rw [TermState.addEntry, hl])⟩

theorem promoteAll_ok_iff (h0 : epoch ≠ undefinedEpoch) (ps : List (TermState S)) :
    (∃ qs, promoteAll epoch ps [] = (qs, .ok ()) ∧ qs.length = ps.length ∧
      ∀ t ∈ qs, t.part.curEpoch = epoch) ↔ ∀ s ∈ ps, Ready epoch s := by
  induction ps with
  | nil => exact iff_of_true ⟨[], rfl, rfl, forall_mem_nil _⟩ (forall_mem_nil _)
  | cons s rest ih =>
    rw [forall_mem_cons, ← ih]
    simp only [promoteAll, head?_nil, Option.join_none, tail_nil]
    rcases becomeLeader_cases h0 s none with ⟨hn, e, hb⟩ | ⟨hr, -, t, hb, hcur⟩ | ⟨-, hf, -⟩
    · rw [hb]
      refine iff_of_false (fun ⟨_, h, _⟩ => ?_) (fun h => hn h.1)
      cases h
    · rw [hb]
      constructor
      · rintro ⟨_, h, hlen, hall⟩
        obtain ⟨rfl, hok⟩ := Prod.mk.inj h
        exact ⟨hr, _, Prod.ext rfl hok, Nat.succ.inj hlen, (forall_mem_cons.mp hall).2⟩
      · rintro ⟨-, qs, hqs, hlen, hall⟩
        exact ⟨t :: qs, by rw [hqs], by simp [hlen], forall_mem_cons.mpr ⟨hcur, hall⟩⟩
    · exact absurd rfl hf

/-- Every partition can be promoted, and the write that fails is that of the first one. -/
def Unstarted (l : TermLog S) (faults : List (Option FlushFault)) (epoch : Nat) : Prop :=
  (∀ s ∈ l.partitions, Ready epoch s) ∧ faults.head?.join ≠ none ∧
    ∀ s ∈ l.partitions.head?, s.part.epochs.latest.1 < epoch

theorem becomeLeader_retry {l l' : TermLog S} {faults : List (Option FlushFault)} {epoch : Nat}
    {topic : String} {id : Int} {e : TermFail}
    (h : l.becomeLeader faults epoch = (l', .error (.promote topic id e))) :
    (∀ order, order.Perm l'.partitions →
      ∃ l'', { l' with partitions := order }.becomeLeader [] epoch = (l'', .ok ()) ∧
        l''.leaderEpoch = epoch ∧ l''.partitions.length = l'.partitions.length ∧
        ∀ s ∈ l''.partitions, s.part.curEpoch = epoch) ↔ l.Unstarted faults epoch := by
  unfold becomeLeader at h
  split at h
  · cases h
  rename_i h0
  split at h
  · cases h
  rename_i hcl
  split at h
  · cases h
  rename_i hnew
  split at h
  rotate_left
  · cases h
  rename_i ps e' hp
  cases h
  -- the retry goes through exactly if every partition that is left can be promoted
  have hretry : (∀ order, order.Perm ps →
      ∃ l'', { l with partitions := order }.becomeLeader [] epoch = (l'', .ok ()) ∧
        l''.leaderEpoch = epoch ∧ l''.partitions.length = ps.length ∧
        ∀ s ∈ l''.partitions, s.part.curEpoch = epoch) ↔ ∀ s ∈ ps, Ready epoch s := by
    constructor
    · intro h
      obtain ⟨l'', hl, -, hlen, hall⟩ := h ps (Perm.refl ps)
      rw [becomeLeader, if_neg h0, if_neg hcl, if_neg hnew] at hl
      split at hl
      · cases hl
      rename_i hqs
      cases hl
      exact (promoteAll_ok_iff h0 ps).mp ⟨_, hqs, hlen, hall⟩
    · intro h order hperm
      obtain ⟨qs, hqs, hlen, hall⟩ :=
        (promoteAll_ok_iff h0 order).mpr fun s hs => h s (hperm.mem_iff.mp hs)
      refine ⟨{ l with partitions := qs, leaderEpoch := epoch }, ?_, rfl,
        hlen.trans hperm.length_eq, hall⟩
      rw [becomeLeader, if_neg h0, if_neg hcl, if_neg hnew, hqs]
  rw [hretry]
  unfold Unstarted
  cases hparts : l.partitions with
  | nil =>
    rw [hparts] at hp
    cases hp
  | cons s rest =>
    rw [hparts, promoteAll] at hp
    rcases becomeLeader_cases h0 s faults.head?.join with
      ⟨hn, f, hb⟩ | ⟨hr, hwhy, t, hb, hcur⟩ | ⟨hr, hf, hlt, t, f, hb, ht⟩
    · rw [hb] at hp
      cases hp
      exact iff_of_false (fun h => hn (h s mem_cons_self)) (fun h => hn (h.1 s mem_cons_self))
    · rw [hb] at hp
      obtain ⟨rfl, -⟩ := Prod.mk.inj hp
      refine iff_of_false (fun h => ?_) (fun h => ?_)
      · have hbelow := (h t mem_cons_self).below
        omega
      · have hbelow := h.2.2 s rfl
        rcases hwhy with hwhy | hwhy
        · exact h.2.1 hwhy
        · omega
    · rw [hb] at hp
      cases hp
      simp [hr, hf, hlt, ht]

end TermLog

section Retrying
variable {S : Type} [SegmentStore S]

/-- A term that could not be recorded leaves the current epoch and the checkpoint
file as they were. Memory is left alone, and a call for the same term that succeeds
later records it at the head of the log, exactly if the history ends beyond the
head, so that no write was tried. A promotion of the whole log can be repeated
exactly if it failed at the write of its first partition. -/
theorem failed_terms_can_be_retried {s t : TermState S} {fault : Option FlushFault}
    {c : TermState.Call} {e : AssignErr} (h : s.call fault c = (t, .error (.assign e))) :
    (t.part.curEpoch = s.part.curEpoch ∧ t.checkpoint = s.checkpoint ∧
      ((t.part.epochs = s.part.epochs ∧
        ∀ (u v : TermState S) fault' (d : TermState.Call), u.part.epochs = t.part.epochs →
          u.part.curEpoch = t.part.curEpoch → d.epoch = c.epoch → d.AtHead u →
          u.call fault' d = (v, .ok ()) →
          v.part.epochs.entries = u.part.epochs.entries ++ [⟨c.epoch, u.part.nextSeq⟩] ∧
            v.checkpoint = v.part.epochs.entries ∧ v.part.curEpoch = c.epoch) ↔
        s.part.nextSeq < s.part.epochs.latest.2)) ∧
    ∀ (l l' : TermLog S) faults epoch topic id e',
      l.becomeLeader faults epoch = (l', .error (.promote topic id e')) →
      ((∀ order : List (TermState S), order.Perm l'.partitions →
        ∃ l'', { l' with partitions := order }.becomeLeader [] epoch = (l'', .ok ()) ∧
          l''.leaderEpoch = epoch ∧ l''.partitions.length = l'.partitions.length ∧
          ∀ s ∈ l''.partitions, s.part.curEpoch = epoch) ↔ l.Unstarted faults epoch) := by
  obtain ⟨hlt, ha⟩ := TermState.call_assign h
  obtain ⟨hdisk, hcur, hnew, hkept⟩ := TermState.assign_failed ha
  refine ⟨⟨hcur, hdisk, ?_⟩, fun l l' faults epoch topic id e' => TermLog.becomeLeader_retry⟩
  rw [← hkept]
  refine and_iff_left_of_imp fun he u v fault' d hep hce hd hh hv => ?_
  rw [← hd]
  exact TermState.call_records (by rw [hce, hd, hcur]; exact hlt)
    (by rw [hep, hd, he]; exact hnew) hh hv

end Retrying

def checkpointAhead : TermState FileSegment :=
  ⟨.fresh "chat" 0 Partition.smallSegments.applyDefaults ⟨[⟨1, 2⟩]⟩, [⟨1, 2⟩]⟩

def checkpointReached : TermState FileSegment :=
  { checkpointAhead with part := (checkpointAhead.part.append (.ofPayload [1]) 5).1 }

theorem failed_term_is_retried_at_head : ∃ v, checkpointAhead.call none (.becomeLeader 2) =
        (checkpointAhead, .error (.assign (.order 2 1 1 2))) ∧
      checkpointReached.call none (.becomeLeader 2) = (v, .ok ()) ∧
      v.part.epochs.entries = [⟨1, 2⟩, ⟨2, 2⟩] ∧ v.checkpoint = [⟨1, 2⟩, ⟨2, 2⟩] := by
  have hfail : checkpointAhead.call none (.becomeLeader 2) =
      (checkpointAhead, .error (.assign (.order 2 1 1 2))) := by decide +kernel
  have hok : checkpointReached.call none (.becomeLeader 2) =
      ((checkpointReached.call none (.becomeLeader 2)).1, .ok ()) := by decide +kernel
  obtain ⟨⟨_, _, hretry⟩, _⟩ := failed_terms_can_be_retried hfail
  obtain ⟨hentries, hdisk, _⟩ := (hretry.mpr (by decide +kernel)).2 checkpointReached _ none
    (.becomeLeader 2) (by decide +kernel) (by decide +kernel) rfl trivial hok
  have hseen : checkpointReached.part.epochs.entries ++ [⟨2, checkpointReached.part.nextSeq⟩] =
      [⟨1, 2⟩, ⟨2, 2⟩] := by decide +kernel
  refine ⟨_, hfail, hok, hentries.trans hseen, ?_⟩
  rw [hdisk]
  exact hentries.trans hseen

def unwrittenTerm : TermState FileSegment :=
  (TermState.call ⟨Partition.freshFiles, []⟩ (some .write) (.becomeLeader 1)).1

def unwrittenTermRetried : TermState FileSegment × Except TermFail Unit :=
  { unwrittenTerm with part := (unwrittenTerm.part.append (.ofPayload [1]) 5).1 }.call none
    (.becomeLeader 1)

def twoPartitions : TermLog FileSegment :=
  ⟨[⟨Partition.freshFiles, []⟩, ⟨{ Partition.freshFiles with id := 1 }, []⟩], false, 0⟩

def halfPromoted : TermLog FileSegment := (twoPartitions.becomeLeader [none, some .write] 1).1

/-- A checkpoint that cannot be written leaves the term in memory; the retry then
succeeds, with the old start and without writing the file. And of a log whose
second partition failed the first one refuses every retry. -/
theorem failed_checkpoint_breaks_retry :
    (TermState.call ⟨Partition.freshFiles, []⟩ (some .write) (.becomeLeader 1)).2 =
        .error (.assign (.checkpoint .write)) ∧
    unwrittenTerm.part.epochs.entries = [⟨1, 1⟩] ∧ unwrittenTerm.part.curEpoch = 0 ∧
    unwrittenTermRetried.2 = .ok () ∧ unwrittenTermRetried.1.part.nextSeq = 2 ∧
    unwrittenTermRetried.1.part.epochs.entries = [⟨1, 1⟩] ∧ unwrittenTermRetried.1.checkpoint = [] ∧
    (twoPartitions.becomeLeader [none, some .write] 1).2 =
        .error (.promote "chat" 1 (.assign (.checkpoint .write))) ∧ halfPromoted.becomeLeader [] 1 =
        (halfPromoted, .error (.promote "chat" 0 (.call (.epochNotNewer 1 1)))) ∧
    halfPromoted.partitions.map (fun s => s.part.curEpoch) = [1, 0] := by
  decide +kernel

end Boltq.Stream
