import Boltq.Stream.ConcurrentReads

namespace Boltq.Stream
open Lib LawfulSegmentStore List Boltq.Stream.Partition Function

inductive WriteCall where
  | append (rec : Record)
  | appendReplicated (rec : Record)
  | appendBatch (recs : List Record)
  deriving DecidableEq

inductive Phase where
  | idle
  | batching (now : Int) (rest : List Record)
  | written
  | synced
  | returned (ok : Bool)
  deriving DecidableEq

structure Writer where
  phase : Phase := .idle
  made : List Nat := []
  deriving DecidableEq

structure Waiter where
  channel : Nat
  call : ReadCall := .idle
  late : List (Nat × Nat) := []
  deriving DecidableEq

inductive WakeOp where
  | acquire (i : Nat)
  | read (i fromSeq : Nat) (maxRecords maxBytes : Int)
  | next (i : Nat)
  | call (k : Nat) (c : WriteCall) (now : Int)
  | write (k : Nat)
  | fail (k : Nat) (roll : Option Nat)
  | sync (k : Nat) (ok : Bool)
  | broadcast (k : Nat)
  deriving DecidableEq

structure Wakes (S : Type) where
  part : Partition S
  syncOnAppend : Bool
  channel : Nat
  locked : Option Nat
  calls : Nat → Writer
  readers : Nat → Option Waiter

namespace Wakes
variable {S : Type}

def setReader (w : Wakes S) (i : Nat) (r : Waiter) : Wakes S :=
  { w with readers := Function.update w.readers i (some r) }

theorem setReader_cases {w : Wakes S} (h : (w.setReader i r).readers j = some r') :
    j = i ∧ r' = r ∨ w.readers j = some r' := by
  by_cases hji : j = i
  · subst hji
    have hself : (w.setReader j r).readers j = some r := update_self j _ _
    rw [hself] at h
    exact .inl ⟨rfl, (Option.some.inj h).symm⟩
  · have hother : (w.setReader i r).readers j = w.readers j := update_of_ne hji _ _
    rw [hother] at h
    exact .inr h

end Wakes

section Steps
variable {S : Type} [LawfulSegmentStore S]

def arrived (p q : Partition S) : List Nat :=
  (q.records.map Record.seq).filter (fun n => n ∉ p.records.map Record.seq)

theorem arrived_self (p : Partition S) : arrived p p = [] := by
  unfold arrived
  rw [filter_eq_nil_iff]
  intro n hn
  simp [hn]

theorem Partition.appendReplicated_replay {p : Partition S} {rec : Record}
    (hlt : rec.seq < p.nextSeq) : (p.appendReplicated rec).1 = p := by
  unfold appendReplicated
  split
  · rfl
  split
  · rfl
  split
  · rfl
  · rfl

namespace Wakes

def start (p : Partition S) (syncOnAppend : Bool) : Wakes S :=
  ⟨p, syncOnAppend, 0, none, fun _ => {}, fun _ => none⟩

section
variable (w : Wakes S)

def advance (k : Nat) (part : Partition S) (phase : Phase) (locked : Option Nat) : Wakes S :=
  { w with
    part
    locked
    calls := Function.update w.calls k ⟨phase, (w.calls k).made ++ arrived w.part part⟩
    readers := fun i => (w.readers i).map (fun r =>
      { r with late := r.late ++ (arrived w.part part).map (fun seq => (k, seq)) }) }

def enter (k : Nat) (now : Int) : WriteCall → Wakes S
  | .append rec =>
    match w.part.append rec now with
    | (q, .error _) => w.advance k q (.returned false) none
    | (q, .ok _) => w.advance k q .written none
  | .appendReplicated rec =>
    match w.part.appendReplicated rec with
    | (q, .error _) => w.advance k q (.returned false) none
    | (q, .ok _) =>
      w.advance k q (if rec.seq < w.part.nextSeq then .returned true else .written) none
  | .appendBatch recs =>
    if recs = [] then w.advance k w.part (.returned true) none
    else if w.part.closed then w.advance k w.part (.returned false) none
    else if w.part.enforceLeadership ∧ w.part.isLeader = false then
      w.advance k w.part (.returned false) none
    else w.advance k w.part (.batching now recs) (some k)

def batchNext (k : Nat) (now : Int) : List Record → Wakes S
  | [] => w.advance k w.part .written none
  | rec :: rest =>
    match Partition.appendEach now [rec] w.part [] with
    | (q, .error _) => w.advance k q (.returned false) none
    | (q, .ok _) => w.advance k q (.batching now rest) (some k)

def failed : Option Nat → Partition S
  | none => w.part
  | some n => w.part.makeRoom w.part.nextSeq n

def step : WakeOp → Option (Wakes S)
  | .acquire i => some (w.setReader i ⟨w.channel, .idle, []⟩)
  | .read i fromSeq maxRecords maxBytes =>
    match w.readers i, w.locked with
    | some r, none =>
      if r.call = .idle then
        some (w.setReader i { r with call := w.part.startRead 0 fromSeq maxRecords maxBytes })
      else none
    | _, _ => none
  | .next i =>
    match w.readers i with
    | some r =>
      match r.call with
      | .going c => some (w.setReader i { r with
          call := c.next (fun j => w.part.segments[j]?) (fun _ => SegmentStore.read) })
      | _ => none
    | none => none
  | .call k c now =>
    if (w.calls k).phase = .idle ∧ w.locked = none then some (w.enter k now c) else none
  | .write k =>
    match (w.calls k).phase with
    | .batching now rest => some (w.batchNext k now rest)
    | _ => none
  | .fail k roll =>
    match (w.calls k).phase with
    | .idle => if w.locked = none then some (w.advance k (w.failed roll) (.returned false) none) else none
    | .batching _ _ => some (w.advance k (w.failed roll) (.returned false) none)
    | _ => none
  | .sync k ok =>
    if (w.calls k).phase = .written ∧ w.syncOnAppend then
      some (w.advance k w.part (if ok then .synced else .returned false) w.locked)
    else none
  | .broadcast k =>
    if (w.calls k).phase = .synced ∨ (w.calls k).phase = .written ∧ w.syncOnAppend = false then
      some { w.advance k w.part (.returned true) w.locked with channel := w.channel + 1 }
    else none

def Step (op : WakeOp) (w' : Wakes S) : Prop := w.step op = some w'

def caller : WakeOp → Option Nat
  | .call k _ _ | .write k | .fail k _ | .sync k _ | .broadcast k => some k
  | .acquire _ | .read _ _ _ _ | .next _ => none

/-- A call that returns without waking anybody has written nothing. -/
def Announced (op : WakeOp) : Prop :=
  ∀ w' ∈ w.step op, ∀ k ∈ caller op,
    (w'.calls k).phase = .returned false → (w'.calls k).made = []
  deriving Decidable

end

variable {w w' : Wakes S} {k : Nat}

structure Advances (w : Wakes S) (k : Nat) (part : Partition S) (phase : Phase) : Prop where
  busy : phase ≠ .idle
  idle : phase = .returned true → part = w.part ∧ (w.calls k).phase = .idle

theorem enter_advances (hi : (w.calls k).phase = .idle) (now : Int) (c : WriteCall) :
    ∃ part phase locked, w.enter k now c = w.advance k part phase locked ∧
      Advances w k part phase := by
  cases c with
  | append rec =>
    rw [enter]
    generalize w.part.append rec now = res
    obtain ⟨q, err⟩ := res
    cases err with
    | error e => exact ⟨q, _, _, rfl, nofun, nofun⟩
    | ok seq => exact ⟨q, _, _, rfl, nofun, nofun⟩
  | appendReplicated rec =>
    have hreplay : rec.seq < w.part.nextSeq → (w.part.appendReplicated rec).1 = w.part :=
      appendReplicated_replay
    rw [enter]
    generalize w.part.appendReplicated rec = res at hreplay
    obtain ⟨q, err⟩ := res
    cases err with
    | error e => exact ⟨q, _, _, rfl, nofun, nofun⟩
    | ok _ =>
      refine ⟨q, _, _, rfl, ?_, ?_⟩
      · split <;> nofun
      split
      · rename_i hlt
        exact fun _ => ⟨hreplay hlt, hi⟩
      · nofun
  | appendBatch recs =>
    rw [enter]
    split
    · exact ⟨_, _, _, rfl, nofun, fun _ => ⟨rfl, hi⟩⟩
    split
    · exact ⟨_, _, _, rfl, nofun, nofun⟩
    split
    · exact ⟨_, _, _, rfl, nofun, nofun⟩
    · exact ⟨_, _, _, rfl, nofun, nofun⟩

theorem batchNext_advances (now : Int) (rest : List Record) :
    ∃ part phase locked, w.batchNext k now rest = w.advance k part phase locked ∧
      Advances w k part phase := by
  cases rest with
  | nil => exact ⟨_, _, _, rfl, nofun, nofun⟩
  | cons rec rest =>
    rw [batchNext]
    generalize appendEach now [rec] w.part [] = res
    obtain ⟨q, err⟩ := res
    cases err with
    | error e => exact ⟨q, _, _, rfl, nofun, nofun⟩
    | ok seqs => exact ⟨q, _, _, rfl, nofun, nofun⟩

theorem step_cases (hs : Step w op w') : (∃ i r, w' = w.setReader i r ∧
      (r.channel = w.channel ∧ r.late = [] ∨
        ∃ r₀, w.readers i = some r₀ ∧ r.channel = r₀.channel ∧ r.late = r₀.late)) ∨
    (∃ k part phase locked, caller op = some k ∧ w' = w.advance k part phase locked ∧
      Advances w k part phase) ∨
    ∃ k, w' = { w.advance k w.part (.returned true) w.locked with channel := w.channel + 1 } := by
  unfold Step step at hs
  cases op with
  | acquire i =>
    cases hs
    exact .inl ⟨i, _, rfl, .inl ⟨rfl, rfl⟩⟩
  | read i fromSeq maxRecords maxBytes =>
    dsimp only at hs
    split at hs
    · rename_i r hr _
      split at hs
      · cases hs
        exact .inl ⟨i, _, rfl, .inr ⟨r, hr, rfl, rfl⟩⟩
      · cases hs
    · cases hs
  | next i =>
    dsimp only at hs
    split at hs
    · rename_i r hr
      split at hs
      · cases hs
        exact .inl ⟨i, _, rfl, .inr ⟨r, hr, rfl, rfl⟩⟩
      · cases hs
    · cases hs
  | call k c now =>
    dsimp only at hs
    split at hs
    · rename_i hi
      cases hs
      obtain ⟨part, phase, locked, heq, hadv⟩ := enter_advances hi.1 now c
      exact .inr (.inl ⟨k, part, phase, locked, rfl, heq, hadv⟩)
    · cases hs
  | write k =>
    dsimp only at hs
    split at hs
    · rename_i now rest _
      cases hs
      obtain ⟨part, phase, locked, heq, hadv⟩ := batchNext_advances (w := w) (k := k) now rest
      exact .inr (.inl ⟨k, part, phase, locked, rfl, heq, hadv⟩)
    · cases hs
  | fail k roll =>
    dsimp only at hs
    split at hs
    · split at hs
      · cases hs
        exact .inr (.inl ⟨k, _, _, _, rfl, rfl, nofun, nofun⟩)
      · cases hs
    · cases hs
      exact .inr (.inl ⟨k, _, _, _, rfl, rfl, nofun, nofun⟩)
    · cases hs
  | sync k ok =>
    dsimp only at hs
    split at hs
    · cases hs
      refine .inr (.inl ⟨k, _, _, _, rfl, rfl, ?_, ?_⟩)
      · split <;> nofun
      · split <;> nofun
    · cases hs
  | broadcast k =>
    dsimp only at hs
    split at hs
    · cases hs
      exact .inr (.inr ⟨k, rfl⟩)
    · cases hs

structure Noted (w : Wakes S) : Prop where
  channels : ∀ i r, w.readers i = some r → r.channel ≤ w.channel
  quiet : ∀ k, (w.calls k).phase = .idle → (w.calls k).made = []
  made : ∀ i r, w.readers i = some r → ∀ x ∈ r.late, (w.calls x.1).made ≠ []

def Woken (w : Wakes S) : Prop :=
  ∀ i r, w.readers i = some r → ∀ x ∈ r.late, ∀ ok, (w.calls x.1).phase = .returned ok →
    r.channel < w.channel

theorem advance_reader {part : Partition S} {phase : Phase} {locked : Option Nat} {i : Nat}
    {r : Waiter} (h : (w.advance k part phase locked).readers i = some r) :
    ∃ r₀, w.readers i = some r₀ ∧ r.channel = r₀.channel ∧
      r.late = r₀.late ++ (arrived w.part part).map (fun seq => (k, seq)) := by
  obtain ⟨r₀, hr, rfl⟩ := Option.map_eq_some_iff.mp h
  exact ⟨r₀, hr, rfl, rfl⟩

theorem advance_same (w : Wakes S) (k : Nat) (part : Partition S) (phase : Phase)
    (locked : Option Nat) : (w.advance k part phase locked).calls k =
      ⟨phase, (w.calls k).made ++ arrived w.part part⟩ := update_self k _ _

theorem advance_other (h : j ≠ k) (part : Partition S) (phase : Phase) (locked : Option Nat) :
    (w.advance k part phase locked).calls j = w.calls j :=
  update_of_ne h _ _

theorem Noted.advance (h : Noted w) (k : Nat) (part : Partition S) (hb : phase ≠ .idle)
    (locked : Option Nat) : Noted (w.advance k part phase locked) := by
  refine ⟨fun i r hr => ?_, fun j hj => ?_, fun i r hr x hx => ?_⟩
  · obtain ⟨r₀, hr₀, hc, _⟩ := advance_reader hr
    rw [hc]
    exact h.channels i r₀ hr₀
  · by_cases hjk : j = k
    · subst hjk
      rw [advance_same] at hj
      exact absurd hj hb
    · rw [advance_other hjk] at hj ⊢
      exact h.quiet j hj
  · obtain ⟨r₀, hr₀, _, hl⟩ := advance_reader hr
    rw [hl] at hx
    by_cases hxk : x.1 = k
    · rw [hxk, advance_same]
      rcases mem_append.mp hx with hold | hnew
      · have hmade := h.made i r₀ hr₀ x hold
        rw [hxk] at hmade
        exact append_ne_nil_of_left_ne_nil hmade _
      · obtain ⟨seq, hseq, _⟩ := mem_map.mp hnew
        exact append_ne_nil_of_right_ne_nil _ (ne_nil_of_mem hseq)
    · rw [advance_other hxk]
      rcases mem_append.mp hx with hold | hnew
      · exact h.made i r₀ hr₀ x hold
      · obtain ⟨seq, _, rfl⟩ := mem_map.mp hnew
        exact absurd rfl hxk

theorem Woken.advance (hn : Noted w) (h : Woken w) {part : Partition S} {phase : Phase}
    (hb : phase ≠ .idle) (locked : Option Nat)
    (hret : ∀ ok, phase = .returned ok → (w.calls k).made ++ arrived w.part part = []) :
    Woken (w.advance k part phase locked) := by
  intro i r hr x hx ok hphase
  have hmade := (hn.advance k part hb locked).made i r hr x hx
  by_cases hxk : x.1 = k
  · rw [hxk, advance_same] at hphase hmade
    exact absurd (hret ok hphase) hmade
  rw [advance_other hxk] at hphase
  obtain ⟨r₀, hr₀, hc, hl⟩ := advance_reader hr
  rw [hl] at hx
  rcases mem_append.mp hx with hold | hnew
  · rw [hc]
    exact h i r₀ hr₀ x hold ok hphase
  · obtain ⟨seq, _, rfl⟩ := mem_map.mp hnew
    exact absurd rfl hxk

omit [LawfulSegmentStore S] in
theorem Noted.setReader (h : Noted w) (i : Nat) {r : Waiter} (hc : r.channel ≤ w.channel)
    (hm : ∀ x ∈ r.late, (w.calls x.1).made ≠ []) : Noted (w.setReader i r) := by
  refine ⟨fun j r' hj => ?_, h.quiet, fun j r' hj x hx => ?_⟩
  · rcases setReader_cases hj with ⟨_, rfl⟩ | hj
    · exact hc
    · exact h.channels j r' hj
  · rcases setReader_cases hj with ⟨_, rfl⟩ | hj
    · exact hm x hx
    · exact h.made j r' hj x hx

omit [LawfulSegmentStore S] in
theorem Woken.setReader (h : Woken w) (i : Nat) {r : Waiter} (hr : ∀ x ∈ r.late, ∀ ok,
    (w.calls x.1).phase = .returned ok → r.channel < w.channel) : Woken (w.setReader i r) := by
  intro j r' hj x hx
  rcases setReader_cases hj with ⟨_, rfl⟩ | hj
  · exact hr x hx
  · exact h j r' hj x hx

theorem awake_step (hn : Noted w) (hw : Woken w) (ha : w.Announced op) (hs : Step w op w') :
    Noted w' ∧ Woken w' := by
  rcases step_cases hs with ⟨i, r, rfl, hr⟩ | ⟨k, part, phase, locked, hk, rfl, hadv⟩ | ⟨k, rfl⟩
  · rcases hr with ⟨hc, hl⟩ | ⟨r₀, hr₀, hc, hl⟩
    · have hnone : ∀ {P : Nat × Nat → Prop}, ∀ x ∈ r.late, P x := by
        rw [hl]
        exact forall_mem_nil _
      exact ⟨hn.setReader i (Nat.le_of_eq hc) hnone, hw.setReader i hnone⟩
    · have hchannel := hn.channels i r₀ hr₀
      have hmade := hn.made i r₀ hr₀
      have hwoken := hw i r₀ hr₀
      rw [← hc] at hchannel hwoken
      rw [← hl] at hmade hwoken
      exact ⟨hn.setReader i hchannel hmade, hw.setReader i hwoken⟩
  · refine ⟨hn.advance k part hadv.busy locked, hw.advance hn hadv.busy locked (fun ok hok => ?_)⟩
    cases ok with
    | false =>
      have hend := ha _ hs k hk
      rw [advance_same] at hend
      exact hend hok
    | true =>
      obtain ⟨rfl, hidle⟩ := hadv.idle hok
      rw [hn.quiet k hidle, arrived_self, append_nil]
  · -- every reader's channel is the one just closed or an earlier one
    have hnext : Noted (w.advance k w.part (.returned true) w.locked) :=
      hn.advance k w.part (by decide : Phase.returned true ≠ .idle) w.locked
    refine ⟨⟨fun j r hj => ?_, hnext.quiet, hnext.made⟩, fun j r hj x _ _ _ => ?_⟩
    · exact Nat.le_succ_of_le (hnext.channels j r hj)
    · exact Nat.lt_succ_of_le (hnext.channels j r hj)

/-- While no call ends in an error after it made a record readable: whenever a
record becomes readable after a reader acquired its channel, and so also after the
reader's read came back empty, that channel is closed once the call that wrote the
record is back. -/
theorem late_records_close_the_channel {p : Partition S} {syncOnAppend : Bool} {ops : List WakeOp}
    (hr : Run Step Announced (start p syncOnAppend) ops w) {i k seq : Nat} {r : Waiter}
    (hreader : w.readers i = some r) (hlate : (k, seq) ∈ r.late) {ok : Bool}
    (hback : (w.calls k).phase = .returned ok) : r.channel < w.channel := by
  have h : Noted w ∧ Woken w := hr.invariant (fun w => Noted w ∧ Woken w)
    ⟨⟨nofun, fun _ _ => rfl, nofun⟩, nofun⟩ (fun _ _ _ h ha hs => awake_step h.1 h.2 ha hs)
  exact h.2 i r hreader (k, seq) hlate ok hback

def waitForFirst : List WakeOp := [.acquire 0, .read 0 1 10 0, .next 0, .next 0]

def WaitsForWritten (ok : Bool) (w : Wakes FileSegment) : Prop :=
  ∃ r ∈ w.readers 0, r.call = .done 1 [] none ∧ (0, 1) ∈ r.late ∧
    (w.calls 0).phase = .returned ok
  deriving Decidable

theorem append_closes_the_channel : ∃ (w : Wakes FileSegment) (r : Waiter), Run Step Announced
        (start Partition.freshFiles false)
        (waitForFirst ++ [.call 0 (.append (.ofPayload [1])) 5, .broadcast 0]) w ∧
      w.readers 0 = some r ∧ r.call = .done 1 [] none ∧ (0, 1) ∈ r.late ∧
      r.channel < w.channel := by
  obtain ⟨w, hrun, r, hr, hempty, hlate, hback⟩ := Run.executed Announced step
    (start freshFiles false)
    (waitForFirst ++ [.call 0 (.append (.ofPayload [1])) 5, .broadcast 0])
    (WaitsForWritten true) (by decide +kernel)
  exact ⟨w, r, hrun, hr, hempty, hlate, late_records_close_the_channel hrun hr hlate hback⟩

/-- A batch whose second record is refused, and an append whose sync fails, leave
a record that can be read and the reader waiting on an open channel. -/
theorem failed_calls_lose_the_wakeup :
    (∃ w : Wakes FileSegment, Run Step always (start Partition.freshFiles false)
        (waitForFirst ++ [.call 0 (.appendBatch [.ofPayload [1],
          { Record.ofPayload [2] with flags := flagEphemeral }]) 5, .write 0, .write 0]) w ∧
      WaitsForWritten false w ∧ (∀ r ∈ w.readers 0, ¬ r.channel < w.channel) ∧
      (w.part.read 1 10 0).1.length = 1) ∧
    ∃ w : Wakes FileSegment, Run Step always (start Partition.freshFiles true)
        (waitForFirst ++ [.call 0 (.append (.ofPayload [1])) 5, .sync 0 false]) w ∧
      WaitsForWritten false w ∧ (∀ r ∈ w.readers 0, ¬ r.channel < w.channel) ∧
      (w.part.read 1 10 0).1.length = 1 := by
  constructor
  · exact Run.found _ (by decide +kernel)
  · exact Run.found _ (by decide +kernel)

end Wakes
end Steps

end Boltq.Stream
