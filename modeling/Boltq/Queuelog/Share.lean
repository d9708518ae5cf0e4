import Boltq.Lib.Tables
import Boltq.Stream.Refinement

namespace Boltq.Queuelog
open Lib Boltq.Stream Std

inductive DeliveryState where
  | available
  | acquired
  deriving DecidableEq

structure Entry where
  record : Record
  state : DeliveryState := .available
  count : Nat := 0
  deadline : Int := 0
  holder : String := ""
  deriving DecidableEq

structure Delivery where
  topic : String
  partition : Int
  seq : Nat
  record : Record
  count : Nat
  consumer : String
  deadline : Int
  deriving DecidableEq

inductive ShareErr where
  | closed
  | unknownDelivery (topic : String) (partition : Int) (seq : Nat)
  | notLeased (topic : String) (partition : Int) (seq : Nat)
  | notHolder (topic : String) (partition : Int) (seq : Nat) (holder : String)
  | log (e : Err)
  deriving DecidableEq

abbrev DeadLetterFunc := Record → String → Bool

structure ShareConfig where
  group : String := ""
  ackTimeout : Int := 0
  maxDelivery : Int := 0
  maxInFlight : Int := 0
  deadLetter : Bool := false
  deriving DecidableEq

def ShareConfig.applyDefaults (c : ShareConfig) : ShareConfig :=
  { c with
    ackTimeout := if c.ackTimeout ≤ 0 then 30000000000 else c.ackTimeout
    maxDelivery := if c.maxDelivery ≤ 0 then 5 else c.maxDelivery
    maxInFlight := if c.maxInFlight ≤ 0 then 1000 else c.maxInFlight }

theorem ShareConfig.applyDefaults_pos (c : ShareConfig) :
    0 < c.applyDefaults.ackTimeout ∧ 0 < c.applyDefaults.maxDelivery ∧
      0 < c.applyDefaults.maxInFlight := by
  simp only [applyDefaults]
  refine ⟨?_, ?_, ?_⟩
  · split <;> omega
  · split <;> omega
  · split <;> omega

structure Cursor where
  position : Option Nat := none
  closed : Bool := false
  deriving DecidableEq

def Cursor.commit (c : Cursor) (seq : Nat) : Cursor × Option ShareErr :=
  if c.closed then (c, some .closed)
  else if c.position.any (fun cur => decide (seq ≤ cur)) then (c, none)
  else ({ c with position := some seq }, none)

def Cursor.positionOr (c : Cursor) (seq : Nat) : Nat := c.position.getD seq

structure Log extends SeqLog where
  positive : 0 < first
  numbered : Dense first records

structure LogView where
  log : Log
  readFrom : Nat → Int → Except Err (List Record)
  served : ∀ {seq want out}, readFrom seq want = .ok out → 0 < seq → 0 < want →
    log.first ≤ seq ∧ out <+: log.records.drop (seq - log.first) ∧ (out.length : Int) ≤ want

def Log.view (l : Log) : LogView where
  log := l
  readFrom seq want :=
    if seq < l.first then .error (.seqTruncated seq l.first)
    else .ok ((l.records.drop (seq - l.first)).take want.toNat)
  served := by
    intro seq want out hr _ hw
    split at hr
    · cases hr
    cases hr
    refine ⟨by omega, List.take_prefix _ _, ?_⟩
    have := List.length_take_le want.toNat (l.records.drop (seq - l.first))
    omega

def oneRecord (payload : UInt8) : Log where
  first := 1
  records := [{ Record.ofPayload [payload] with seq := 1 }]
  positive := Nat.one_pos
  numbered := by
    intro i r hr
    cases i with
    | zero =>
      cases hr
      rfl
    | succ i => cases hr

def readBudget : Int := 4 * 2 ^ 20

section Views
variable {S : Type} [LawfulSegmentStore S] {p : Partition S}

def readFrom (p : Partition S) (seq : Nat) (want : Int) : Except Err (List Record) :=
  match p.read seq want readBudget with
  | (out, none) => .ok out
  | (_, some e) => .error e

theorem readFrom_served (h : p.Open) {seq : Nat} {want : Int} {out : List Record}
    (hr : readFrom p seq want = .ok out) (hs : 0 < seq) (hw : 0 < want) : p.firstSeq ≤ seq ∧
      out <+: p.records.drop (seq - p.firstSeq) ∧ (out.length : Int) ≤ want := by
  have hlow : p.firstSeq ≤ seq := by
    apply Nat.le_of_not_lt
    intro hlt
    have hne : seq ≠ 0 := Nat.pos_iff_ne_zero.mp hs
    simp [readFrom, Partition.read, h.closed, hne, hlt] at hr
  obtain ⟨taken, htaken, hserved⟩ := h.read hlow want readBudget
  simp only [readFrom, htaken, Except.ok.injEq] at hr
  subst hr
  have hmost := hserved.most
  rw [if_neg (by omega)] at hmost
  exact ⟨hlow, hserved.run, by omega⟩

/-- An open partition is such a view of its own records. -/
def viewOf (p : Partition S) (h : p.Open) : LogView where
  log := { p.log with positive := h.wf.first_pos, numbered := h.wf.dense }
  readFrom := readFrom p
  served := readFrom_served h

end Views

def heapPush (seq : Nat) : List Nat → List Nat
  | [] => [seq]
  | s :: heap => if seq ≤ s then seq :: s :: heap else s :: heapPush seq heap

@[simp] theorem mem_heapPush : s ∈ heapPush seq heap ↔ s = seq ∨ s ∈ heap := by
  induction heap with
  | nil => simp [heapPush]
  | cons x heap ih =>
    simp only [heapPush]
    split
    · simp
    · simp only [List.mem_cons, ih]
      exact or_left_comm

structure SharePartition where
  topic : String
  id : Int
  cfg : ShareConfig
  cursors : Option Cursor
  base : Nat
  next : Nat
  entries : TreeMap Nat Entry := ∅
  retired : TreeSet Nat := ∅
  available : List Nat := []
  closed : Bool := false
  delivered : Nat := 0
  acked : Nat := 0
  nacked : Nat := 0
  expired : Nat := 0
  dlqCount : Nat := 0
  done : List Nat := []

def openSharePartition (topic : String) (id : Int) (first : Nat) (cursors : Option Cursor)
    (cfg : ShareConfig) : SharePartition :=
  let base := cursors.elim first (fun c => c.positionOr first)
  let base := if base < first then first else base
  { topic, id, cursors, base, cfg := cfg.applyDefaults, next := base }

namespace SharePartition

def commit (sp : SharePartition) : SharePartition × Option ShareErr :=
  match sp.cursors with
  | none => (sp, none)
  | some c => ({ sp with cursors := some (c.commit sp.base).1 }, (c.commit sp.base).2)

def slide : Nat → Nat → TreeSet Nat → Nat × TreeSet Nat
  | 0, base, retired => (base, retired)
  | fuel+1, base, retired =>
    if base ∈ retired then slide fuel (base + 1) (retired.erase base) else (base, retired)

section
variable (sp : SharePartition)

def advance : SharePartition × Option ShareErr :=
  let moved := slide sp.retired.size sp.base sp.retired
  if moved.1 = sp.base then (sp, none)
  else { sp with base := moved.1, retired := moved.2 }.commit

def lease (seq : Nat) (e : Entry) (consumer : String) (now : Int) : SharePartition × Delivery :=
  let e := { e with
    state := .acquired
    count := e.count + 1
    holder := consumer
    deadline := now + sp.cfg.ackTimeout }
  ({ sp with entries := sp.entries.insert seq e },
    { topic := sp.topic, partition := sp.id, seq, record := e.record, count := e.count, consumer,
      deadline := e.deadline })

def release (seq : Nat) (e : Entry) : SharePartition :=
  { sp with
    entries := sp.entries.insert seq { e with state := .available, holder := "", deadline := 0 }
    available := heapPush seq sp.available }

def retire (seq : Nat) : SharePartition :=
  { sp with
    entries := sp.entries.erase seq
    retired := sp.retired.insert seq
    done := seq :: sp.done }

end

def deadLetter (sp : SharePartition) (route : DeadLetterFunc) (seq : Nat) (e : Entry)
    (reason : String) : SharePartition :=
  if sp.cfg.deadLetter && !route e.record reason then sp.release seq e
  else { sp with dlqCount := sp.dlqCount + 1 }.retire seq

def Exhausted (sp : SharePartition) (e : Entry) : Prop :=
  0 < sp.cfg.maxDelivery ∧ sp.cfg.maxDelivery ≤ e.count
  deriving Decidable

def reapOne (route : DeadLetterFunc) (now : Int) (sp : SharePartition) (seq : Nat) (e : Entry) :
    SharePartition :=
  if e.state ≠ .acquired ∨ now < e.deadline then sp
  else
    let sp := { sp with expired := sp.expired + 1 }
    if sp.Exhausted e then
      sp.deadLetter route seq e s!"lease expired after {e.count} deliveries"
    else sp.release seq e

def reapExpired (sp : SharePartition) (route : DeadLetterFunc) (now : Int) : SharePartition :=
  (sp.entries.toList.foldl (fun sp x => reapOne route now sp x.1 x.2) sp).advance.1

def skipTo (sp : SharePartition) (seq : Nat) : SharePartition :=
  if seq ≤ sp.base then sp
  else
    { sp with
      entries := sp.entries.filter (fun s _ => decide (seq ≤ s))
      retired := sp.retired.filter (fun s => decide (seq ≤ s))
      base := seq
      next := if sp.next < seq then seq else sp.next }.commit.1

def redeliver (consumer : String) (max : Nat) (now : Int) :
    List Nat → SharePartition → List Delivery → SharePartition × List Delivery
  | [], sp, out => ({ sp with available := [] }, out)
  | seq :: heap, sp, out =>
    if max ≤ out.length then ({ sp with available := seq :: heap }, out)
    else
      match sp.entries[seq]? with
      | none => redeliver consumer max now heap sp out
      | some e =>
        if e.state = .available then
          let (sp, d) := sp.lease seq e consumer now
          redeliver consumer max now heap sp (out ++ [d])
        else redeliver consumer max now heap sp out

def enter (consumer : String) (now : Int) (sp : SharePartition) (r : Record) :
    SharePartition × Delivery :=
  { sp with
    entries := sp.entries.insert r.seq { record := r }
    next := if sp.next ≤ r.seq then r.seq + 1 else sp.next }.lease r.seq { record := r } consumer now

def enterAll (consumer : String) (max : Nat) (now : Int) :
    List Record → SharePartition → List Delivery → SharePartition × List Delivery
  | [], sp, out => (sp, out)
  | r :: recs, sp, out =>
    if max ≤ out.length then (sp, out)
    else
      let (sp, d) := enter consumer now sp r
      enterAll consumer max now recs sp (out ++ [d])

def room (sp : SharePartition) : Int := sp.cfg.maxInFlight - ((sp.next : Int) - sp.base)

def finish (sp : SharePartition) (out : List Delivery) :
    SharePartition × Except ShareErr (List Delivery) :=
  ({ sp with delivered := sp.delivered + out.length }, .ok out)

def readFresh (consumer : String) (max : Nat) (now : Int) :
    List LogView → SharePartition → List Delivery →
      Option (SharePartition × Except ShareErr (List Delivery))
  | [], sp, out => if max ≤ out.length ∨ sp.room ≤ 0 then some (sp.finish out) else none
  | view :: views, sp, out =>
    if max ≤ out.length ∨ sp.room ≤ 0 then some (sp.finish out)
    else
      match view.readFrom sp.next (min (max - out.length : Nat) sp.room) with
      | .error (.seqTruncated _ _) =>
        match views with
        | [] => none
        | later :: views => readFresh consumer max now views (sp.skipTo later.log.first) out
      | .error e => some (sp, if out = [] then .error (.log e) else .ok out)
      | .ok [] => some (sp.finish out)
      | .ok recs =>
        let (sp, out) := enterAll consumer max now recs sp out
        readFresh consumer max now views sp out

section
variable (sp : SharePartition)

def acquire (route : DeadLetterFunc) (views : List LogView)
    (consumer : String) (max : Int) (now : Int) :
    Option (SharePartition × Except ShareErr (List Delivery)) :=
  if max ≤ 0 then some (sp, .ok [])
  else if sp.closed then some (sp, .error .closed)
  else
    let sp := sp.reapExpired route now
    let (sp, out) := redeliver consumer max.toNat now sp.available sp []
    readFresh consumer max.toNat now views sp out

def ack (consumer : String) (seq : Nat) : SharePartition × Option ShareErr :=
  if sp.closed then (sp, some .closed)
  else
    match sp.entries[seq]? with
    | none => (sp, some (.unknownDelivery sp.topic sp.id seq))
    | some e =>
      if e.state ≠ .acquired then (sp, some (.notLeased sp.topic sp.id seq))
      else if e.holder ≠ consumer then (sp, some (.notHolder sp.topic sp.id seq e.holder))
      else { sp.retire seq with acked := sp.acked + 1 }.advance

def nack (route : DeadLetterFunc) (consumer : String) (seq : Nat)
    (requeue : Bool) : SharePartition × Option ShareErr :=
  if sp.closed then (sp, some .closed)
  else
    match sp.entries[seq]? with
    | none => (sp, some (.unknownDelivery sp.topic sp.id seq))
    | some e =>
      if e.state ≠ .acquired then (sp, some (.unknownDelivery sp.topic sp.id seq))
      else if e.holder ≠ consumer then (sp, some (.notHolder sp.topic sp.id seq e.holder))
      else
        let sp := { sp with nacked := sp.nacked + 1 }
        if !requeue then (sp.deadLetter route seq e "rejected by consumer").advance
        else if sp.Exhausted e then
          (sp.deadLetter route seq e s!"delivered {e.count} times without ack").advance
        else (sp.release seq e, none)

def sweep (route : DeadLetterFunc) (now : Int) : SharePartition :=
  if sp.closed then sp else sp.reapExpired route now

end

def releaseOne (held : String → Bool) (sp : SharePartition) (seq : Nat) (e : Entry) :
    SharePartition :=
  if e.state = .acquired ∧ held e.holder then sp.release seq e else sp

def releaseWhere (sp : SharePartition) (held : String → Bool) : SharePartition × Nat :=
  (sp.entries.toList.foldl (fun sp x => releaseOne held sp x.1 x.2) sp,
    (sp.entries.toList.filter (fun x => x.2.state = .acquired ∧ held x.2.holder)).length)

def releaseAll (sp : SharePartition) : SharePartition × Nat := sp.releaseWhere (fun _ => true)

def releaseConsumer (sp : SharePartition) (consumer : String) : SharePartition × Nat :=
  sp.releaseWhere (fun holder => holder = consumer)

end SharePartition
end Boltq.Queuelog
