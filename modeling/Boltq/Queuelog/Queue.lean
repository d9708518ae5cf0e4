import Boltq.Queuelog.Share

namespace Boltq.Queuelog
open Lib Boltq.Stream Std

structure LeadershipGate where
  enforced : Bool
  allowed : List Bool
  deriving DecidableEq

def newLeadershipGate (partitions : Nat) (enforced : Bool) : LeadershipGate where
  enforced
  allowed := List.replicate partitions (!enforced)

namespace LeadershipGate

def mayLease (g : LeadershipGate) (partition : Nat) : Bool :=
  !g.enforced || g.allowed.getD partition false

def set (g : LeadershipGate) (partition : Nat) (leads : Bool) : LeadershipGate × Bool :=
  match g.allowed[partition]? with
  | none => (g, false)
  | some was => ({ g with allowed := g.allowed.set partition leads }, was != leads)

end LeadershipGate

inductive QueueErr where
  | closed
  | noPartition (name : String) (id : Int)
  | notQueueLeader (name : String) (partition : Int)
  | share (e : ShareErr)
  deriving DecidableEq

def ShareErr.IsClosed (e : ShareErr) : Prop := e = .closed ∨ e = .log .closed
  deriving Decidable

structure Call where
  consumer : String
  prefetch : Int
  now : Int
  start : Nat
  i : Nat := 0
  checked : Bool := false
  out : List Delivery := []

structure Refresh where
  i : Nat := 0
  releasing : Bool := false

inductive Outcome where
  | goes (c : Call)
  | returns (r : Except ShareErr (List Delivery))

def Outcome.returned : Outcome → List Delivery
  | .returns (.ok out) => out
  | _ => []

namespace Call

def index (c : Call) (n : Nat) : Nat := (c.start + c.i) % n

def got (c : Call) : Except ShareErr (List Delivery) → Outcome
  | .error e =>
    if e.IsClosed then .goes { c with i := c.i + 1, checked := false }
    else .returns (if c.out = [] then .error e else .ok c.out)
  | .ok new => .goes { c with i := c.i + 1, checked := false, out := c.out ++ new }

end Call

structure Queue where
  name : String
  parts : List SharePartition
  gate : LeadershipGate
  leadership : Bool := false
  rotate : Nat := 0
  closed : Bool := false
  calls : TreeMap Nat Call := ∅
  refreshes : TreeMap Nat Refresh := ∅
  marked : List (Nat × Nat) := []
  settled : List Nat := []

namespace Queue

def opened (name : String) (logs : List (Nat × Option Cursor)) (cfg : ShareConfig) : Queue :=
  let cfg := { cfg with group := if cfg.group = "" then name else cfg.group }
  { name
    parts := logs.mapIdx (fun i l => openSharePartition name i l.1 l.2 cfg)
    gate := newLeadershipGate logs.length false }

def enforceLeadership (q : Queue) (src : Bool) : Queue :=
  { q with leadership := src, gate := newLeadershipGate q.parts.length src }

def check (q : Queue) (c : Call) : Outcome :=
  if c.i < q.parts.length ∧ (c.out.length : Int) < c.prefetch then
    if q.gate.mayLease (c.index q.parts.length) then .goes { c with checked := true }
    else .goes { c with i := c.i + 1 }
  else .returns (.ok c.out)

def settle (q : Queue) (id : Nat) : Outcome → Queue
  | .goes c => { q with calls := q.calls.insert id c }
  | .returns _ => { q with calls := q.calls.erase id }

def partition (q : Queue) (id : Int) : Except QueueErr SharePartition :=
  if id < 0 then .error (.noPartition q.name id)
  else
    match q.parts[id.toNat]? with
    | none => .error (.noPartition q.name id)
    | some sp => .ok sp

def checkLease (q : Queue) (id : Int) : Option QueueErr :=
  if q.gate.mayLease id.toNat then none else some (.notQueueLeader q.name id)

def answer (q : Queue) (id : Int) (f : SharePartition → SharePartition × Option ShareErr) :
    Queue × Option QueueErr :=
  match q.partition id with
  | .error e => (q, some e)
  | .ok sp =>
    match q.checkLease id with
    | some e => (q, some e)
    | none => ({ q with parts := q.parts.set id.toNat (f sp).1 }, (f sp).2.map .share)

def ack (q : Queue) (consumer : String) (partition : Int) (seq : Nat) : Queue × Option QueueErr :=
  q.answer partition (fun sp => sp.ack consumer seq)

def nack (q : Queue) (route : DeadLetterFunc) (consumer : String) (partition : Int) (seq : Nat)
    (requeue : Bool) : Queue × Option QueueErr :=
  q.answer partition (fun sp => sp.nack route consumer seq requeue)

def mark (q : Queue) (id : Nat) (r : Refresh) (leads : Bool) : Queue :=
  let set := q.gate.set r.i leads
  let releasing := set.2 && !leads
  { q with
    gate := set.1
    refreshes := q.refreshes.insert id { i := if releasing then r.i else r.i + 1, releasing }
    marked := if leads then q.marked.filter (fun x => x.2 ≠ r.i) else (id, r.i) :: q.marked
    settled := if leads then q.settled.filter (· ≠ r.i) else q.settled }

inductive Op where
  | tryConsume (id : Nat) (consumer : String) (prefetch now : Int)
  | check (id : Nat)
  | acquire (id : Nat) (route : DeadLetterFunc) (views : List LogView)
  | refresh (id : Nat)
  | mark (id : Nat) (leads : Bool)
  | releaseAll (id : Nat)
  | refreshed (id : Nat)
  | ack (consumer : String) (partition : Int) (seq : Nat)
  | nack (route : DeadLetterFunc) (consumer : String) (partition : Int) (seq : Nat) (requeue : Bool)
  | releaseConsumer (partition : Nat) (consumer : String)
  | sweep (partition : Nat) (route : DeadLetterFunc) (now : Int)
  | close
  | closePart (partition : Nat)

def window (q : Queue) (p : Nat) (f : SharePartition → SharePartition) : Option Queue :=
  q.parts[p]?.map (fun sp => { q with parts := q.parts.set p (f sp) })

def step (q : Queue) : Op → Option Queue
  | .tryConsume id consumer prefetch now =>
    if id ∈ q.calls then none
    else if q.closed then some q
    else
      let rotate := (q.rotate + 1) % 2 ^ 64
      some { q with
        rotate
        calls := q.calls.insert id
          { consumer, prefetch := if prefetch ≤ 0 then 1 else prefetch, now,
            start := rotate % q.parts.length } }
  | .check id =>
    q.calls[id]?.bind (fun c => if c.checked then none else some (q.settle id (q.check c)))
  | .acquire id route views =>
    q.calls[id]?.bind (fun c =>
      if c.checked then
        q.parts[c.index q.parts.length]?.bind (fun sp =>
          (sp.acquire route views c.consumer (c.prefetch - c.out.length) c.now).map (fun r =>
            { q with parts := q.parts.set (c.index q.parts.length) r.1 }.settle id (c.got r.2)))
      else none)
  | .refresh id =>
    if id ∈ q.refreshes then none
    else if q.leadership then some { q with refreshes := q.refreshes.insert id {} }
    else some q
  | .mark id leads =>
    q.refreshes[id]?.bind (fun r =>
      if r.releasing ∨ q.parts.length ≤ r.i then none else some (q.mark id r leads))
  | .releaseAll id =>
    q.refreshes[id]?.bind (fun r =>
      if r.releasing then
        q.parts[r.i]?.map (fun sp =>
          { q with
            parts := q.parts.set r.i sp.releaseAll.1
            refreshes := q.refreshes.insert id { i := r.i + 1 } })
      else none)
  | .refreshed id =>
    q.refreshes[id]?.bind (fun r =>
      if r.releasing ∨ r.i < q.parts.length then none
      else some { q with
        refreshes := q.refreshes.erase id
        marked := q.marked.filter (fun x => x.1 ≠ id)
        settled := (q.marked.filter (fun x => x.1 = id)).map Prod.snd ++ q.settled })
  | .ack consumer partition seq => some (q.ack consumer partition seq).1
  | .nack route consumer partition seq requeue =>
    some (q.nack route consumer partition seq requeue).1
  | .releaseConsumer p consumer => q.window p (fun sp => (sp.releaseConsumer consumer).1)
  | .sweep p route now => q.window p (fun sp => sp.sweep route now)
  | .close => some { q with closed := true }
  | .closePart p => q.window p (fun sp => { sp with closed := true })

def Step (q : Queue) (op : Op) (q' : Queue) : Prop := q.step op = some q'

def deliveries (q : Queue) : Op → List Delivery
  | .check id => q.calls[id]?.elim [] (fun c => (q.check c).returned)
  | .acquire id route views =>
    q.calls[id]?.elim [] (fun c =>
      (q.parts[c.index q.parts.length]?.bind (fun sp =>
        sp.acquire route views c.consumer (c.prefetch - c.out.length) c.now)).elim []
          (fun r => (c.got r.2).returned))
  | _ => []

end Queue
end Boltq.Queuelog
