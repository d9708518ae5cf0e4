import Boltq.QueuePlane.Message

namespace Boltq.QueuePlane
open Lib Std

inductive BrokerErr where
  | storageWrite (e : String)
  | openSpill (e : String)
  | notPending (id : String)
  | notFound (id : String)
  | fullDuringRetry (queue : String)
  | notDelayed (id : String)
  | queueNotFound (queue : String)
  | deadLetterNotFound (queue : String)
  | exchangeExists (name : String) (type : ExchangeType)
  | exchangeNotFound (name : String)
  | defaultExchange
  | publishTo (queue : String) (e : BrokerErr)
  deriving DecidableEq

def BrokerErr.message : BrokerErr → String
  | .storageWrite e => s!"storage write: {e}"
  | .openSpill e => s!"open spill file: {e}"
  | .notPending id => s!"message {id} not found in pending"
  | .notFound id => s!"message {id} not found"
  | .fullDuringRetry queue => s!"queue {queue} is full during retry"
  | .notDelayed id => s!"delayed message {id} not found"
  | .queueNotFound queue => s!"queue {queue} not found"
  | .deadLetterNotFound queue => s!"dead letter queue {queue} not found"
  | .exchangeExists name type =>
      "exchange " ++ name.quote ++ " already exists with type " ++ type.name
  | .exchangeNotFound name => "exchange " ++ name.quote ++ " not found"
  | .defaultExchange => "cannot delete the default exchange"
  | .publishTo queue e => s!"publish to queue {queue}: " ++ e.message

structure PendingMessage where
  held : Held
  queueName : String
  deliverAt : Int
  ackDeadline : Int
  deriving DecidableEq

structure Env where
  now : Int
  writeErr : Option String := none
  spillErr : Option String := none

structure Copy where
  queue : String
  id : String
  deriving DecidableEq

structure Broker where
  queues : TreeMap String (PriorityQueue Held) := ∅
  deadLetters : TreeMap String (List Held) := ∅
  exchanges : TreeMap String Exchange := ∅
  pending : TreeMap String PendingMessage := ∅
  delayed : List Held := []
  durableSubs : TreeMap String (TreeSet String) := ∅
  spill : TreeMap String (List Message) := ∅
  store : Option (List WALRecord) := none
  maxRetry : Int
  ackTimeout : Int
  queueCap : Int
  retries : TreeMap Nat Int := ∅
  nextRef : Nat := 0
  accepted : List (String × Message) := []
  acked : List Copy := []
  expired : List Copy := []
  purged : List Copy := []

structure Config where
  maxRetry : Int := 0
  ackTimeout : Int := 0
  queueCap : Int := 0

def defaultExchange : Exchange := { name := "", type := .direct, durable := true }

def Broker.new (cfg : Config) (store : Option (List WALRecord))
    (spill : TreeMap String (List Message)) : Broker where
  maxRetry := if cfg.maxRetry ≤ 0 then 5 else cfg.maxRetry
  ackTimeout := if cfg.ackTimeout ≤ 0 then 30000000000 else cfg.ackTimeout
  queueCap := if cfg.queueCap ≤ 0 then 2 ^ 20 else cfg.queueCap
  exchanges := (∅ : TreeMap String Exchange).insert "" defaultExchange
  store
  spill

def deadLetterName (queue : String) : String := queue ++ "_dead_letter"

def durableName (topic sub : String) : String := s!"{topic}:{sub}"

namespace Broker

section
variable (b : Broker)

def queue (name : String) : PriorityQueue Held :=
  (b.queues[name]?).getD (.new numPriorityLevels (nextPowerOfTwo b.queueCap))

def deadLetter (name : String) : List Held :=
  (b.deadLetters[deadLetterName name]?).getD []

def spilled (name : String) : List Message := (b.spill[name]?).getD []

def setQueue (name : String) (q : PriorityQueue Held) : Broker :=
  { b with queues := b.queues.insert name q }

def retryOf (h : Held) : Int := (b.retries[h.ref]?).getD h.msg.retry

def encode (h : Held) : Message := { h.msg with retry := b.retryOf h }

end

def push (b : Broker) (name : String) (h : Held) : Broker × Bool :=
  match (b.queue name).push (clampPriority h.msg.priority) h with
  | some q => (b.setQueue name q, true)
  | none => (b.setQueue name (b.queue name), false)

section
variable (b : Broker)

def write (e : Env) (r : WALRecord) : Except BrokerErr Broker :=
  match b.store with
  | none => .ok b
  | some records =>
    match e.writeErr with
    | some err => .error (.storageWrite err)
    | none => .ok { b with store := some (records ++ [r]) }

def spillToDisk (e : Env) (name : String) (h : Held) : Broker × Option BrokerErr :=
  match e.spillErr with
  | some err => (b, some (.openSpill err))
  | none => ({ b with spill := b.spill.insert name (b.spilled name ++ [b.encode h]) }, none)

def pushOrSpill (e : Env) (name : String) (h : Held) : Broker × Option BrokerErr :=
  match b.push name h with
  | (b, true) => (b, none)
  | (b, false) => b.spillToDisk e name h

def deliver (e : Env) (name : String) (h : Held) : Broker × Option BrokerErr :=
  if e.now < h.msg.deliverAt then ({ b with delayed := b.delayed ++ [h] }, none)
  else b.pushOrSpill e name h

def alloc (m : Message) : Held × Broker :=
  (⟨b.nextRef, m⟩, { b with nextRef := b.nextRef + 1 })

def accept (name : String) (m : Message) : Broker :=
  { b with accepted := (name, m) :: b.accepted }

def stamp (e : Env) (topic : String) (m : Message) : Message :=
  { m with
    topic
    maxRetry := b.maxRetry
    deliverAt := if 0 < m.delay then e.now + m.delay else m.deliverAt
    expiresAt := if 0 < m.ttl then e.now + m.ttl else m.expiresAt }

end

def publish (b : Broker) (e : Env) (topic : String) (m : Message) : Broker × Option BrokerErr :=
  let m := b.stamp e topic m
  match b.write e (.publish m) with
  | .error err => (b, some err)
  | .ok b =>
    let (h, b) := b.alloc m
    match b.deliver e topic h with
    | (b, none) => (b.accept topic m, none)
    | (b, some err) => (b, some err)

def subscribers (b : Broker) (topic : String) : List String :=
  ((b.durableSubs[topic]?).getD ∅).toList

def publishTopic (b : Broker) (e : Env) (topic : String) (m : Message) :
    Broker × Option BrokerErr :=
  let m := { m with topic }
  match b.write e (.publish m) with
  | .error err => (b, some err)
  | .ok b =>
    let (h, b) := b.alloc m
    ((b.subscribers topic).foldl (fun b sub =>
      (b.pushOrSpill e (durableName topic sub) h).1.accept (durableName topic sub) m) b, none)

def popFresh (now : Int) : Nat → PriorityQueue Held → List Held →
    PriorityQueue Held × List Held × Option Held
  | 0, q, skipped => (q, skipped, none)
  | fuel+1, q, skipped =>
    match q.tryPop with
    | none => (q, skipped, none)
    | some (h, q) =>
      if h.msg.Expired now then popFresh now fuel q (skipped ++ [h]) else (q, skipped, some h)

def copies (name : String) (hs : List Held) : List Copy := hs.map (fun h => ⟨name, h.msg.id⟩)

def pend (b : Broker) (e : Env) (topic : String) (h : Held) : Broker :=
  { b with
    pending := b.pending.insert h.msg.id
      { held := h, queueName := topic, deliverAt := e.now, ackDeadline := e.now + b.ackTimeout } }

def tryConsume (b : Broker) (e : Env) (topic : String) : Broker × Option Held :=
  let (q, skipped, got) := popFresh e.now ((b.queue topic).drain.length + 1) (b.queue topic) []
  let b := { b.setQueue topic q with expired := copies topic skipped ++ b.expired }
  match got with
  | none => (b, none)
  | some h => (b.pend e topic h, some h)

def ack (b : Broker) (e : Env) (id : String) : Broker × Option BrokerErr :=
  match b.pending[id]? with
  | none => (b, some (.notPending id))
  | some pm =>
    let b := { b with pending := b.pending.erase id, acked := ⟨pm.queueName, id⟩ :: b.acked }
    match b.write e (.ack id) with
    | .error _ => (b, none)
    | .ok b => (b, none)

section
variable (b : Broker)

def pushDeadLetter (name : String) (h : Held) : Broker :=
  let dl := b.deadLetter name
  let dl := if dl.length < nextPowerOfTwo b.queueCap then dl ++ [h] else dl
  { b with deadLetters := b.deadLetters.insert (deadLetterName name) dl }

def retried (h : Held) : Broker :=
  { b with retries := b.retries.insert h.ref (b.retryOf h + 1) }

def retryOrDeadLetter (h : Held) (name : String) : Broker × Option BrokerErr :=
  let b := b.retried h
  if h.msg.maxRetry < b.retryOf h then (b.pushDeadLetter name h, none)
  else
    match b.push name h with
    | (b, true) => (b, none)
    | (b, false) => (b, some (.fullDuringRetry name))

def retryPending (id : String) (missing : BrokerErr) : Broker × Option BrokerErr :=
  match b.pending[id]? with
  | none => (b, some missing)
  | some pm => { b with pending := b.pending.erase id }.retryOrDeadLetter pm.held pm.queueName

def nack (id : String) : Broker × Option BrokerErr := b.retryPending id (.notPending id)

def requeueTimedOut (id : String) : Broker × Option BrokerErr :=
  b.retryPending id (.notFound id)

def hasDelayedMessage (id : String) : Bool := b.delayed.any (fun h => h.msg.id = id)

def hasMessage (id : String) : Bool :=
  b.pending.contains id ||
    b.queues.toList.any (fun x => x.2.drain.any (fun h => h.msg.id = id)) ||
    b.hasDelayedMessage id

def promoteDelayed (e : Env) (id : String) : Broker × Option BrokerErr :=
  match b.delayed.find? (fun h => h.msg.id = id) with
  | none => (b, some (.notDelayed id))
  | some h =>
    let b := { b with delayed := b.delayed.eraseP (fun h => h.msg.id = id) }
    ((b.pushOrSpill e h.msg.topic h).1, none)

def reloadInto : List Message → PriorityQueue Held → Nat → PriorityQueue Held × List Message × Nat
  | [], q, ref => (q, [], ref)
  | m :: ms, q, ref =>
    if q.isFull then (q, m :: ms, ref)
    else
      match q.push (clampPriority m.priority) ⟨ref, m⟩ with
      | some q => reloadInto ms q (ref + 1)
      | none => (q, m :: ms, ref)

def processSpillFile (name : String) : Broker :=
  let (q, rest, ref) := reloadInto (b.spilled name) (b.queue name) b.nextRef
  { b.setQueue name q with
    spill := if rest = [] then b.spill.erase name else b.spill.insert name rest
    nextRef := ref }

def reloadFromDisk : Broker :=
  b.queues.keys.foldl (fun b name =>
    if (b.queue name).isFull ∨ name ∉ b.spill then b else b.processSpillFile name) b

def promoteReady (now : Int) : Broker :=
  let ready := b.delayed.filter (fun h => h.msg.deliverAt ≤ now)
  let b := { b with delayed := b.delayed.filter (fun h => now < h.msg.deliverAt) }
  ready.foldl (fun b h => (b.push h.msg.topic h).1) b

def dropExpired (now : Int) : Broker :=
  { b with
    pending := b.pending.filter (fun _ pm => ¬ pm.held.msg.Expired now)
    expired := (b.pending.toList.filter (fun x => x.2.held.msg.Expired now)).map
      (fun x => ⟨x.2.queueName, x.1⟩) ++ b.expired }

def processAdvancedFeatures (e : Env) : Broker :=
  ((b.promoteReady e.now).dropExpired e.now).reloadFromDisk

def captured : List Held :=
  b.queues.toList.flatMap (fun x => x.2.drain) ++ b.deadLetters.toList.flatMap Prod.snd ++
    b.delayed ++ b.pending.toList.map (fun x => x.2.held)

def allMsgs : List Message := b.captured.map b.encode

def rewrite (msgs : List Message) : Broker :=
  { b with store := b.store.map (fun _ => msgs.map .publish) }

def checkpoint : Broker := b.rewrite b.allMsgs

def registerDurableSub (topic sub : String) : Broker :=
  { b with
    durableSubs := b.durableSubs.insert topic (((b.durableSubs[topic]?).getD ∅).insert sub) }

def unregisterDurableSub (topic sub : String) : Broker :=
  match b.durableSubs[topic]? with
  | none => b
  | some subs => { b with durableSubs := b.durableSubs.insert topic (subs.erase sub) }

def purgeQueue (topic : String) : Broker × Except BrokerErr Nat :=
  match b.queues[topic]? with
  | none => (b, .error (.queueNotFound topic))
  | some q =>
    let count := q.drain.length
    let b := { b.setQueue topic q.purge with purged := copies topic q.drain ++ b.purged }
    (if 0 < count then b.checkpoint else b, .ok count)

def purgeDeadLetters (topic : String) : Broker × Except BrokerErr Nat :=
  match b.deadLetters[deadLetterName topic]? with
  | none => (b, .error (.deadLetterNotFound (deadLetterName topic)))
  | some dl =>
    let b := { b with
      deadLetters := b.deadLetters.insert (deadLetterName topic) []
      purged := copies topic dl ++ b.purged }
    (if 0 < dl.length then b.checkpoint else b, .ok dl.length)

def writeMetadata (e : Env) (d : Metadata) : Broker :=
  match b.write e (.metadata d.type (some d)) with
  | .error _ => b
  | .ok b => b

def setExchange (x : Exchange) : Broker :=
  { b with exchanges := b.exchanges.insert x.name x }

end

def exchangeDeclare (b : Broker) (e : Env) (name : String) (type : ExchangeType) (durable : Bool) :
    Broker × Option BrokerErr :=
  match b.exchanges[name]? with
  | some x => (b, if x.type = type then none else some (.exchangeExists name x.type))
  | none =>
    let x : Exchange := { name, type, durable }
    let b := b.setExchange x
    (if durable then b.writeMetadata e (.exchangeDeclare x) else b, none)

def exchangeDelete (b : Broker) (e : Env) (name : String) : Broker × Option BrokerErr :=
  if name = "" then (b, some .defaultExchange)
  else if name ∈ b.exchanges then
    ({ b with exchanges := b.exchanges.erase name }.writeMetadata e (.exchangeDelete name), none)
  else (b, some (.exchangeNotFound name))

def bindQueue (b : Broker) (e : Env) (binding : Binding) : Broker × Option BrokerErr :=
  match b.exchanges[binding.exchange]? with
  | none => (b, some (.exchangeNotFound binding.exchange))
  | some x =>
    let b := { b with
      exchanges := b.exchanges.insert binding.exchange { x with bindings := x.bindings ++ [binding] } }
    let b := b.setQueue binding.queue (b.queue binding.queue)
    (b.writeMetadata e (.bindQueue binding), none)

def unbindQueue (b : Broker) (e : Env) (exchange queue bindingKey : String) :
    Broker × Option BrokerErr :=
  match b.exchanges[exchange]? with
  | none => (b, some (.exchangeNotFound exchange))
  | some x =>
    let b := { b with exchanges := b.exchanges.insert exchange (x.unbind queue bindingKey) }
    (b.writeMetadata e (.unbindQueue exchange queue bindingKey), none)

def publishClones (b : Broker) (e : Env) (m : Message) :
    List (String × String) → Broker × Option BrokerErr
  | [] => (b, none)
  | (queue, id) :: rest =>
    match b.publish e queue { m with id, topic := queue } with
    | (b, none) => b.publishClones e m rest
    | (b, some err) => (b, some (.publishTo queue err))

def publishExchange (b : Broker) (e : Env) (ids : List String) (exchange routingKey : String)
    (m : Message) : Broker × Option BrokerErr :=
  match b.exchanges[exchange]? with
  | none => (b, some (.exchangeNotFound exchange))
  | some x =>
    let m := { m with exchange, routingKey }
    if exchange = "" then b.publish e routingKey m
    else b.publishClones e m ((x.route routingKey m.headers).zip ids)

def ingestRecovered (b : Broker) (e : Env) (m : Message) : Broker :=
  if 0 < m.expiresAt ∧ m.expiresAt ≤ e.now then b
  else if 0 < m.ttl ∧ m.timestamp + m.ttl ≤ e.now then b
  else
    let (h, b) := b.alloc m
    (b.deliver e m.topic h).1

def replayMetadata (b : Broker) : RecordType → Option Metadata → Broker
  | .exchangeDeclare, some (.exchangeDeclare x) => b.setExchange x
  | .exchangeDelete, some (.exchangeDelete name) => { b with exchanges := b.exchanges.erase name }
  | .bindQueue, some (.bindQueue binding) =>
    match b.exchanges[binding.exchange]? with
    | none => b
    | some x => { b with
      exchanges := b.exchanges.insert binding.exchange { x with bindings := x.bindings ++ [binding] } }
  | .unbindQueue, some (.unbindQueue exchange queue bindingKey) =>
    match b.exchanges[exchange]? with
    | none => b
    | some x => { b with exchanges := b.exchanges.insert exchange (x.unbind queue bindingKey) }
  | _, _ => b

structure Replay where
  broker : Broker
  msgs : TreeMap String Message := ∅
  order : List String := []

def Replay.record (r : Replay) : WALRecord → Replay
  | .publish m => { r with msgs := r.msgs.insert m.id m, order := r.order ++ [m.id] }
  | .ack id => { r with msgs := r.msgs.erase id }
  | .metadata type data => { r with broker := r.broker.replayMetadata type data }

def Replay.ingest (r : Replay) (e : Env) : Broker :=
  r.order.foldl (fun b id =>
    match r.msgs[id]? with
    | none => b
    | some m => b.ingestRecovered e m) r.broker

def readAllRecords (records : List WALRecord) : List WALRecord := records.map WALRecord.wrapped

def recover (cfg : Config) (e : Env) (records : List WALRecord)
    (spill : TreeMap String (List Message)) : Broker :=
  let b := Broker.new cfg (some records) spill
  if records = [] then b
  else (((readAllRecords records).foldl Replay.record { broker := b }).ingest e).checkpoint

end Broker
end Boltq.QueuePlane
