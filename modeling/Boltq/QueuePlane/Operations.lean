import Boltq.QueuePlane.Broker

namespace Boltq.QueuePlane
open Lib Std

namespace Broker

inductive Op where
  | publish (e : Env) (topic : String) (m : Message)
  | publishTopic (e : Env) (topic : String) (m : Message)
  | publishExchange (e : Env) (ids : List String) (exchange routingKey : String) (m : Message)
  | registerDurableSub (topic sub : String)
  | unregisterDurableSub (topic sub : String)
  | exchangeDeclare (e : Env) (name : String) (type : ExchangeType) (durable : Bool)
  | exchangeDelete (e : Env) (name : String)
  | bindQueue (e : Env) (binding : Binding)
  | unbindQueue (e : Env) (exchange queue bindingKey : String)
  | tryConsume (e : Env) (topic : String)
  | ack (e : Env) (id : String)
  | nack (id : String)
  | requeueTimedOut (id : String)
  | promoteDelayed (e : Env) (id : String)
  | processAdvancedFeatures (e : Env)
  | reloadFromDisk
  | purgeQueue (topic : String)
  | purgeDeadLetters (topic : String)
  | checkpoint (msgs : List Message)

def routed (b : Broker) (exchange routingKey : String) (m : Message) : List String :=
  (b.exchanges[exchange]?).elim [] (fun x => x.route routingKey m.headers)

def step (b : Broker) : Op → Option Broker
  | .publish e topic m => some (b.publish e topic m).1
  | .publishTopic e topic m => some (b.publishTopic e topic m).1
  | .publishExchange e ids exchange routingKey m =>
    if (b.routed exchange routingKey m).length ≤ ids.length then
      some (b.publishExchange e ids exchange routingKey m).1
    else none
  | .registerDurableSub topic sub => some (b.registerDurableSub topic sub)
  | .unregisterDurableSub topic sub => some (b.unregisterDurableSub topic sub)
  | .exchangeDeclare e name type durable => some (b.exchangeDeclare e name type durable).1
  | .exchangeDelete e name => some (b.exchangeDelete e name).1
  | .bindQueue e binding => some (b.bindQueue e binding).1
  | .unbindQueue e exchange queue bindingKey => some (b.unbindQueue e exchange queue bindingKey).1
  | .tryConsume e topic => some (b.tryConsume e topic).1
  | .ack e id => some (b.ack e id).1
  | .nack id => some (b.nack id).1
  | .requeueTimedOut id => some (b.requeueTimedOut id).1
  | .promoteDelayed e id => some (b.promoteDelayed e id).1
  | .processAdvancedFeatures e => some (b.processAdvancedFeatures e)
  | .reloadFromDisk => some b.reloadFromDisk
  | .purgeQueue topic => some (b.purgeQueue topic).1
  | .purgeDeadLetters topic => some (b.purgeDeadLetters topic).1
  | .checkpoint msgs => if msgs.Perm b.allMsgs then some (b.rewrite msgs) else none

def Step (b : Broker) (op : Op) (b' : Broker) : Prop := b.step op = some b'

variable {b b' : Broker} {e : Env} {P : Broker → Prop}

section
variable (b : Broker)

def refusal (e : Env) : Option BrokerErr :=
  if b.store.isSome then e.writeErr.map .storageWrite else none

theorem write_eq (e : Env) (r : WALRecord) : b.write e r = match b.refusal e with
      | some err => .error err
      | none => .ok { b with store := b.store.map (· ++ [r]) } := by
  unfold write refusal
  cases hs : b.store with
  | none =>
    cases b
    cases hs
    rfl
  | some records => cases e.writeErr <;> rfl

def written (e : Env) (r : WALRecord) : Option (List WALRecord) :=
  if b.refusal e = none then b.store.map (· ++ [r]) else b.store

theorem isSome_written (e : Env) (r : WALRecord) : (b.written e r).isSome = b.store.isSome := by
  unfold written
  split
  · exact Option.isSome_map
  · rfl

theorem writeMetadata_eq (e : Env) (d : Metadata) :
    b.writeMetadata e d = { b with store := b.written e (.metadata d.type (some d)) } := by
  unfold writeMetadata written
  rw [write_eq]
  cases b.refusal e <;> rfl

theorem ack_eq (e : Env) (id : String) : b.ack e id = match b.pending[id]? with
      | none => (b, some (.notPending id))
      | some pm => ({ b with
          pending := b.pending.erase id
          acked := ⟨pm.queueName, id⟩ :: b.acked
          store := b.written e (.ack id) }, none) := by
  unfold ack written
  cases b.pending[id]? with
  | none => rfl
  | some pm =>
    have hr : refusal { b with
        pending := b.pending.erase id, acked := ⟨pm.queueName, id⟩ :: b.acked } e = b.refusal e := rfl
    dsimp only
    rw [write_eq, hr]
    cases b.refusal e <;> rfl

def log (m : Message) : Broker :=
  { b with store := b.store.map (· ++ [.publish m]), nextRef := b.nextRef + 1 }

def put (e : Env) (topic : String) (m : Message) : Broker × Option BrokerErr :=
  let r := (b.log m).deliver e topic ⟨b.nextRef, m⟩
  (if r.2 = none then r.1.accept topic m else r.1, r.2)

theorem publish_eq (e : Env) (topic : String) (m : Message) :
    b.publish e topic m = match b.refusal e with
      | some err => (b, some err)
      | none => b.put e topic (b.stamp e topic m) := by
  unfold publish put
  dsimp only
  rw [write_eq]
  generalize b.stamp e topic m = m
  cases b.refusal e with
  | some err => rfl
  | none =>
    dsimp only [alloc]
    split
    all_goals
      rename_i h
      rw [show (b.log m).deliver e topic ⟨b.nextRef, m⟩ = _ from h]
      rfl

theorem publishTopic_eq (e : Env) (topic : String) (m : Message) :
    b.publishTopic e topic m = match b.refusal e with
      | some err => (b, some err)
      | none => ((b.subscribers topic).foldl (fun b' sub =>
          (b'.pushOrSpill e (durableName topic sub) ⟨b.nextRef, { m with topic }⟩).1.accept
            (durableName topic sub) { m with topic }) (b.log { m with topic }), none) := by
  unfold publishTopic
  dsimp only
  rw [write_eq]
  cases b.refusal e <;> rfl

end

theorem queue_of_some {q : PriorityQueue Held} (h : b.queues[name]? = some q) : b.queue name = q := by
  rw [queue, h, Option.getD_some]

theorem purgeQueue_cases (b : Broker) (topic : String) :
    b.queues[topic]? = none ∧ (b.purgeQueue topic).1 = b ∨
    ∃ store, store.isSome = b.store.isSome ∧ (b.purgeQueue topic).1 =
      { b.setQueue topic (b.queue topic).purge with
        purged := copies topic (b.queue topic).drain ++ b.purged, store } := by
  unfold purgeQueue
  cases hq : b.queues[topic]? with
  | none => exact .inl ⟨rfl, rfl⟩
  | some q =>
    rw [queue_of_some hq]
    dsimp only
    split
    · exact .inr ⟨_, Option.isSome_map, rfl⟩
    · exact .inr ⟨_, rfl, rfl⟩

theorem purgeDeadLetters_cases (b : Broker) (topic : String) :
    b.deadLetters[deadLetterName topic]? = none ∧ (b.purgeDeadLetters topic).1 = b ∨
    ∃ store, store.isSome = b.store.isSome ∧ (b.purgeDeadLetters topic).1 = { b with
      deadLetters := b.deadLetters.insert (deadLetterName topic) []
      purged := copies topic (b.deadLetter topic) ++ b.purged, store } := by
  unfold purgeDeadLetters
  cases hd : b.deadLetters[deadLetterName topic]? with
  | none => exact .inl ⟨rfl, rfl⟩
  | some dl =>
    have hdl : b.deadLetter topic = dl := by rw [deadLetter, hd, Option.getD_some]
    rw [hdl]
    dsimp only
    split
    · exact .inr ⟨_, Option.isSome_map, rfl⟩
    · exact .inr ⟨_, rfl, rfl⟩

theorem retryOrDeadLetter_eq (b : Broker) (h : Held) (name : String) :
    b.retryOrDeadLetter h name = if h.msg.maxRetry < b.retryOf h + 1 then
        ((b.retried h).pushDeadLetter name h, none) else (((b.retried h).push name h).1,
        if ((b.retried h).push name h).2 then none else some (.fullDuringRetry name)) := by
  have hretry : (b.retried h).retryOf h = b.retryOf h + 1 := by
    unfold retryOf retried
    rw [TreeMap.getElem?_insert_self, Option.getD_some]
    rfl
  unfold retryOrDeadLetter
  dsimp only
  rw [hretry]
  rcases (b.retried h).push name h with ⟨b', ok⟩
  cases ok <;> rfl

theorem retryPending_cases (b : Broker) (id : String) (missing : BrokerErr) :
    b.pending[id]? = none ∧ b.retryPending id missing = (b, some missing) ∨
    ∃ pm, b.pending[id]? = some pm ∧ ((b.retryPending id missing).1 =
        ({ b with pending := b.pending.erase id }.retried pm.held).pushDeadLetter pm.queueName pm.held ∨
      (b.retryPending id missing).1 =
        (({ b with pending := b.pending.erase id }.retried pm.held).push pm.queueName pm.held).1) := by
  unfold retryPending
  cases b.pending[id]? with
  | none => exact .inl ⟨rfl, rfl⟩
  | some pm =>
    refine .inr ⟨pm, rfl, ?_⟩
    dsimp only
    rw [retryOrDeadLetter_eq]
    split
    · exact .inl rfl
    · exact .inr rfl

theorem publishExchange_rule {ids : List String} {m : Message} (hp : ∀ b queue m',
      m'.id ∈ ids ∨ exchange = "" ∧ m'.id = m.id → P b → P (b.publish e queue m').1) (hb : P b)
    (routingKey : String) : P (b.publishExchange e ids exchange routingKey m).1 := by
  have hclones : ∀ (clones : List (String × String)) (m : Message) (b : Broker),
      (∀ x ∈ clones, x.2 ∈ ids) → P b → P (b.publishClones e m clones).1 := by
    intro clones m
    induction clones with
    | nil => exact fun b _ hb => hb
    | cons x clones ih =>
      intro b hids hb
      rw [List.forall_mem_cons] at hids
      have hnext := hp b x.1 { m with id := x.2, topic := x.1 } (.inl hids.1) hb
      simp only [publishClones]
      split
      · rename_i b₁ heq
        rw [heq] at hnext
        exact ih b₁ hids.2 hnext
      · rename_i b₁ err heq
        rw [heq] at hnext
        exact hnext
  unfold publishExchange
  split
  · exact hb
  dsimp only
  split
  · rename_i hx
    exact hp b routingKey _ (.inr ⟨hx, rfl⟩) hb
  · exact hclones _ _ b (fun x hx => (List.of_mem_zip hx).2) hb

end Broker
end Boltq.QueuePlane
