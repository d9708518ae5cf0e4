import Boltq.Lib.Run
import Boltq.QueuePlane.Fsm
import Boltq.QueuePlane.Views

namespace Boltq.QueuePlane
open Lib Std List TreeMap Option

def Message.timeless (m : Message) : Message := { m with deliverAt := 0, expiresAt := 0 }

def Held.timeless (h : Held) : Held := { h with msg := h.msg.timeless }

def PendingMessage.timeless (pm : PendingMessage) : Held × String := (pm.held.timeless, pm.queueName)

theorem Held.timeless_fields {h h' : Held} (hh : h.timeless = h'.timeless) :
    h.ref = h'.ref ∧ h.msg.id = h'.msg.id ∧ h.msg.topic = h'.msg.topic ∧
      h.msg.priority = h'.msg.priority ∧ h.msg.maxRetry = h'.msg.maxRetry ∧
      h.msg.retry = h'.msg.retry := by
  have hm : h.msg.timeless = h'.msg.timeless := congrArg Held.msg hh
  exact ⟨(congrArg Held.ref hh :), (congrArg Message.id hm :), (congrArg Message.topic hm :),
    (congrArg Message.priority hm :), (congrArg Message.maxRetry hm :), (congrArg Message.retry hm :)⟩

namespace Broker
variable {b b' b'' : Broker} {e e' : Env} {h h' : Held}

structure Agree (b b' : Broker) : Prop where
  queues : ∀ name, (b.queue name).map Held.timeless = (b'.queue name).map Held.timeless
  deadLetters : ∀ name, (b.deadLetter name).map Held.timeless = (b'.deadLetter name).map Held.timeless
  pending : ∀ id : String, (b.pending[id]?).map PendingMessage.timeless =
    (b'.pending[id]?).map PendingMessage.timeless
  delayed : b.delayed.map Held.timeless = b'.delayed.map Held.timeless
  spilled : ∀ name, (b.spilled name).map Message.timeless = (b'.spilled name).map Message.timeless
  exchanges : b.exchanges = b'.exchanges
  durableSubs : b.durableSubs = b'.durableSubs
  retries : b.retries = b'.retries
  nextRef : b.nextRef = b'.nextRef
  maxRetry : b.maxRetry = b'.maxRetry
  queueCap : b.queueCap = b'.queueCap

theorem Agree.refl (b : Broker) : Agree b b :=
  ⟨fun _ => rfl, fun _ => rfl, fun _ => rfl, rfl, fun _ => rfl, rfl, rfl, rfl, rfl, rfl, rfl⟩

theorem Agree.symm (h : Agree b b') : Agree b' b :=
  ⟨fun n => (h.queues n).symm, fun n => (h.deadLetters n).symm, fun i => (h.pending i).symm,
    h.delayed.symm, fun n => (h.spilled n).symm, h.exchanges.symm, h.durableSubs.symm,
    h.retries.symm, h.nextRef.symm, h.maxRetry.symm, h.queueCap.symm⟩

theorem Agree.trans (h : Agree b b') (h' : Agree b' b'') : Agree b b'' :=
  ⟨fun n => (h.queues n).trans (h'.queues n), fun n => (h.deadLetters n).trans (h'.deadLetters n),
    fun i => (h.pending i).trans (h'.pending i), h.delayed.trans h'.delayed,
    fun n => (h.spilled n).trans (h'.spilled n), h.exchanges.trans h'.exchanges,
    h.durableSubs.trans h'.durableSubs, h.retries.trans h'.retries, h.nextRef.trans h'.nextRef,
    h.maxRetry.trans h'.maxRetry, h.queueCap.trans h'.queueCap⟩

theorem Agree.shows (h : Agree b b') : Shows (fun x : Held => (x.msg.id, x.msg.topic, x.msg.priority))
    Held.timeless Held.timeless b b' :=
  ⟨fun _ => rfl, fun _ => rfl, h.queues, h.deadLetters, h.pending, h.delayed⟩

theorem Agree.setQueue (h : Agree b b') (name : String) {q q' : PriorityQueue Held}
    (hq : q.map Held.timeless = q'.map Held.timeless) :
    Agree (b.setQueue name q) (b'.setQueue name q') := { h with queues := h.shows.setQueue name hq }

theorem Agree.touch (h : Agree b b') (name : String) : Agree (b.setQueue name (b.queue name)) b' := by
  refine { h with queues := fun n => ?_ }
  rw [queue_touch]
  exact h.queues n

section
variable (hb : Agree b b')
include hb

theorem Agree.retryOf (hh : h.timeless = h'.timeless) : b.retryOf h = b'.retryOf h' := by
  obtain ⟨href, _, _, _, _, hretry⟩ := Held.timeless_fields hh
  unfold Broker.retryOf
  rw [hb.retries, href, hretry]

theorem Agree.encode (hh : h.timeless = h'.timeless) :
    (b.encode h).timeless = (b'.encode h').timeless := by
  have hm : h.msg.timeless = h'.msg.timeless := congrArg Held.msg hh
  show ({ h.msg.timeless with retry := b.retryOf h } : Message) =
    { h'.msg.timeless with retry := b'.retryOf h' }
  rw [hm, hb.retryOf hh]

theorem Agree.given {got got' : Option Held}
    (hgot : got.map Held.timeless = got'.map Held.timeless) :
    (got.map b.encode).map Message.timeless = (got'.map b'.encode).map Message.timeless := by
  rcases map_eq_map_cases hgot with ⟨rfl, rfl⟩ | ⟨h, h', rfl, rfl, hh⟩
  · rfl
  · exact congrArg some (hb.encode hh)

section
variable (hh : h.timeless = h'.timeless)
include hh

section
variable (he : e.spillErr = none)
include he

section
variable (he' : e'.spillErr = none)
include he'

theorem Agree.spillToDisk (name : String) :
    Agree (b.spillToDisk e name h).1 (b'.spillToDisk e' name h').1 := by
  unfold Broker.spillToDisk
  rw [he, he']
  refine { hb with spilled := fun n => ?_ }
  have hold := hb.spilled name
  unfold Broker.spilled at hold ⊢
  by_cases hn : n = name
  · rw [hn, getElem?_insert_self, getElem?_insert_self]
    simp only [getD_some, map_append, map_singleton, hb.encode hh, hold]
  · rw [getElem?_insert_other _ hn, getElem?_insert_other _ hn]
    exact hb.spilled n

theorem Agree.pushOrSpill (name : String) :
    Agree (b.pushOrSpill e name h).1 (b'.pushOrSpill e' name h').1 := by
  obtain ⟨q, q', ok, hp, hp', hq⟩ := hb.shows.push hh name
  unfold Broker.pushOrSpill
  rw [hp, hp']
  cases ok with
  | true => exact hb.setQueue name hq
  | false => exact (hb.setQueue name hq).spillToDisk hh he he' name

theorem Agree.deliver (name : String)
    (hdue : e.now < h.msg.deliverAt ↔ e'.now < h'.msg.deliverAt) :
    Agree (b.deliver e name h).1 (b'.deliver e' name h').1 := by
  unfold Broker.deliver
  by_cases hlt : e.now < h.msg.deliverAt
  · rw [if_pos hlt, if_pos (hdue.mp hlt)]
    refine { hb with delayed := ?_ }
    rw [map_append, map_append, hb.delayed, map_singleton, map_singleton, hh]
  · rw [if_neg hlt, if_neg (fun hlt' => hlt (hdue.mpr hlt'))]
    exact hb.pushOrSpill hh he he' name

end

end

end

end

theorem refusal_of_ok (b : Broker) (he : e.writeErr = none) : b.refusal e = none := by
  rw [refusal, he, map_none, ite_self]

theorem Agree.log (hb : Agree b b') (m m' : Message) : Agree (b.log m) (b'.log m') :=
  { hb with nextRef := congrArg (· + 1) hb.nextRef }

def Due (m : Message) (e : Env) : Prop := 0 < m.delay ∨ m.deliverAt ≤ e.now
  deriving Decidable

theorem Due.iff (hd : Due m e) (hd' : Due m e') (b b' : Broker) (topic : String) :
    e.now < (b.stamp e topic m).deliverAt ↔ e'.now < (b'.stamp e' topic m).deliverAt := by
  unfold Due at hd hd'
  unfold stamp
  dsimp only
  split
  · omega
  · omega

theorem Agree.publish (hb : Agree b b') (he : e.writeErr = none ∧ e.spillErr = none)
    (he' : e'.writeErr = none ∧ e'.spillErr = none) (hd : Due m e) (hd' : Due m e') (topic : String) :
    Agree (b.publish e topic m).1 (b'.publish e' topic m).1 := by
  have hdue := hd.iff hd' b b' topic
  have hstamp : (b.stamp e topic m).timeless = (b'.stamp e' topic m).timeless := by
    show ({ m.timeless with topic, maxRetry := b.maxRetry } : Message) =
      { m.timeless with topic, maxRetry := b'.maxRetry }
    rw [hb.maxRetry]
  have hh : (Held.mk b.nextRef (b.stamp e topic m)).timeless =
      (Held.mk b'.nextRef (b'.stamp e' topic m)).timeless := by
    unfold Held.timeless
    rw [hb.nextRef, hstamp]
  have hdel := (hb.log (b.stamp e topic m) (b'.stamp e' topic m)).deliver hh he.2 he'.2 topic hdue
  rw [publish_eq, publish_eq, refusal_of_ok b he.1, refusal_of_ok b' he'.1]
  dsimp only [put]
  rw [if_pos (deliver_ok _ he.2 topic _), if_pos (deliver_ok _ he'.2 topic _)]
  exact { hdel with }

theorem Agree.publishTopic (hb : Agree b b') (he : e.writeErr = none ∧ e.spillErr = none)
    (he' : e'.writeErr = none ∧ e'.spillErr = none) (topic : String) (m : Message) :
    Agree (b.publishTopic e topic m).1 (b'.publishTopic e' topic m).1 := by
  have hsubs : b.subscribers topic = b'.subscribers topic := by
    unfold subscribers
    rw [hb.durableSubs]
  rw [publishTopic_eq, publishTopic_eq, refusal_of_ok b he.1, refusal_of_ok b' he'.1, hsubs, hb.nextRef]
  refine foldl_rel (r := Agree) (hb.log _ _) (fun sub _ c c' hc => ?_)
  have hpush := hc.pushOrSpill (h := ⟨b'.nextRef, { m with topic }⟩) rfl he.2 he'.2
    (durableName topic sub)
  exact { hpush with }

def FrontFresh (b : Broker) (now : Int) (topic : String) : Prop :=
  ∀ r ∈ (b.queue topic).tryPop, ¬ r.1.msg.Expired now
  deriving Decidable

theorem tryConsume_front (hf : b.FrontFresh e.now topic) :
    b.tryConsume e topic = match (b.queue topic).tryPop with
      | none => (b.setQueue topic (b.queue topic), none)
      | some (h, q) => ((b.setQueue topic q).pend e topic h, some h) := by
  unfold tryConsume popFresh
  cases hp : (b.queue topic).tryPop with
  | none => rfl
  | some r =>
    obtain ⟨h, q⟩ := r
    dsimp only
    rw [if_neg (hf (h, q) hp)]
    rfl

section
variable (hb : Agree b b')
include hb

theorem Agree.pend (hh : h.timeless = h'.timeless) (name : String) :
    Agree (b.pend e name h) (b'.pend e' name h') := { hb with pending := hb.shows.pend hh e e' name }

theorem Agree.tryConsume (hf : b.FrontFresh e.now topic) (hf' : b'.FrontFresh e'.now topic) :
    Agree (b.tryConsume e topic).1 (b'.tryConsume e' topic).1 ∧
      (b.tryConsume e topic).2.map Held.timeless = (b'.tryConsume e' topic).2.map Held.timeless := by
  rw [tryConsume_front hf, tryConsume_front hf']
  rcases PriorityQueue.tryPop_cases (hb.queues topic) with ⟨hn, hn'⟩ | ⟨r, r', hp, hp', hh, hq⟩
  · rw [hn, hn']
    exact ⟨hb.setQueue topic (hb.queues topic), rfl⟩
  · rw [hp, hp']
    exact ⟨(hb.setQueue topic hq).pend hh topic, congrArg some hh⟩

theorem Agree.erase (id : String) :
    Agree { b with pending := b.pending.erase id } { b' with pending := b'.pending.erase id } :=
  { hb with pending := hb.shows.erase id }

theorem Agree.ack (id : String) : Agree (b.ack e id).1 (b'.ack e' id).1 := by
  rw [ack_eq, ack_eq]
  rcases hb.shows.lookup id with ⟨hn, hn'⟩ | ⟨pm, pm', hp, hp', _, _⟩
  · rw [hn, hn']
    exact hb
  · rw [hp, hp']
    exact { hb.erase id with }

theorem Agree.pushDeadLetter (hh : h.timeless = h'.timeless) (name : String) :
    Agree (b.pushDeadLetter name h) (b'.pushDeadLetter name h') :=
  { hb with deadLetters := hb.shows.pushDeadLetter hh hb.queueCap name }

theorem Agree.retryOrDeadLetter (hh : h.timeless = h'.timeless) (name : String) :
    Agree (b.retryOrDeadLetter h name).1 (b'.retryOrDeadLetter h' name).1 := by
  obtain ⟨href, _, _, _, hmax, _⟩ := Held.timeless_fields hh
  have hb1 : Agree (b.retried h) (b'.retried h') := by
    refine { hb with retries := ?_ }
    unfold retried
    rw [hb.retryOf hh, hb.retries, href]
  rw [retryOrDeadLetter_eq, retryOrDeadLetter_eq, hmax, hb.retryOf hh]
  split
  · exact hb1.pushDeadLetter hh name
  obtain ⟨q, q', ok, hp, hp', hq⟩ := hb1.shows.push hh name
  rw [hp, hp']
  exact hb1.setQueue name hq

theorem Agree.retryPending (id : String) (missing : BrokerErr) :
    Agree (b.retryPending id missing).1 (b'.retryPending id missing).1 := by
  unfold Broker.retryPending
  rcases hb.shows.lookup id with ⟨hn, hn'⟩ | ⟨pm, pm', hp, hp', hh, hq⟩
  · rw [hn, hn']
    exact hb
  · rw [hp, hp']
    dsimp only
    rw [hq]
    exact (hb.erase id).retryOrDeadLetter hh _

theorem Agree.promoteDelayed (he : e.spillErr = none) (he' : e'.spillErr = none)
    (id : String) : Agree (b.promoteDelayed e id).1 (b'.promoteDelayed e' id).1 := by
  obtain ⟨hfind, herase⟩ := hb.shows.find_delayed id
  have hrest : Agree { b with delayed := b.delayed.eraseP (fun h => h.msg.id = id) }
      { b' with delayed := b'.delayed.eraseP (fun h => h.msg.id = id) } := { hb with delayed := herase }
  unfold Broker.promoteDelayed
  rcases map_eq_map_cases hfind with ⟨hn, hn'⟩ | ⟨x, x', hx, hx', hh⟩
  · rw [hn, hn']
    exact hb
  · rw [hx, hx']
    dsimp only
    rw [(Held.timeless_fields hh).2.2.1]
    exact hrest.pushOrSpill hh he he' _

end

theorem queue_purgeQueue (b : Broker) (topic name : String) :
    (b.purgeQueue topic).1.queue name = if topic = name then (b.queue topic).purge else b.queue name := by
  obtain ⟨hq, heq⟩ | ⟨store, -, heq⟩ := b.purgeQueue_cases topic
  · rw [heq]
    split
    · rename_i hn
      subst hn
      rw [queue, hq]
      simp [PriorityQueue.purge, PriorityQueue.new]
    · rfl
  · rw [heq, ← queue_setQueue]
    rfl

theorem Agree.purgeQueue (hb : Agree b b') (topic : String) :
    Agree (b.purgeQueue topic).1 (b'.purgeQueue topic).1 := by
  have hframe : ∀ b : Broker, ∃ queues store purged,
      (b.purgeQueue topic).1 = { b with queues, store, purged } := by
    intro b
    obtain ⟨-, heq⟩ | ⟨store, -, heq⟩ := b.purgeQueue_cases topic <;> exact ⟨_, _, _, heq⟩
  have hqueues : ∀ n, ((b.purgeQueue topic).1.queue n).map Held.timeless =
      ((b'.purgeQueue topic).1.queue n).map Held.timeless := by
    intro n
    rw [queue_purgeQueue, queue_purgeQueue]
    split
    · rw [← PriorityQueue.map_purge, ← PriorityQueue.map_purge, hb.queues]
    · exact hb.queues n
  obtain ⟨queues, store, purged, hq⟩ := hframe b
  obtain ⟨queues', store', purged', hq'⟩ := hframe b'
  rw [hq, hq'] at hqueues ⊢
  exact { hb with queues := hqueues }

theorem deadLetter_purgeDeadLetters (b : Broker) (topic name : String) :
    (b.purgeDeadLetters topic).1.deadLetter name = if topic = name then [] else b.deadLetter name := by
  obtain ⟨hd, heq⟩ | ⟨store, -, heq⟩ := b.purgeDeadLetters_cases topic
  · rw [heq]
    split
    · rename_i hn
      rw [← hn, deadLetter, hd]
      rfl
    · rfl
  · rw [heq, ← deadLetter_insert]
    rfl

theorem Agree.purgeDeadLetters (hb : Agree b b') (topic : String) :
    Agree (b.purgeDeadLetters topic).1 (b'.purgeDeadLetters topic).1 := by
  have hframe : ∀ b : Broker, ∃ deadLetters store purged,
      (b.purgeDeadLetters topic).1 = { b with deadLetters, store, purged } := by
    intro b
    obtain ⟨-, heq⟩ | ⟨store, -, heq⟩ := b.purgeDeadLetters_cases topic <;> exact ⟨_, _, _, heq⟩
  have hdead : ∀ n, ((b.purgeDeadLetters topic).1.deadLetter n).map Held.timeless =
      ((b'.purgeDeadLetters topic).1.deadLetter n).map Held.timeless := by
    intro n
    rw [deadLetter_purgeDeadLetters, deadLetter_purgeDeadLetters]
    split
    · rfl
    · exact hb.deadLetters n
  obtain ⟨deadLetters, store, purged, hd⟩ := hframe b
  obtain ⟨deadLetters', store', purged', hd'⟩ := hframe b'
  rw [hd, hd'] at hdead ⊢
  exact { hb with deadLetters := hdead }

theorem writeMetadata_agree (b : Broker) (e : Env) (d : Metadata) : Agree b (b.writeMetadata e d) := by
  rw [writeMetadata_eq]
  exact { Agree.refl b with }

section
variable (hb : Agree b b')
include hb

theorem Agree.topology {exchanges exchanges' : TreeMap String Exchange}
    (hx : exchanges = exchanges') (d : Metadata) :
    Agree (Broker.writeMetadata { b with exchanges } e d)
      (Broker.writeMetadata { b' with exchanges := exchanges' } e' d) := by
  have hb1 : Agree { b with exchanges } { b' with exchanges := exchanges' } := { hb with exchanges := hx }
  exact (writeMetadata_agree _ e d).symm.trans (hb1.trans (writeMetadata_agree _ e' d))

theorem Agree.exchangeDeclare (name : String) (type : ExchangeType) (durable : Bool) :
    Agree (b.exchangeDeclare e name type durable).1 (b'.exchangeDeclare e' name type durable).1 := by
  unfold Broker.exchangeDeclare
  rw [hb.exchanges]
  cases b'.exchanges[name]? with
  | some x => exact hb
  | none =>
    have hx : b.exchanges.insert name { name, type, durable } =
        b'.exchanges.insert name { name, type, durable } := by rw [hb.exchanges]
    cases durable with
    | true => exact hb.topology hx _
    | false => exact { hb with exchanges := hx }

theorem Agree.exchangeDelete (name : String) :
    Agree (b.exchangeDelete e name).1 (b'.exchangeDelete e' name).1 := by
  unfold Broker.exchangeDelete
  rw [hb.exchanges]
  split
  · exact hb
  split
  · exact hb.topology rfl _
  · exact hb

theorem Agree.bindQueue (binding : Binding) :
    Agree (b.bindQueue e binding).1 (b'.bindQueue e' binding).1 := by
  unfold Broker.bindQueue
  rw [hb.exchanges]
  cases b'.exchanges[binding.exchange]? with
  | none => exact hb
  | some x =>
    refine (writeMetadata_agree _ e _).symm.trans (Agree.trans ?_ (writeMetadata_agree _ e' _))
    refine Agree.touch (Agree.symm (Agree.touch (Agree.symm ?_) _)) _
    exact { hb with exchanges := rfl }

theorem Agree.unbindQueue (exchange queue bindingKey : String) :
    Agree (b.unbindQueue e exchange queue bindingKey).1 (b'.unbindQueue e' exchange queue bindingKey).1 := by
  unfold Broker.unbindQueue
  rw [hb.exchanges]
  cases b'.exchanges[exchange]? with
  | none => exact hb
  | some x => exact hb.topology rfl _

theorem Agree.registerDurableSub (topic sub : String) :
    Agree (b.registerDurableSub topic sub) (b'.registerDurableSub topic sub) := by
  refine { hb with durableSubs := ?_ }
  unfold Broker.registerDurableSub
  rw [hb.durableSubs]

theorem Agree.unregisterDurableSub (topic sub : String) :
    Agree (b.unregisterDurableSub topic sub) (b'.unregisterDurableSub topic sub) := by
  unfold Broker.unregisterDurableSub
  rw [hb.durableSubs]
  split
  · exact hb
  · exact { hb with durableSubs := rfl }

theorem Agree.publishExchange (he : e.writeErr = none ∧ e.spillErr = none)
    (he' : e'.writeErr = none ∧ e'.spillErr = none) (ids ids' : List String)
    (hs : if exchange = "" then Due m e else b.routed exchange routingKey m = [])
    (hs' : if exchange = "" then Due m e' else b'.routed exchange routingKey m = []) :
    Agree (b.publishExchange e ids exchange routingKey m).1
      (b'.publishExchange e' ids' exchange routingKey m).1 := by
  unfold Broker.publishExchange
  unfold routed at hs
  rw [hb.exchanges] at hs ⊢
  cases hx : b'.exchanges[exchange]? with
  | none => exact hb
  | some x =>
    dsimp only
    by_cases hn : exchange = ""
    · rw [if_pos hn] at hs hs'
      rw [if_pos hn, if_pos hn]
      have hd : Due { m with exchange, routingKey } e := hs
      have hd' : Due { m with exchange, routingKey } e' := hs'
      exact hb.publish he he' hd hd' routingKey
    · rw [if_neg hn, hx] at hs
      have hroute : x.route routingKey m.headers = [] := hs
      rw [if_neg hn, if_neg hn, hroute]
      exact hb

end

structure Idle (b : Broker) (now : Int) : Prop where
  delayed : ∀ h ∈ b.delayed, now < h.msg.deliverAt
  pending : ∀ x ∈ b.pending.toList, ¬ x.2.held.msg.Expired now
  spilled : ∀ x ∈ b.queues.toList, x.2.isFull = true ∨ x.1 ∉ b.spill

instance (b : Broker) (now : Int) : Decidable (b.Idle now) :=
  decidable_of_iff ((∀ h ∈ b.delayed, now < h.msg.deliverAt) ∧
      (∀ x ∈ b.pending.toList, ¬ x.2.held.msg.Expired now) ∧
      ∀ x ∈ b.queues.toList, x.2.isFull = true ∨ x.1 ∉ b.spill)
    ⟨fun ⟨h₁, h₂, h3⟩ => ⟨h₁, h₂, h3⟩, fun h => ⟨h.delayed, h.pending, h.spilled⟩⟩

theorem Idle.promoteReady (hi : b.Idle now) : b.promoteReady now = b := by
  unfold Broker.promoteReady
  have hready : b.delayed.filter (fun h => h.msg.deliverAt ≤ now) = [] := by
    rw [filter_eq_nil_iff]
    intro h hm
    simpa using hi.delayed h hm
  have hrest : b.delayed.filter (fun h => now < h.msg.deliverAt) = b.delayed := by
    rw [filter_eq_self]
    exact fun h hm => decide_eq_true (hi.delayed h hm)
  rw [hready, hrest]
  rfl

theorem reloadFromDisk_idle (hi : ∀ x ∈ b.queues.toList, x.2.isFull = true ∨ x.1 ∉ b.spill) :
    b.reloadFromDisk = b := by
  have hnames : ∀ name ∈ b.queues.keys, (b.queue name).isFull = true ∨ name ∉ b.spill := by
    intro name hn
    rw [← map_fst_toList_eq_keys] at hn
    obtain ⟨x, hx, rfl⟩ := mem_map.mp hn
    rw [queue_of_mem hx]
    exact hi x hx
  unfold reloadFromDisk
  generalize b.queues.keys = names at hnames
  induction names with
  | nil => rfl
  | cons name names ih =>
    rw [foldl_cons, if_pos (hnames name mem_cons_self)]
    exact ih (fun n hn => hnames n (mem_cons_of_mem _ hn))

theorem Idle.agree (hi : b.Idle e.now) : Agree b (b.processAdvancedFeatures e) := by
  have hpending : ∀ id : String, ((b.dropExpired e.now).pending[id]?) = b.pending[id]? := by
    intro id
    unfold dropExpired
    rw [getElem?_filter']
    cases hp : b.pending[id]? with
    | none => rfl
    | some pm =>
      refine Option.filter_some_pos (decide_eq_true ?_)
      exact hi.pending (id, pm) (mem_toList_iff_getElem?_eq_some.mpr hp)
  have hdrop : Agree b (b.dropExpired e.now) :=
    { Agree.refl b with pending := fun id => congrArg (Option.map _) (hpending id).symm }
  unfold Broker.processAdvancedFeatures
  rw [hi.promoteReady, reloadFromDisk_idle (b := b.dropExpired e.now) hi.spilled]
  exact hdrop

def SteadyFor (b : Broker) (e : Env) : RaftCommand → Prop
  | .publish _ m => b.hasMessage m.id = true ∨ Due m e
  | .consume topic => b.FrontFresh e.now topic
  | .publishExchange exchange routingKey m =>
    if exchange = "" then Due m e else b.routed exchange routingKey m = []
  | _ => True

instance (b : Broker) (e : Env) (cmd : RaftCommand) : Decidable (b.SteadyFor e cmd) := by
  unfold SteadyFor
  split <;> infer_instance

structure Alike (b b' : Broker) : Prop where
  queues : ∀ name, (b.queue name).drain.map (fun h => h.msg.id) = (b'.queue name).drain.map (fun h => h.msg.id)
  pending : ∀ id : String, (b.pending[id]?).map PendingMessage.queueName =
    (b'.pending[id]?).map PendingMessage.queueName
  delayed : b.delayed.map (fun h => h.msg.id) = b'.delayed.map (fun h => h.msg.id)
  deadLetters : ∀ name,
    (b.deadLetter name).map (fun h => h.msg.id) = (b'.deadLetter name).map (fun h => h.msg.id)
  exchanges : b.exchanges = b'.exchanges

theorem Agree.alike (hb : Agree b b') : Alike b b' where
  queues := fun name => hb.shows.ids (hb.shows.drain name)
  pending := fun id => by
    rcases hb.shows.lookup id with ⟨hn, hn'⟩ | ⟨pm, pm', hp, hp', _, hq⟩
    · rw [hn, hn']
    · rw [hp, hp']
      exact congrArg some hq
  delayed := hb.shows.ids hb.delayed
  deadLetters := fun name => hb.shows.ids (hb.deadLetters name)
  exchanges := hb.exchanges

end Broker

namespace Replica
variable {r r' : Replica}

/-- Disk calls succeed, no command depends on the replica's clock or on ids it makes, and no
timer of the replica fires on its own. -/
def Steady (r : Replica) : Event → Prop
  | .apply e _ (.ok cmd) =>
    (e.writeErr = none ∧ e.spillErr = none) ∧ r.fsm.broker.SteadyFor e cmd
  | .apply _ _ (.error _) => True
  | .maintain e => r.fsm.broker.Idle e.now

instance (r : Replica) (ev : Event) : Decidable (r.Steady ev) := by
  unfold Steady
  split <;> infer_instance

structure Agree (r r' : Replica) : Prop where
  broker : r.fsm.broker.Agree r'.fsm.broker
  metadata : r.fsm.metadata = r'.fsm.metadata
  given : r.given.map (Option.map Message.timeless) = r'.given.map (Option.map Message.timeless)

theorem applyCommand_agree {f f' : BrokerFSM} {e e' : Env} (hb : f.broker.Agree f'.broker)
    (hm : f.metadata = f'.metadata) (he : e.writeErr = none ∧ e.spillErr = none)
    (he' : e'.writeErr = none ∧ e'.spillErr = none) (ids ids' : List String)
    (hs : f.broker.SteadyFor e cmd) (hs' : f'.broker.SteadyFor e' cmd) :
    (f.applyCommand e ids cmd).1.broker.Agree (f'.applyCommand e' ids' cmd).1.broker ∧
      (f.applyCommand e ids cmd).1.metadata = (f'.applyCommand e' ids' cmd).1.metadata ∧
      (isConsume (.ok cmd) = true → (f.applyCommand e ids cmd).2.message.map Message.timeless =
        (f'.applyCommand e' ids' cmd).2.message.map Message.timeless) := by
  have hpurged : ∀ (f : BrokerFSM) (p : Broker × Except BrokerErr Nat),
      (f.purged p).1 = { f with broker := p.1 } := by
    intro f p
    unfold BrokerFSM.purged
    split <;> rfl
  cases cmd with
  | publish topic m =>
    simp only [BrokerFSM.applyCommand, hb.shows.hasMessage m.id]
    by_cases hh : f'.broker.hasMessage m.id = true
    · rw [if_pos hh, if_pos hh]
      exact ⟨hb, hm, nofun⟩
    · rw [if_neg hh, if_neg hh]
      have hd := hs.resolve_left (hb.shows.hasMessage m.id ▸ hh)
      exact ⟨hb.publish he he' hd (hs'.resolve_left hh) topic, hm, nofun⟩
  | publishTopic topic m => exact ⟨hb.publishTopic he he' topic m, hm, nofun⟩
  | consume topic =>
    obtain ⟨hc, hgot⟩ := hb.tryConsume hs hs'
    exact ⟨hc, hm, fun _ => hc.given hgot⟩
  | ack id => exact ⟨hb.ack id, hm, nofun⟩
  | nack id => exact ⟨hb.retryPending id _, hm, nofun⟩
  | promote id =>
    simp only [BrokerFSM.applyCommand, hb.shows.hasDelayedMessage id]
    split
    · exact ⟨hb.promoteDelayed he.2 he'.2 id, hm, nofun⟩
    · exact ⟨hb, hm, nofun⟩
  | purge topic =>
    simp only [BrokerFSM.applyCommand, hpurged]
    exact ⟨hb.purgeQueue topic, hm, nofun⟩
  | purgeDeadLetters topic =>
    simp only [BrokerFSM.applyCommand, hpurged]
    exact ⟨hb.purgeDeadLetters topic, hm, nofun⟩
  | subscribe topic sub => exact ⟨hb.registerDurableSub topic sub, hm, nofun⟩
  | unsubscribe topic sub => exact ⟨hb.unregisterDurableSub topic sub, hm, nofun⟩
  | exchangeDeclare name type durable => exact ⟨hb.exchangeDeclare name type durable, hm, nofun⟩
  | exchangeDelete name => exact ⟨hb.exchangeDelete name, hm, nofun⟩
  | bindQueue binding => exact ⟨hb.bindQueue binding, hm, nofun⟩
  | unbindQueue exchange queue bindingKey =>
    exact ⟨hb.unbindQueue exchange queue bindingKey, hm, nofun⟩
  | publishExchange exchange routingKey m =>
    exact ⟨hb.publishExchange he he' ids ids' hs hs', hm, nofun⟩
  | control cmd =>
    simp only [BrokerFSM.applyCommand, hm]
    exact ⟨hb, trivial, nofun⟩
  | unknown type => exact ⟨hb, hm, nofun⟩

theorem Agree.refl (r : Replica) : Agree r r := ⟨.refl _, rfl, rfl⟩

theorem Agree.symm (h : Agree r r') : Agree r' r := ⟨h.broker.symm, h.metadata.symm, h.given.symm⟩

theorem Agree.trans (h : Agree r r') (h' : Agree r' r'') : Agree r r'' :=
  ⟨h.broker.trans h'.broker, h.metadata.trans h'.metadata, h.given.trans h'.given⟩

theorem maintain_agree (hn : entry ev = none) (hc : r.Steady ev) (hs : r.Step ev r') :
    Agree r r' := by
  cases ev with
  | apply e ids x => cases hn
  | maintain e =>
    cases hs
    exact ⟨Broker.Idle.agree hc, rfl, rfl⟩

theorem apply_agree (h : Agree r r') (hx : entry ev = some x) (hx' : entry ev' = some x)
    (hc : r.Steady ev) (hc' : r'.Steady ev') (hs : r.Step ev s) (hs' : r'.Step ev' s') :
    Agree s s' := by
  cases ev with
  | maintain e => cases hx
  | apply e ids x1 =>
    cases ev' with
    | maintain e' => cases hx'
    | apply e' ids' x2 =>
      cases hx
      cases hx'
      simp only [Step, step] at hs hs'
      split at hs
      · split at hs'
        · cases hs
          cases hs'
          cases x with
          | error err => exact h
          | ok cmd =>
            obtain ⟨hb, hm, hgot⟩ := applyCommand_agree h.broker h.metadata hc.1 hc'.1 ids ids' hc.2 hc'.2
            refine ⟨hb, hm, ?_⟩
            split
            · rename_i hcons
              rw [map_append, map_append, h.given]
              exact congrArg (_ ++ [·]) (hgot hcons)
            · exact h.given
        · cases hs'
      · cases hs

def fresh : Replica := { fsm := { broker := .new {} none ∅ } }

def steadyLog (ahead : Int) : List Event :=
  [.apply { now := 1 + ahead } [] (.ok (.publish "jobs" { id := "a", ttl := 100 })),
    .apply { now := 2 + ahead } [] (.ok (.publish "jobs" { id := "b", delay := 50 })),
    .apply { now := 3 + ahead } [] (.ok (.consume "jobs")),
    .apply { now := 4 + ahead } [] (.ok (.nack "a")),
    .apply { now := 60 + ahead } [] (.ok (.promote "b")),
    .apply { now := 61 + ahead } [] (.ok (.consume "jobs"))]

def cloning (id : String) : List Event :=
  [.apply { now := 1 } [] (.ok (.exchangeDeclare "news" .fanout false)),
    .apply { now := 2 } [] (.ok (.bindQueue { exchange := "news", queue := "mail", bindingKey := "" })),
    .apply { now := 3 } [id] (.ok (.publishExchange "news" "" { id := "m" })),
    .apply { now := 4 } [] (.ok (.consume "mail"))]

end Replica
end Boltq.QueuePlane
