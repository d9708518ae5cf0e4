import Boltq.QueuePlane.Conservation
import Boltq.QueuePlane.Log

namespace Boltq.QueuePlane
open Lib Std List

def Held.level (h : Held) : Nat := clampPriority h.msg.priority

structure Ranked (cap bound : Nat) (q : PriorityQueue Held) : Prop where
  sorted : q.Sorted Held.level numPriorityLevels cap
  made : ∀ h ∈ q.drain, h.ref < bound

theorem Ranked.new (cap bound : Nat) : Ranked cap bound (.new numPriorityLevels cap) where
  sorted := PriorityQueue.sorted_new
  made := by
    rw [PriorityQueue.drain_new]
    exact forall_mem_nil _

section
variable (h : Ranked cap bound q)
include h

theorem Ranked.mono (hle : bound ≤ bound') : Ranked cap bound' q :=
  ⟨h.sorted, fun x hx => Nat.lt_of_lt_of_le (h.made x hx) hle⟩

theorem Ranked.push {x : Held} (hx : x.ref < bound)
    (hp : q.push (clampPriority x.msg.priority) x = some q') : Ranked cap bound q' where
  sorted := h.sorted.push hp
  made := by
    intro y hy
    rcases mem_cons.mp ((PriorityQueue.push_perm hp).mem_iff.mp hy) with rfl | hy
    · exact hx
    · exact h.made y hy

theorem Ranked.popFresh (now : Int) (fuel : Nat) (skipped : List Held) :
    Ranked cap bound (Broker.popFresh now fuel q skipped).1 ∧
      ∀ x ∈ (Broker.popFresh now fuel q skipped).2.2, x.ref < bound := by
  induction fuel generalizing q skipped with
  | zero => exact ⟨h, fun x hx => absurd hx (Option.not_mem_none x)⟩
  | succ fuel ih =>
    simp only [Broker.popFresh]
    cases hp : q.tryPop with
    | none => exact ⟨h, fun x hx => absurd hx (Option.not_mem_none x)⟩
    | some r =>
      obtain ⟨x, q'⟩ := r
      have hdrain := PriorityQueue.tryPop_drain hp
      have hrest : Ranked cap bound q' :=
        ⟨h.sorted.tryPop hp, fun y hy => h.made y (hdrain ▸ mem_cons_of_mem x hy)⟩
      dsimp only
      split
      · exact ih hrest _
      refine ⟨hrest, fun y hy => ?_⟩
      cases Option.mem_def.mp hy
      exact h.made x (hdrain ▸ mem_cons_self)

theorem Ranked.reloadInto (ms : List Message) : bound ≤ (Broker.reloadInto ms q bound).2.2 ∧
      Ranked cap (Broker.reloadInto ms q bound).2.2 (Broker.reloadInto ms q bound).1 := by
  induction ms generalizing q bound with
  | nil => exact ⟨Nat.le_refl _, h⟩
  | cons m ms ih =>
    simp only [Broker.reloadInto]
    split
    · exact ⟨Nat.le_refl _, h⟩
    cases hp : q.push (clampPriority m.priority) ⟨bound, m⟩ with
    | none => exact ⟨Nat.le_refl _, h⟩
    | some q' =>
      have hpush : Ranked cap (bound + 1) q' :=
        (h.mono (Nat.le_succ bound)).push (x := ⟨bound, m⟩) (Nat.lt_succ_self bound) hp
      obtain ⟨hle, hq⟩ := ih hpush
      exact ⟨Nat.le_of_succ_le hle, hq⟩

end

namespace Broker
variable {b b' : Broker} {e : Env} {h : Held}

structure Formed (b : Broker) : Prop where
  queues : ∀ name, Ranked (nextPowerOfTwo b.queueCap) b.nextRef (b.queue name)
  deadLetters : ∀ {key : String} {dl : List Held}, b.deadLetters[key]? = some dl →
    dl.length ≤ nextPowerOfTwo b.queueCap ∧ ∀ h ∈ dl, h.ref < b.nextRef
  delayed : ∀ h ∈ b.delayed, h.ref < b.nextRef
  pending : ∀ {id : String} {pm : PendingMessage}, b.pending[id]? = some pm →
    pm.held.ref < b.nextRef
  retries : ∀ r, b.nextRef ≤ r → b.retries[r]? = none
  exchanges : "" ∈ b.exchanges

section
variable (hb : Formed b)
include hb

theorem Formed.setQueue (name : String)
    (hq : Ranked (nextPowerOfTwo b.queueCap) b.nextRef q) : Formed (b.setQueue name q) := by
  refine { hb with queues := fun n => ?_ }
  rw [queue_setQueue]
  split
  · exact hq
  · exact hb.queues n

theorem Formed.made (hn : b.nextRef ≤ n) : Formed { b with nextRef := n } where
  queues := fun name => (hb.queues name).mono hn
  deadLetters := fun hk => ⟨(hb.deadLetters hk).1,
    fun h hh => Nat.lt_of_lt_of_le ((hb.deadLetters hk).2 h hh) hn⟩
  delayed := fun h hh => Nat.lt_of_lt_of_le (hb.delayed h hh) hn
  pending := fun hp => Nat.lt_of_lt_of_le (hb.pending hp) hn
  retries := fun r hr => hb.retries r (Nat.le_trans hn hr)
  exchanges := hb.exchanges

section
variable (hh : h.ref < b.nextRef)
include hh

theorem Formed.push (name : String) : Formed (b.push name h).1 := by
  unfold Broker.push
  cases hp : (b.queue name).push (clampPriority h.msg.priority) h with
  | none => exact hb.setQueue name (hb.queues name)
  | some q => exact hb.setQueue name ((hb.queues name).push hh hp)

theorem Formed.pushOrSpill (e : Env) (name : String) :
    Formed (b.pushOrSpill e name h).1 := by
  have hpush := hb.push hh name
  unfold Broker.pushOrSpill
  generalize b.push name h = r at hpush
  obtain ⟨b1, ok⟩ := r
  cases ok with
  | true => exact hpush
  | false =>
    dsimp only
    unfold spillToDisk
    split
    · exact hpush
    · exact { hpush with }

theorem Formed.deliver (e : Env) (name : String) :
    Formed (b.deliver e name h).1 := by
  unfold Broker.deliver
  split
  · refine { hb with delayed := fun x hx => ?_ }
    rcases mem_append.mp hx with hx | hx
    · exact hb.delayed x hx
    · exact mem_singleton.mp hx ▸ hh
  · exact hb.pushOrSpill hh e name

end

theorem Formed.log (m : Message) : Formed (b.log m) :=
  { hb.made (Nat.le_succ b.nextRef) with }

theorem Formed.publish (e : Env) (topic : String) (m : Message) :
    Formed (b.publish e topic m).1 := by
  rw [publish_eq]
  cases b.refusal e with
  | some err => exact hb
  | none =>
    have hdel := (hb.log (b.stamp e topic m)).deliver (h := ⟨b.nextRef, b.stamp e topic m⟩)
      (Nat.lt_succ_self _) e topic
    dsimp only [put]
    split
    · exact { hdel with }
    · exact hdel

theorem Formed.publishExchange (e : Env) (ids : List String)
    (exchange routingKey : String) (m : Message) :
    Formed (b.publishExchange e ids exchange routingKey m).1 :=
  publishExchange_rule (fun _ queue m _ hb => hb.publish e queue m) hb routingKey

theorem Formed.publishTopic (e : Env) (topic : String) (m : Message) :
    Formed (b.publishTopic e topic m).1 := by
  refine publishTopic_rule hb (hb.log _) (fun b1 sub hn h1 => ?_)
  have hp := h1.pushOrSpill (h := ⟨b.nextRef, { m with topic }⟩) (hn ▸ Nat.lt_succ_self _) e
    (durableName topic sub)
  exact { hp with }

theorem Formed.tryConsume (e : Env) (topic : String) : Formed (b.tryConsume e topic).1 := by
  obtain ⟨hq, hgot⟩ := (hb.queues topic).popFresh e.now ((b.queue topic).drain.length + 1) []
  unfold Broker.tryConsume
  generalize Broker.popFresh e.now _ _ [] = r at hq hgot
  obtain ⟨q, skipped, got⟩ := r
  have hset : Formed { b.setQueue topic q with expired := copies topic skipped ++ b.expired } :=
    { hb.setQueue topic hq with }
  cases got with
  | none => exact hset
  | some x =>
    refine { hset with pending := ?_ }
    intro id pm hp
    rcases insert_cases hp with ⟨_, rfl⟩ | ⟨_, hold⟩
    · exact hgot x rfl
    · exact hb.pending hold

theorem Formed.erase (id : String) : Formed { b with pending := b.pending.erase id } :=
  { hb with pending := fun hp => hb.pending (getElem?_of_erase hp) }

theorem Formed.ack (e : Env) (id : String) : Formed (b.ack e id).1 := by
  rw [ack_eq]
  cases b.pending[id]? with
  | none => exact hb
  | some pm => exact { hb.erase id with }

theorem Formed.pushDeadLetter (hh : h.ref < b.nextRef) (name : String) :
    Formed (b.pushDeadLetter name h) := by
  have hold : (b.deadLetter name).length ≤ nextPowerOfTwo b.queueCap ∧
      ∀ x ∈ b.deadLetter name, x.ref < b.nextRef := by
    unfold deadLetter
    cases hk : b.deadLetters[deadLetterName name]? with
    | none => exact ⟨Nat.zero_le _, forall_mem_nil _⟩
    | some dl => exact hb.deadLetters hk
  refine { hb with deadLetters := ?_ }
  intro key dl hk
  rcases insert_cases hk with ⟨_, rfl⟩ | ⟨_, hk⟩
  · split
    · rename_i hlt
      refine ⟨by rw [length_append]; exact hlt, fun x hx => ?_⟩
      rcases mem_append.mp hx with hx | hx
      · exact hold.2 x hx
      · exact mem_singleton.mp hx ▸ hh
    · exact hold
  · exact hb.deadLetters hk

theorem Formed.retried (hh : h.ref < b.nextRef) : Formed (b.retried h) := by
  refine { hb with retries := fun r hr => ?_ }
  have hne : r ≠ h.ref := fun he => absurd hr (by rw [he]; exact Nat.not_le_of_lt hh)
  exact (getElem?_insert_other _ hne).trans (hb.retries r hr)

theorem Formed.retryPending (id : String) (missing : BrokerErr) :
    Formed (b.retryPending id missing).1 := by
  obtain ⟨-, heq⟩ | ⟨pm, hp, heq | heq⟩ := b.retryPending_cases id missing
  · rw [heq]
    exact hb
  · rw [heq]
    exact ((hb.erase id).retried (hb.pending hp)).pushDeadLetter (hb.pending hp) pm.queueName
  · rw [heq]
    exact ((hb.erase id).retried (hb.pending hp)).push (hb.pending hp) pm.queueName

theorem Formed.promoteDelayed (e : Env) (id : String) : Formed (b.promoteDelayed e id).1 := by
  unfold Broker.promoteDelayed
  cases hf : b.delayed.find? (fun h => h.msg.id = id) with
  | none => exact hb
  | some x =>
    have hrest : Formed { b with delayed := b.delayed.eraseP (fun h => h.msg.id = id) } :=
      { hb with delayed := fun y hy => hb.delayed y (mem_of_mem_eraseP hy) }
    exact hrest.pushOrSpill (hb.delayed x (mem_of_find?_eq_some hf)) e _

theorem Formed.promoteReady (now : Int) : Formed (b.promoteReady now) :=
  promoteReady_rule { hb with delayed := fun h hh => hb.delayed h (mem_filter.mp hh).1 }
    (fun _ h hh hn h1 => h1.push (hn ▸ hb.delayed h hh) h.msg.topic)

theorem Formed.dropExpired (now : Int) : Formed (b.dropExpired now) := by
  refine { hb with pending := ?_ }
  intro id pm hp
  rw [Broker.dropExpired, TreeMap.getElem?_filter'] at hp
  exact hb.pending (Option.eq_some_of_filter_eq_some hp)

theorem Formed.processSpillFile (name : String) : Formed (b.processSpillFile name) := by
  obtain ⟨hle, hq⟩ := (hb.queues name).reloadInto (b.spilled name)
  have hset := (hb.made hle).setQueue name hq
  exact { hset with }

theorem Formed.reloadFromDisk : Formed b.reloadFromDisk := by
  unfold Broker.reloadFromDisk
  generalize b.queues.keys = names
  induction names generalizing b with
  | nil => exact hb
  | cons name names ih =>
    rw [foldl_cons]
    split
    · exact ih hb
    · exact ih (hb.processSpillFile name)

theorem Formed.maintain (e : Env) : Formed (b.processAdvancedFeatures e) :=
  ((hb.promoteReady e.now).dropExpired e.now).reloadFromDisk

theorem Formed.purgeQueue (topic : String) : Formed (b.purgeQueue topic).1 := by
  obtain ⟨-, heq⟩ | ⟨store, -, heq⟩ := b.purgeQueue_cases topic
  · rw [heq]
    exact hb
  · have hempty : Ranked (nextPowerOfTwo b.queueCap) b.nextRef (b.queue topic).purge :=
      ⟨(hb.queues topic).sorted.purge, by rw [PriorityQueue.drain_purge]; exact forall_mem_nil _⟩
    rw [heq]
    exact { hb.setQueue topic hempty with }

theorem Formed.purgeDeadLetters (topic : String) : Formed (b.purgeDeadLetters topic).1 := by
  obtain ⟨-, heq⟩ | ⟨store, -, heq⟩ := b.purgeDeadLetters_cases topic
  · rw [heq]
    exact hb
  rw [heq]
  refine { hb with deadLetters := ?_ }
  intro key dl hk
  rcases insert_cases hk with ⟨_, rfl⟩ | ⟨_, hk⟩
  · exact ⟨Nat.zero_le _, forall_mem_nil _⟩
  · exact hb.deadLetters hk

theorem Formed.writeMetadata (e : Env) (d : Metadata) : Formed (b.writeMetadata e d) := by
  rw [writeMetadata_eq]
  exact { hb with }

theorem Formed.insertExchange (name : String) (x : Exchange) :
    Formed { b with exchanges := b.exchanges.insert name x } :=
  { hb with exchanges := mem_insert_iff.mpr (.inr hb.exchanges) }

theorem Formed.ingestRecovered (e : Env) (m : Message) : Formed (b.ingestRecovered e m) := by
  unfold Broker.ingestRecovered
  split
  · exact hb
  split
  · exact hb
  · exact (hb.made (Nat.le_succ _)).deliver (h := (b.alloc m).1) (Nat.lt_succ_self _) e m.topic

end

theorem Formed.new (cfg : Config) (store : Option (List WALRecord))
    (spill : TreeMap String (List Message)) : Formed (.new cfg store spill) where
  queues := fun _ => Ranked.new _ _
  deadLetters := nofun
  delayed := forall_mem_nil _
  pending := nofun
  retries := fun _ _ => TreeMap.getElem?_emptyc
  exchanges := mem_insert_iff.mpr (.inl rfl)

theorem Formed.recover (cfg : Config) (e : Env) (records : List WALRecord)
    (spill : TreeMap String (List Message)) : Formed (.recover cfg e records spill) := by
  unfold Broker.recover
  dsimp only
  split
  · exact .new cfg _ spill
  rw [replay_spec]
  have hingest : ∀ (msgs : TreeMap String Message) (order : List String) (b : Broker), Formed b →
      Formed ((Replay.mk b msgs order).ingest e) := by
    intro msgs order
    unfold Replay.ingest
    dsimp only
    induction order with
    | nil => exact fun b hb => hb
    | cons id order ih =>
      intro b hb
      rw [foldl_cons]
      refine ih _ ?_
      split
      · exact hb
      · exact hb.ingestRecovered e _
  exact { hingest _ _ _ (.new cfg (some records) spill) with }

theorem Formed.step (hb : Formed b) (hs : b.Step op b') : Formed b' := by
  cases op with
  | publish e topic m =>
    cases hs
    exact hb.publish e topic m
  | publishTopic e topic m =>
    cases hs
    exact hb.publishTopic e topic m
  | publishExchange e ids exchange routingKey m =>
    simp only [Step, Broker.step] at hs
    split at hs
    · cases hs
      exact hb.publishExchange e ids exchange routingKey m
    · cases hs
  | registerDurableSub topic sub =>
    cases hs
    exact { hb with }
  | unregisterDurableSub topic sub =>
    cases hs
    unfold unregisterDurableSub
    split
    · exact hb
    · exact { hb with }
  | exchangeDeclare e name type durable =>
    cases hs
    unfold exchangeDeclare
    split
    · exact hb
    dsimp only
    split
    · exact (hb.insertExchange name _).writeMetadata e _
    · exact hb.insertExchange name _
  | exchangeDelete e name =>
    cases hs
    unfold exchangeDelete
    split
    · exact hb
    rename_i hn
    split
    · have herase : Formed { b with exchanges := b.exchanges.erase name } :=
        { hb with exchanges := mem_erase_iff.mpr ⟨Ne.symm hn, hb.exchanges⟩ }
      exact herase.writeMetadata e _
    · exact hb
  | bindQueue e binding =>
    cases hs
    unfold bindQueue
    split
    · exact hb
    rename_i x _
    have hbind := hb.insertExchange binding.exchange { x with bindings := x.bindings ++ [binding] }
    exact (hbind.setQueue binding.queue (hbind.queues binding.queue)).writeMetadata e _
  | unbindQueue e exchange queue bindingKey =>
    cases hs
    unfold unbindQueue
    split
    · exact hb
    · exact (hb.insertExchange exchange _).writeMetadata e _
  | tryConsume e topic =>
    cases hs
    exact hb.tryConsume e topic
  | ack e id =>
    cases hs
    exact hb.ack e id
  | nack id =>
    cases hs
    exact hb.retryPending id _
  | requeueTimedOut id =>
    cases hs
    exact hb.retryPending id _
  | promoteDelayed e id =>
    cases hs
    exact hb.promoteDelayed e id
  | processAdvancedFeatures e =>
    cases hs
    exact hb.maintain e
  | reloadFromDisk =>
    cases hs
    exact hb.reloadFromDisk
  | purgeQueue topic =>
    cases hs
    exact hb.purgeQueue topic
  | purgeDeadLetters topic =>
    cases hs
    exact hb.purgeDeadLetters topic
  | checkpoint msgs =>
    simp only [Step, Broker.step] at hs
    split at hs
    · cases hs
      exact { hb with }
    · cases hs

end Broker
end Boltq.QueuePlane
