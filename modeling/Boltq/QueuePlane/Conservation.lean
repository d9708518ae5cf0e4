import Boltq.Lib.Run
import Boltq.QueuePlane.Places

namespace Boltq.QueuePlane
open Lib Std List Option

namespace Broker
variable {b b' : Broker} {c : Copy} {e : Env}

structure SameBooks (b b' : Broker) : Prop where
  accepted : b'.accepted = b.accepted
  acked : b'.acked = b.acked
  expired : b'.expired = b.expired
  purged : b'.purged = b.purged

structure Sound (b : Broker) : Prop where
  balanced : b.Balanced
  keyed : b.Keyed

structure Quiet (b b' : Broker) : Prop extends SameBooks b b' where
  places : ∀ c, b'.places c = b.places c
  pending : b'.pending = b.pending

theorem Quiet.refl (b : Broker) : Quiet b b := ⟨⟨rfl, rfl, rfl, rfl⟩, fun _ => rfl, rfl⟩

theorem Quiet.topology (b : Broker) (exchanges : TreeMap String Exchange)
    (durableSubs : TreeMap String (TreeSet String)) (store : Option (List WALRecord)) :
    Quiet b { b with exchanges, durableSubs, store } := ⟨⟨rfl, rfl, rfl, rfl⟩, fun _ => rfl, rfl⟩

theorem Quiet.trans (h : Quiet b b') (h' : Quiet b' b'') : Quiet b b'' :=
  ⟨⟨h'.accepted.trans h.accepted, h'.acked.trans h.acked, h'.expired.trans h.expired,
    h'.purged.trans h.purged⟩, fun c => (h'.places c).trans (h.places c), h'.pending.trans h.pending⟩

section
variable (h : Sound b)
include h

theorem Sound.quiet (hb : Quiet b b') : Sound b' := by
  refine ⟨fun c => ?_, h.keyed.congr hb.pending⟩
  unfold acceptances
  rw [hb.accepted, hb.acked, hb.expired, hb.purged, hb.places]
  exact h.balanced c

theorem Sound.accept {m : Message} (hb : SameBooks b b')
    (hp : ∀ c, b'.places c = b.places c + c.is name m.id) (hk : b'.pending = b.pending) :
    Sound (b'.accept name m) := by
  refine ⟨fun c => ?_, h.keyed.congr hk⟩
  have hc := h.balanced c
  have hacc : b'.acceptances c = b.acceptances c := by
    unfold acceptances
    rw [hb.accepted]
  have hplaces : (b'.accept name m).places c = b'.places c := rfl
  rw [acceptances_accept, hacc, hplaces, hp c]
  show _ = b'.acked.count c + b'.purged.count c + b'.expired.count c + _
  rw [hb.acked, hb.expired, hb.purged]
  omega

theorem Sound.publish (e : Env) (topic : String) (m : Message) :
    Sound (b.publish e topic m).1 := by
  obtain hb | ⟨queues, spill, delayed, hp, hb⟩ := b.publish_spec e topic m
  · rw [hb]
    exact h
  rw [hb]
  split
  · rename_i hok
    simp only [hok, if_true] at hp
    exact h.accept ⟨rfl, rfl, rfl, rfl⟩ hp rfl
  · rename_i hok
    simp only [hok, if_false] at hp
    exact h.quiet ⟨⟨rfl, rfl, rfl, rfl⟩, hp, rfl⟩

theorem Sound.publishExchange (e : Env) (ids : List String)
    (exchange routingKey : String) (m : Message) :
    Sound (b.publishExchange e ids exchange routingKey m).1 :=
  publishExchange_rule (fun _ queue m _ h => h.publish e queue m) h routingKey

theorem Sound.publishTopic (e : Env) (he : e.spillErr = none) (topic : String)
    (m : Message) : Sound (b.publishTopic e topic m).1 := by
  refine publishTopic_rule h (h.quiet ⟨⟨rfl, rfl, rfl, rfl⟩, fun _ => rfl, rfl⟩) (fun b1 sub _ h1 => ?_)
  obtain ⟨⟨queues, spill, hb⟩, hp⟩ := b1.pushOrSpill_spec e (durableName topic sub)
    ⟨b.nextRef, { m with topic }⟩
  rw [b1.pushOrSpill_ok he] at hp
  rw [hb] at hp ⊢
  exact h1.accept ⟨rfl, rfl, rfl, rfl⟩ hp rfl

end

def firstFresh (b : Broker) (now : Int) (topic : String) : Option Held :=
  (b.queue topic).drain.find? (fun h => ¬ h.msg.Expired now)

theorem firstFresh_of_tryConsume (h : (b.tryConsume e topic).2 = some x) :
    b.firstFresh e.now topic = some x := by
  obtain ⟨q, skipped, hdrain, hexp, hgot, _⟩ := b.tryConsume_spec e topic
  rw [h] at hdrain hgot
  unfold firstFresh
  rw [hdrain, append_assoc, find?_append, find?_eq_none.mpr]
  · simp [hgot x rfl]
  · intro y hy
    simp [hexp y hy]

theorem inQueue_taken {got : Option Held} {q : PriorityQueue Held}
    (hd : (b.queue topic).drain = skipped ++ got.toList ++ q.drain) (c : Copy) :
    (b.setQueue topic q).inQueue c + (copies topic skipped).count c +
      (copies topic got.toList).count c = b.inQueue c := by
  rw [inQueue_setQueue, count_copies, count_copies]
  unfold inQueue
  by_cases hn : topic = c.queue
  · rw [if_pos hn, if_pos hn, if_pos hn, ← hn, hd, countP_append, countP_append]
    omega
  · rw [if_neg hn, if_neg hn, if_neg hn]
    omega

theorem Sound.tryConsume (h : Sound b) (e : Env) (topic : String)
    (hnew : ∀ x ∈ b.firstFresh e.now topic, x.msg.id ∉ b.pending) :
    Sound (b.tryConsume e topic).1 := by
  have hfirst : ∀ x, (b.tryConsume e topic).2 = some x → x.msg.id ∉ b.pending :=
    fun x hx => hnew x (firstFresh_of_tryConsume hx)
  obtain ⟨q, skipped, hdrain, _, _, hb⟩ := b.tryConsume_spec e topic
  generalize (b.tryConsume e topic).2 = got at hfirst hdrain hb
  rw [hb]
  have hpend : ∀ c, pendingIn (got.elim b.pending (fun h =>
      b.pending.insert h.msg.id
        { held := h, queueName := topic, deliverAt := e.now, ackDeadline := e.now + b.ackTimeout })) c =
      b.inPending c + (copies topic got.toList).count c := by
    intro c
    cases got with
    | none => rfl
    | some x =>
      rw [elim_some, pendingIn_insert (hfirst x rfl)]
      rw [count_copies, Copy.is_eq]
      by_cases hn : topic = c.queue <;> simp [hn, countP_cons, inPending]
  refine ⟨fun c => ?_, ?_⟩
  · have hc := h.balanced c
    have hq := inQueue_taken hdrain c
    have hp := hpend c
    unfold places inPending at hc ⊢
    unfold inPending at hp
    dsimp only
    rw [count_append, hp]
    show b.acceptances c = b.acked.count c + b.purged.count c +
      ((copies topic skipped).count c + b.expired.count c) + ((b.setQueue topic q).inQueue c +
        b.inSpill c + _ + b.inDelayed c + b.inDeadLetters c)
    omega
  · intro id pm hpm
    cases got with
    | none => exact h.keyed id pm hpm
    | some x =>
      rcases insert_cases hpm with ⟨rfl, rfl⟩ | ⟨_, hpm⟩
      · rfl
      · exact h.keyed id pm hpm

theorem Sound.ack (h : Sound b) (e : Env) (id : String) : Sound (b.ack e id).1 := by
  rw [ack_eq]
  cases hp : b.pending[id]? with
  | none => exact h
  | some pm =>
    refine ⟨fun c => ?_, h.keyed.erase rfl⟩
    have hc := h.balanced c
    have he := pendingIn_erase hp c
    have hset := b.places_setPending (b.pending.erase id) c
    show b.acceptances c = (⟨pm.queueName, id⟩ :: b.acked).count c + b.purged.count c +
      b.expired.count c + places { b with pending := b.pending.erase id } c
    rw [Copy.count_cons]
    omega

def RetryFits (b : Broker) (pm : PendingMessage) : Prop :=
  if pm.held.msg.maxRetry < b.retryOf pm.held + 1 then
    (b.deadLetter pm.queueName).length < nextPowerOfTwo b.queueCap
  else (b.queue pm.queueName).Room (clampPriority pm.held.msg.priority)
  deriving Decidable

theorem retryOrDeadLetter_spec (b : Broker) (hf : b.RetryFits pm) :
    SameBooks b (b.retryOrDeadLetter pm.held pm.queueName).1 ∧
    (b.retryOrDeadLetter pm.held pm.queueName).1.pending = b.pending ∧
    ∀ c, (b.retryOrDeadLetter pm.held pm.queueName).1.places c =
      b.places c + c.is pm.queueName pm.held.msg.id := by
  unfold RetryFits at hf
  rw [retryOrDeadLetter_eq]
  split at hf
  · rename_i hmax
    rw [if_pos hmax]
    obtain ⟨⟨deadLetters, hb⟩, hp⟩ := (b.retried pm.held).pushDeadLetter_spec pm.held hf
    rw [hb] at hp ⊢
    exact ⟨⟨rfl, rfl, rfl, rfl⟩, rfl, hp⟩
  · rename_i hmax
    rw [if_neg hmax]
    obtain ⟨⟨queues, hb⟩, hin⟩ := (b.retried pm.held).push_spec pm.queueName pm.held
    have hroom : ((b.retried pm.held).push pm.queueName pm.held).2 = true := push_of_room hf
    rw [hroom, hb] at hin
    rw [hb]
    refine ⟨⟨rfl, rfl, rfl, rfl⟩, rfl, fun c => ?_⟩
    have hq := hin c
    simp only [if_true] at hq
    rw [places_eq, places_eq, hq]
    show b.inQueue c + _ + b.inSpill c + b.elsewhere c = b.inQueue c + b.inSpill c + b.elsewhere c + _
    omega

theorem Sound.retryPending (h : Sound b) {id : String} (missing : BrokerErr)
    (hf : ∀ pm ∈ b.pending[id]?, b.RetryFits pm) : Sound (b.retryPending id missing).1 := by
  unfold Broker.retryPending
  cases hp : b.pending[id]? with
  | none => exact h
  | some pm =>
    dsimp only
    obtain ⟨hbooks, hpending, hplaces⟩ :=
      retryOrDeadLetter_spec { b with pending := b.pending.erase id } (hf pm hp)
    refine ⟨fun c => ?_, ?_⟩
    · have hc := h.balanced c
      have he := pendingIn_erase hp c
      have hset := b.places_setPending (b.pending.erase id) c
      unfold acceptances
      rw [hbooks.accepted, hbooks.acked, hbooks.expired, hbooks.purged, hplaces c, h.keyed id pm hp]
      show b.acceptances c = b.acked.count c + b.purged.count c + b.expired.count c + _
      omega
    · exact h.keyed.erase hpending

theorem Sound.promoteDelayed (h : Sound b) (e : Env) (he : e.spillErr = none) (id : String) :
    Sound (b.promoteDelayed e id).1 := by
  unfold Broker.promoteDelayed
  cases hf : b.delayed.find? (fun h => h.msg.id = id) with
  | none => exact h
  | some x =>
    dsimp only
    obtain ⟨⟨queues, spill, hb⟩, hp⟩ := pushOrSpill_spec
      { b with delayed := b.delayed.eraseP (fun h => h.msg.id = id) } e x.msg.topic x
    rw [pushOrSpill_ok _ he] at hp
    rw [hb] at hp ⊢
    refine h.quiet ⟨⟨rfl, rfl, rfl, rfl⟩, fun c => (hp c).trans ?_, rfl⟩
    have hd := delayedIn_eraseP hf c
    have hset := b.places_setDelayed (b.delayed.eraseP (fun h => h.msg.id = id)) c
    simp only [if_true]
    omega

def SameSlot (h h' : Held) : Prop :=
  h'.msg.topic = h.msg.topic ∧ clampPriority h'.msg.priority = clampPriority h.msg.priority
  deriving Decidable

def AllFit (b : Broker) (hs : List Held) : Prop :=
  ∀ h ∈ hs, ∃ l ∈ (b.queue h.msg.topic).levels[clampPriority h.msg.priority]?,
    l.length + hs.countP (fun h' => SameSlot h h') ≤ (b.queue h.msg.topic).cap

instance (b : Broker) (hs : List Held) : Decidable (b.AllFit hs) := by
  refine decidable_of_iff (∀ h ∈ hs,
    ((b.queue h.msg.topic).levels[clampPriority h.msg.priority]?).any (fun l =>
      l.length + hs.countP (fun h' => SameSlot h h') ≤ (b.queue h.msg.topic).cap) = true) ?_
  simp only [AllFit, Option.any_eq_true, decide_eq_true_eq, Option.mem_def]

theorem AllFit.room (hf : b.AllFit (h :: hs)) :
    (b.queue h.msg.topic).Room (clampPriority h.msg.priority) := by
  obtain ⟨l, hl, hle⟩ := hf h mem_cons_self
  rw [countP_cons_of_pos (by simp [SameSlot])] at hle
  exact ⟨l, hl, by omega⟩

theorem AllFit.push (hf : b.AllFit (h :: hs)) : (b.push h.msg.topic h).1.AllFit hs := by
  obtain ⟨q, hq⟩ := PriorityQueue.push_of_room hf.room h
  have hpush : (b.push h.msg.topic h).1 = b.setQueue h.msg.topic q := by
    unfold Broker.push
    rw [hq]
  obtain ⟨hcap, hslot⟩ := PriorityQueue.push_levels hq
  intro x hx
  obtain ⟨l, hl, hle⟩ := hf x (mem_cons_of_mem _ hx)
  rw [hpush, queue_setQueue]
  by_cases ht : h.msg.topic = x.msg.topic
  · rw [if_pos ht, hcap, hslot, ht]
    by_cases hp : clampPriority h.msg.priority = clampPriority x.msg.priority
    · rw [if_pos hp, mem_def.mp hl]
      rw [countP_cons_of_pos (by simp [SameSlot, ht, hp])] at hle
      exact ⟨l ++ [h], rfl, by rw [length_append, length_singleton]; omega⟩
    · rw [if_neg hp]
      rw [countP_cons_of_neg (by simp [SameSlot, hp])] at hle
      exact ⟨l, hl, hle⟩
  · rw [if_neg ht]
    rw [countP_cons_of_neg (by simp [SameSlot, ht])] at hle
    exact ⟨l, hl, hle⟩

theorem pushAll_spec (hf : b.AllFit hs) :
    (∃ queues, hs.foldl (fun b h => (b.push h.msg.topic h).1) b = { b with queues }) ∧
    ∀ c, (hs.foldl (fun b h => (b.push h.msg.topic h).1) b).places c = b.places c + delayedIn hs c := by
  induction hs generalizing b with
  | nil => exact ⟨⟨_, rfl⟩, fun _ => rfl⟩
  | cons h hs ih =>
    rw [foldl_cons]
    obtain ⟨⟨queues, hb⟩, hp⟩ := ih hf.push
    obtain ⟨⟨queues₁, hb1⟩, hin⟩ := b.push_spec h.msg.topic h
    rw [push_of_room hf.room] at hin
    refine ⟨⟨queues, by rw [hb, hb1]⟩, fun c => ?_⟩
    have hone : (b.push h.msg.topic h).1.places c = b.places c + c.is h.msg.topic h.msg.id := by
      have hq := hin c
      simp only [if_true] at hq
      rw [places_eq, places_eq, hq, hb1]
      show b.inQueue c + _ + b.inSpill c + b.elsewhere c = b.inQueue c + b.inSpill c + b.elsewhere c + _
      omega
    rw [hp c, hone, delayedIn_cons]
    omega

def ready (b : Broker) (now : Int) : List Held := b.delayed.filter (fun h => h.msg.deliverAt ≤ now)

theorem delayedIn_ready (hs : List Held) (now : Int) (c : Copy) :
    delayedIn (hs.filter (fun h => now < h.msg.deliverAt)) c +
      delayedIn (hs.filter (fun h => h.msg.deliverAt ≤ now)) c = delayedIn hs c := by
  induction hs with
  | nil => rfl
  | cons h hs ih =>
    rw [delayedIn_cons]
    by_cases hn : h.msg.deliverAt ≤ now
    · rw [filter_cons_of_neg (by simpa using hn), filter_cons_of_pos (by simpa using hn),
        delayedIn_cons]
      omega
    · rw [filter_cons_of_pos (by simpa using hn), filter_cons_of_neg (by simpa using hn),
        delayedIn_cons]
      omega

section
variable (h : Sound b)
include h

theorem Sound.promoteReady (hf : b.AllFit (b.ready now)) :
    Sound (b.promoteReady now) := by
  have hf' : AllFit { b with delayed := b.delayed.filter (fun h => now < h.msg.deliverAt) }
      (b.ready now) := hf
  obtain ⟨⟨queues, hb⟩, hp⟩ := pushAll_spec hf'
  have hpl : ∀ c, (b.promoteReady now).places c = b.places c := by
    intro c
    have hset := b.places_setDelayed (b.delayed.filter (fun h => now < h.msg.deliverAt)) c
    have hsplit := delayedIn_ready b.delayed now c
    refine (hp c).trans ?_
    unfold ready
    omega
  have hr : b.promoteReady now = { b with
      queues, delayed := b.delayed.filter (fun h => now < h.msg.deliverAt) } := hb
  rw [hr] at hpl ⊢
  exact h.quiet ⟨⟨rfl, rfl, rfl, rfl⟩, hpl, rfl⟩

theorem Sound.dropExpired (now : Int) : Sound (b.dropExpired now) := by
  have hpend : ∀ c, pendingIn b.pending c =
      pendingIn (b.pending.filter (fun _ pm => ¬ pm.held.msg.Expired now)) c +
        ((b.pending.toList.filter (fun x => x.2.held.msg.Expired now)).map
          (fun x => (⟨x.2.queueName, x.1⟩ : Copy))).count c := by
    intro c
    have hcount : ((b.pending.toList.filter (fun x => x.2.held.msg.Expired now)).map
          (fun x => (⟨x.2.queueName, x.1⟩ : Copy))).count c =
        b.pending.toList.countP (fun x => x.1 = c.id ∧
          (decide (x.2.queueName = c.queue ∧ x.2.held.msg.Expired now)) = true) := by
      rw [count_eq_countP, countP_map, countP_filter]
      apply countP_congr
      intro x _
      cases c
      simp only [Function.comp, Copy.mk.injEq, beq_iff_eq, Bool.and_eq_true, decide_eq_true_eq]
      rw [and_comm (b := x.1 = _), and_assoc]
    rw [hcount, countP_toList b.pending c.id
      (fun pm => decide (pm.queueName = c.queue ∧ pm.held.msg.Expired now))]
    unfold pendingIn
    rw [TreeMap.getElem?_filter']
    cases b.pending[c.id]? with
    | none => rfl
    | some pm =>
      by_cases hx : pm.held.msg.Expired now
      · simp [Option.filter, hx]
      · simp [Option.filter, hx]
  refine ⟨fun c => ?_, ?_⟩
  · have hc := h.balanced c
    have hp := hpend c
    have hset := b.places_setPending (b.pending.filter (fun _ pm => ¬ pm.held.msg.Expired now)) c
    show b.acceptances c = b.acked.count c + b.purged.count c +
      (((b.pending.toList.filter (fun x => x.2.held.msg.Expired now)).map
          (fun x => (⟨x.2.queueName, x.1⟩ : Copy))) ++ b.expired).count c +
      places { b with pending := b.pending.filter (fun _ pm => ¬ pm.held.msg.Expired now) } c
    rw [count_append]
    omega
  · intro id pm hpm
    unfold Broker.dropExpired at hpm
    rw [TreeMap.getElem?_filter'] at hpm
    exact h.keyed id pm (Option.filter_eq_some_iff.mp hpm).1

theorem Sound.reloadFromDisk : Sound b.reloadFromDisk := by
  obtain ⟨⟨queues, spill, nextRef, hb⟩, hp⟩ := b.reloadFromDisk_spec
  rw [hb] at hp ⊢
  exact h.quiet ⟨⟨rfl, rfl, rfl, rfl⟩, hp, rfl⟩

theorem Sound.rewrite (msgs : List Message) : Sound (b.rewrite msgs) :=
  h.quiet ⟨⟨rfl, rfl, rfl, rfl⟩, fun _ => rfl, rfl⟩

theorem Sound.purgeQueue (topic : String) : Sound (b.purgeQueue topic).1 := by
  obtain ⟨-, heq⟩ | ⟨store, -, heq⟩ := b.purgeQueue_cases topic
  · rw [heq]
    exact h
  rw [heq]
  refine ⟨fun c => ?_, h.keyed⟩
  have hc := h.balanced c
  have hset := b.places_setQueue topic (b.queue topic).purge c
  have hin := b.inQueue_setQueue topic (b.queue topic).purge c
  rw [PriorityQueue.drain_purge, countP_nil] at hin
  have hcount := count_copies c topic (b.queue topic).drain
  show b.acceptances c = b.acked.count c + (copies topic (b.queue topic).drain ++ b.purged).count c +
    b.expired.count c + places (b.setQueue topic (b.queue topic).purge) c
  rw [count_append]
  by_cases hn : topic = c.queue
  · rw [if_pos hn, hn] at hcount
    rw [if_pos hn] at hin
    unfold inQueue at hset hin
    rw [hn] at hset hin ⊢
    omega
  · rw [if_neg hn] at hin hcount
    omega

theorem Sound.purgeDeadLetters (topic : String) :
    Sound (b.purgeDeadLetters topic).1 := by
  obtain ⟨-, heq⟩ | ⟨store, -, heq⟩ := b.purgeDeadLetters_cases topic
  · rw [heq]
    exact h
  rw [heq]
  refine ⟨fun c => ?_, h.keyed⟩
  have hc := h.balanced c
  have hcount := count_copies c topic (b.deadLetter topic)
  have hdead : b.inDeadLetters c =
      inDeadLetters { b with deadLetters := b.deadLetters.insert (deadLetterName topic) [] } c +
        (copies topic (b.deadLetter topic)).count c := by
    unfold inDeadLetters
    rw [deadLetter_insert]
    by_cases hn : topic = c.queue
    · rw [hcount, if_pos hn, if_pos hn, hn]
      simp
    · rw [hcount, if_neg hn, if_neg hn]
      rfl
  unfold places at hc
  show b.acceptances c = b.acked.count c + (copies topic (b.deadLetter topic) ++ b.purged).count c +
    b.expired.count c + (b.inQueue c + b.inSpill c + b.inPending c + b.inDelayed c +
      inDeadLetters { b with deadLetters := b.deadLetters.insert (deadLetterName topic) [] } c)
  rw [count_append]
  omega

end

section
variable (b : Broker)

theorem exchanges_quiet (exchanges : TreeMap String Exchange) (e : Env) (d : Metadata) :
    Quiet b ({ b with exchanges }.writeMetadata e d) := by
  rw [writeMetadata_eq]
  exact .topology b _ _ _

theorem touch_quiet (name : String) : Quiet b (b.setQueue name (b.queue name)) := by
  refine ⟨⟨rfl, rfl, rfl, rfl⟩, fun c => ?_, rfl⟩
  rw [places_eq, places_eq]
  unfold inQueue
  rw [queue_touch]
  rfl

theorem exchangeDeclare_quiet (e : Env) (name : String) (type : ExchangeType)
    (durable : Bool) : Quiet b (b.exchangeDeclare e name type durable).1 := by
  unfold exchangeDeclare
  cases b.exchanges[name]? with
  | some x => exact .refl b
  | none =>
    dsimp only
    split
    · exact b.exchanges_quiet _ e _
    · exact .topology b _ _ _

theorem exchangeDelete_quiet (e : Env) (name : String) : Quiet b (b.exchangeDelete e name).1 := by
  unfold exchangeDelete
  split
  · exact .refl b
  split
  · exact b.exchanges_quiet _ e _
  · exact .refl b

theorem bindQueue_quiet (e : Env) (binding : Binding) : Quiet b (b.bindQueue e binding).1 := by
  unfold bindQueue
  cases b.exchanges[binding.exchange]? with
  | none => exact .refl b
  | some x => exact (b.touch_quiet binding.queue).trans (exchanges_quiet _ _ e _)

theorem unbindQueue_quiet (e : Env) (exchange queue bindingKey : String) :
    Quiet b (b.unbindQueue e exchange queue bindingKey).1 := by
  unfold unbindQueue
  cases b.exchanges[exchange]? with
  | none => exact .refl b
  | some x => exact b.exchanges_quiet _ e _

theorem unregisterDurableSub_quiet (topic sub : String) :
    Quiet b (b.unregisterDurableSub topic sub) := by
  unfold unregisterDurableSub
  split
  · exact .refl b
  · exact .topology b _ _ _

/-- No spill fails, no id is delivered twice, and what goes back to a queue has room in it. -/
def Fits : Op → Prop
  | .publishTopic e _ _ | .promoteDelayed e _ => e.spillErr = none
  | .tryConsume e topic => ∀ h ∈ b.firstFresh e.now topic, h.msg.id ∉ b.pending
  | .nack id | .requeueTimedOut id => ∀ pm ∈ b.pending[id]?, b.RetryFits pm
  | .processAdvancedFeatures e => b.AllFit (b.ready e.now)
  | _ => True

end

instance (b : Broker) (op : Op) : Decidable (b.Fits op) := by
  unfold Fits
  split <;> infer_instance

theorem Sound.step (h : Sound b) (hc : b.Fits op) (hs : b.Step op b') : Sound b' := by
  cases op with
  | publish e topic m =>
    cases hs
    exact h.publish e topic m
  | publishTopic e topic m =>
    cases hs
    exact h.publishTopic e hc topic m
  | publishExchange e ids exchange routingKey m =>
    simp only [Step, Broker.step] at hs
    split at hs
    · cases hs
      exact h.publishExchange e ids exchange routingKey m
    · cases hs
  | registerDurableSub topic sub =>
    cases hs
    exact h.quiet (.topology b _ _ _)
  | unregisterDurableSub topic sub =>
    cases hs
    exact h.quiet (b.unregisterDurableSub_quiet topic sub)
  | exchangeDeclare e name type durable =>
    cases hs
    exact h.quiet (b.exchangeDeclare_quiet e name type durable)
  | exchangeDelete e name =>
    cases hs
    exact h.quiet (b.exchangeDelete_quiet e name)
  | bindQueue e binding =>
    cases hs
    exact h.quiet (b.bindQueue_quiet e binding)
  | unbindQueue e exchange queue bindingKey =>
    cases hs
    exact h.quiet (b.unbindQueue_quiet e exchange queue bindingKey)
  | tryConsume e topic =>
    cases hs
    exact h.tryConsume e topic hc
  | ack e id =>
    cases hs
    exact h.ack e id
  | nack id =>
    cases hs
    exact h.retryPending _ hc
  | requeueTimedOut id =>
    cases hs
    exact h.retryPending _ hc
  | promoteDelayed e id =>
    cases hs
    exact h.promoteDelayed e hc id
  | processAdvancedFeatures e =>
    cases hs
    exact ((h.promoteReady hc).dropExpired e.now).reloadFromDisk
  | reloadFromDisk =>
    cases hs
    exact h.reloadFromDisk
  | purgeQueue topic =>
    cases hs
    exact h.purgeQueue topic
  | purgeDeadLetters topic =>
    cases hs
    exact h.purgeDeadLetters topic
  | checkpoint msgs =>
    simp only [Step, Broker.step] at hs
    split at hs
    · cases hs
      exact h.rewrite msgs
    · cases hs

theorem places_new (cfg : Config) (store : Option (List WALRecord)) (c : Copy) :
    (Broker.new cfg store ∅).places c = 0 := by
  simp [places, inQueue, inSpill, inPending, pendingIn, inDelayed, delayedIn, inDeadLetters, Broker.new,
    queue, spilled, deadLetter]

theorem new_sound (cfg : Config) (store : Option (List WALRecord)) : Sound (.new cfg store ∅) := by
  refine ⟨fun c => ?_, fun id pm hpm => ?_⟩
  · rw [places_new]
    rfl
  · simp [Broker.new] at hpm

def small : Broker := .new { queueCap := 1 } none ∅

def givenBack : List Op :=
  [.publish { now := 1 } "jobs" { id := "a" }, .tryConsume { now := 2 } "jobs", .nack "a",
    .publish { now := 3 } "jobs" { id := "b" }, .tryConsume { now := 4 } "jobs", .ack { now := 5 } "a",
    .reloadFromDisk]

def givenBackLate : List Op :=
  [.publish { now := 1 } "jobs" { id := "a" }, .tryConsume { now := 2 } "jobs",
    .publish { now := 3 } "jobs" { id := "b" }, .nack "a"]

end Broker
end Boltq.QueuePlane
