import Boltq.QueuePlane.Formed
import Boltq.QueuePlane.Fsm
import Boltq.QueuePlane.Views

namespace Boltq.QueuePlane
open Lib Std List TreeMap Option

namespace Broker
variable {ν : Type} {ρ ρ' : Nat → ν} {reload : Prop}
variable {b b' : Broker} {e : Env} {h h' : Held}

def seen (b : Broker) (ρ : Nat → ν) (h : Held) : ν × Message := (ρ h.ref, b.encode h)

def waiting (b : Broker) (ρ : Nat → ν) (pm : PendingMessage) : (ν × Message) × String :=
  (b.seen ρ pm.held, pm.queueName)

structure Twins (reload : Prop) (ρ ρ' : Nat → ν) (b b' : Broker) : Prop where
  queues : ∀ name, (b.queue name).map (b.seen ρ) = (b'.queue name).map (b'.seen ρ')
  deadLetters : ∀ name, (b.deadLetter name).map (b.seen ρ) = (b'.deadLetter name).map (b'.seen ρ')
  pending : ∀ id : String,
    (b.pending[id]?).map (b.waiting ρ) = (b'.pending[id]?).map (b'.waiting ρ')
  delayed : b.delayed.map (b.seen ρ) = b'.delayed.map (b'.seen ρ')
  spill : reload → ∀ name : String, b.spill[name]? = b'.spill[name]?
  reloads : reload → ∀ name ∈ b.spill, name ∈ b.queues ∧ name ∈ b'.queues
  exchanges : ∀ name : String, b.exchanges[name]? = b'.exchanges[name]?
  durableSubs : b.durableSubs = b'.durableSubs
  stored : b.store.isSome = b'.store.isSome
  maxRetry : b.maxRetry = b'.maxRetry
  queueCap : b.queueCap = b'.queueCap
  fresh : ∀ i, ρ (b.nextRef + i) = ρ' (b'.nextRef + i)

theorem seen_fields (hh : b.seen ρ h = b'.seen ρ' h') :
    b.encode h = b'.encode h' ∧ h.msg.id = h'.msg.id ∧ h.msg.topic = h'.msg.topic ∧
      h.msg.priority = h'.msg.priority ∧ h.msg.maxRetry = h'.msg.maxRetry ∧
      h.msg.deliverAt = h'.msg.deliverAt ∧ h.msg.expiresAt = h'.msg.expiresAt ∧
      b.retryOf h = b'.retryOf h' := by
  have hm : b.encode h = b'.encode h' := congrArg Prod.snd hh
  exact ⟨hm, (congrArg Message.id hm :), (congrArg Message.topic hm :),
    (congrArg Message.priority hm :), (congrArg Message.maxRetry hm :),
    (congrArg Message.deliverAt hm :), (congrArg Message.expiresAt hm :),
    (congrArg Message.retry hm :)⟩

theorem seen_expired (hh : b.seen ρ h = b'.seen ρ' h') (now : Int) :
    h.msg.Expired now ↔ h'.msg.Expired now := by
  obtain ⟨_, _, _, _, _, _, hexp, _⟩ := seen_fields hh
  unfold Message.Expired
  rw [hexp]

section
variable (hb : Twins reload ρ ρ' b b')
include hb

theorem Twins.seen_alloc (hf : Formed b) (hf' : Formed b') (i : Nat)
    (m : Message) : b.seen ρ ⟨b.nextRef + i, m⟩ = b'.seen ρ' ⟨b'.nextRef + i, m⟩ := by
  unfold seen encode retryOf
  rw [hf.retries _ (Nat.le_add_right _ i), hf'.retries _ (Nat.le_add_right _ i), hb.fresh i]

theorem Twins.seen_next (hf : Formed b) (hf' : Formed b') (m : Message) :
    (b.log m).seen ρ ⟨b.nextRef, m⟩ = (b'.log m).seen ρ' ⟨b'.nextRef, m⟩ := hb.seen_alloc hf hf' 0 m

theorem Twins.shows :
    Shows (fun x : ν × Message => (x.2.id, x.2.topic, x.2.priority)) (b.seen ρ) (b'.seen ρ') b b' :=
  ⟨fun _ => rfl, fun _ => rfl, hb.queues, hb.deadLetters, hb.pending, hb.delayed⟩

theorem Twins.setQueue (name : String) {q q' : PriorityQueue Held}
    (hq : q.map (b.seen ρ) = q'.map (b'.seen ρ')) :
    Twins reload ρ ρ' (b.setQueue name q) (b'.setQueue name q') := by
  refine { hb with queues := hb.shows.setQueue name hq, reloads := fun hr n hn => ?_ }
  obtain ⟨hold, hold'⟩ := hb.reloads hr n hn
  exact ⟨mem_insert_iff.mpr (.inr hold), mem_insert_iff.mpr (.inr hold')⟩

section
variable (hh : b.seen ρ h = b'.seen ρ' h')
include hh

theorem Twins.spillToDisk
    (hn : name ∈ b.queues ∧ name ∈ b'.queues) :
    Twins reload ρ ρ' (b.spillToDisk e name h).1 (b'.spillToDisk e name h').1 ∧
      (b.spillToDisk e name h).2 = (b'.spillToDisk e name h').2 := by
  unfold Broker.spillToDisk
  cases e.spillErr with
  | some err => exact ⟨hb, rfl⟩
  | none =>
    refine ⟨{ hb with spill := fun hr n => ?_, reloads := fun hr n hmem => ?_ }, rfl⟩
    · dsimp only
      unfold spilled
      rw [hb.spill hr name, (seen_fields hh).1]
      by_cases he : n = name
      · rw [he, getElem?_insert_self, getElem?_insert_self]
      · rw [getElem?_insert_other _ he, getElem?_insert_other _ he]
        exact hb.spill hr n
    · rcases mem_insert_iff.mp hmem with rfl | hmem
      · exact hn
      · exact hb.reloads hr n hmem

theorem Twins.pushOrSpill (e : Env) (name : String) :
    Twins reload ρ ρ' (b.pushOrSpill e name h).1 (b'.pushOrSpill e name h').1 ∧
      (b.pushOrSpill e name h).2 = (b'.pushOrSpill e name h').2 := by
  obtain ⟨q, q', ok, hp, hp', hq⟩ := hb.shows.push hh name
  unfold Broker.pushOrSpill
  rw [hp, hp']
  cases ok with
  | true => exact ⟨hb.setQueue name hq, rfl⟩
  | false =>
    -- the push that found no room has made the queue
    exact (hb.setQueue name hq).spillToDisk hh ⟨mem_insert_iff.mpr (.inl rfl), mem_insert_iff.mpr (.inl rfl)⟩

theorem Twins.deliver (e : Env) (name : String) :
    Twins reload ρ ρ' (b.deliver e name h).1 (b'.deliver e name h').1 ∧
      (b.deliver e name h).2 = (b'.deliver e name h').2 := by
  obtain ⟨_, _, _, _, _, hdue, _⟩ := seen_fields hh
  unfold Broker.deliver
  rw [← hdue]
  split
  · refine ⟨{ hb with delayed := ?_ }, rfl⟩
    show (b.delayed ++ [h]).map (b.seen ρ) = (b'.delayed ++ [h']).map (b'.seen ρ')
    rw [map_append, map_append, hb.delayed, map_singleton, map_singleton, hh]
  · exact hb.pushOrSpill hh e name

end

theorem Twins.refusal (e : Env) : b.refusal e = b'.refusal e := by
  rw [Broker.refusal, Broker.refusal, hb.stored]

theorem Twins.log (m : Message) : Twins reload ρ ρ' (b.log m) (b'.log m) := by
  refine { hb with stored := ?_, fresh := fun i => ?_ }
  · exact isSome_map.trans (hb.stored.trans isSome_map.symm)
  have hi := hb.fresh (1 + i)
  rw [← Nat.add_assoc, ← Nat.add_assoc] at hi
  exact hi

theorem Twins.publish (hf : Formed b) (hf' : Formed b') (e : Env) (topic : String) (m : Message) :
    Twins reload ρ ρ' (b.publish e topic m).1 (b'.publish e topic m).1 ∧
      (b.publish e topic m).2 = (b'.publish e topic m).2 := by
  have hstamp : b'.stamp e topic m = b.stamp e topic m := by
    unfold stamp
    rw [hb.maxRetry]
  rw [publish_eq, publish_eq, hstamp, ← hb.refusal]
  cases b.refusal e with
  | some err => exact ⟨hb, rfl⟩
  | none =>
    obtain ⟨hdel, hok⟩ := (hb.log (b.stamp e topic m)).deliver
      (hb.seen_next hf hf' (b.stamp e topic m)) e topic
    dsimp only [put]
    refine ⟨?_, hok⟩
    rw [← hok]
    split
    · exact { hdel with }
    · exact hdel

theorem Twins.publishClones (hf : Formed b) (hf' : Formed b') (e : Env)
    (m : Message) (clones : List (String × String)) :
    Twins reload ρ ρ' (b.publishClones e m clones).1 (b'.publishClones e m clones).1 := by
  induction clones generalizing b b' with
  | nil => exact hb
  | cons x clones ih =>
    obtain ⟨queue, id⟩ := x
    obtain ⟨hp, hok⟩ := hb.publish hf hf' e queue { m with id, topic := queue }
    have hfp := hf.publish e queue { m with id, topic := queue }
    have hfp' := hf'.publish e queue { m with id, topic := queue }
    simp only [Broker.publishClones]
    generalize b.publish e queue { m with id, topic := queue } = r at hp hok hfp
    generalize b'.publish e queue { m with id, topic := queue } = r' at hp hok hfp'
    obtain ⟨b1, err⟩ := r
    obtain ⟨b₁', err'⟩ := r'
    subst hok
    cases err with
    | none => exact ih hp hfp hfp'
    | some err => exact hp

theorem Twins.publishExchange (hf : Formed b) (hf' : Formed b')
    (e : Env) (ids : List String) (exchange routingKey : String) (m : Message) :
    Twins reload ρ ρ' (b.publishExchange e ids exchange routingKey m).1
      (b'.publishExchange e ids exchange routingKey m).1 := by
  unfold Broker.publishExchange
  rw [← hb.exchanges]
  cases b.exchanges[exchange]? with
  | none => exact hb
  | some x =>
    dsimp only
    split
    · exact (hb.publish hf hf' e routingKey _).1
    · exact hb.publishClones hf hf' e _ _

end

theorem seen_pushOrSpill (ρ : Nat → ν) (name : String) :
    (b.pushOrSpill e name h).1.seen ρ = b.seen ρ := by
  obtain ⟨⟨queues, spill, hb⟩, _⟩ := b.pushOrSpill_spec e name h
  rw [hb]
  rfl

theorem Twins.publishTopic (hb : Twins reload ρ ρ' b b') (hf : Formed b) (hf' : Formed b') (e : Env)
    (topic : String) (m : Message) :
    Twins reload ρ ρ' (b.publishTopic e topic m).1 (b'.publishTopic e topic m).1 := by
  have hsubs : b.subscribers topic = b'.subscribers topic := by
    unfold subscribers
    rw [hb.durableSubs]
  rw [publishTopic_eq, publishTopic_eq, ← hb.refusal, hsubs]
  cases b.refusal e with
  | some err => exact hb
  | none =>
    refine (foldl_rel (r := fun c c' => Twins reload ρ ρ' c c' ∧ c.seen ρ _ = c'.seen ρ' _)
      ⟨hb.log _, hb.seen_next hf hf' { m with topic }⟩ (fun sub _ c c' ⟨hc, hseen⟩ => ?_)).1
    have hpush := (hc.pushOrSpill hseen e (durableName topic sub)).1
    refine ⟨{ hpush with }, ?_⟩
    show seen (c.pushOrSpill e _ _).1 ρ _ = seen (c'.pushOrSpill e _ _).1 ρ' _
    rw [seen_pushOrSpill, seen_pushOrSpill, hseen]

theorem popFresh_seen (now : Int) (fuel : Nat) {q q' : PriorityQueue Held}
    (hq : q.map (b.seen ρ) = q'.map (b'.seen ρ')) (skipped skipped' : List Held) :
    (popFresh now fuel q skipped).1.map (b.seen ρ) =
      (popFresh now fuel q' skipped').1.map (b'.seen ρ') ∧
    (popFresh now fuel q skipped).2.2.map (b.seen ρ) =
      (popFresh now fuel q' skipped').2.2.map (b'.seen ρ') := by
  induction fuel generalizing q q' skipped skipped' with
  | zero => exact ⟨hq, rfl⟩
  | succ fuel ih =>
    simp only [popFresh]
    rcases PriorityQueue.tryPop_cases hq with ⟨hn, hn'⟩ | ⟨r, r', hr, hr', hh, hrest⟩
    · rw [hn, hn']
      exact ⟨hq, rfl⟩
    rw [hr, hr']
    dsimp only
    by_cases hexp : r.1.msg.Expired now
    · rw [if_pos hexp, if_pos ((seen_expired hh now).mp hexp)]
      exact ih hrest _ _
    · rw [if_neg hexp, if_neg (fun hx => hexp ((seen_expired hh now).mpr hx))]
      exact ⟨hrest, congrArg some hh⟩

section
variable (hb : Twins reload ρ ρ' b b')
include hb

theorem Twins.pend (hh : b.seen ρ h = b'.seen ρ' h') (e : Env)
    (name : String) : Twins reload ρ ρ' (b.pend e name h) (b'.pend e name h') :=
  { hb with pending := hb.shows.pend hh e e name }

theorem Twins.tryConsume (e : Env) (topic : String) :
    Twins reload ρ ρ' (b.tryConsume e topic).1 (b'.tryConsume e topic).1 ∧
      (b.tryConsume e topic).2.map (b.tryConsume e topic).1.encode =
        (b'.tryConsume e topic).2.map (b'.tryConsume e topic).1.encode := by
  have hlen := congrArg length (hb.shows.drain topic)
  rw [length_map, length_map] at hlen
  obtain ⟨hq, hgot⟩ := popFresh_seen e.now ((b.queue topic).drain.length + 1) (hb.queues topic) [] []
  unfold Broker.tryConsume
  rw [← hlen]
  generalize popFresh e.now _ (b.queue topic) [] = r at hq hgot
  generalize popFresh e.now _ (b'.queue topic) [] = r' at hq hgot
  obtain ⟨q, skipped, got⟩ := r
  obtain ⟨q', skipped', got'⟩ := r'
  have hset : Twins reload ρ ρ'
      { b.setQueue topic q with expired := copies topic skipped ++ b.expired }
      { b'.setQueue topic q' with expired := copies topic skipped' ++ b'.expired } :=
    { hb.setQueue topic hq with }
  rcases map_eq_map_cases hgot with ⟨hn, hn'⟩ | ⟨x, x', hx, hx', hh⟩
  · dsimp only at hn hn'
    subst hn hn'
    exact ⟨hset, rfl⟩
  · dsimp only at hx hx'
    subst hx hx'
    exact ⟨hset.pend hh e topic, congrArg some (seen_fields hh).1⟩

theorem Twins.erase (id : String) : Twins reload ρ ρ' { b with pending := b.pending.erase id }
      { b' with pending := b'.pending.erase id } := { hb with pending := hb.shows.erase id }

theorem Twins.ack (e : Env) (id : String) : Twins reload ρ ρ' (b.ack e id).1 (b'.ack e id).1 := by
  rw [ack_eq, ack_eq]
  rcases hb.shows.lookup id with ⟨hn, hn'⟩ | ⟨pm, pm', hp, hp', _, _⟩
  · rw [hn, hn']
    exact hb
  · rw [hp, hp']
    exact { hb.erase id with stored := by rw [isSome_written, isSome_written]; exact hb.stored }

end

theorem seen_retried (hρ : ρ.Injective) (hρ' : ρ'.Injective) (hh : b.seen ρ h = b'.seen ρ' h')
    (hx : b.seen ρ x = b'.seen ρ' x') : (b.retried h).seen ρ x = (b'.retried h').seen ρ' x' := by
  have hname : ρ h.ref = ρ' h'.ref := congrArg Prod.fst hh
  have hname' : ρ x.ref = ρ' x'.ref := congrArg Prod.fst hx
  have hsame : x.ref = h.ref ↔ x'.ref = h'.ref := by
    rw [← hρ.eq_iff, ← hρ'.eq_iff, hname, hname']
  obtain ⟨_, _, _, _, _, _, _, hcount⟩ := seen_fields hh
  have hretry : (b.retried h).retryOf x = (b'.retried h').retryOf x' := by
    unfold retryOf retried
    dsimp only
    by_cases he : x.ref = h.ref
    · rw [he, hsame.mp he, getElem?_insert_self, getElem?_insert_self, hcount]
      rfl
    · rw [getElem?_insert_other _ he, getElem?_insert_other _ (fun he' => he (hsame.mpr he'))]
      exact (seen_fields hx).2.2.2.2.2.2.2
  have hmsg : ({ b.encode x with retry := 0 } : Message) = { b'.encode x' with retry := 0 } := by
    rw [(seen_fields hx).1]
  unfold seen
  rw [hname']
  show (_, ({ ({ b.encode x with retry := 0 } : Message) with
      retry := (b.retried h).retryOf x } : Message)) =
    (_, { ({ b'.encode x' with retry := 0 } : Message) with retry := (b'.retried h').retryOf x' })
  rw [hmsg, hretry]

theorem Twins.retried (hρ : ρ.Injective) (hρ' : ρ'.Injective) (hb : Twins reload ρ ρ' b b')
    (hh : b.seen ρ h = b'.seen ρ' h') : Twins reload ρ ρ' (b.retried h) (b'.retried h') := by
  have hseen : ∀ x x', b.seen ρ x = b'.seen ρ' x' →
      (b.retried h).seen ρ x = (b'.retried h').seen ρ' x' := fun x x' => seen_retried hρ hρ' hh
  refine { hb with
    queues := fun name => PriorityQueue.map_congr hseen (hb.queues name)
    deadLetters := fun name => list_map_congr hseen (hb.deadLetters name)
    pending := fun id => ?_
    delayed := list_map_congr hseen hb.delayed }
  show (b.pending[id]?).map ((b.retried h).waiting ρ) = (b'.pending[id]?).map ((b'.retried h').waiting ρ')
  rcases hb.shows.lookup id with ⟨hn, hn'⟩ | ⟨pm, pm', hp, hp', hx, hq⟩
  · rw [hn, hn']
    rfl
  · rw [hp, hp']
    unfold waiting
    rw [map_some, map_some, hseen _ _ hx, hq]

theorem Twins.pushDeadLetter (hb : Twins reload ρ ρ' b b') (hh : b.seen ρ h = b'.seen ρ' h')
    (name : String) : Twins reload ρ ρ' (b.pushDeadLetter name h) (b'.pushDeadLetter name h') :=
  { hb with deadLetters := hb.shows.pushDeadLetter hh hb.queueCap name }

theorem Twins.retryPending (hρ : ρ.Injective) (hρ' : ρ'.Injective) (hb : Twins reload ρ ρ' b b')
    (id : String) (missing : BrokerErr) :
    Twins reload ρ ρ' (b.retryPending id missing).1 (b'.retryPending id missing).1 := by
  unfold Broker.retryPending
  rcases hb.shows.lookup id with ⟨hn, hn'⟩ | ⟨pm, pm', hp, hp', hh, hq⟩
  · rw [hn, hn']
    exact hb
  rw [hp, hp']
  dsimp only
  rw [hq]
  have herase := hb.erase id
  replace hh : seen { b with pending := b.pending.erase id } ρ pm.held =
    seen { b' with pending := b'.pending.erase id } ρ' pm'.held := hh
  generalize ({ b with pending := b.pending.erase id } : Broker) = b1 at herase hh
  generalize ({ b' with pending := b'.pending.erase id } : Broker) = b₁' at herase hh
  have hb2 := herase.retried hρ hρ' hh
  have hh2 := seen_retried hρ hρ' hh hh
  obtain ⟨_, _, _, _, hmax, _, _, hcount⟩ := seen_fields hh
  rw [retryOrDeadLetter_eq, retryOrDeadLetter_eq, hmax, hcount]
  split
  · exact hb2.pushDeadLetter hh2 pm'.queueName
  obtain ⟨q, q', ok, hp, hp', hq⟩ := hb2.shows.push hh2 pm'.queueName
  rw [hp, hp']
  exact hb2.setQueue _ hq

section
variable (hb : Twins reload ρ ρ' b b')
include hb

theorem Twins.promoteDelayed (e : Env) (id : String) :
    Twins reload ρ ρ' (b.promoteDelayed e id).1 (b'.promoteDelayed e id).1 := by
  obtain ⟨hfind, herase⟩ := hb.shows.find_delayed id
  have hrest : Twins reload ρ ρ' { b with delayed := b.delayed.eraseP (fun h => h.msg.id = id) }
      { b' with delayed := b'.delayed.eraseP (fun h => h.msg.id = id) } := { hb with delayed := herase }
  unfold Broker.promoteDelayed
  rcases map_eq_map_cases hfind with ⟨hn, hn'⟩ | ⟨x, x', hx, hx', hh⟩
  · rw [hn, hn']
    exact hb
  · rw [hx, hx']
    dsimp only
    rw [(seen_fields hh).2.2.1]
    exact (hrest.pushOrSpill hh e _).1

theorem Twins.pushAll {hs hs' : List Held} (heq : hs.map (b.seen ρ) = hs'.map (b'.seen ρ')) :
    Twins reload ρ ρ' (hs.foldl (fun b h => (b.push h.msg.topic h).1) b)
      (hs'.foldl (fun b h => (b.push h.msg.topic h).1) b') := by
  induction hs generalizing hs' b b' with
  | nil =>
    cases hs' with
    | nil => exact hb
    | cons h' hs' => cases heq
  | cons h hs ih =>
    cases hs' with
    | nil => cases heq
    | cons h' hs' =>
      obtain ⟨hh, hrest⟩ := cons.inj heq
      rw [foldl_cons, foldl_cons, (seen_fields hh).2.2.1]
      obtain ⟨q, q', ok, hp, hp', hq⟩ := hb.shows.push hh h'.msg.topic
      rw [hp, hp']
      exact ih (hb.setQueue _ hq) hrest

theorem Twins.promoteReady (now : Int) :
    Twins reload ρ ρ' (b.promoteReady now) (b'.promoteReady now) := by
  have hfilter : ∀ p : Int → Bool, (b.delayed.filter (fun h => p h.msg.deliverAt)).map (b.seen ρ) =
      (b'.delayed.filter (fun h => p h.msg.deliverAt)).map (b'.seen ρ') := by
    intro p
    have hf : ∀ (b : Broker) (ρ : Nat → ν), (b.delayed.map (b.seen ρ)).filter (fun x => p x.2.deliverAt) =
        (b.delayed.filter (fun h => p h.msg.deliverAt)).map (b.seen ρ) := fun _ _ => filter_map
    rw [← hf, ← hf, hb.delayed]
  have hrest : Twins reload ρ ρ'
      { b with delayed := b.delayed.filter (fun h => now < h.msg.deliverAt) }
      { b' with delayed := b'.delayed.filter (fun h => now < h.msg.deliverAt) } :=
    { hb with delayed := hfilter (fun t => now < t) }
  exact hrest.pushAll (hfilter (fun t => t ≤ now))

theorem Twins.dropExpired (now : Int) :
    Twins reload ρ ρ' (b.dropExpired now) (b'.dropExpired now) := by
  refine { hb with pending := fun id => ?_ }
  show ((b.dropExpired now).pending[id]?).map (b.waiting ρ) =
    ((b'.dropExpired now).pending[id]?).map (b'.waiting ρ')
  unfold Broker.dropExpired
  dsimp only
  rw [getElem?_filter', getElem?_filter']
  rcases hb.shows.lookup id with ⟨hn, hn'⟩ | ⟨pm, pm', hp, hp', hh, hq⟩
  · rw [hn, hn']
    rfl
  have hexp := seen_expired hh now
  rw [hp, hp', filter_some, filter_some]
  by_cases hx : pm.held.msg.Expired now
  · rw [if_neg (by simpa using hx), if_neg (by simpa using hexp.mp hx)]
    rfl
  · rw [if_pos (by simpa using hx), if_pos (by simpa using fun h => hx (hexp.mpr h))]
    unfold waiting
    rw [map_some, map_some, hh, hq]

theorem Twins.reloadInto (hf : Formed b) (hf' : Formed b')
    (ms : List Message) {q q' : PriorityQueue Held} (hq : q.map (b.seen ρ) = q'.map (b'.seen ρ'))
    (i : Nat) : (Broker.reloadInto ms q (b.nextRef + i)).1.map (b.seen ρ) =
      (Broker.reloadInto ms q' (b'.nextRef + i)).1.map (b'.seen ρ') ∧
    (Broker.reloadInto ms q (b.nextRef + i)).2.1 = (Broker.reloadInto ms q' (b'.nextRef + i)).2.1 ∧
    ∃ n, (Broker.reloadInto ms q (b.nextRef + i)).2.2 = b.nextRef + n ∧
      (Broker.reloadInto ms q' (b'.nextRef + i)).2.2 = b'.nextRef + n := by
  induction ms generalizing q q' i with
  | nil => exact ⟨hq, rfl, i, rfl, rfl⟩
  | cons m ms ih =>
    have hfull : q.isFull = q'.isFull := by
      rw [← PriorityQueue.map_isFull (b.seen ρ), hq, PriorityQueue.map_isFull]
    simp only [Broker.reloadInto, hfull]
    split
    · exact ⟨hq, rfl, i, rfl, rfl⟩
    rcases PriorityQueue.push_cases hq (hb.seen_alloc hf hf' i m) (clampPriority m.priority) with
      ⟨hn, hn'⟩ | ⟨q1, q₁', h1, h₁', hmap⟩
    · rw [hn, hn']
      exact ⟨hq, rfl, i, rfl, rfl⟩
    · rw [h1, h₁']
      exact ih hmap (i + 1)

theorem Twins.processSpillFile (hf : Formed b) (hf' : Formed b')
    (hr : reload) (hn : name ∈ b.spill) :
    Twins reload ρ ρ' (b.processSpillFile name) (b'.processSpillFile name) := by
  have hspilled : b'.spilled name = b.spilled name := by
    unfold spilled
    rw [hb.spill hr]
  obtain ⟨hq, hrest, n, hnext, hnext'⟩ := hb.reloadInto hf hf' (b.spilled name) (hb.queues name) 0
  have hset := hb.setQueue name hq
  unfold Broker.processSpillFile
  rw [hspilled]
  rw [Nat.add_zero, Nat.add_zero] at *
  dsimp only
  rw [← hrest, hnext, hnext']
  generalize (Broker.reloadInto (b.spilled name) (b.queue name) b.nextRef).2.1 = rest
  refine { hset with spill := fun _ k => ?_, reloads := fun _ k hk => ?_, fresh := fun i => ?_ }
  · split
    · by_cases hk : k = name
      · rw [hk, getElem?_erase_self, getElem?_erase_self]
      · rw [getElem?_erase_other hk, getElem?_erase_other hk]
        exact hb.spill hr k
    · by_cases hk : k = name
      · rw [hk, getElem?_insert_self, getElem?_insert_self]
      · rw [getElem?_insert_other _ hk, getElem?_insert_other _ hk]
        exact hb.spill hr k
  · refine hset.reloads hr k ?_
    show k ∈ b.spill
    dsimp only at hk
    split at hk
    · exact (mem_erase_iff.mp hk).2
    rcases mem_insert_iff.mp hk with rfl | hk
    · exact hn
    · exact hk
  · show ρ (b.nextRef + n + i) = ρ' (b'.nextRef + n + i)
    rw [Nat.add_assoc, Nat.add_assoc]
    exact hb.fresh (n + i)

end

def reloadNames (b : Broker) (names : List String) : Broker :=
  names.foldl (fun b name =>
    if (b.queue name).isFull ∨ name ∉ b.spill then b else b.processSpillFile name) b

theorem reloadNames_filter (names : List String) (hp : ∀ name ∈ b.spill, p name = true) :
    b.reloadNames names = b.reloadNames (names.filter p) := by
  unfold reloadNames
  induction names generalizing b with
  | nil => rfl
  | cons name names ih =>
    by_cases hn : name ∈ b.spill
    · rw [filter_cons_of_pos (hp name hn), foldl_cons, foldl_cons]
      refine ih (fun k hk => ?_)
      split at hk
      · exact hp k hk
      unfold processSpillFile at hk
      dsimp only at hk
      split at hk
      · exact hp k (mem_erase_iff.mp hk).2
      rcases mem_insert_iff.mp hk with rfl | hk
      · exact hp k hn
      · exact hp k hk
    · have hskip : (b.queue name).isFull = true ∨ name ∉ b.spill := .inr hn
      rw [foldl_cons, if_pos hskip, ih hp]
      by_cases hpn : p name = true
      · rw [filter_cons_of_pos hpn, foldl_cons, if_pos hskip]
      · rw [filter_cons_of_neg hpn]

section
variable (hb : Twins reload ρ ρ' b b')
include hb

theorem Twins.reloadNames (hf : Formed b) (hf' : Formed b')
    (hr : reload) (names : List String) :
    Twins reload ρ ρ' (b.reloadNames names) (b'.reloadNames names) := by
  unfold Broker.reloadNames
  induction names generalizing b b' with
  | nil => exact hb
  | cons name names ih =>
    have hfull : (b.queue name).isFull = (b'.queue name).isFull := by
      rw [← PriorityQueue.map_isFull (b.seen ρ), hb.queues, PriorityQueue.map_isFull]
    have hmem : name ∈ b.spill ↔ name ∈ b'.spill := by
      rw [mem_iff_isSome_getElem?, mem_iff_isSome_getElem?, hb.spill hr]
    rw [foldl_cons, foldl_cons]
    by_cases hskip : (b.queue name).isFull = true ∨ name ∉ b.spill
    · rw [if_pos hskip, if_pos (by rw [← hfull, ← hmem]; exact hskip)]
      exact ih hb hf hf'
    · rw [if_neg hskip, if_neg (by rw [← hfull, ← hmem]; exact hskip)]
      have hn : name ∈ b.spill := not_not.mp (not_or.mp hskip).2
      exact ih (hb.processSpillFile hf hf' hr hn) (hf.processSpillFile name)
        (hf'.processSpillFile name)

theorem Twins.reloadFromDisk (hf : Formed b) (hf' : Formed b')
    (hr : reload) : Twins reload ρ ρ' b.reloadFromDisk b'.reloadFromDisk := by
  have hmem : ∀ name, name ∈ b.spill ↔ name ∈ b'.spill := by
    intro name
    rw [mem_iff_isSome_getElem?, mem_iff_isSome_getElem?, hb.spill hr]
  have hkeys : b.queues.keys.filter (fun name => decide (name ∈ b.spill)) =
      b'.queues.keys.filter (fun name => decide (name ∈ b.spill)) := by
    refine filter_keys_eq (fun name hn => ?_)
    obtain ⟨hq, hq'⟩ := hb.reloads hr name (of_decide_eq_true hn)
    exact ⟨fun _ => hq', fun _ => hq⟩
  show Twins reload ρ ρ' (b.reloadNames b.queues.keys) (b'.reloadNames b'.queues.keys)
  rw [reloadNames_filter b.queues.keys (fun name hn => decide_eq_true hn),
    reloadNames_filter b'.queues.keys (fun name hn => decide_eq_true ((hmem name).mpr hn)), hkeys]
  exact hb.reloadNames hf hf' hr _

theorem Twins.maintain (hf : Formed b) (hf' : Formed b')
    (hr : reload) (e : Env) :
    Twins reload ρ ρ' (b.processAdvancedFeatures e) (b'.processAdvancedFeatures e) :=
  ((hb.promoteReady e.now).dropExpired e.now).reloadFromDisk
    ((hf.promoteReady e.now).dropExpired e.now) ((hf'.promoteReady e.now).dropExpired e.now) hr

end

end Broker
end Boltq.QueuePlane
