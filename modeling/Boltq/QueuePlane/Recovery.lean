import Boltq.QueuePlane.Conservation
import Boltq.QueuePlane.Log
import Boltq.QueuePlane.Memory

namespace Boltq.QueuePlane
open Lib Std List TreeMap

def Message.Unexpired (m : Message) (now : Int) : Prop := m.expiresAt ≤ 0 ∨ now < m.expiresAt
  deriving Decidable

theorem durableName_ne (topic sub : String) : topic ≠ durableName topic sub := by
  intro h
  have hl : topic.length = (topic ++ ":" ++ sub).length := congrArg String.length h
  rw [String.length_append, String.length_append] at hl
  have hone : ":".length = 1 := rfl
  omega

namespace Broker
variable {b b' : Broker} {c : Copy} {e : Env} {records : List WALRecord}

def Settled (b : Broker) (id : String) : Prop :=
  (∃ x ∈ b.accepted, x.2.id = id) ∧
    ∀ x ∈ b.accepted, x.2.id = id → b.acceptances ⟨x.1, id⟩ ≤ b.acked.count ⟨x.1, id⟩

structure Reproduced (b r : Broker) (now : Int) : Prop where
  unacked : ∀ c, 0 < b.acceptances c → c ∉ b.expired →
    (∀ x ∈ b.accepted, x.1 = c.queue → x.2.id = c.id → x.2.Unexpired now) →
    b.acceptances c = b.acked.count c + b.purged.count c + r.places c ∧
      r.inDeadLetters c = b.inDeadLetters c
  acked : ∀ id, b.Settled id → ∀ queue, r.places ⟨queue, id⟩ = 0

def Unused (b : Broker) (id : String) : Prop :=
  (∀ x ∈ b.accepted, x.2.id ≠ id) ∧ ∀ records ∈ b.store, id ∉ published records
  deriving Decidable

def GivenBack (b : Broker) (pm : PendingMessage) : Prop :=
  b.retryOf pm.held + 1 ≤ pm.held.msg.maxRetry ∧
    (b.queue pm.queueName).Room (clampPriority pm.held.msg.priority)
  deriving Decidable

/-- Ids are used once, no ack goes unlogged, no spill fails, what is given back has a retry left
and room, and the operations are only those listed. -/
def Careful (b : Broker) : Op → Prop
  | .publish _ _ m => b.Unused m.id
  | .publishTopic e _ m => b.Unused m.id ∧ e.spillErr = none
  | .registerDurableSub _ _ | .unregisterDurableSub _ _ | .checkpoint _ => True
  | .tryConsume e topic => ∀ h ∈ b.firstFresh e.now topic, h.msg.id ∉ b.pending
  | .ack e _ => e.writeErr = none
  | .nack id | .requeueTimedOut id => ∀ pm ∈ b.pending[id]?, b.GivenBack pm
  | _ => False

instance (b : Broker) (op : Op) : Decidable (b.Careful op) := by
  induction op using Op.casesOn <;> dsimp only [Careful] <;> infer_instance

theorem Careful.fits (h : b.Careful op) : b.Fits op := by
  cases op with
  | publishTopic e topic m => exact h.2
  | tryConsume e topic => exact h
  | nack id | requeueTimedOut id =>
    intro pm hpm
    obtain ⟨hretry, hroom⟩ := h pm hpm
    unfold RetryFits
    rw [if_neg (Int.not_lt.mpr hretry)]
    exact hroom
  | promoteDelayed e id | processAdvancedFeatures e => cases h
  | _ => trivial

structure Restartable (b : Broker) (e : Env) : Prop where
  spills : e.spillErr = none
  queues : ∀ x ∈ b.queues.toList, ∀ h ∈ x.2.drain, h.msg.topic = x.1
  pending : ∀ x ∈ b.pending.toList, x.2.held.msg.topic = x.2.queueName
  spilled : ∀ x ∈ b.spill.toList, ∀ m ∈ x.2, ∀ records ∈ b.store, m.id ∉ published records
  stamped : ∀ x ∈ b.accepted, 0 < x.2.ttl → x.2.Unexpired e.now → e.now < x.2.timestamp + x.2.ttl

instance (b : Broker) (e : Env) : Decidable (b.Restartable e) :=
  decidable_of_iff (e.spillErr = none ∧ (∀ x ∈ b.queues.toList, ∀ h ∈ x.2.drain, h.msg.topic = x.1) ∧
      (∀ x ∈ b.pending.toList, x.2.held.msg.topic = x.2.queueName) ∧
      (∀ x ∈ b.spill.toList, ∀ m ∈ x.2, ∀ records ∈ b.store, m.id ∉ published records) ∧
      ∀ x ∈ b.accepted, 0 < x.2.ttl → x.2.Unexpired e.now → e.now < x.2.timestamp + x.2.ttl)
    ⟨fun ⟨h1, h2, h3, h4, h5⟩ => ⟨h1, h2, h3, h4, h5⟩,
      fun h => ⟨h.spills, h.queues, h.pending, h.spilled, h.stamped⟩⟩

structure Traced (b : Broker) (records : List WALRecord) : Prop where
  sound : Sound b
  stored : b.store = some records
  dead : b.deadLetters = ∅
  purged : b.purged = []
  same : ∀ x ∈ b.accepted, ∀ y ∈ b.accepted, x.2.id = y.2.id → x.2 = y.2
  alone : ∀ x ∈ b.accepted, x.2.topic = x.1 → b.acceptances ⟨x.1, x.2.id⟩ ≤ 1 ∧
    (published records).count x.2.id ≤ 1 ∧ ∀ y ∈ b.accepted, y.2.id = x.2.id → y.1 = x.1
  agree : ∀ (id : String) (m : Message), (logged records)[id]? = some m →
    ∀ x ∈ b.accepted, x.2.id = id → m.Same x.2
  settled : ∀ id, b.Settled id → (logged records)[id]? = none
  held : ∀ name h, b.Holds name h → (name, h.msg) ∈ b.accepted
  kept : ∀ name h, b.Holds name h → h.msg.topic = name → ∃ m, (logged records)[h.msg.id]? = some m

structure SameTrace (b b' : Broker) : Prop where
  store : b'.store = b.store
  deadLetters : b'.deadLetters = b.deadLetters
  purged : b'.purged = b.purged
  accepted : b'.accepted = b.accepted
  acked : b'.acked = b.acked

theorem SameTrace.acceptances (h : SameTrace b b') (c : Copy) : b'.acceptances c = b.acceptances c := by
  unfold Broker.acceptances
  rw [h.accepted]

theorem SameTrace.settled (h : SameTrace b b') (id : String) : b'.Settled id ↔ b.Settled id := by
  unfold Settled
  simp only [h.accepted, h.acceptances, h.acked]

theorem Traced.quiet (h : Traced b records) (hs : Sound b') (hf : SameTrace b b')
    (hh : ∀ name x, b'.Holds name x → b.Holds name x) : Traced b' records where
  sound := hs
  stored := hf.store.trans h.stored
  dead := hf.deadLetters.trans h.dead
  purged := hf.purged.trans h.purged
  same := by rw [hf.accepted]; exact h.same
  alone := by
    simp only [hf.accepted, hf.acceptances]
    exact h.alone
  agree := by rw [hf.accepted]; exact h.agree
  settled := fun id hid => h.settled id ((hf.settled id).mp hid)
  held := fun name x hx => by
    rw [hf.accepted]
    exact h.held name x (hh name x hx)
  kept := fun name x hx => h.kept name x (hh name x hx)

theorem Traced.log (h : Traced b records) {m : Message} (hu : b.Unused m.id) :
    Traced (b.log m) (records ++ [.publish m]) where
  sound := h.sound.quiet ⟨⟨rfl, rfl, rfl, rfl⟩, fun _ => rfl, rfl⟩
  stored := by rw [Broker.log, h.stored]; rfl
  dead := h.dead
  purged := h.purged
  same := h.same
  alone := by
    intro x hx hd
    obtain ⟨hacc, hcount, hall⟩ := h.alone x hx hd
    refine ⟨hacc, ?_, hall⟩
    rw [published_append, count_append]
    have hne : [m.id].count x.2.id = 0 :=
      count_eq_zero.mpr (fun hm => hu.1 x hx (mem_singleton.mp hm))
    exact Nat.le_trans (Nat.le_of_eq (congrArg _ hne)) hcount
  agree := by
    intro id m' hm x hx hid
    rw [logged_append] at hm
    rcases insert_cases hm with ⟨rfl, _⟩ | ⟨_, hm⟩
    · exact absurd hid (hu.1 x hx)
    · exact h.agree id m' hm x hx hid
  settled := by
    intro id hid
    have hold := h.settled id hid
    obtain ⟨⟨x, hx, rfl⟩, _⟩ := hid
    rw [logged_append]
    exact (getElem?_insert_other m (hu.1 x hx)).trans hold
  held := h.held
  kept := by
    intro name x hx ht
    rw [logged_append]
    obtain ⟨m', hm⟩ := h.kept name x hx ht
    exact ⟨m', (getElem?_insert_other m (hu.1 _ (h.held name x hx))).trans hm⟩

theorem Sound.acked_le (h : Sound b) (c : Copy) : b.acked.count c + b.places c ≤ b.acceptances c := by
  have hc := h.balanced c
  omega

section
variable (h : Traced b records)
include h

theorem Traced.put {m : Message} (hlog : (logged records)[m.id]? = some m)
    (hone : (published records).count m.id ≤ 1)
    (hold : ∀ x ∈ b.accepted, x.2.id = m.id → x.2 = m ∧ m.topic ≠ x.1 ∧ m.topic ≠ name)
    (hs : Sound (b'.accept name m)) (hf : SameTrace b b')
    (hh : ∀ n x, b'.Holds n x → b.Holds n x ∨ (n = name ∧ x.msg = m)) :
    Traced (b'.accept name m) records := by
  have hacc : (b'.accept name m).accepted = (name, m) :: b.accepted := by
    rw [← hf.accepted]
    rfl
  have hcount : ∀ c, (b'.accept name m).acceptances c = b.acceptances c + c.is name m.id := by
    intro c
    rw [acceptances_accept, hf.acceptances]
  have hother : ∀ {x}, x ∈ b.accepted → x.2.topic = x.1 → x.2.id ≠ m.id := by
    intro x hx hd hid
    obtain ⟨rfl, hne, _⟩ := hold x hx hid
    exact hne hd
  refine ⟨hs, hf.store.trans h.stored, hf.deadLetters.trans h.dead, hf.purged.trans h.purged,
    ?_, ?_, ?_, ?_, ?_, ?_⟩
  · rw [hacc]
    intro x hx y hy hid
    rcases mem_cons.mp hx with rfl | hx <;> rcases mem_cons.mp hy with rfl | hy
    · rfl
    · exact (hold y hy hid.symm).1.symm
    · exact (hold x hx hid).1
    · exact h.same x hx y hy hid
  · rw [hacc]
    intro x hx hd
    rcases mem_cons.mp hx with rfl | hx
    · -- it was published to the queue, so there is no other of its id
      have hnone : ∀ y ∈ b.accepted, y.2.id ≠ m.id := fun y hy hid => (hold y hy hid).2.2 hd
      refine ⟨?_, hone, fun y hy hid => ?_⟩
      · rw [hcount, acceptances_zero hnone]
        unfold Copy.is
        split <;> omega
      · rcases mem_cons.mp hy with rfl | hy
        · rfl
        · exact absurd hid (hnone y hy)
    · obtain ⟨hle, hpub, hall⟩ := h.alone x hx hd
      have hid := hother hx hd
      refine ⟨?_, hpub, fun y hy hy' => ?_⟩
      · rw [hcount, Copy.is_eq, if_neg (fun he => hid he.2.symm)]
        exact hle
      · rcases mem_cons.mp hy with rfl | hy
        · exact absurd hy'.symm hid
        · exact hall y hy hy'
  · rw [hacc]
    intro id m' hm x hx hid
    rcases mem_cons.mp hx with rfl | hx
    · subst hid
      cases hlog.symm.trans hm
      rfl
    · exact h.agree id m' hm x hx hid
  · intro id hid
    obtain ⟨hex, hall⟩ := hid
    rw [hacc] at hex hall
    by_cases hm : m.id = id
    · subst hm
      have hle := hall (name, m) mem_cons_self rfl
      dsimp only at hle
      have hacked : b.acked.count ⟨name, m.id⟩ + b.places ⟨name, m.id⟩ ≤ _ := h.sound.acked_le _
      have hsame : (b'.accept name m).acked = b.acked := hf.acked
      rw [hcount, hsame, Copy.is_eq, if_pos ⟨rfl, rfl⟩] at hle
      omega
    · refine h.settled id ⟨?_, fun x hx hx' => ?_⟩
      · obtain ⟨x, hx, hx'⟩ := hex
        rcases mem_cons.mp hx with rfl | hx
        · exact absurd hx' hm
        · exact ⟨x, hx, hx'⟩
      · have hle := hall x (mem_cons_of_mem _ hx) hx'
        have hsame : (b'.accept name m).acked = b.acked := hf.acked
        rw [hcount, hsame, Copy.is_eq, if_neg (fun he => hm he.2)] at hle
        exact hle
  · intro n x hx
    rw [hacc]
    rcases hh n x hx with hx | ⟨rfl, rfl⟩
    · exact mem_cons_of_mem _ (h.held n x hx)
    · exact mem_cons_self
  · intro n x hx ht
    rcases hh n x hx with hx | ⟨rfl, rfl⟩
    · exact h.kept n x hx ht
    · exact ⟨_, hlog⟩

theorem Traced.unused_count {m : Message} (hu : b.Unused m.id) :
    (logged (records ++ [.publish m]))[m.id]? = some m ∧
      (published (records ++ [.publish m])).count m.id ≤ 1 := by
  constructor
  · rw [logged_append]
    exact getElem?_insert_self
  · rw [published_append, count_append, count_eq_zero.mpr (hu.2 records h.stored)]
    simp [WALRecord.publishedId]

theorem Traced.publish (e : Env) (topic : String) {m : Message}
    (hu : b.Unused m.id) : ∃ records', Traced (b.publish e topic m).1 records' := by
  have hs := h.sound.publish e topic m
  have hholds : ∀ n x, (b.publish e topic m).1.Holds n x → _ := fun n x => holds_publish
  obtain hb | ⟨queues, spill, delayed, -, hb⟩ := b.publish_spec e topic m
  · rw [hb]
    exact ⟨records, h⟩
  have hid : b.Unused (b.stamp e topic m).id := hu
  have h1 := h.log hid
  obtain ⟨hlog, hone⟩ := h.unused_count hid
  refine ⟨records ++ [.publish (b.stamp e topic m)], ?_⟩
  rw [hb] at hs hholds ⊢
  split
  · rename_i hok
    rw [if_pos hok] at hs hholds
    refine h1.put hlog hone (fun x hx hx' => absurd hx' (hid.1 x hx)) hs ⟨rfl, rfl, rfl, rfl, rfl⟩ ?_
    exact fun n x hx => (hholds n x hx).imp_right fun ⟨hn, hx, _⟩ => ⟨hn, hx ▸ rfl⟩
  · rename_i hok
    rw [if_neg hok] at hs hholds
    exact h1.quiet hs ⟨rfl, rfl, rfl, rfl, rfl⟩ fun n x hx =>
      (hholds n x hx).resolve_right fun hnew => hok hnew.2.2

theorem Traced.publishTopic (e : Env) (topic : String) {m : Message}
    (hu : b.Unused m.id) (he : e.spillErr = none) :
    ∃ records', Traced (b.publishTopic e topic m).1 records' := by
  have hid : b.Unused ({ m with topic } : Message).id := hu
  obtain ⟨hlog, hone⟩ := h.unused_count hid
  -- each subscriber is given the message under another name than its topic
  have hall := publishTopic_rule (b := b) (e := e) (m := m) (P := fun b' => b' = b ∨
      Traced b' (records ++ [.publish { m with topic }]) ∧
        ∀ x ∈ b'.accepted, x.2.id = m.id → x.2 = { m with topic } ∧ topic ≠ x.1)
    (.inl rfl) (.inr ⟨h.log hid, fun x hx hx' => absurd hx' (hu.1 x hx)⟩) (by
      rintro b1 sub hn (rfl | ⟨h1, hold⟩)
      · omega
      have hne := durableName_ne topic sub
      obtain ⟨⟨queues, spill, hb⟩, hp⟩ :=
        b1.pushOrSpill_spec e (durableName topic sub) ⟨b.nextRef, { m with topic }⟩
      rw [b1.pushOrSpill_ok he] at hp
      have hholds : ∀ n x, (b1.pushOrSpill e (durableName topic sub) ⟨b.nextRef, { m with topic }⟩).1.Holds n x →
          b1.Holds n x ∨ (n = durableName topic sub ∧ x.msg = { m with topic }) :=
        fun n x hx => (holds_pushOrSpill hx).imp_right fun ⟨hn, hx, _⟩ => ⟨hn, hx ▸ rfl⟩
      rw [hb] at hp hholds ⊢
      refine .inr ⟨?_, ?_⟩
      · refine h1.put hlog hone (fun x hx hx' => ?_) (h1.sound.accept ⟨rfl, rfl, rfl, rfl⟩ hp rfl)
          ⟨rfl, rfl, rfl, rfl, rfl⟩ hholds
        exact ⟨(hold x hx hx').1, (hold x hx hx').2, hne⟩
      · intro x hx hx'
        rcases mem_cons.mp hx with rfl | hx
        · exact ⟨rfl, hne⟩
        · exact hold x hx hx')
  obtain hb | ⟨ht, -⟩ := hall
  · rw [hb]
    exact ⟨records, h⟩
  · exact ⟨_, ht⟩

theorem Traced.tryConsume (e : Env) (topic : String)
    (hnew : ∀ x ∈ b.firstFresh e.now topic, x.msg.id ∉ b.pending) :
    Traced (b.tryConsume e topic).1 records := by
  have hs := h.sound.tryConsume e topic hnew
  obtain ⟨q, skipped, hdrain, _, _, hb⟩ := b.tryConsume_spec e topic
  generalize (b.tryConsume e topic).2 = got at hdrain hb
  rw [hb] at hs ⊢
  refine h.quiet hs ⟨rfl, rfl, rfl, rfl, rfl⟩ ?_
  intro name x hx
  have hqueue : ∀ y, y ∈ got.toList ∨ y ∈ q.drain → y ∈ (b.queue topic).drain := by
    intro y hy
    rw [hdrain, append_assoc]
    exact mem_append_right _ (mem_append.mpr hy)
  rcases hx with hq | hd | ⟨id, pm, hp, hn, rfl⟩
  · have hset := b.queue_setQueue topic q name
    have hq' : x ∈ ((b.setQueue topic q).queue name).drain := hq
    rw [hset] at hq'
    split at hq'
    · rename_i hn
      subst hn
      exact .inl (hqueue x (.inr hq'))
    · exact .inl hq'
  · exact .inr (.inl hd)
  · cases got with
    | none => exact .inr (.inr ⟨id, pm, hp, hn, rfl⟩)
    | some y =>
      rcases insert_cases hp with ⟨rfl, rfl⟩ | ⟨_, hp⟩
      · subst hn
        exact .inl (hqueue y (.inl mem_cons_self))
      · exact .inr (.inr ⟨id, pm, hp, hn, rfl⟩)

theorem Traced.holds_alone (hx : x ∈ b.accepted) (hd : x.2.topic = x.1)
    (hy : b.Holds name y) (hid : y.msg.id = x.2.id) :
    name = x.1 := (h.alone x hx hd).2.2 _ (h.held name y hy) hid

theorem Traced.ack (he : e.writeErr = none) (id : String) :
    ∃ records', Traced (b.ack e id).1 records' := by
  have hs := h.sound.ack e id
  obtain hb | ⟨pm, hp, hb⟩ := ack_logged h.stored he id
  · rw [hb]
    exact ⟨records, h⟩
  rw [hb] at hs ⊢
  have hpub : published (records ++ [.ack id]) = published records := by
    rw [published_append]
    exact append_nil _
  have hlog : logged (records ++ [.ack id]) = (logged records).erase id := logged_append _ _
  have hkeep : ∀ (id' : String) (m : Message), (logged (records ++ [.ack id]))[id']? = some m →
      (logged records)[id']? = some m := by
    intro id' m hm
    rw [hlog] at hm
    exact getElem?_of_erase hm
  have hholds : ∀ name x, Holds { b with
      pending := b.pending.erase id, acked := ⟨pm.queueName, id⟩ :: b.acked,
      store := some (records ++ [.ack id]) } name x → b.Holds name x := fun _ _ hx => hx.of_erase rfl rfl
  refine ⟨records ++ [.ack id], hs, rfl, h.dead, h.purged, h.same, ?_, ?_, ?_, ?_, ?_⟩
  · rw [hpub]
    exact h.alone
  · exact fun id' m hm => h.agree id' m (hkeep id' m hm)
  · intro id' hid'
    rw [hlog]
    by_cases hid : id' = id
    · rw [hid]
      exact getElem?_erase_self
    · refine (getElem?_erase_other hid).trans (h.settled id' ⟨hid'.1, fun x hx hx' => ?_⟩)
      have hle := hid'.2 x hx hx'
      rw [Copy.count_cons, Copy.is_eq, if_neg (fun heq => hid heq.2.symm)] at hle
      exact hle
  · exact fun name x hx => h.held name x (hholds name x hx)
  · intro name x hx ht
    have hold := hholds name x hx
    have hacc := h.held name x hold
    have hne : x.msg.id ≠ id := by
      intro hid
      have hq : pm.queueName = name := h.holds_alone hacc ht (y := pm.held)
        (.inr (.inr ⟨id, pm, hp, rfl, rfl⟩)) ((h.sound.keyed id pm hp).trans hid.symm)
      have hplace := Nat.lt_of_lt_of_le ((inMemory_pos (c := ⟨name, id⟩) hs.keyed).mpr ⟨x, hx, hid⟩)
        (inMemory_le _ _)
      have hbal := hs.acked_le ⟨name, id⟩
      have hone : b.acceptances ⟨name, id⟩ ≤ 1 := hid ▸ (h.alone _ hacc ht).1
      rw [Copy.count_cons, Copy.is_eq, if_pos ⟨hq, rfl⟩] at hbal
      have hsame : acceptances { b with
        pending := b.pending.erase id, acked := ⟨pm.queueName, id⟩ :: b.acked,
        store := some (records ++ [.ack id]) } ⟨name, id⟩ = b.acceptances ⟨name, id⟩ := rfl
      omega
    obtain ⟨m, hm⟩ := h.kept name x hold ht
    rw [hlog]
    exact ⟨m, (getElem?_erase_other hne).trans hm⟩

theorem Traced.retryPending {id : String} (missing : BrokerErr)
    (hg : ∀ pm ∈ b.pending[id]?, b.GivenBack pm) : Traced (b.retryPending id missing).1 records := by
  have hcare : b.Careful (.nack id) := hg
  have hfit : ∀ pm ∈ b.pending[id]?, b.RetryFits pm := hcare.fits
  have hs := h.sound.retryPending missing hfit
  unfold Broker.retryPending at hs ⊢
  cases hp : b.pending[id]? with
  | none => exact h
  | some pm =>
    rw [hp] at hs
    obtain ⟨hretry, hroom⟩ := hg pm hp
    dsimp only at hs ⊢
    have hcount : ¬ pm.held.msg.maxRetry < retryOf { b with pending := b.pending.erase id } pm.held + 1 :=
      Int.not_lt.mpr hretry
    rw [retryOrDeadLetter_eq, if_neg hcount] at hs ⊢
    obtain ⟨⟨queues, hb⟩, _⟩ := push_spec (retried { b with pending := b.pending.erase id } pm.held)
      pm.queueName pm.held
    have hholds : ∀ name x, ((retried { b with pending := b.pending.erase id } pm.held).push
        pm.queueName pm.held).1.Holds name x → b.Holds name x := by
      intro name x hx
      rcases holds_push hx with hx | ⟨rfl, rfl, _⟩
      · exact hx.of_erase rfl rfl
      · exact .inr (.inr ⟨id, pm, hp, rfl, rfl⟩)
    rw [hb] at hs hholds ⊢
    exact h.quiet hs ⟨rfl, rfl, rfl, rfl, rfl⟩ hholds

theorem Traced.rewrite {msgs : List Message} (hp : msgs.Perm b.allMsgs) :
    Traced (b.rewrite msgs) (msgs.map .publish) := by
  have hmem : ∀ m, m ∈ msgs ↔ ∃ name x, b.Holds name x ∧ b.encode x = m := by
    intro m
    rw [hp.mem_iff, allMsgs, captured_eq h.dead, mem_map]
    simp only [mem_memory]
    exact ⟨fun ⟨x, ⟨name, hx⟩, he⟩ => ⟨name, x, hx, he⟩, fun ⟨name, x, hx, he⟩ => ⟨x, ⟨name, hx⟩, he⟩⟩
  -- a message of the new log is one in memory
  have hlogged : ∀ (id : String) (m : Message), (logged (msgs.map .publish))[id]? = some m →
      ∃ name x, b.Holds name x ∧ b.encode x = m ∧ x.msg.id = id := by
    intro id m hm
    obtain ⟨hid, hin⟩ := logged_id hm
    obtain ⟨m', hm', heq⟩ := mem_map.mp hin
    cases heq
    obtain ⟨name, x, hx, he⟩ := (hmem m).mp hm'
    exact ⟨name, x, hx, he, by rw [← hid, ← he]; rfl⟩
  refine ⟨h.sound.rewrite msgs, ?_, h.dead, h.purged, h.same, ?_, ?_, ?_, h.held, ?_⟩
  · unfold Broker.rewrite
    rw [h.stored]
    rfl
  · intro x hx hd
    obtain ⟨hacc, _, hall⟩ := h.alone x hx hd
    refine ⟨hacc, ?_, hall⟩
    have hcount : (published (msgs.map .publish)).count x.2.id = b.inMemory ⟨x.1, x.2.id⟩ := by
      rw [← count_memory h.sound.keyed ⟨x.1, x.2.id⟩ (fun _ _ hy hid => h.holds_alone hx hd hy hid),
        published_publishes, (hp.map _).count_eq, allMsgs, captured_eq h.dead, map_map,
        count_eq_countP, countP_map]
      apply countP_congr
      intro y _
      simp [encode]
    have hbal := h.sound.acked_le ⟨x.1, x.2.id⟩
    have hle := b.inMemory_le ⟨x.1, x.2.id⟩
    rw [hcount]
    exact Nat.le_trans (by omega) hacc
  · intro id m hm x hx hid
    obtain ⟨name, y, hy, rfl, rfl⟩ := hlogged id m hm
    rw [h.same x hx _ (h.held name y hy) hid]
    rfl
  · intro id hid
    cases hm : (logged (msgs.map .publish))[id]? with
    | none => rfl
    | some m =>
      obtain ⟨name, y, hy, _, rfl⟩ := hlogged id m hm
      have hle := hid.2 _ (h.held name y hy) rfl
      have hpos := (inMemory_pos (c := ⟨name, y.msg.id⟩) h.sound.keyed).mpr ⟨y, hy, rfl⟩
      have hin := b.inMemory_le ⟨name, y.msg.id⟩
      have hbal := h.sound.acked_le ⟨name, y.msg.id⟩
      have hsame : (b.rewrite msgs).acceptances ⟨name, y.msg.id⟩ = b.acceptances ⟨name, y.msg.id⟩ := rfl
      have hacked : (b.rewrite msgs).acked = b.acked := rfl
      dsimp only at hle
      rw [hsame, hacked] at hle
      omega
  · intro name x hx _
    exact logged_publishes (m := b.encode x) ((hmem _).mpr ⟨name, x, hx, rfl⟩)

theorem Traced.step (hc : b.Careful op) (hs : b.Step op b') : ∃ records', Traced b' records' := by
  cases op with
  | publish e topic m =>
    cases hs
    exact h.publish e topic hc
  | publishTopic e topic m =>
    cases hs
    exact h.publishTopic e topic hc.1 hc.2
  | registerDurableSub topic sub =>
    cases hs
    refine ⟨records, h.quiet ?_ ⟨rfl, rfl, rfl, rfl, rfl⟩ (fun _ _ hx => hx)⟩
    exact h.sound.quiet ⟨⟨rfl, rfl, rfl, rfl⟩, fun _ => rfl, rfl⟩
  | unregisterDurableSub topic sub =>
    cases hs
    unfold Broker.unregisterDurableSub
    split
    · exact ⟨records, h⟩
    · refine ⟨records, h.quiet ?_ ⟨rfl, rfl, rfl, rfl, rfl⟩ (fun _ _ hx => hx)⟩
      exact h.sound.quiet ⟨⟨rfl, rfl, rfl, rfl⟩, fun _ => rfl, rfl⟩
  | tryConsume e topic =>
    cases hs
    exact ⟨records, h.tryConsume e topic hc⟩
  | ack e id =>
    cases hs
    exact h.ack hc id
  | nack id =>
    cases hs
    exact ⟨records, h.retryPending _ hc⟩
  | requeueTimedOut id =>
    cases hs
    exact ⟨records, h.retryPending _ hc⟩
  | checkpoint msgs =>
    simp only [Step, Broker.step] at hs
    split at hs
    · rename_i hp
      cases hs
      exact ⟨_, h.rewrite hp⟩
    · cases hs
  | _ => cases hc

end

theorem new_traced (cfg : Config) : Traced (.new cfg (some []) ∅) [] := by
  have hholds := not_holds_new cfg (some []) ∅
  refine ⟨new_sound cfg (some []), rfl, rfl, rfl, ?_, ?_, ?_, fun _ _ => rfl, ?_, ?_⟩
  · exact fun _ hx => absurd hx not_mem_nil
  · exact fun _ hx => absurd hx not_mem_nil
  · exact fun _ _ _ _ hx => absurd hx not_mem_nil
  · exact fun name x hx => absurd hx (hholds name x)
  · exact fun name x hx => absurd hx (hholds name x)

theorem Restartable.own (hr : b.Restartable e) (hh : b.Holds name h) : h.msg.topic = name := by
  rcases hh with hq | ⟨_, ht⟩ | ⟨id, pm, hp, rfl, rfl⟩
  · exact hr.queues _ (mem_queues_of_queued hq) h hq
  · exact ht
  · exact hr.pending (id, pm) (mem_toList_iff_getElem?_eq_some.mpr hp)

theorem Restartable.not_published (hr : b.Restartable e) (hs : b.store = some records)
    (h : 0 < b.inSpill c) : c.id ∉ published records := by
  obtain ⟨m, hm, hid⟩ := countP_pos_iff.mp h
  unfold Broker.spilled at hm
  cases hn : b.spill[c.queue]? with
  | none =>
    rw [hn] at hm
    cases hm
  | some ms =>
    rw [hn] at hm
    rw [← of_decide_eq_true hid]
    exact hr.spilled (c.queue, ms) (mem_toList_iff_getElem?_eq_some.mpr hn) m hm records hs

section
variable (h : Traced b records)
include h

theorem Traced.undead (c : Copy) :
    b.inDeadLetters c = 0 ∧ b.places c = b.inSpill c + b.inMemory c := by
  have hdead : b.inDeadLetters c = 0 := by
    unfold inDeadLetters deadLetter
    rw [h.dead]
    rfl
  refine ⟨hdead, ?_⟩
  unfold places inMemory
  omega

theorem Traced.restored_eq_inMemory (hr : b.Restartable e)
    (hacc : 0 < b.acceptances c) (hexp : c ∉ b.expired)
    (hfresh : ∀ x ∈ b.accepted, x.1 = c.queue → x.2.id = c.id → x.2.Unexpired e.now) :
    restored records e.now c = b.inMemory c := by
  have hbal := h.sound.balanced c
  have hmem := (h.undead c).2
  rw [h.purged, count_eq_zero.mpr hexp] at hbal
  rw [restored_eq]
  by_cases hpos : 0 < b.inMemory c
  · -- it was published to its queue and is in the log
    obtain ⟨x, hx, hid⟩ := (inMemory_pos h.sound.keyed).mp hpos
    have hown := hr.own hx
    have hin := h.held c.queue x hx
    obtain ⟨hone, hcount, _⟩ := h.alone _ hin hown
    obtain ⟨m, hm⟩ := h.kept c.queue x hx hown
    obtain ⟨htopic, htime, httl, hexpires⟩ := (h.agree _ m hm _ hin rfl).fields
    rw [hid] at hone hcount hm
    have hone : b.acceptances c ≤ 1 := hone
    have hkept : ¬ Discarded m e.now ∧ m.topic = c.queue := by
      have hun := hfresh _ hin rfl hid
      have hstamp := hr.stamped _ hin
      refine ⟨?_, htopic.trans hown⟩
      unfold Discarded
      unfold Message.Unexpired at hun hstamp
      omega
    have hpub : 0 < (published records).count c.id := by
      obtain ⟨hmid, hrec⟩ := logged_id hm
      rw [← hmid]
      exact count_pos_iff.mpr (mem_published hrec)
    have hany : ((logged records)[c.id]?).any (fun m => ¬ Discarded m e.now ∧ m.topic = c.queue) = true := by
      rw [hm]
      exact decide_eq_true hkept
    rw [if_pos hany]
    omega
  · split
    · rename_i hany
      obtain ⟨m, hm, hp⟩ := (Option.any_eq_true _ _).mp hany
      obtain ⟨_, ht⟩ := of_decide_eq_true hp
      by_cases hspill : 0 < b.inSpill c
      · rw [count_eq_zero.mpr (hr.not_published h.stored hspill)]
        omega
      -- then it was acknowledged, and the log says so
      obtain ⟨x, hx, hq, hid⟩ := exists_accepted hacc
      have hown : x.2.topic = x.1 := by
        rw [hq, ← ht]
        exact (h.agree c.id m hm x hx hid).fields.1.symm
      have hset : b.Settled c.id := by
        refine ⟨⟨x, hx, hid⟩, fun y hy hy' => ?_⟩
        rw [(h.alone x hx hown).2.2 y hy (hy'.trans hid.symm), hq]
        show b.acceptances c ≤ b.acked.count c
        simp only [count_nil] at hbal
        omega
      cases hm.symm.trans (h.settled c.id hset)
    · omega

theorem Traced.reproduced (cfg : Config) (hr : b.Restartable e) :
    Reproduced b (recover cfg e records b.spill) e.now := by
  have hrec := fun c => recover_places cfg hr.spills records b.spill c
  constructor
  · intro c hacc hexp hfresh
    have hbal := h.sound.balanced c
    obtain ⟨hdead, hmem⟩ := h.undead c
    refine ⟨?_, (hrec c).2.trans hdead.symm⟩
    rw [(hrec c).1, h.restored_eq_inMemory hr hacc hexp hfresh, hbal, hmem, count_eq_zero.mpr hexp]
    rfl
  · intro id hid queue
    rw [(hrec _).1, restored_eq, h.settled id hid]
    have hbal := h.sound.acked_le ⟨queue, id⟩
    have hle : b.acceptances ⟨queue, id⟩ ≤ b.acked.count ⟨queue, id⟩ := by
      by_cases hpos : 0 < b.acceptances ⟨queue, id⟩
      · obtain ⟨x, hx, rfl, hx'⟩ := exists_accepted hpos
        exact hid.2 x hx hx'
      · omega
    have hspill : b.inSpill ⟨queue, id⟩ ≤ b.places ⟨queue, id⟩ := by
      unfold places
      omega
    have hzero : b.inSpill ⟨queue, id⟩ = 0 := by omega
    exact hzero

end

def narrow : Broker := .new { queueCap := 1 } (some []) ∅

def settling : List Op :=
  [.registerDurableSub "news" "s", .publish { now := 1 } "jobs" { id := "a" },
    .publish { now := 2 } "jobs" { id := "b" }, .checkpoint [{ id := "a", topic := "jobs" }],
    .publishTopic { now := 3 } "news" { id := "n" }, .tryConsume { now := 4 } "news:s",
    .ack { now := 5 } "n", .tryConsume { now := 6 } "jobs", .nack "a",
    .publish { now := 7 } "mail" { id := "c", ttl := 10, timestamp := 7 },
    .publish { now := 8 } "mail" { id := "d", priority := 3 }, .tryConsume { now := 9 } "mail",
    .ack { now := 10 } "d"]

def subscribed : List Op :=
  [.registerDurableSub "news" "s", .publishTopic { now := 1 } "news" { id := "n" }]

end Broker
end Boltq.QueuePlane
