import Boltq.QueuePlane.Places

namespace Boltq.QueuePlane
open Lib Std List

namespace WALRecord

def gather (t : TreeMap String Message) : WALRecord → TreeMap String Message
  | .publish m => t.insert m.id m
  | .ack id => t.erase id
  | .metadata _ _ => t

def publishedId : WALRecord → Option String
  | .publish m => some m.id
  | .ack _ => none
  | .metadata _ _ => none

end WALRecord

section
variable (records : List WALRecord)

def logged : TreeMap String Message := records.foldl WALRecord.gather ∅

def published : List String := records.filterMap WALRecord.publishedId

theorem logged_append (r : WALRecord) :
    logged (records ++ [r]) = WALRecord.gather (logged records) r := foldl_append

theorem published_append (r : WALRecord) :
    published (records ++ [r]) = published records ++ r.publishedId.toList := by
  unfold published
  rw [filterMap_append]
  cases r <;> rfl

end

theorem published_publishes (msgs : List Message) :
    published (msgs.map .publish) = msgs.map Message.id := by
  unfold published
  rw [filterMap_map, ← filterMap_eq_map]
  rfl

theorem logged_id {records : List WALRecord} {id : String} {m : Message}
    (h : (logged records)[id]? = some m) : m.id = id ∧ .publish m ∈ records := by
  induction records using List.reverseRecOn with
  | nil => cases h
  | append_singleton records r ih =>
    rw [logged_append] at h
    have hold : (logged records)[id]? = some m → m.id = id ∧ .publish m ∈ records ++ [r] := fun hm =>
      ⟨(ih hm).1, mem_append_left _ (ih hm).2⟩
    cases r with
    | publish m' =>
      rcases insert_cases h with ⟨rfl, rfl⟩ | ⟨_, hm⟩
      · exact ⟨rfl, mem_append_right _ mem_cons_self⟩
      · exact hold hm
    | ack id' =>
      by_cases hid : id = id'
      · subst hid
        cases (TreeMap.getElem?_erase_self).symm.trans h
      · exact hold ((getElem?_erase_other hid).symm.trans h)
    | metadata type data => exact hold h

theorem mem_published (h : .publish m ∈ records) :
    m.id ∈ published records := mem_filterMap.mpr ⟨_, h, rfl⟩

theorem logged_publishes {msgs : List Message} {m : Message} (h : m ∈ msgs) :
    ∃ m', (logged (msgs.map .publish))[m.id]? = some m' := by
  induction msgs using List.reverseRecOn with
  | nil => cases h
  | append_singleton msgs x ih =>
    rw [map_append, map_singleton, logged_append]
    unfold WALRecord.gather
    by_cases hid : m.id = x.id
    · exact ⟨x, by rw [hid]; exact TreeMap.getElem?_insert_self⟩
    rcases mem_append.mp h with hm | hm
    · obtain ⟨m', hm'⟩ := ih hm
      exact ⟨m', (getElem?_insert_other x hid).trans hm'⟩
    · exact absurd (congrArg Message.id (mem_singleton.mp hm)) hid

def Message.Same (m m' : Message) : Prop := m = { m' with retry := m.retry }

theorem Message.Same.fields {m : Message} (h : m.Same m') :
    m.topic = m'.topic ∧ m.timestamp = m'.timestamp ∧ m.ttl = m'.ttl ∧ m.expiresAt = m'.expiresAt :=
  ⟨(congrArg topic h :), (congrArg timestamp h :), (congrArg ttl h :), (congrArg expiresAt h :)⟩

namespace Broker
variable {b b' : Broker} {c : Copy} {e : Env} {records : List WALRecord}

theorem ack_logged (hs : b.store = some records) (he : e.writeErr = none) (id : String) :
    (b.ack e id).1 = b ∨ ∃ pm, b.pending[id]? = some pm ∧ (b.ack e id).1 = { b with
      pending := b.pending.erase id
      acked := ⟨pm.queueName, id⟩ :: b.acked
      store := some (records ++ [.ack id]) } := by
  rw [ack_eq]
  cases b.pending[id]? with
  | none => exact .inl rfl
  | some pm =>
    refine .inr ⟨pm, rfl, ?_⟩
    rw [written, refusal, he, hs]
    rfl

theorem replay_spec (r : Replay) (records : List WALRecord) :
    (readAllRecords records).foldl Replay.record r =
      { broker := r.broker
        msgs := records.foldl WALRecord.gather r.msgs
        order := r.order ++ published records } := by
  unfold readAllRecords
  induction records generalizing r with
  | nil =>
    unfold published
    simp
  | cons x records ih =>
    rw [map_cons, foldl_cons, ih, foldl_cons]
    cases x with
    | publish m =>
      have hcons : published (.publish m :: records) = m.id :: published records := rfl
      rw [hcons, append_cons]
      rfl
    | ack id => rfl
    | metadata type data => cases type <;> rfl

def Replay.Yields (r : Replay) (m : Message) : Prop := m.id ∈ r.order ∧ r.msgs[m.id]? = some m
  deriving Decidable

theorem replay_yields (b : Broker) (records : List WALRecord) (m : Message) :
    ((readAllRecords records).foldl Replay.record { broker := b }).Yields m ↔
      (logged records)[m.id]? = some m := by
  rw [replay_spec]
  exact ⟨fun h => h.2, fun h => ⟨mem_published (logged_id h).2, h⟩⟩

def Discarded (m : Message) (now : Int) : Prop :=
  0 < m.expiresAt ∧ m.expiresAt ≤ now ∨ 0 < m.ttl ∧ m.timestamp + m.ttl ≤ now
  deriving Decidable

theorem ingestRecovered_spec (b : Broker) (he : e.spillErr = none) (m : Message) :
    (∃ queues spill delayed nextRef,
      b.ingestRecovered e m = { b with queues, spill, delayed, nextRef }) ∧
    ∀ c, (b.ingestRecovered e m).places c =
      b.places c + if Discarded m e.now then 0 else c.is m.topic m.id := by
  unfold ingestRecovered
  split
  · rename_i hd
    have hdis : Discarded m e.now := .inl hd
    exact ⟨⟨_, _, _, _, rfl⟩, fun c => by rw [if_pos hdis, Nat.add_zero]⟩
  · rename_i hd
    split
    · rename_i ht
      have hdis : Discarded m e.now := .inr ht
      exact ⟨⟨_, _, _, _, rfl⟩, fun c => by rw [if_pos hdis, Nat.add_zero]⟩
    · rename_i ht
      obtain ⟨⟨queues, spill, delayed, hb⟩, hp⟩ :=
        deliver_spec { b with nextRef := b.nextRef + 1 } e m.topic ⟨b.nextRef, m⟩ rfl
      have hok := deliver_ok { b with nextRef := b.nextRef + 1 } he m.topic ⟨b.nextRef, m⟩
      have hdis : ¬ Discarded m e.now := not_or.mpr ⟨hd, ht⟩
      dsimp only [alloc]
      refine ⟨⟨queues, spill, delayed, b.nextRef + 1, hb⟩, fun c => ?_⟩
      rw [hp c, if_pos hok, if_neg hdis]
      rfl

def restored (records : List WALRecord) (now : Int) (c : Copy) : Nat :=
  (published records).countP (fun id => ((logged records)[id]?).any (fun m =>
    ¬ Discarded m now ∧ c = ⟨m.topic, m.id⟩))

theorem ingest_spec (b : Broker) (he : e.spillErr = none) (msgs : TreeMap String Message)
    (order : List String) : (∃ queues spill delayed nextRef,
      (Replay.mk b msgs order).ingest e = { b with queues, spill, delayed, nextRef }) ∧
    ∀ c, ((Replay.mk b msgs order).ingest e).places c =
      b.places c + order.countP (fun id => (msgs[id]?).any (fun m =>
        ¬ Discarded m e.now ∧ c = ⟨m.topic, m.id⟩)) := by
  unfold Replay.ingest
  dsimp only
  induction order generalizing b with
  | nil => exact ⟨⟨_, _, _, _, rfl⟩, fun _ => rfl⟩
  | cons id order ih =>
    rw [foldl_cons]
    cases hm : msgs[id]? with
    | none =>
      obtain ⟨hb, hp⟩ := ih b
      refine ⟨hb, fun c => (hp c).trans ?_⟩
      rw [countP_cons, hm]
      rfl
    | some m =>
      obtain ⟨⟨q1, s1, d1, r1, h1⟩, hp1⟩ := b.ingestRecovered_spec he m
      obtain ⟨⟨q2, s2, d2, r2, h2⟩, hp2⟩ := ih (b.ingestRecovered e m)
      refine ⟨⟨q2, s2, d2, r2, by rw [h2, h1]⟩, fun c => ?_⟩
      rw [hp2 c, hp1 c, countP_cons, hm]
      unfold Copy.is
      by_cases hd : Discarded m e.now
      · simp [hd]
      by_cases hc : c = ⟨m.topic, m.id⟩
      · simp [hd, hc]
        omega
      · simp [hd, hc]

theorem new_places (cfg : Config) (store : Option (List WALRecord))
    (spill : TreeMap String (List Message)) (c : Copy) :
    (Broker.new cfg store spill).places c = ((spill[c.queue]?).getD []).countP (fun m => m.id = c.id) := by
  have hqueue : (Broker.new cfg store spill).inQueue c = 0 := by
    unfold inQueue
    have hq : (Broker.new cfg store spill).queue c.queue =
      .new numPriorityLevels (nextPowerOfTwo (Broker.new cfg store spill).queueCap) := rfl
    rw [hq, PriorityQueue.drain_new]
    rfl
  rw [places_eq, hqueue, Nat.zero_add]
  rfl

theorem recover_places (cfg : Config) (he : e.spillErr = none) (records : List WALRecord)
    (spill : TreeMap String (List Message)) (c : Copy) : (recover cfg e records spill).places c =
      ((spill[c.queue]?).getD []).countP (fun m => m.id = c.id) + restored records e.now c ∧
    (recover cfg e records spill).inDeadLetters c = 0 := by
  unfold recover
  dsimp only
  split
  · rename_i hnil
    subst hnil
    exact ⟨new_places _ _ _ c, rfl⟩
  · rw [replay_spec]
    obtain ⟨⟨queues, spill', delayed, nextRef, hb⟩, hp⟩ := ingest_spec
      (Broker.new cfg (some records) spill) he (logged records) (published records)
    refine ⟨?_, ?_⟩
    · rw [← new_places cfg (some records)]
      exact hp c
    · show inDeadLetters (Replay.ingest { broker := _, msgs := logged records, order := published records } e) c = 0
      rw [hb]
      rfl

theorem restored_eq (records : List WALRecord) (now : Int) (c : Copy) :
    restored records now c = if ((logged records)[c.id]?).any (fun m =>
      ¬ Discarded m now ∧ m.topic = c.queue) then (published records).count c.id else 0 := by
  have hiff : ∀ id, ((logged records)[id]?).any (fun m => ¬ Discarded m now ∧ c = ⟨m.topic, m.id⟩) = true ↔
      id = c.id ∧ ((logged records)[c.id]?).any (fun m => ¬ Discarded m now ∧ m.topic = c.queue) = true := by
    intro id
    simp only [Option.any_eq_true, decide_eq_true_eq]
    constructor
    · rintro ⟨m, hm, hd, rfl⟩
      obtain rfl := (logged_id hm).1
      exact ⟨rfl, m, hm, hd, rfl⟩
    · rintro ⟨rfl, m, hm, hd, ht⟩
      exact ⟨m, hm, hd, by rw [ht, (logged_id hm).1]⟩
  unfold restored
  split
  · rename_i hany
    rw [count_eq_countP]
    apply countP_congr
    intro id _
    rw [hiff, beq_iff_eq]
    exact ⟨fun h => h.1, fun h => ⟨h, hany⟩⟩
  · rename_i hany
    rw [countP_eq_zero]
    intro id _ h
    exact hany ((hiff id).mp h).2

end Broker
end Boltq.QueuePlane
