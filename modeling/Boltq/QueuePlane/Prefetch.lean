import Boltq.QueuePlane.Republish

namespace Boltq.QueuePlane
open Lib Std TreeMap Option

structure Conn where
  prefetch : Int := 0
  unackedCount : Nat := 0

structure ConsumeRequest where
  topic : String
  id : String := ""
  durable : Bool := false
  deriving DecidableEq

inductive Frame where
  | ok (status : String)
  | message (m : Message)
  | empty
  | error (text : String)
  deriving DecidableEq

structure TCPServer where
  broker : Broker
  conns : TreeMap Nat Conn := ∅
  late : List String := []
  holder : TreeMap String Nat := ∅

namespace TCPServer

section
variable (s : TCPServer)

def conn (c : Nat) : Conn := (s.conns[c]?).getD {}

def setConn (c : Nat) (x : Conn) : TCPServer := { s with conns := s.conns.insert c x }

def held (c : Nat) : Nat :=
  (s.broker.pending.keys.filter (fun id => s.holder[id]? = some c)).length

def handlePrefetchTCP (c : Nat) (count : Int) : TCPServer × Frame :=
  (s.setConn c { s.conn c with prefetch := count }, .ok "ok")

def delivered (c : Nat) (h : Held) : TCPServer :=
  { s.setConn c { s.conn c with unackedCount := (s.conn c).unackedCount + 1 } with
    holder := s.holder.insert h.msg.id c }

def handleConsumeTCP (c : Nat) (e : Env) (req : ConsumeRequest) : TCPServer × Frame :=
  if req.topic = "" then (s, .error "topic is required")
  else if req.id = "" ∧ 0 < (s.conn c).prefetch ∧ (s.conn c).prefetch ≤ (s.conn c).unackedCount then
    (s, .error "prefetch limit reached")
  else if req.id ≠ "" then
    ({ s with
      broker := if req.durable then s.broker.registerDurableSub req.topic req.id else s.broker },
      .ok "subscribed")
  else
    match s.broker.tryConsume e req.topic with
    | (b, none) => ({ s with broker := b }, .empty)
    | (b, some h) => ({ s with broker := b }.delivered c h, .message (b.encode h))

def settled (c : Nat) (r : Broker × Option BrokerErr) (status : String) : TCPServer × Frame :=
  match r with
  | (b, some err) => ({ s with broker := b }, .error err.message)
  | (b, none) =>
    ({ s with broker := b }.setConn c { s.conn c with unackedCount := (s.conn c).unackedCount - 1 },
      .ok status)

def handleAckTCP (c : Nat) (e : Env) (id : String) : TCPServer × Frame :=
  if id = "" then (s, .error "id is required") else s.settled c (s.broker.ack e id) "acked"

def handleNackTCP (c : Nat) (id : String) : TCPServer × Frame :=
  if id = "" then (s, .error "id is required") else s.settled c (s.broker.nack id) "nacked"

inductive Op where
  | publish (e : Env) (topic : String) (m : Message)
  | prefetch (c : Nat) (count : Int)
  | consume (c : Nat) (e : Env) (req : ConsumeRequest)
  | ack (c : Nat) (e : Env) (id : String)
  | nack (c : Nat) (id : String)
  | processAdvancedFeatures (e : Env)
  | checkTimeouts (now : Int)
  | requeue (id : String)

def step : Op → Option TCPServer
  | .publish e topic m => some { s with broker := (s.broker.publish e topic m).1 }
  | .prefetch c count => some (s.handlePrefetchTCP c count).1
  | .consume c e req => some (s.handleConsumeTCP c e req).1
  | .ack c e id => some (s.handleAckTCP c e id).1
  | .nack c id => some (s.handleNackTCP c id).1
  | .processAdvancedFeatures e => some { s with broker := s.broker.processAdvancedFeatures e }
  | .checkTimeouts now =>
    if s.late = [] then
      some { s with
        late := (s.broker.pending.toList.filter (fun x => x.2.ackDeadline < now)).map Prod.fst }
    else none
  | .requeue id =>
    if id ∈ s.late then
      some { s with broker := (s.broker.requeueTimedOut id).1, late := s.late.erase id }
    else none

def Step (op : Op) (s' : TCPServer) : Prop := s.step op = some s'

/-- No id is delivered while it is pending, a message is acked or nacked by the consumer that
holds it, the nack succeeds, and none expires or is requeued while it is held. -/
def Answered : Op → Prop
  | .consume _ e req => ∀ h ∈ (s.broker.tryConsume e req.topic).2, h.msg.id ∉ s.broker.pending
  | .ack c _ id => id ∈ s.broker.pending → s.holder[id]? = some c
  | .nack c id => id ∈ s.broker.pending → s.holder[id]? = some c ∧ (s.broker.nack id).2 = none
  | .processAdvancedFeatures e => ∀ x ∈ s.broker.pending.toList, ¬ x.2.held.msg.Expired e.now
  | .requeue id => id ∉ s.broker.pending
  | _ => True

end

instance (s : TCPServer) (op : Op) : Decidable (s.Answered op) := by
  unfold Answered
  split <;> infer_instance

def Exact (s : TCPServer) : Prop := ∀ c, (s.conn c).unackedCount = s.held c

theorem conn_setConn (s : TCPServer) (c : Nat) (x : Conn) (c' : Nat) :
    (s.setConn c x).conn c' = if c = c' then x else s.conn c' := by
  unfold conn setConn
  rw [getElem?_insert]
  simp only [Nat.compare_eq_eq]
  split <;> rfl

theorem held_congr {s s' : TCPServer} (hp : ∀ id, id ∈ s'.broker.pending ↔ id ∈ s.broker.pending)
    (hh : s'.holder = s.holder) (c : Nat) : s'.held c = s.held c := by
  unfold held
  rw [hh, filter_keys_eq (fun id _ => hp id)]

theorem held_more (s s' : TCPServer) (hid : mid ∉ s.broker.pending)
    (hp : ∀ k, k ∈ s'.broker.pending ↔ k = mid ∨ k ∈ s.broker.pending) (hc : s'.holder[mid]? = some c)
    (hh : ∀ k, k ≠ mid → s'.holder[k]? = s.holder[k]?) (c' : Nat) :
    s'.held c' = s.held c' + if c = c' then 1 else 0 := by
  unfold held
  rw [((keys_perm_cons hid hp).filter _).length_eq, List.filter_cons, hc]
  have hsame : s.broker.pending.keys.filter (fun k => s'.holder[k]? = some c') =
      s.broker.pending.keys.filter (fun k => s.holder[k]? = some c') := by
    refine List.filter_congr (fun k hk => ?_)
    rw [hh k (fun he => hid (he ▸ mem_keys.mp hk))]
  rw [hsame]
  by_cases hcc : c = c' <;> simp [hcc]

theorem retryPending_spec (b : Broker) (id : String) (missing : BrokerErr) :
    (id ∉ b.pending ∧ b.retryPending id missing = (b, some missing)) ∨
    (id ∈ b.pending ∧ (b.retryPending id missing).1.pending = b.pending.erase id) := by
  obtain ⟨hp, hb⟩ | ⟨pm, hp, hb | hb⟩ := b.retryPending_cases id missing
  · refine .inl ⟨fun hm => ?_, hb⟩
    rw [mem_iff_isSome_getElem?, hp] at hm
    cases hm
  · exact .inr ⟨mem_of_getElem? hp, by rw [hb]; rfl⟩
  · obtain ⟨⟨queues, hq⟩, -⟩ :=
      Broker.push_spec (Broker.retried { b with pending := b.pending.erase id } pm.held) pm.queueName pm.held
    exact .inr ⟨mem_of_getElem? hp, by rw [hb, hq]; rfl⟩

theorem promoteReady_pending (b : Broker) (now : Int) : (b.promoteReady now).pending = b.pending :=
  Broker.promoteReady_rule (P := fun b' => b'.pending = b.pending) rfl fun b' h _ _ hb => by
    obtain ⟨⟨queues, hframe⟩, -⟩ := b'.push_spec h.msg.topic h
    rw [hframe]
    exact hb

theorem processAdvancedFeatures_pending (b : Broker) (e : Env)
    (hf : ∀ x ∈ b.pending.toList, ¬ x.2.held.msg.Expired e.now) (id : String) :
    id ∈ (b.processAdvancedFeatures e).pending ↔ id ∈ b.pending := by
  obtain ⟨⟨queues, spill, nextRef, hb⟩, -⟩ :=
    ((b.promoteReady e.now).dropExpired e.now).reloadFromDisk_spec
  rw [Broker.processAdvancedFeatures, hb]
  simp only [Broker.dropExpired, promoteReady_pending, mem_iff_isSome_getElem?,
    getElem?_filter']
  cases hp : b.pending[id]? with
  | none => rfl
  | some pm =>
    have hfresh := hf (id, pm) (mem_toList_iff_getElem?_eq_some.mpr hp)
    simp [Option.filter, hfresh]

theorem Exact.frame (h : Exact s) (hp : ∀ id, id ∈ s'.broker.pending ↔ id ∈ s.broker.pending)
    (hh : s'.holder = s.holder) (hc : ∀ c, (s'.conn c).unackedCount = (s.conn c).unackedCount) :
    Exact s' :=
  fun c => by rw [hc, h c, held_congr hp hh]

theorem Exact.consume (h : Exact s) (c : Nat) (e : Env) (req : ConsumeRequest)
    (hnew : ∀ x ∈ (s.broker.tryConsume e req.topic).2, x.msg.id ∉ s.broker.pending) :
    Exact (s.handleConsumeTCP c e req).1 := by
  obtain ⟨q, skipped, -, -, -, hb⟩ := s.broker.tryConsume_spec e req.topic
  unfold handleConsumeTCP
  split
  · exact h
  split
  · exact h
  split
  · refine h.frame (fun id => ?_) rfl (fun _ => rfl)
    dsimp only
    split <;> rfl
  generalize s.broker.tryConsume e req.topic = r at hnew hb
  obtain ⟨b, got⟩ := r
  dsimp only at hnew hb ⊢
  cases got with
  | none => exact h.frame (fun id => by rw [hb]; rfl) rfl (fun _ => rfl)
  | some x =>
    intro c'
    have hp : ∀ k, k ∈ b.pending ↔ k = x.msg.id ∨ k ∈ s.broker.pending := by
      intro k
      rw [hb]
      exact mem_insert_iff
    have hmore := held_more s (delivered { s with broker := b } c x) (hnew x rfl) hp
      getElem?_insert_self (fun k hk => getElem?_insert_other c hk) c'
    dsimp only
    rw [hmore, ← h c']
    change (setConn _ c _ |>.conn c').unackedCount = _
    rw [conn_setConn]
    split
    · next he =>
      subst he
      rfl
    · rfl

theorem Exact.settled (h : Exact s) (mid : String)
    (hr : (r.1.pending = s.broker.pending ∧ r.2 ≠ none) ∨
      (mid ∈ s.broker.pending ∧ s.holder[mid]? = some c ∧ r.1.pending = s.broker.pending.erase mid ∧
        r.2 = none)) : Exact (s.settled c r status).1 := by
  obtain ⟨b, err⟩ := r
  rcases hr with ⟨hp, hne⟩ | ⟨hin, hc, hp, he⟩
  · obtain ⟨err, rfl⟩ := ne_none_iff_exists'.mp hne
    exact h.frame (fun id => by rw [← hp]; rfl) rfl (fun _ => rfl)
  dsimp only at hp he
  subst he
  intro c'
  have hmore := held_more (s.settled c (b, none) status).1 s
    (by simp [TCPServer.settled, setConn, hp]) (fun k => ?_) hc (fun _ _ => rfl) c'
  · have hold := h c'
    simp only [TCPServer.settled, conn_setConn]
    split
    · next he =>
      subst he
      simp only [TCPServer.settled, if_true] at hmore
      dsimp only
      omega
    · next hne =>
      rw [if_neg hne] at hmore
      exact hold.trans hmore
  · simp only [TCPServer.settled, setConn, hp, mem_erase_iff]
    by_cases hk : k = mid
    · simp [hk, hin]
    · simp [hk]

theorem Exact.step (h : Exact s) (ha : s.Answered op) (hs : s.Step op s') : Exact s' := by
  cases op with
  | publish e topic m =>
    cases hs
    exact h.frame (fun id => by rw [(s.broker.publish_le e topic m).1]) rfl (fun _ => rfl)
  | prefetch c count =>
    cases hs
    refine h.frame (fun _ => Iff.rfl) rfl (fun c' => ?_)
    rw [handlePrefetchTCP, conn_setConn]
    split
    · next he => rw [he]
    · rfl
  | consume c e req =>
    cases hs
    exact h.consume c e req ha
  | ack c e id =>
    cases hs
    unfold handleAckTCP
    split
    · exact h
    rw [Broker.ack_eq]
    cases hp : s.broker.pending[id]? with
    | none => exact h.settled id (.inl ⟨rfl, nofun⟩)
    | some pm => exact h.settled id (.inr ⟨mem_of_getElem? hp, ha (mem_of_getElem? hp), rfl, rfl⟩)
  | nack c id =>
    cases hs
    unfold handleNackTCP
    split
    · exact h
    change Exact (s.settled c (s.broker.retryPending id (.notPending id)) _).1
    rcases retryPending_spec s.broker id (.notPending id) with ⟨-, hb⟩ | ⟨hin, hp⟩
    · exact h.settled id (.inl ⟨by rw [hb], by rw [hb]; nofun⟩)
    · exact h.settled id (.inr ⟨hin, (ha hin).1, hp, (ha hin).2⟩)
  | processAdvancedFeatures e =>
    cases hs
    exact h.frame (processAdvancedFeatures_pending s.broker e ha) rfl (fun _ => rfl)
  | checkTimeouts now =>
    simp only [Step, TCPServer.step, ite_none_right_eq_some, some.injEq] at hs
    obtain ⟨-, rfl⟩ := hs
    exact h
  | requeue id =>
    simp only [Step, TCPServer.step, ite_none_right_eq_some, some.injEq] at hs
    obtain ⟨-, rfl⟩ := hs
    rcases retryPending_spec s.broker id (.notFound id) with ⟨-, hb⟩ | ⟨hin, -⟩
    · exact h.frame (fun _ => by rw [Broker.requeueTimedOut, hb]) rfl (fun _ => rfl)
    · exact absurd hin ha

theorem refused {s : TCPServer} (hf : (s.handleConsumeTCP c e req).2 = .error "prefetch limit reached") :
    0 < (s.conn c).prefetch ∧ (s.conn c).prefetch ≤ (s.conn c).unackedCount := by
  unfold handleConsumeTCP at hf
  split at hf
  · simp at hf
  split at hf
  · next hlimit => exact hlimit.2
  split at hf
  · cases hf
  · split at hf <;> cases hf

/-- As long as messages stop being pending by answers on the connections they were given out on,
each connection counts what it holds, and is refused only while that is its limit. -/
theorem unacked_counts_held (b : Broker) {ops : List Op} {s : TCPServer}
    (hr : Run Step Answered { broker := b } ops s) (c : Nat) :
    (s.conn c).unackedCount = s.held c ∧
    ∀ e req, (s.handleConsumeTCP c e req).2 = .error "prefetch limit reached" →
      0 < (s.conn c).prefetch ∧ (s.conn c).prefetch ≤ s.held c := by
  have hexact : Exact s := hr.invariant Exact (fun c => by simp [conn, held])
    (fun _ _ _ hi ha hs => hi.step ha hs)
  refine ⟨hexact c, fun e req hf => ?_⟩
  rw [← hexact c]
  exact refused hf

def taken : List Op :=
  [.publish ⟨1, none, none⟩ "jobs" { id := "a", ttl := 5 }, .prefetch 1 1,
    .consume 1 ⟨2, none, none⟩ { topic := "jobs" }]

theorem unacked_counts_held_taken :
    ∃ s, Run Step Answered { broker := .new {} none ∅ } taken s ∧ s.held 1 = 1 ∧
      (s.conn 1).unackedCount = s.held 1 := by
  refine Run.shown (fun s => s.held 1 = 1) (by decide +kernel) ?_
  rintro s hr hheld
  exact ⟨hheld, (unacked_counts_held (.new {} none ∅) hr 1).1⟩

def CountsLost (ops : List Op) : Prop :=
  ∃ s, Run Step always { broker := .new {} none ∅ } (taken ++ ops) s ∧
    (s.conn 1).unackedCount = 1 ∧ s.held 1 = 0 ∧
    (s.handleConsumeTCP 1 ⟨40000000001, none, none⟩ { topic := "jobs" }).2 =
      .error "prefetch limit reached"

/-- A message that times out, expires or is acknowledged elsewhere stays counted, and the
connection is refused though it holds nothing. -/
theorem unacked_counts_lost : CountsLost [.checkTimeouts 40000000000, .requeue "a"] ∧
    CountsLost [.processAdvancedFeatures ⟨7, none, none⟩] ∧
    CountsLost [.ack 2 ⟨3, none, none⟩ "a"] :=
  ⟨Run.found _ (by decide +kernel), Run.found _ (by decide +kernel),
    Run.found _ (by decide +kernel)⟩

end TCPServer
end Boltq.QueuePlane
