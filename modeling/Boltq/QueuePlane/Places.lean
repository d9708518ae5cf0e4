import Boltq.QueuePlane.Operations

namespace Boltq.QueuePlane
open Lib Std Copy List PriorityQueue

def Copy.is (c : Copy) (name id : String) : Nat := if c = ⟨name, id⟩ then 1 else 0

theorem Copy.is_eq (c : Copy) (name id : String) :
    c.is name id = if name = c.queue ∧ id = c.id then 1 else 0 := by
  unfold is
  have hiff : c = ⟨name, id⟩ ↔ name = c.queue ∧ id = c.id := by
    cases c
    simp only [mk.injEq]
    exact ⟨fun h => ⟨h.1.symm, h.2.symm⟩, fun h => ⟨h.1.symm, h.2.symm⟩⟩
  simp only [hiff]

theorem Copy.count_cons (c : Copy) (name id : String) (cs : List Copy) :
    (⟨name, id⟩ :: cs).count c = cs.count c + c.is name id := by
  rw [List.count_cons]
  unfold is
  by_cases hc : c = ⟨name, id⟩
  · simp [hc]
  · rw [if_neg hc, if_neg (fun he => hc (beq_iff_eq.mp he).symm)]

namespace Broker
variable {b b' : Broker} {c : Copy} {e : Env}

section
variable (b : Broker)

def inQueue (c : Copy) : Nat :=
  (b.queue c.queue).drain.countP (fun h => h.msg.id = c.id)

def inSpill (c : Copy) : Nat := (b.spilled c.queue).countP (fun m => m.id = c.id)

def pendingIn (t : TreeMap String PendingMessage) (c : Copy) : Nat :=
  (t[c.id]?).elim 0 (fun pm => if pm.queueName = c.queue then 1 else 0)

def inPending (c : Copy) : Nat := pendingIn b.pending c

def delayedIn (hs : List Held) (c : Copy) : Nat :=
  hs.countP (fun h => h.msg.topic = c.queue ∧ h.msg.id = c.id)

def inDelayed (c : Copy) : Nat := delayedIn b.delayed c

def inDeadLetters (c : Copy) : Nat :=
  (b.deadLetter c.queue).countP (fun h => h.msg.id = c.id)

def places (c : Copy) : Nat :=
  b.inQueue c + b.inSpill c + b.inPending c + b.inDelayed c + b.inDeadLetters c

def acceptances (c : Copy) : Nat :=
  b.accepted.countP (fun x => x.1 = c.queue ∧ x.2.id = c.id)

theorem acceptances_accept (name : String) (m : Message) (c : Copy) :
    (b.accept name m).acceptances c = b.acceptances c + c.is name m.id := by
  unfold acceptances accept
  rw [countP_cons, is_eq]
  simp only [decide_eq_true_eq]

end

theorem acceptances_zero (h : ∀ x ∈ b.accepted, x.2.id ≠ c.id) : b.acceptances c = 0 := by
  unfold acceptances
  rw [countP_eq_zero]
  intro x hx hp
  exact h x hx (of_decide_eq_true hp).2

theorem exists_accepted (h : 0 < b.acceptances c) : ∃ x ∈ b.accepted, x.1 = c.queue ∧ x.2.id = c.id := by
  obtain ⟨x, hx, hp⟩ := countP_pos_iff.mp h
  exact ⟨x, hx, of_decide_eq_true hp⟩

def Balanced (b : Broker) : Prop :=
  ∀ c, b.acceptances c = b.acked.count c + b.purged.count c + b.expired.count c + b.places c

def Keyed (b : Broker) : Prop :=
  ∀ (id : String) (pm : PendingMessage), b.pending[id]? = some pm → pm.held.msg.id = id

theorem Keyed.congr (h : b.Keyed) (hp : b'.pending = b.pending) : b'.Keyed := by
  unfold Keyed
  rw [hp]
  exact h

theorem Keyed.erase (h : b.Keyed) {id : String} (hp : b'.pending = b.pending.erase id) : b'.Keyed := by
  intro id' pm hpm
  rw [hp] at hpm
  exact h id' pm (getElem?_of_erase hpm)

theorem count_copies (c : Copy) (name : String) (hs : List Held) :
    (copies name hs).count c = if name = c.queue then hs.countP (fun h => h.msg.id = c.id) else 0 := by
  induction hs with
  | nil => simp [copies]
  | cons h hs ih =>
    have hcons : copies name (h :: hs) = ⟨name, h.msg.id⟩ :: copies name hs := rfl
    rw [hcons, count_cons, ih, countP_cons, is_eq]
    by_cases hq : name = c.queue
    · simp [hq]
    · simp [hq]

theorem pendingIn_insert {t : TreeMap String PendingMessage} {id : String} (h : id ∉ t)
    (pm : PendingMessage) (c : Copy) :
    pendingIn (t.insert id pm) c = pendingIn t c + c.is pm.queueName id := by
  unfold pendingIn
  rw [is_eq]
  by_cases hid : id = c.id
  · have hnone : t[id]? = none :=
      Option.not_isSome_iff_eq_none.mp (fun hs => h (TreeMap.mem_iff_isSome_getElem?.mpr hs))
    rw [← hid, TreeMap.getElem?_insert_self, hnone]
    simp
  · rw [getElem?_insert_other _ (fun he => hid he.symm)]
    simp [hid]

theorem pendingIn_erase {t : TreeMap String PendingMessage} {id : String} {pm : PendingMessage}
    (h : t[id]? = some pm) (c : Copy) :
    pendingIn t c = pendingIn (t.erase id) c + c.is pm.queueName id := by
  unfold pendingIn
  rw [is_eq]
  by_cases hid : id = c.id
  · rw [← hid, TreeMap.getElem?_erase_self, h]
    simp
  · rw [getElem?_erase_other (fun he => hid he.symm)]
    simp [hid]

theorem queue_setQueue (b : Broker) (name : String) (q : PriorityQueue Held) (name' : String) :
    (b.setQueue name q).queue name' = if name = name' then q else b.queue name' := by
  unfold queue setQueue
  by_cases hn : name = name'
  · subst hn
    rw [TreeMap.getElem?_insert_self, if_pos rfl]
    rfl
  · rw [getElem?_insert_other _ (fun he => hn he.symm), if_neg hn]

theorem inQueue_setQueue (b : Broker) (name : String) (q : PriorityQueue Held) (c : Copy) :
    (b.setQueue name q).inQueue c =
      if name = c.queue then q.drain.countP (fun h => h.msg.id = c.id) else b.inQueue c := by
  unfold inQueue
  rw [queue_setQueue]
  split <;> rfl

theorem queue_touch (b : Broker) (name name' : String) :
    (b.setQueue name (b.queue name)).queue name' = b.queue name' := by
  rw [queue_setQueue]
  split
  · rename_i he
    rw [he]
  · rfl

theorem push_spec (b : Broker) (name : String) (h : Held) :
    (∃ queues, (b.push name h).1 = { b with queues }) ∧ ∀ c, (b.push name h).1.inQueue c =
      b.inQueue c + if (b.push name h).2 then c.is name h.msg.id else 0 := by
  unfold push
  cases hq : (b.queue name).push (clampPriority h.msg.priority) h with
  | none =>
    refine ⟨⟨_, rfl⟩, fun c => ?_⟩
    unfold inQueue
    rw [queue_touch]
    rfl
  | some q =>
    refine ⟨⟨_, rfl⟩, fun c => ?_⟩
    rw [inQueue_setQueue, if_pos rfl, is_eq]
    by_cases hn : name = c.queue
    · rw [if_pos hn, (push_perm hq).countP_eq, countP_cons]
      unfold inQueue
      rw [hn]
      simp
    · simp [hn]

theorem push_of_room {h : Held} (hr : (b.queue name).Room (clampPriority h.msg.priority)) :
    (b.push name h).2 = true := by
  obtain ⟨q, hq⟩ := PriorityQueue.push_of_room hr h
  unfold push
  rw [hq]

def elsewhere (b : Broker) (c : Copy) : Nat := b.inPending c + b.inDelayed c + b.inDeadLetters c

theorem places_eq (b : Broker) (c : Copy) : b.places c = b.inQueue c + b.inSpill c + b.elsewhere c := by
  unfold places elsewhere
  omega

theorem places_setQueue (b : Broker) (name : String) (q : PriorityQueue Held) (c : Copy) :
    (b.setQueue name q).places c + b.inQueue c = b.places c + (b.setQueue name q).inQueue c := by
  rw [places_eq, places_eq]
  show _ + b.inSpill c + b.elsewhere c + b.inQueue c = _
  omega

theorem inQueue_pop {q : PriorityQueue Held} (hd : (b.queue topic).drain = h :: q.drain)
    (c : Copy) : b.inQueue c = (b.setQueue topic q).inQueue c + c.is topic h.msg.id := by
  rw [inQueue_setQueue, is_eq]
  by_cases hn : topic = c.queue
  · rw [if_pos hn]
    unfold inQueue
    rw [← hn, hd, countP_cons]
    simp
  · simp [hn]

theorem pushOrSpill_spec (b : Broker) (e : Env) (name : String) (h : Held) :
    (∃ queues spill, (b.pushOrSpill e name h).1 = { b with queues, spill }) ∧
    ∀ c, (b.pushOrSpill e name h).1.places c =
      b.places c + if (b.pushOrSpill e name h).2 = none then c.is name h.msg.id else 0 := by
  obtain ⟨⟨queues, hb⟩, hin⟩ := b.push_spec name h
  have hpair : b.push name h = ((b.push name h).1, (b.push name h).2) := rfl
  unfold pushOrSpill
  generalize hp : (b.push name h).1 = b1 at hb hin hpair
  generalize (b.push name h).2 = ok at hin hpair
  subst hb
  rw [hpair]
  cases ok with
  | true =>
    refine ⟨⟨queues, b.spill, rfl⟩, fun c => ?_⟩
    have hq := hin c
    simp only [if_true] at hq ⊢
    rw [places_eq, places_eq, hq]
    have hspill : inSpill { b with queues } c = b.inSpill c := rfl
    have hrest : elsewhere { b with queues } c = b.elsewhere c := rfl
    omega
  | false =>
    unfold spillToDisk
    cases e.spillErr with
    | some err =>
      refine ⟨⟨queues, b.spill, rfl⟩, fun c => ?_⟩
      have hq := hin c
      simp only [Bool.false_eq_true, if_false, Nat.add_zero] at hq
      simp only [reduceCtorEq, if_false, Nat.add_zero]
      rw [places_eq, places_eq, hq]
      rfl
    | none =>
      refine ⟨⟨_, _, rfl⟩, fun c => ?_⟩
      have hq := hin c
      simp only [Bool.false_eq_true, if_false, Nat.add_zero] at hq
      simp only [if_true]
      rw [places_eq, places_eq]
      have hrest : ∀ spill, elsewhere { b with queues, spill } c = b.elsewhere c := fun _ => rfl
      have hqueue : ∀ spill, inQueue { b with queues, spill } c = inQueue { b with queues } c :=
        fun _ => rfl
      rw [hrest, hqueue, hq, is_eq]
      unfold inSpill spilled
      by_cases hn : name = c.queue
      · subst hn
        rw [TreeMap.getElem?_insert_self]
        simp only [Option.getD_some, countP_append, countP_singleton, true_and, encode,
          decide_eq_true_eq]
        omega
      · rw [getElem?_insert_other _ (fun he => hn he.symm)]
        simp [hn]

theorem pushOrSpill_ok (b : Broker) (he : e.spillErr = none) :
    (b.pushOrSpill e name h).2 = none := by
  unfold pushOrSpill
  split
  · rfl
  · unfold spillToDisk
    rw [he]

theorem publishTopic_rule {P : Broker → Prop} {m : Message} (hb : P b) (hlog : P (b.log { m with topic }))
    (hgive : ∀ b' sub, b'.nextRef = b.nextRef + 1 → P b' →
      P ((b'.pushOrSpill e (durableName topic sub) ⟨b.nextRef, { m with topic }⟩).1.accept
        (durableName topic sub) { m with topic })) : P (b.publishTopic e topic m).1 := by
  rw [publishTopic_eq]
  cases b.refusal e with
  | some err => exact hb
  | none =>
    refine (foldlRecOn (motive := fun b' => P b' ∧ b'.nextRef = b.nextRef + 1) _ _ ⟨hlog, rfl⟩
      (fun b' hb' sub _ => ⟨hgive b' sub hb'.2 hb'.1, ?_⟩)).1
    obtain ⟨⟨queues, spill, hframe⟩, -⟩ := b'.pushOrSpill_spec e (durableName topic sub)
      ⟨b.nextRef, { m with topic }⟩
    exact (congrArg nextRef hframe).trans hb'.2

theorem promoteReady_rule {P : Broker → Prop}
    (hb : P { b with delayed := b.delayed.filter (fun h => now < h.msg.deliverAt) })
    (hpush : ∀ b', ∀ h ∈ b.delayed, b'.nextRef = b.nextRef → P b' → P (b'.push h.msg.topic h).1) :
    P (b.promoteReady now) := by
  refine (foldlRecOn (motive := fun b' => P b' ∧ b'.nextRef = b.nextRef) _ _ ⟨hb, rfl⟩
    (fun b' hb' h hh => ⟨hpush b' h (mem_filter.mp hh).1 hb'.2 hb'.1, ?_⟩)).1
  obtain ⟨⟨queues, hframe⟩, -⟩ := b'.push_spec h.msg.topic h
  exact (congrArg nextRef hframe).trans hb'.2

theorem delayedIn_cons (h : Held) (hs : List Held) (c : Copy) :
    delayedIn (h :: hs) c = delayedIn hs c + c.is h.msg.topic h.msg.id := by
  unfold delayedIn
  rw [countP_cons, is_eq]
  simp only [decide_eq_true_eq]

theorem delayedIn_append (hs hs' : List Held) (c : Copy) :
    delayedIn (hs ++ hs') c = delayedIn hs c + delayedIn hs' c := countP_append

theorem delayedIn_eraseP {hs : List Held} (h : hs.find? p = some x) (c : Copy) :
    delayedIn hs c = delayedIn (hs.eraseP p) c + c.is x.msg.topic x.msg.id := by
  obtain ⟨hx, as, bs, rfl, hnone⟩ := find?_eq_some_iff_append.mp h
  have has : ∀ y ∈ as, ¬ p y = true := fun y hy => by simpa using hnone y hy
  rw [eraseP_append_right _ has, eraseP_cons_of_pos hx, delayedIn_append,
    delayedIn_append, delayedIn_cons]
  omega

section
variable (b : Broker)

theorem places_setDelayed (hs : List Held) (c : Copy) :
    places { b with delayed := hs } c + delayedIn b.delayed c = b.places c + delayedIn hs c := by
  show b.inQueue c + b.inSpill c + b.inPending c + delayedIn hs c + b.inDeadLetters c + _ =
    b.inQueue c + b.inSpill c + b.inPending c + delayedIn b.delayed c + b.inDeadLetters c + _
  omega

theorem places_setPending (t : TreeMap String PendingMessage) (c : Copy) :
    places { b with pending := t } c + pendingIn b.pending c = b.places c + pendingIn t c := by
  show b.inQueue c + b.inSpill c + pendingIn t c + b.inDelayed c + b.inDeadLetters c + _ =
    b.inQueue c + b.inSpill c + pendingIn b.pending c + b.inDelayed c + b.inDeadLetters c + _
  omega

theorem places_delay (h : Held) (c : Copy) :
    places { b with delayed := b.delayed ++ [h] } c = b.places c + c.is h.msg.topic h.msg.id := by
  have hd := b.places_setDelayed (b.delayed ++ [h]) c
  have hnil : delayedIn [] c = 0 := rfl
  rw [delayedIn_append, delayedIn_cons] at hd
  omega

theorem deadLetterName_inj (h : deadLetterName name = deadLetterName name') :
    name = name' := String.append_left_inj _ |>.mp h

theorem deadLetter_insert (name n : String) (dl : List Held) :
    deadLetter { b with deadLetters := b.deadLetters.insert (deadLetterName name) dl } n =
      if name = n then dl else b.deadLetter n := by
  unfold deadLetter
  by_cases hn : name = n
  · rw [hn, if_pos rfl, TreeMap.getElem?_insert_self, Option.getD_some]
  · rw [if_neg hn, getElem?_insert_other _ (fun he => hn (deadLetterName_inj he).symm)]

theorem deadLetter_pushDeadLetter (name n : String) (h : Held) :
    (b.pushDeadLetter name h).deadLetter n = if name = n then
        if (b.deadLetter name).length < nextPowerOfTwo b.queueCap then b.deadLetter name ++ [h]
        else b.deadLetter name else b.deadLetter n := by
  rw [pushDeadLetter, deadLetter_insert]

theorem pushDeadLetter_spec (h : Held)
    (hroom : (b.deadLetter name).length < nextPowerOfTwo b.queueCap) :
    (∃ deadLetters, b.pushDeadLetter name h = { b with deadLetters }) ∧
    ∀ c, (b.pushDeadLetter name h).places c = b.places c + c.is name h.msg.id := by
  refine ⟨⟨_, rfl⟩, fun c => ?_⟩
  have hdead : (b.pushDeadLetter name h).inDeadLetters c = b.inDeadLetters c + c.is name h.msg.id := by
    unfold inDeadLetters
    rw [deadLetter_pushDeadLetter, if_pos hroom, is_eq]
    by_cases hn : name = c.queue
    · rw [if_pos hn, hn, countP_append, countP_singleton]
      simp
    · rw [if_neg hn]
      simp [hn]
  show b.inQueue c + b.inSpill c + b.inPending c + b.inDelayed c + _ =
    b.inQueue c + b.inSpill c + b.inPending c + b.inDelayed c + b.inDeadLetters c + _
  omega

theorem deliver_spec (e : Env) (name : String) (h : Held) (hn : h.msg.topic = name) :
    (∃ queues spill delayed, (b.deliver e name h).1 = { b with queues, spill, delayed }) ∧
    ∀ c, (b.deliver e name h).1.places c = b.places c +
      if (b.deliver e name h).2 = none then c.is name h.msg.id else 0 := by
  subst hn
  unfold deliver
  split
  · exact ⟨⟨_, _, _, rfl⟩, b.places_delay h⟩
  · obtain ⟨⟨queues, spill, hb⟩, hp⟩ := b.pushOrSpill_spec e h.msg.topic h
    exact ⟨⟨queues, spill, b.delayed, hb⟩, hp⟩

theorem deliver_ok (he : e.spillErr = none) (name : String) (h : Held) :
    (b.deliver e name h).2 = none := by
  unfold deliver
  split
  · rfl
  · exact b.pushOrSpill_ok he

theorem publish_spec (e : Env) (topic : String) (m : Message) :
    (b.publish e topic m).1 = b ∨ ∃ queues spill delayed,
      (∀ c, places { b with queues, spill, delayed } c = b.places c +
        if (b.publish e topic m).2 = none then c.is topic m.id else 0) ∧
      (b.publish e topic m).1 = if (b.publish e topic m).2 = none then
        accept { b.log (b.stamp e topic m) with queues, spill, delayed } topic (b.stamp e topic m)
      else { b.log (b.stamp e topic m) with queues, spill, delayed } := by
  rw [publish_eq]
  cases b.refusal e with
  | some err => exact .inl rfl
  | none =>
    obtain ⟨⟨queues, spill, delayed, hb⟩, hp⟩ :=
      (b.log (b.stamp e topic m)).deliver_spec e topic ⟨b.nextRef, b.stamp e topic m⟩ rfl
    rw [hb] at hp
    refine .inr ⟨queues, spill, delayed, hp, ?_⟩
    dsimp only [put]
    rw [hb]
    rfl

theorem popFresh_spec (now : Int) (fuel : Nat) (q : PriorityQueue Held) (skipped : List Held) :
    ∃ new, (popFresh now fuel q skipped).2.1 = skipped ++ new ∧
      q.drain = new ++ (popFresh now fuel q skipped).2.2.toList ++ (popFresh now fuel q skipped).1.drain ∧
      (∀ h ∈ new, h.msg.Expired now) ∧
      ∀ h ∈ (popFresh now fuel q skipped).2.2, ¬ h.msg.Expired now := by
  have hnil : ∀ h ∈ ([] : List Held), h.msg.Expired now := fun _ hx => absurd hx not_mem_nil
  have hnone : ∀ h ∈ (none : Option Held), ¬ h.msg.Expired now :=
    fun _ hx => absurd hx (Option.not_mem_none _)
  induction fuel generalizing q skipped with
  | zero => exact ⟨[], (append_nil _).symm, rfl, hnil, hnone⟩
  | succ fuel ih =>
    simp only [popFresh]
    cases hp : q.tryPop with
    | none => exact ⟨[], (append_nil _).symm, rfl, hnil, hnone⟩
    | some r =>
      obtain ⟨h, q'⟩ := r
      have hdrain := PriorityQueue.tryPop_drain hp
      dsimp only
      split
      · rename_i hexp
        obtain ⟨new, hskip, hrest, hall, hgot⟩ := ih q' (skipped ++ [h])
        refine ⟨h :: new, ?_, ?_, ?_, hgot⟩
        · rw [hskip, append_assoc]
          rfl
        · rw [hdrain, hrest]
          rfl
        · intro x hx
          rcases mem_cons.mp hx with rfl | hx
          · exact hexp
          · exact hall x hx
      · rename_i hfresh
        refine ⟨[], (append_nil _).symm, ?_, hnil, ?_⟩
        · rw [hdrain]
          rfl
        · intro x hx
          cases Option.mem_def.mp hx
          exact hfresh

theorem tryConsume_spec (e : Env) (topic : String) : ∃ q skipped,
      (b.queue topic).drain = skipped ++ (b.tryConsume e topic).2.toList ++ q.drain ∧
      (∀ h ∈ skipped, h.msg.Expired e.now) ∧ (∀ h ∈ (b.tryConsume e topic).2, ¬ h.msg.Expired e.now) ∧
      (b.tryConsume e topic).1 = { b with
        queues := b.queues.insert topic q
        expired := copies topic skipped ++ b.expired
        pending := (b.tryConsume e topic).2.elim b.pending (fun h =>
          b.pending.insert h.msg.id
            { held := h, queueName := topic, deliverAt := e.now,
              ackDeadline := e.now + b.ackTimeout }) } := by
  obtain ⟨new, hskip, hdrain, hexp, hgot⟩ :=
    popFresh_spec e.now ((b.queue topic).drain.length + 1) (b.queue topic) []
  unfold tryConsume
  generalize popFresh e.now ((b.queue topic).drain.length + 1) (b.queue topic) [] = r
    at hskip hdrain hgot
  obtain ⟨q, skipped, got⟩ := r
  simp only [nil_append] at hskip hdrain hgot
  subst hskip
  cases got with
  | none => exact ⟨q, skipped, hdrain, hexp, hgot, rfl⟩
  | some x => exact ⟨q, skipped, hdrain, hexp, hgot, rfl⟩

theorem reloadInto_spec (p : Message → Bool) (ms : List Message) (q : PriorityQueue Held)
    (ref : Nat) :
    (reloadInto ms q ref).1.drain.countP (fun h => p h.msg) + (reloadInto ms q ref).2.1.countP p =
      q.drain.countP (fun h => p h.msg) + ms.countP p := by
  induction ms generalizing q ref with
  | nil => rfl
  | cons m ms ih =>
    simp only [reloadInto]
    split
    · rfl
    cases hp : q.push (clampPriority m.priority) ⟨ref, m⟩ with
    | none => rfl
    | some q' =>
      dsimp only
      rw [ih, (push_perm hp).countP_eq, countP_cons, countP_cons]
      dsimp only
      omega

theorem processSpillFile_spec (name : String) :
    (∃ queues spill nextRef, b.processSpillFile name = { b with queues, spill, nextRef }) ∧
    ∀ c, (b.processSpillFile name).places c = b.places c := by
  refine ⟨⟨_, _, _, rfl⟩, fun c => ?_⟩
  have hcount := reloadInto_spec (fun m => m.id = c.id) (b.spilled name) (b.queue name) b.nextRef
  rw [places_eq, places_eq]
  have hrest : (b.processSpillFile name).elsewhere c = b.elsewhere c := rfl
  have hqueue : (b.processSpillFile name).inQueue c =
      (b.setQueue name (reloadInto (b.spilled name) (b.queue name) b.nextRef).1).inQueue c := rfl
  have hspill : (b.processSpillFile name).spilled c.queue =
      if name = c.queue then (reloadInto (b.spilled name) (b.queue name) b.nextRef).2.1
      else b.spilled c.queue := by
    unfold processSpillFile spilled
    dsimp only
    by_cases hn : name = c.queue
    · subst hn
      split
      · rename_i hnil
        rw [TreeMap.getElem?_erase_self, if_pos rfl]
        exact hnil.symm
      · rw [TreeMap.getElem?_insert_self, if_pos rfl]
        rfl
    · rw [if_neg hn]
      split
      · rw [getElem?_erase_other (fun he => hn he.symm)]
      · rw [getElem?_insert_other _ (fun he => hn he.symm)]
  rw [hrest, hqueue, inQueue_setQueue]
  unfold inSpill
  rw [hspill]
  by_cases hn : name = c.queue
  · subst hn
    rw [if_pos rfl, if_pos rfl]
    unfold inQueue
    omega
  · rw [if_neg hn, if_neg hn]

theorem reloadFromDisk_spec :
    (∃ queues spill nextRef, b.reloadFromDisk = { b with queues, spill, nextRef }) ∧
    ∀ c, b.reloadFromDisk.places c = b.places c := by
  unfold reloadFromDisk
  generalize b.queues.keys = names
  induction names generalizing b with
  | nil => exact ⟨⟨_, _, _, rfl⟩, fun _ => rfl⟩
  | cons name names ih =>
    rw [foldl_cons]
    split
    · exact ih b
    obtain ⟨⟨q1, s1, r1, h1⟩, hp1⟩ := b.processSpillFile_spec name
    obtain ⟨⟨q2, s2, r2, h2⟩, hp2⟩ := ih (b.processSpillFile name)
    refine ⟨⟨q2, s2, r2, ?_⟩, fun c => (hp2 c).trans (hp1 c)⟩
    rw [h2, h1]

end

end Broker
end Boltq.QueuePlane
