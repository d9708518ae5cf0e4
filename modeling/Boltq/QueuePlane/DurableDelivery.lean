import Boltq.QueuePlane.PubSub

namespace Boltq.QueuePlane
open Lib Std List

theorem durableName_inj (h : durableName topic sub = durableName topic sub') : sub = sub' := by
  have happ : topic ++ ":" ++ sub = topic ++ ":" ++ sub' := h
  exact (String.append_right_inj _).mp happ

namespace Broker
variable {b : Broker}

theorem give_queues (e : Env) (topic : String) (h : Held) (m : Message) {subs : List String}
    (hn : subs.Nodup)
    (hroom : ∀ sub ∈ subs, (b.queue (durableName topic sub)).Room (clampPriority h.msg.priority)) :
    ∃ b', subs.foldl (fun b sub => (b.pushOrSpill e (durableName topic sub) h).1.accept
        (durableName topic sub) m) b = b' ∧
      b'.nextRef = b.nextRef ∧ b'.durableSubs = b.durableSubs ∧ ∀ name, (b'.queue name).drain.Perm
        (if name ∈ subs.map (durableName topic) then h :: (b.queue name).drain
          else (b.queue name).drain) := by
  induction subs generalizing b with
  | nil => exact ⟨b, rfl, rfl, rfl, fun name => List.Perm.refl _⟩
  | cons sub subs ih =>
    obtain ⟨hnew, hn⟩ := nodup_cons.mp hn
    obtain ⟨hhead, hroom⟩ := forall_mem_cons.mp hroom
    obtain ⟨q, hq⟩ := PriorityQueue.push_of_room hhead h
    have hpush : (b.pushOrSpill e (durableName topic sub) h).1 =
        b.setQueue (durableName topic sub) q := by
      unfold pushOrSpill push
      rw [hq]
    have hother : ∀ sub' ∈ subs, durableName topic sub ≠ durableName topic sub' := by
      intro sub' hin he
      exact hnew (durableName_inj he ▸ hin)
    rw [foldl_cons, hpush]
    obtain ⟨b', hb', href, hdur, hqueue⟩ := ih (b := (b.setQueue (durableName topic sub) q).accept
      (durableName topic sub) m) hn (by
        intro sub' hin
        have hsame : ((b.setQueue (durableName topic sub) q).accept (durableName topic sub) m).queue
            (durableName topic sub') = b.queue (durableName topic sub') :=
          (queue_setQueue _ _ _ _).trans (if_neg (hother sub' hin))
        rw [hsame]
        exact hroom sub' hin)
    refine ⟨b', hb', href, hdur, fun name => (hqueue name).trans ?_⟩
    have hname : ((b.setQueue (durableName topic sub) q).accept (durableName topic sub) m).queue name =
        if durableName topic sub = name then q else b.queue name := queue_setQueue _ _ _ _
    rw [hname]
    by_cases he : durableName topic sub = name
    · subst he
      have hout : durableName topic sub ∉ subs.map (durableName topic) := by
        intro hin
        obtain ⟨sub', hin, he⟩ := mem_map.mp hin
        exact hother sub' hin he.symm
      rw [if_pos rfl, if_neg hout, if_pos (by simp)]
      exact PriorityQueue.push_perm hq
    · have hiff : name ∈ (sub :: subs).map (durableName topic) ↔ name ∈ subs.map (durableName topic) := by
        rw [map_cons, mem_cons]
        exact ⟨fun h => h.resolve_left (Ne.symm he), .inr⟩
      rw [if_neg he]
      simp only [hiff]
      exact List.Perm.refl _

theorem nodup_subscribers (b : Broker) (topic : String) : (b.subscribers topic).Nodup := by
  refine List.Pairwise.imp ?_ (TreeSet.distinct_toList (t := (b.durableSubs[topic]?).getD ∅))
  intro x y hne he
  exact hne (he ▸ ReflCmp.compare_self)

theorem publishTopic_queues (e : Env) {m : Message} (hroom : ∀ sub ∈ b.subscribers topic,
      (b.queue (durableName topic sub)).Room (clampPriority m.priority)) :
    (∃ err, (b.publishTopic e topic m).2 = some err) ∨
    ∃ b', b.publishTopic e topic m = (b', none) ∧ b'.nextRef = b.nextRef + 1 ∧
      b'.durableSubs = b.durableSubs ∧ ∀ name, (b'.queue name).drain.Perm
        (if name ∈ (b.subscribers topic).map (durableName topic) then
          ⟨b.nextRef, { m with topic }⟩ :: (b.queue name).drain else (b.queue name).drain) := by
  rw [publishTopic_eq]
  cases b.refusal e with
  | some err => exact .inl ⟨err, rfl⟩
  | none =>
    obtain ⟨b', hb', href, hdur, hqueue⟩ := give_queues (b := b.log { m with topic }) e topic
      ⟨b.nextRef, { m with topic }⟩ { m with topic } (nodup_subscribers b topic) hroom
    exact .inr ⟨b', congrArg (·, none) hb', href, hdur, hqueue⟩

end Broker

namespace PubSub

def inQueue (s : PubSub) (x : SubKey × Nat) : Nat :=
  (s.broker.queue (durableQueue x.1)).drain.countP (fun h => decide (h.ref = x.2))

def Carries (x : SubKey × Nat) (u : CatchUp) : Prop :=
  u.key = x.1 ∧ u.phase.held.map Held.ref = some x.2
  deriving Decidable

def inFlight (s : PubSub) (x : SubKey × Nat) : Nat :=
  s.catchUps.countP (fun u => decide (Carries x u))

def total (s : PubSub) (x : SubKey × Nat) : Nat := s.handed.count x + s.inQueue x + s.inFlight x

structure Booked (s : PubSub) : Prop where
  names : ∀ k k', s.Durable k → s.Durable k' → durableQueue k = durableQueue k' → k = k'
  members : ∀ u ∈ s.catchUps, s.Durable u.key
  fresh : ∀ x : SubKey × Nat, s.broker.nextRef ≤ x.2 → s.total x = 0
  owed : ∀ x ∈ s.owed, s.Durable x.1 ∧ s.total x = 1

section Booked
variable {s t : PubSub}

theorem booked_start (cfg : Config) (store : Option (List WALRecord)) : (start cfg store).Booked := by
  have hnone : ∀ k, ¬ (start cfg store).Durable k := by
    intro k hk
    cases hk
  refine ⟨fun k _ hk => absurd hk (hnone k), forall_mem_nil _, fun x _ => ?_, forall_mem_nil _⟩
  have hqueue : ((start cfg store).broker.queue (durableQueue x.1)).drain = [] :=
    PriorityQueue.drain_new _ _
  rw [total, inQueue, hqueue]
  rfl

theorem Booked.congr (h : s.Booked) (href : t.broker.nextRef = s.broker.nextRef)
    (hdur : t.broker.durableSubs = s.broker.durableSubs) (howed : t.owed = s.owed)
    (hmem : ∀ u ∈ t.catchUps, ∃ v ∈ s.catchUps, v.key = u.key)
    (htotal : ∀ x : SubKey × Nat, s.Durable x.1 → t.total x = s.total x)
    (hfresh : ∀ x : SubKey × Nat, s.broker.nextRef ≤ x.2 → t.total x = 0) : t.Booked := by
  have hdurable : ∀ k, t.Durable k ↔ s.Durable k := by
    intro k
    rw [Durable, Durable, Broker.subscribers, Broker.subscribers, hdur]
  refine ⟨fun k k' hk hk' => h.names k k' ((hdurable k).mp hk) ((hdurable k').mp hk'), ?_, ?_, ?_⟩
  · intro u hu
    obtain ⟨v, hv, he⟩ := hmem u hu
    exact (hdurable _).mpr (he ▸ h.members v hv)
  · intro x hx
    exact hfresh x (href ▸ hx)
  · intro x hx
    obtain ⟨hd, hone⟩ := h.owed x (howed ▸ hx)
    exact ⟨(hdurable _).mpr hd, (htotal x hd).trans hone⟩

theorem Booked.still (h : s.Booked) (hbroker : t.broker = s.broker) (howed : t.owed = s.owed)
    (hmem : ∀ u ∈ t.catchUps, ∃ v ∈ s.catchUps, v.key = u.key) (hhanded : t.handed = s.handed)
    (hflight : ∀ x, t.inFlight x = s.inFlight x) : t.Booked := by
  have htotal : ∀ x, t.total x = s.total x := by
    intro x
    rw [total, total, inQueue, inQueue, hbroker, hhanded, hflight]
  exact h.congr (congrArg Broker.nextRef hbroker) (congrArg Broker.durableSubs hbroker) howed hmem
    (fun x _ => htotal x) (fun x hx => (htotal x).trans (h.fresh x hx))

section Turn
variable {j c : Nat} {u : CatchUp} {key : SubKey} {h : Held}

theorem inFlight_leave (hj : s.catchUps[j]? = some u) (x : SubKey × Nat) :
    (s.leave j).inFlight x + (if Carries x u then 1 else 0) = s.inFlight x := by
  obtain ⟨hlt, rfl⟩ := List.getElem?_eq_some_iff.mp hj
  unfold inFlight
  rw [← (getElem_cons_eraseIdx_perm hlt).countP_eq, countP_cons]
  simp only [decide_eq_true_eq]
  rfl

theorem inFlight_setPhase (hj : s.catchUps[j]? = some u) (phase : Phase) (x : SubKey × Nat) :
    (s.setPhase j u phase).inFlight x + (if Carries x u then 1 else 0) =
      s.inFlight x + if Carries x { u with phase } then 1 else 0 := by
  have hlt := (List.getElem?_eq_some_iff.mp hj).1
  have hset : (s.setPhase j u phase).inFlight x =
      (s.leave j).inFlight x + if Carries x { u with phase } then 1 else 0 := by
    unfold inFlight
    rw [setPhase, (set_perm_cons_eraseIdx hlt _).countP_eq, countP_cons]
    simp only [decide_eq_true_eq]
    rfl
  have hleave := inFlight_leave hj x
  omega

theorem carries_sending : Carries x ⟨key, c, .sending h⟩ ↔ key = x.1 ∧ h.ref = x.2 :=
  and_congr_right fun _ => ⟨fun he => Option.some.inj he, fun he => congrArg some he⟩

theorem not_carries (hu : u.phase.held = none) : ¬ Carries x u := by
  rintro ⟨_, he⟩
  rw [hu] at he
  cases he

theorem mem_leave (hv : v ∈ (s.leave j).catchUps) : ∃ w ∈ s.catchUps, w.key = v.key :=
  ⟨v, mem_of_mem_eraseIdx hv, rfl⟩

theorem mem_setPhase (hj : s.catchUps[j]? = some u) (hv : v ∈ (s.setPhase j u phase).catchUps) :
    ∃ w ∈ s.catchUps, w.key = v.key := by
  rcases mem_or_eq_of_mem_set hv with hv | rfl
  · exact ⟨v, hv, rfl⟩
  · exact ⟨u, mem_of_getElem? hj, rfl⟩

theorem Booked.leave (hb : s.Booked) (hj : s.catchUps[j]? = some u) (hu : u.phase.held = none) :
    (s.leave j).Booked := by
  refine hb.still rfl rfl (fun v => mem_leave) rfl (fun x => ?_)
  have hleave := inFlight_leave hj x
  rwa [if_neg (not_carries hu)] at hleave

theorem Booked.setPhase (hb : s.Booked) (hj : s.catchUps[j]? = some u) (hu : u.phase.held = none)
    {phase : Phase} (hp : phase.held = none) : (s.setPhase j u phase).Booked := by
  refine hb.still rfl rfl (fun v => mem_setPhase hj) rfl (fun x => ?_)
  have hset := inFlight_setPhase hj phase x
  rwa [if_neg (not_carries hu), if_neg (not_carries hp)] at hset

theorem Booked.published (hb : s.Booked) (hx : s.total x ≠ 0) : x.2 < s.broker.nextRef :=
  Nat.lt_of_not_le fun hle => hx (hb.fresh x hle)

theorem Booked.in_flight (hb : s.Booked) (hj : s.catchUps[j]? = some ⟨key, c, .sending h⟩) :
    h.ref < s.broker.nextRef := by
  refine hb.published (x := (key, h.ref)) ?_
  have hleave := inFlight_leave hj (key, h.ref)
  rw [if_pos (carries_sending.mpr ⟨rfl, rfl⟩)] at hleave
  rw [total]
  omega

theorem Booked.moved (hb : s.Booked) (hkey : s.Durable key) (hr : h.ref < s.broker.nextRef)
    (href : t.broker.nextRef = s.broker.nextRef) (hdur : t.broker.durableSubs = s.broker.durableSubs)
    (howed : t.owed = s.owed) (hmem : ∀ u ∈ t.catchUps, ∃ v ∈ s.catchUps, v.key = u.key)
    (htotal : ∀ x : SubKey × Nat, (h.ref = x.2 → durableQueue key = durableQueue x.1 → key = x.1) →
      t.total x = s.total x) : t.Booked := by
  refine hb.congr href hdur howed hmem (fun x hx => ?_) (fun x hx => ?_)
  · exact htotal x (fun _ hn => hb.names key x.1 hkey hx hn)
  · exact (htotal x (fun he => absurd he (by omega))).trans (hb.fresh x hx)

theorem inQueue_setQueue (s : PubSub) (name : String) (q : PriorityQueue Held) (x : SubKey × Nat) :
    inQueue { s with broker := s.broker.setQueue name q } x =
      if name = durableQueue x.1 then q.drain.countP (fun h => decide (h.ref = x.2)) else s.inQueue x := by
  unfold inQueue
  rw [Broker.queue_setQueue]
  split <;> rfl

theorem Booked.pop (hb : s.Booked) (hj : s.catchUps[j]? = some ⟨key, c, .popping⟩)
    (hq : (s.broker.queue (durableQueue key)).tryPop = some (h, q)) :
    Booked { s.setPhase j ⟨key, c, .popping⟩ (.sending h) with
      broker := s.broker.setQueue (durableQueue key) q } := by
  have hqueue : ∀ x, inQueue { s with broker := s.broker.setQueue (durableQueue key) q } x +
      (if durableQueue key = durableQueue x.1 ∧ h.ref = x.2 then 1 else 0) = s.inQueue x := by
    intro x
    rw [inQueue_setQueue, inQueue]
    by_cases hn : durableQueue key = durableQueue x.1
    · rw [if_pos hn, ← hn, PriorityQueue.tryPop_drain hq, countP_cons]
      simp only [decide_eq_true_eq, true_and]
    · rw [if_neg hn, if_neg (fun hx => hn hx.1)]
      rfl
  have hr : h.ref < s.broker.nextRef := by
    refine hb.published (x := (key, h.ref)) ?_
    have hone := hqueue (key, h.ref)
    rw [if_pos ⟨rfl, rfl⟩] at hone
    rw [total]
    omega
  refine hb.moved (hb.members _ (mem_of_getElem? hj)) hr rfl rfl rfl (fun v => mem_setPhase hj)
    fun x hx => ?_
  have hset := inFlight_setPhase hj (.sending h) x
  rw [if_neg (not_carries rfl)] at hset
  simp only [carries_sending] at hset
  have hiff : durableQueue key = durableQueue x.1 ∧ h.ref = x.2 ↔ key = x.1 ∧ h.ref = x.2 :=
    ⟨fun hb => ⟨hx hb.2 hb.1, hb.2⟩, fun hb => ⟨congrArg durableQueue hb.1, hb.2⟩⟩
  have hin := hqueue x
  simp only [hiff] at hin
  show s.handed.count x + inQueue { s with broker := s.broker.setQueue (durableQueue key) q } x +
    (s.setPhase j ⟨key, c, .popping⟩ (.sending h)).inFlight x = s.total x
  rw [total]
  omega

theorem Booked.send (hb : s.Booked) (hj : s.catchUps[j]? = some ⟨key, c, .sending h⟩)
    (chans : List Channel) :
    Booked { s.setPhase j ⟨key, c, .sending h⟩ .checking with
      chans, handed := s.handed ++ [(key, h.ref)] } := by
  refine hb.moved (hb.members _ (mem_of_getElem? hj)) (hb.in_flight hj) rfl rfl rfl
    (fun v => mem_setPhase hj) fun x _ => ?_
  have hset := inFlight_setPhase hj .checking x
  have hout : ¬ Carries x ⟨key, c, .checking⟩ := not_carries rfl
  simp only [carries_sending, if_neg hout] at hset
  have hiff : (key, h.ref) = x ↔ key = x.1 ∧ h.ref = x.2 := Prod.ext_iff
  show (s.handed ++ [(key, h.ref)]).count x + s.inQueue x +
    (s.setPhase j ⟨key, c, .sending h⟩ .checking).inFlight x = s.total x
  rw [total, count_append, count_singleton]
  simp only [beq_iff_eq, hiff]
  omega

theorem Booked.putBack (hb : s.Booked) (hj : s.catchUps[j]? = some ⟨key, c, .sending h⟩)
    (hq : (s.broker.queue (durableQueue key)).push (clampPriority h.msg.priority) h = some q) :
    Booked { s.leave j with broker := s.broker.setQueue (durableQueue key) q } := by
  refine hb.moved (hb.members _ (mem_of_getElem? hj)) (hb.in_flight hj) rfl rfl rfl
    (fun v => mem_leave) fun x hx => ?_
  have hleave := inFlight_leave hj x
  simp only [carries_sending] at hleave
  show s.handed.count x + inQueue { s with broker := s.broker.setQueue (durableQueue key) q } x +
    (s.leave j).inFlight x = s.total x
  rw [total, inQueue_setQueue, inQueue]
  by_cases hn : durableQueue key = durableQueue x.1
  · have hiff : key = x.1 ∧ h.ref = x.2 ↔ h.ref = x.2 := ⟨And.right, fun he => ⟨hx he hn, he⟩⟩
    rw [if_pos hn, ← hn, (PriorityQueue.push_perm hq).countP_eq, countP_cons]
    simp only [hiff] at hleave
    simp only [decide_eq_true_eq]
    omega
  · rw [if_neg (fun hx => hn (congrArg durableQueue hx.1))] at hleave
    rw [if_neg hn]
    omega

end Turn

theorem durable_register :
    k.2 ∈ (s.broker.registerDurableSub key.1 key.2).subscribers k.1 ↔ s.Durable k ∨ k = key := by
  rw [Durable, Broker.subscribers, Broker.subscribers, TreeSet.mem_toList, TreeSet.mem_toList,
    Broker.registerDurableSub]
  by_cases hk : k.1 = key.1
  · rw [hk, TreeMap.getElem?_insert_self, Option.getD_some, mem_set_insert_iff, Prod.ext_iff]
    exact ⟨fun h => h.symm.imp_right (⟨hk, ·⟩), fun h => h.symm.imp_left And.right⟩
  · rw [getElem?_insert_other _ hk]
    exact ⟨.inl, fun h => h.resolve_right (fun he => hk (congrArg Prod.fst he))⟩

theorem Durable.mem_keys (h : s.Durable k) : k.1 ∈ s.broker.durableSubs.keys := by
  rw [Durable, Broker.subscribers, TreeSet.mem_toList] at h
  rw [TreeMap.mem_keys, TreeMap.mem_iff_isSome_getElem?]
  cases hsubs : s.broker.durableSubs[k.1]? with
  | none =>
    rw [hsubs] at h
    exact absurd h TreeSet.not_mem_emptyc
  | some subs => rfl

theorem Booked.register (hb : s.Booked) (c : Nat) (registering : List (SubKey × Nat))
    (hown : ∀ k, s.Durable k → durableQueue k = durableQueue key → k = key) :
    Booked { s with
      broker := s.broker.registerDurableSub key.1 key.2
      registering
      catchUps := s.catchUps ++ [{ key, chan := c }] } := by
  have htotal : ∀ x, total { s with
      broker := s.broker.registerDurableSub key.1 key.2
      registering
      catchUps := s.catchUps ++ [{ key, chan := c }] } x = s.total x := by
    intro x
    have hout : ¬ Carries x { key, chan := c } := not_carries rfl
    show s.handed.count x + s.inQueue x +
      (s.catchUps ++ [CatchUp.mk key c .checking]).countP (fun u => decide (Carries x u)) = _
    rw [countP_append, countP_singleton, if_neg (by simpa using hout)]
    rfl
  refine ⟨fun k k' hk hk' hn => ?_, fun u hu => ?_, fun x hx => (htotal x).trans (hb.fresh x hx),
    fun x hx => ?_⟩
  · rcases durable_register.mp hk with hold | rfl
    · rcases durable_register.mp hk' with hold' | rfl
      · exact hb.names k k' hold hold' hn
      · exact hown k hold hn
    · rcases durable_register.mp hk' with hold' | rfl
      · exact (hown k' hold' hn.symm).symm
      · rfl
  · rcases mem_append.mp hu with hu | hu
    · exact durable_register.mpr (.inl (hb.members u hu))
    · rw [mem_singleton.mp hu]
      exact durable_register.mpr (.inr rfl)
  · obtain ⟨hd, hone⟩ := hb.owed x hx
    exact ⟨durable_register.mpr (.inl hd), (htotal x).trans hone⟩

theorem Booked.publish (hb : s.Booked) (href : t.broker.nextRef = s.broker.nextRef + 1)
    (hdur : t.broker.durableSubs = s.broker.durableSubs)
    (hqueue : ∀ name, (t.broker.queue name).drain.Perm
      (if name ∈ (s.broker.subscribers topic).map (durableName topic) then
        ⟨s.broker.nextRef, m⟩ :: (s.broker.queue name).drain
      else (s.broker.queue name).drain)) (hcatch : t.catchUps = s.catchUps)
    (howed : t.owed = s.owed ++
      (s.broker.subscribers topic).map (fun sub => ((topic, sub), s.broker.nextRef)))
    (hhanded : t.handed = s.handed ++ live)
    (hlive : ∀ x ∈ live, x.2 = s.broker.nextRef ∧ ¬ (x.1.1 = topic ∧ s.Durable x.1)) :
    t.Booked := by
  have hdurable : ∀ k, t.Durable k ↔ s.Durable k := by
    intro k
    rw [Durable, Durable, Broker.subscribers, Broker.subscribers, hdur]
  have htotal : ∀ x, x ∉ live → t.total x = s.total x +
      if durableQueue x.1 ∈ (s.broker.subscribers topic).map (durableName topic) ∧
        s.broker.nextRef = x.2 then 1 else 0 := by
    intro x hx
    rw [total, total, inQueue, inQueue, inFlight, inFlight, hcatch, hhanded, count_append,
      count_eq_zero.mpr hx, (hqueue _).countP_eq]
    by_cases hn : durableQueue x.1 ∈ (s.broker.subscribers topic).map (durableName topic)
    · rw [if_pos hn, countP_cons]
      simp only [hn, decide_eq_true_eq, true_and]
      omega
    · rw [if_neg hn, if_neg (fun hx => hn hx.1)]
      rfl
  have hother : ∀ x, s.broker.nextRef ≠ x.2 → t.total x = s.total x := by
    intro x hx
    rw [htotal x (fun hin => hx (hlive x hin).1.symm), if_neg (fun h => hx h.2)]
    rfl
  refine ⟨fun k k' hk hk' => hb.names k k' ((hdurable k).mp hk) ((hdurable k').mp hk'), fun u hu => ?_,
    fun x hx => ?_, fun x hx => ?_⟩
  · exact (hdurable _).mpr (hb.members u (hcatch ▸ hu))
  · rw [href] at hx
    rw [hother x (by omega)]
    exact hb.fresh x (by omega)
  · rw [hdurable]
    rcases mem_append.mp (howed ▸ hx) with hx | hx
    · obtain ⟨hd, hone⟩ := hb.owed x hx
      refine ⟨hd, (hother x (fun he => ?_)).trans hone⟩
      rw [hb.fresh x (Nat.le_of_eq he)] at hone
      cases hone
    · obtain ⟨sub, hsub, rfl⟩ := mem_map.mp hx
      refine ⟨hsub, ?_⟩
      rw [htotal ((topic, sub), s.broker.nextRef) (fun hin => (hlive _ hin).2 ⟨rfl, hsub⟩),
        hb.fresh _ (Nat.le_refl _), if_pos ⟨mem_map.mpr ⟨sub, hsub, rfl⟩, rfl⟩]

end Booked

structure Inv (s : PubSub) : Prop where
  calm : s.panicked = false
  own : s.hijacked = []
  wired : s.Wired
  booked : s.Booked

section Inv
variable {s t : PubSub}

theorem inv_start (cfg : Config) (store : Option (List WALRecord)) : (start cfg store).Inv :=
  ⟨rfl, rfl, wired_start cfg store, booked_start cfg store⟩

theorem Inv.register (h : s.Inv) (hc : s.Orderly (.register i)) (hx : s.registering[i]? = some x) :
    Inv { s with
      broker := s.broker.registerDurableSub x.1.1 x.1.2
      registering := s.registering.eraseIdx i
      catchUps := s.catchUps ++ [{ key := x.1, chan := x.2 }] } := by
  refine ⟨h.calm, h.own, h.wired.congr rfl (fun _ => rfl) (fun u hu hp => ?_),
    h.booked.register x.2 _ (fun k hk hn => hc x hx k.1 hk.mem_keys k.2 hk hn)⟩
  rcases mem_append.mp hu with hu | hu
  · exact h.wired.busy u hu hp
  · rw [mem_singleton.mp hu] at hp
    exact absurd rfl hp

theorem Inv.publish (h : s.Inv) (hc : s.Orderly (.publish e topic m)) :
    (s.publish e topic m).Inv := by
  unfold PubSub.publish
  rcases Broker.publishTopic_queues e (fun sub hsub => (hc sub hsub).2) with
    ⟨err, he⟩ | ⟨b, he, href, hdur, hqueue⟩
  · generalize s.broker.publishTopic e topic m = r at he
    obtain ⟨b, err'⟩ := r
    cases he
    exact h
  · rw [he]
    dsimp only
    rw [h.wired.no_closed topic, if_neg Bool.false_ne_true]
    refine ⟨h.calm, h.own, h.wired.congr rfl (wiring_mapIdx fun c ch => ?_) h.wired.busy,
      h.booked.publish href hdur hqueue rfl rfl rfl fun x hx => ?_⟩
    · split <;> rfl
    obtain ⟨y, hy, rfl⟩ := mem_map.mp hx
    obtain ⟨hy, htakes⟩ := mem_filter.mp hy
    refine ⟨rfl, fun ⟨htopic, hd⟩ => (hc y.1.key.2 (htopic ▸ hd)).1 y hy ?_ (of_decide_eq_true htakes)⟩
    exact Prod.ext htopic rfl

theorem Inv.unsubscribe (h : s.Inv) (hc : s.Orderly (.unsubscribe c)) (hch : s.chans[c]? = some ch)
    (he : ch.ended = false) : (s.unsubscribe c ch).Inv := by
  rw [h.wired.unsubscribe_eq hch he]
  exact ⟨h.calm, h.own, h.wired.unsubscribe hch he hc,
    h.booked.still rfl rfl (fun u hu => ⟨u, hu, rfl⟩) rfl (fun _ => rfl)⟩

section CatchUp
variable {j : Nat}

theorem Inv.leave (h : s.Inv) (hj : s.catchUps[j]? = some u) (hu : u.phase.held = none) :
    (s.leave j).Inv :=
  ⟨h.calm, h.own, h.wired.congr rfl (fun _ => rfl)
    (fun v hv => h.wired.busy v (mem_of_mem_eraseIdx hv)), h.booked.leave hj hu⟩

theorem Inv.check (h : s.Inv) (hs : s.catchUp (.check j) = some t) : t.Inv := by
  simp only [PubSub.catchUp] at hs
  split at hs
  · rename_i key c hj
    split at hs
    · rename_i hlisted
      cases hs
      obtain ⟨ch, hch, _, he⟩ := (h.wired.live key c).mp hlisted
      have hopen : ch.closed = false := by
        cases hcl : ch.closed with
        | false => rfl
        | true =>
          rw [h.wired.opened c ch hch hcl] at he
          cases he
      exact ⟨h.calm, h.own, h.wired.congr rfl (fun _ => rfl)
        (h.wired.busy_set (fun _ => ⟨ch, hch, hopen⟩)), h.booked.setPhase hj rfl rfl⟩
    · cases hs
      exact h.leave hj rfl
  · cases hs

theorem Inv.pop (h : s.Inv) (hs : s.catchUp (.pop j) = some t) : t.Inv := by
  simp only [PubSub.catchUp] at hs
  split at hs
  · rename_i key c hj
    split at hs
    · cases hs
      exact h.leave hj rfl
    rename_i held q hq
    cases hs
    have hbusy := h.wired.busy _ (mem_of_getElem? hj) (by nofun)
    exact ⟨h.calm, h.own, h.wired.congr rfl (fun _ => rfl) (h.wired.busy_set (fun _ => hbusy)),
      h.booked.pop hj hq⟩
  · cases hs

theorem Inv.send (h : s.Inv) (hs : s.catchUp (.send j) = some t) : t.Inv := by
  simp only [PubSub.catchUp] at hs
  split at hs
  · rename_i key c held hj
    obtain ⟨ch, hch, hopen⟩ := h.wired.busy _ (mem_of_getElem? hj) (by nofun)
    rw [hch] at hs
    dsimp only at hs
    rw [hopen, if_neg Bool.false_ne_true] at hs
    split at hs
    · cases hs
      exact ⟨h.calm, h.own, h.wired.congr rfl (wiring_set hch rfl) (h.wired.busy_set (absurd rfl)),
        h.booked.send hj _⟩
    · cases hs
  · cases hs

theorem Inv.putBack (h : s.Inv) (hc : s.Orderly (.putBack j)) (hs : s.catchUp (.putBack j) = some t) :
    t.Inv := by
  simp only [PubSub.catchUp] at hs
  split at hs
  · rename_i key c held hj
    obtain ⟨ch, hch, hopen⟩ := h.wired.busy _ (mem_of_getElem? hj) (by nofun)
    obtain ⟨q, hq⟩ := PriorityQueue.push_of_room (hc _ hj held rfl) held
    have hpush : (s.broker.push (durableQueue key) held).1 =
        s.broker.setQueue (durableQueue key) q := by
      unfold Broker.push
      rw [hq]
    rw [hch] at hs
    dsimp only at hs
    rw [hopen, if_neg Bool.false_ne_true, hpush] at hs
    cases hs
    exact ⟨h.calm, h.own, h.wired.congr rfl (fun _ => rfl)
      (fun v hv => h.wired.busy v (mem_of_mem_eraseIdx hv)), h.booked.putBack hj hq⟩
  · cases hs

end CatchUp

theorem Inv.step (h : s.Inv) (hc : s.Orderly op) (hs : Step s op t) : t.Inv := by
  unfold Step PubSub.step at hs
  rw [if_neg (Bool.not_eq_true _ ▸ h.calm)] at hs
  cases op with
  | subscribe key bufSize durable =>
    cases hs
    exact ⟨h.calm, h.own, h.wired.subscribe hc bufSize _,
      h.booked.still rfl rfl (fun u hu => ⟨u, hu, rfl⟩) rfl (fun _ => rfl)⟩
  | register i =>
    obtain ⟨x, hx, rfl⟩ := Option.map_eq_some_iff.mp hs
    exact h.register hc hx
  | check j => exact h.check hs
  | pop j => exact h.pop hs
  | send j => exact h.send hs
  | putBack j => exact h.putBack hc hs
  | receive c =>
    obtain ⟨ch, hch, rfl⟩ := Option.map_eq_some_iff.mp hs
    exact ⟨h.calm, h.own, h.wired.congr rfl (wiring_set hch rfl) h.wired.busy,
      h.booked.still rfl rfl (fun u hu => ⟨u, hu, rfl⟩) rfl (fun _ => rfl)⟩
  | publish e topic m =>
    cases hs
    exact h.publish hc
  | unsubscribe c =>
    dsimp only at hs
    split at hs
    · cases hs
    rename_i ch hch
    split at hs
    · cases hs
    rename_i he
    cases hs
    exact h.unsubscribe hc hch (Bool.not_eq_true _ ▸ he)
  | close =>
    cases hs
    rw [h.wired.close_eq hc]
    exact h

end Inv

/-- What is published for a durable subscriber is in one place: handed to it, in its queue,
or with a catch-up between the two. No channel is sent on or closed once it is closed, and no
connection removes the subscription of another. -/
theorem durable_delivery_exact (cfg : Config) (store : Option (List WALRecord)) {ops : List Op}
    {w : PubSub} (hr : Run Step Orderly (start cfg store) ops w) :
    w.panicked = false ∧ w.hijacked = [] ∧
      ∀ x ∈ w.owed, w.handed.count x + w.inQueue x + w.inFlight x = 1 := by
  have hinv := hr.invariant Inv (inv_start cfg store) (fun _ _ _ hi hc hs => hi.step hc hs)
  exact ⟨hinv.calm, hinv.own, fun x hx => (hinv.booked.owed x hx).2⟩

def connect : List Op := [.subscribe ("news", "ann") 100 true, .register 0]

def missed : List Op :=
  connect ++ [.check 0, .pop 0, .unsubscribe 0, .publish ⟨0, none, none⟩ "news" { id := "m" }] ++
    connect ++ [.check 0, .pop 0, .send 0]

theorem missed_delivered_once :
    ∃ w, Run Step Orderly (start {} none) missed w ∧ w.handed = [(("news", "ann"), 0)] ∧
      w.panicked = false ∧ w.hijacked = [] ∧
      ∀ x ∈ w.owed, w.handed.count x + w.inQueue x + w.inFlight x = 1 := by
  refine Run.shown (fun w => w.handed = [(("news", "ann"), 0)]) (by decide +kernel) ?_
  rintro w hr hhanded
  exact ⟨hhanded, durable_delivery_exact {} none hr⟩

/-- A durable subscriber that is listening is given a message twice. The end of an older
connection of the same id cuts the newer one off. A connection that ends between the check
and the send of its catch-up makes the send panic, and after `Close` its own end does. -/
theorem durable_delivery_fails : (∃ w, Run Step always (start {} none)
        (connect ++ [.publish ⟨0, none, none⟩ "news" { id := "m" }, .check 0, .pop 0, .send 0]) w ∧
      w.owed = [(("news", "ann"), 0)] ∧ w.handed.count (("news", "ann"), 0) = 2) ∧
    (∃ w, Run Step always (start {} none) (connect ++ connect ++ [.unsubscribe 0]) w ∧
      w.hijacked = [(0, 1)] ∧ w.chans.map Channel.closed = [false, true]) ∧
    (∃ w, Run Step always (start {} none)
        (connect ++ [.publish ⟨0, none, none⟩ "news" { id := "m" }, .check 0, .pop 0, .unsubscribe 0,
          .send 0]) w ∧ w.panicked = true) ∧
    ∃ w, Run Step always (start {} none) (connect ++ [.close, .unsubscribe 0]) w ∧
      w.panicked = true := by
  refine ⟨?_, ?_, ?_, ?_⟩
  · exact Run.found _ (by decide +kernel)
  · exact Run.found _ (by decide +kernel)
  · exact Run.found _ (by decide +kernel)
  · exact Run.found _ (by decide +kernel)

end PubSub
end Boltq.QueuePlane
