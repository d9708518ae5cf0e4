import Boltq.Fanout.Send
import Boltq.Gateway.Session

namespace Boltq.Gateway
open Lib Identity Boltq.Stream Std

def protocolVersion : Int := 1

structure Config where
  maxSubscriptions : Int := 0
  presence : Bool := true
  deriving DecidableEq

def Config.applyDefaults (c : Config) : Config :=
  { c with maxSubscriptions := if c.maxSubscriptions ≤ 0 then 200 else c.maxSubscriptions }

def conversationFromTopic (topic : Bytes) : Option Bytes :=
  let cut (p : Bytes) : Option Bytes :=
    if p.isPrefixOf topic && decide (p.length < topic.length) then some (topic.drop p.length) else none
  cut (nameBytes Fanout.topicGroupPrefix) <|> cut (nameBytes Fanout.topicDirectPrefix)

structure Connection where
  principal : Principal
  session : Option Bytes := none
  subs : List Bytes := []
  live : Bool := true
  deriving DecidableEq

def Connection.addSub (c : Connection) (key : Bytes) : Connection :=
  { c with subs := if key ∈ c.subs then c.subs else c.subs ++ [key] }

def Connection.gone (c : Connection) : Connection := { c with live := false, subs := [] }

structure Start where
  principal : Principal
  owner : Principal
  topic : Bytes
  partition : Nat
  policy : Policy
  now : Int

structure Server where
  cfg : Config
  policy : Policy
  topics : TreeMap Bytes Nat := ∅
  store : SessionStore
  conns : List Connection := []
  now : Int
  starts : List Start := []

structure Hello where
  version : Int := 0
  deviceID : Bytes := []
  resume : Bytes := []

def Hello.device (f : Hello) (p : Principal) : Bytes :=
  if f.deviceID = [] then p.deviceID else f.deviceID

structure Subscribe where
  topic : Bytes
  partition : Option Int := none
  start : Nat := 0

def cutResume (resume : Bytes) : Option (Bytes × Bytes) :=
  match resume.span (· ≠ 46) with
  | (_, []) => none
  | (id, _ :: secret) => some (id, secret)

namespace Server

section
variable (g : Server)

def setConn (i : Nat) (c : Connection) : Server := { g with conns := g.conns.set i c }

def startSubscription (i : Nat) (owner : Principal) (topic : Bytes) (partition : Nat) : Server :=
  match g.conns[i]? with
  | none => g
  | some c =>
    let g := g.setConn i (c.addSub (subKey topic partition))
    if partition < g.topics[topic]?.getD 0 then
      { g with starts := g.starts ++ [⟨c.principal, owner, topic, partition, g.policy, g.now⟩] }
    else g

def teardown (i : Nat) : Server :=
  match g.conns[i]? with
  | none => g
  | some c =>
    let g := g.setConn i c.gone
    match c.session with
    | none => g
    | some id => { g with store := g.store.detach id g.now }

def attach (p : Principal) (deviceID resume id token : Bytes) : SessionStore × Bytes × Bool :=
  let fresh := (g.store.create id token p deviceID, id, false)
  if resume = [] then fresh
  else
    match cutResume resume with
    | none => fresh
    | some (session, secret) =>
      match g.store.resume session secret p with
      | none => fresh
      | some store => (store.modify session (fun s => { s with deviceID }), session, true)

def restart (i : Nat) (owner : Principal) (subs : List Subscription) : Server :=
  subs.foldl (fun g sub => g.startSubscription i owner sub.topic sub.partition) g

def handleHello (i : Nat) (c : Connection) (f : Hello) (id token : Bytes) : Server :=
  if f.version ≠ 0 ∧ f.version ≠ protocolVersion then g.teardown i
  else
    if f.device c.principal = [] then g.teardown i
    else
      let (store, session, resumed) := g.attach c.principal (f.device c.principal) f.resume id token
      let g := { g with store }.setConn i { c with session := some session }
      -- the presence registry wants a user
      if g.cfg.presence ∧ c.principal.anonymous = false ∧ c.principal.userID = [] then g.teardown i
      else
        match resumed, store.sessions[session]? with
        | true, some s => g.restart i s.owner (s.subscriptions.toList.map Prod.snd)
        | _, _ => g

def partitionOf (f : Subscribe) (p : Principal) (count : Nat) : Int :=
  match f.partition with
  | some n => n
  | none =>
    match conversationFromTopic f.topic with
    | some conversation => partitionForKey count conversation
    | none => if p.userID ≠ [] then partitionForKey count p.userID else 0

def handleSubscribe (i : Nat) (c : Connection) (id : Bytes) (f : Subscribe)
    (created : Option Nat) : Server :=
  if f.topic = [] then g
  else
    match g.policy.authorize c.principal f.topic .read g.now with
    | .error _ => g
    | .ok _ =>
      if g.cfg.maxSubscriptions ≤ c.subs.length then g
      else
        match g.topics[f.topic]? <|> created with
        | none => g
        | some count =>
          let g := { g with topics := g.topics.insert f.topic count }
          let partition := partitionOf f c.principal count
          if 0 ≤ partition ∧ partition < count then
            let g := { g with
              store := g.store.modify id (·.addSubscription f.topic partition.toNat f.start) }
            match g.store.sessions[id]? with
            | none => g
            | some s => g.startSubscription i s.owner f.topic partition.toNat
          else g

def handleUnsubscribe (i : Nat) (c : Connection) (id : Bytes) (topic : Bytes)
    (partition : Nat) : Server :=
  let g := g.setConn i { c with subs := c.subs.erase (subKey topic partition) }
  { g with store := g.store.modify id (·.removeSubscription topic partition) }

inductive Op where
  | connect (p : Principal)
  | hello (i : Nat) (f : Hello) (id token : Bytes)
  | subscribe (i : Nat) (f : Subscribe) (created : Option Nat)
  | unsubscribe (i : Nat) (topic : Bytes) (partition : Nat)
  | disconnect (i : Nat)
  | setRules (rules : List Rule)
  | setMembership (m : MembershipChecker)
  | topic (name : Bytes) (partitions : Nat)
  | deleteTopic (name : Bytes)
  | tick (now : Int)
  | reap

def onFrame (i : Nat) (f : Connection → Bytes → Server) : Option Server :=
  match g.conns[i]? with
  | none => none
  | some c =>
    match c.live, c.session with
    | true, some id => some (if c.principal.expired g.now then g.teardown i else f c id)
    | _, _ => none

def step : Op → Option Server
  | .connect p => some { g with conns := g.conns ++ [{ principal := p }] }
  | .hello i f id token =>
    match g.conns[i]? with
    | none => none
    | some c =>
      if c.live ∧ c.session = none ∧ id ∉ g.store.sessions then
        some (g.handleHello i c f id token)
      else none
  | .subscribe i f created => g.onFrame i (fun c id => g.handleSubscribe i c id f created)
  | .unsubscribe i topic partition =>
    g.onFrame i (fun c id => g.handleUnsubscribe i c id topic partition)
  | .disconnect i =>
    match g.conns[i]? with
    | none => none
    | some c => if c.live then some (g.teardown i) else none
  | .setRules rules => some { g with policy := { g.policy with rules } }
  | .setMembership m => some { g with policy := { g.policy with membership := m } }
  | .topic name partitions => some { g with topics := g.topics.insert name partitions }
  | .deleteTopic name => some { g with topics := g.topics.erase name }
  | .tick now => if g.now ≤ now then some { g with now } else none
  | .reap => some { g with store := g.store.reap g.now }

def Step (op : Op) (g' : Server) : Prop := g.step op = some g'

def new (cfg : Config) (policy : Policy) (resumeWindow now : Int) : Server where
  cfg := cfg.applyDefaults
  policy := policy
  store := .new resumeWindow
  now := now

def MayResume (p : Principal) (s : Session) : Prop :=
  s.owner.tenant = p.tenant ∧
    ∀ sub ∈ s.subscriptions.toList, g.policy.authorize p sub.2.topic .read g.now = .ok ()
  deriving Decidable

/-- A hello resumes only a session its principal may resume. -/
def Checked : Op → Prop
  | .hello i f _ _ => ∀ c ∈ g.conns[i]?, ∀ cut ∈ cutResume f.resume,
      ∀ s ∈ g.store.sessions[cut.1]?, (g.store.resume cut.1 cut.2 c.principal).isSome →
        g.MayResume c.principal s
  | _ => True

end

instance (g : Server) (op : Op) : Decidable (g.Checked op) := by
  unfold Checked
  split <;> infer_instance

end Server

structure Start.Authorised (st : Start) : Prop where
  policy : st.policy.authorize st.principal st.topic .read st.now = .ok ()
  user : st.principal.userID = st.owner.userID
  tenant : st.principal.tenant = st.owner.tenant

namespace Server

structure Inv (g : Server) : Prop where
  starts : ∀ st ∈ g.starts, st.Authorised
  /-- A session's principal is its owner's user. -/
  owners : ∀ (id : Bytes) s, g.store.sessions[id]? = some s → s.principal.userID = s.owner.userID
  /-- A live connection holds its session, for the owner. -/
  held : ∀ (i : Nat) c id, g.conns[i]? = some c → c.live = true → c.session = some id →
    ∃ s, g.store.sessions[id]? = some s ∧ s.attached = true ∧
      c.principal.userID = s.owner.userID ∧ c.principal.tenant = s.owner.tenant
  lone : ∀ (i j : Nat) c d id, g.conns[i]? = some c → g.conns[j]? = some d → c.live = true →
    d.live = true → c.session = some id → d.session = some id → i = j

section Steps
variable {g g' : Server} {i : Nat} {c : Connection} {id : Bytes} {op : Op}

def SameConns (g g' : Server) : Prop :=
  ∀ (j : Nat) c', g'.conns[j]? = some c' → ∃ c, g.conns[j]? = some c ∧ c'.principal = c.principal ∧
    c'.session = c.session ∧ (c'.live = true → c.live = true)

theorem SameConns.set (hc : g.conns[i]? = some c) (hset : g'.conns = g.conns.set i c')
    (hp : c'.principal = c.principal) (hs : c'.session = c.session)
    (hl : c'.live = true → c.live = true) : SameConns g g' := by
  intro j d hd
  rw [hset] at hd
  rcases getElem?_set_cases hd with ⟨rfl, rfl⟩ | ⟨_, hd⟩
  · exact ⟨c, hc, hp, hs, hl⟩
  · exact ⟨d, hd, rfl, rfl, fun h => h⟩

def SameSessions (g g' : Server) : Prop :=
  ∀ (id : Bytes), (g'.store.sessions[id]?).map (fun s => (s.principal, s.owner, s.attached)) =
    (g.store.sessions[id]?).map (fun s => (s.principal, s.owner, s.attached))

theorem SameSessions.some (hs : SameSessions g g') (h : g.store.sessions[id]? = some s) :
    ∃ s', g'.store.sessions[id]? = some s' ∧
      s'.principal = s.principal ∧ s'.owner = s.owner ∧ s'.attached = s.attached := by
  have heq := hs id
  rw [h, Option.map_some] at heq
  obtain ⟨s', hs', htriple⟩ := Option.map_eq_some_iff.mp heq
  simp only [Prod.mk.injEq] at htriple
  exact ⟨s', hs', htriple.1, htriple.2.1, htriple.2.2⟩

theorem SameSessions.symm (hs : SameSessions g g') : SameSessions g' g := fun id => (hs id).symm

theorem Inv.same (hi : Inv g) (hc : SameConns g g') (hs : SameSessions g g')
    (hst : ∀ st ∈ g'.starts, st.Authorised) : Inv g' where
  starts := hst
  owners := by
    intro id s h
    obtain ⟨s', hs', hp, ho, -⟩ := hs.symm.some h
    rw [← hp, ← ho]
    exact hi.owners id s' hs'
  held := by
    intro i c id hget hl hsess
    obtain ⟨d, hd, hp, hsd, hlive⟩ := hc i c hget
    obtain ⟨s, hs0, hatt, huser, htenant⟩ := hi.held i d id hd (hlive hl) (hsd.symm.trans hsess)
    obtain ⟨s', hs', -, ho, ha⟩ := hs.some hs0
    rw [hp]
    exact ⟨s', hs', ha.trans hatt, ho ▸ huser, ho ▸ htenant⟩
  lone := by
    intro i j c d id hgc hgd hlc hld hsc hsd
    obtain ⟨c0, hc0, -, hc0s, hc0l⟩ := hc i c hgc
    obtain ⟨d0, hd0, -, hd0s, hd0l⟩ := hc j d hgd
    exact hi.lone i j c0 d0 id hc0 hd0 (hc0l hlc) (hd0l hld) (hc0s.symm.trans hsc)
      (hd0s.symm.trans hsd)

theorem modify_sessions (st : SessionStore) (f : Session → Session) (k : Bytes) :
    (st.modify id f).sessions[k]? = if k = id then st.sessions[k]?.map f else st.sessions[k]? := by
  unfold SessionStore.modify
  split
  · rename_i hnone
    split
    · rename_i hk
      rw [hk, hnone]
      rfl
    · rfl
  · rename_i s hsome
    dsimp only
    split
    · rename_i hk
      rw [hk, TreeMap.getElem?_insert_self, hsome]
      rfl
    · rename_i hk
      exact getElem?_insert_other _ hk

theorem SameSessions.modify (hstore : g'.store = g.store.modify id f)
    (hf : ∀ s, (f s).principal = s.principal ∧ (f s).owner = s.owner ∧
      (f s).attached = s.attached) : SameSessions g g' := by
  intro k
  rw [hstore, modify_sessions]
  split
  · cases g.store.sessions[k]? with
    | none => rfl
    | some s =>
      obtain ⟨hp, ho, ha⟩ := hf s
      simp only [Option.map_some, hp, ho, ha]
  · rfl

theorem startSubscription_cases (g : Server) (i : Nat) (owner : Principal) (topic : Bytes)
    (partition : Nat) : let g' := g.startSubscription i owner topic partition
    g'.policy = g.policy ∧ g'.now = g.now ∧ g'.store = g.store ∧ SameConns g g' ∧
      ∀ st ∈ g'.starts, st ∈ g.starts ∨ ∃ c, g.conns[i]? = some c ∧
        st = ⟨c.principal, owner, topic, partition, g.policy, g.now⟩ := by
  unfold startSubscription
  cases hc : g.conns[i]? with
  | none =>
    exact ⟨rfl, rfl, rfl, fun j c' hj => ⟨c', hj, rfl, rfl, fun h => h⟩, fun st hst => .inl hst⟩
  | some c =>
    dsimp only
    split
    · refine ⟨rfl, rfl, rfl, .set hc rfl rfl rfl (fun h => h), ?_⟩
      intro st hst
      rcases List.mem_append.mp hst with hold | hnew
      · exact .inl hold
      · exact .inr ⟨c, rfl, List.mem_singleton.mp hnew⟩
    · exact ⟨rfl, rfl, rfl, .set hc rfl rfl rfl (fun h => h), fun st hst => .inl hst⟩

theorem Inv.startSubscription (hi : Inv g) (hauth : ∀ c, g.conns[i]? = some c →
      Start.Authorised ⟨c.principal, owner, topic, partition, g.policy, g.now⟩) :
    Inv (g.startSubscription i owner topic partition) := by
  obtain ⟨-, -, hstore, hconns, hstarts⟩ := startSubscription_cases g i owner topic partition
  refine hi.same hconns (fun id => by rw [hstore]) ?_
  intro st hst
  rcases hstarts st hst with hold | ⟨c, hc, rfl⟩
  · exact hi.starts st hold
  · exact hauth c hc

theorem Inv.restart {owner : Principal} (hi : Inv g)
    (hauth : ∀ c, g.conns[i]? = some c → c.principal.userID = owner.userID ∧
      c.principal.tenant = owner.tenant ∧
      ∀ sub ∈ subs, g.policy.authorize c.principal sub.topic .read g.now = .ok ()) :
    Inv (g.restart i owner subs) := by
  induction subs generalizing g with
  | nil => exact hi
  | cons sub rest ih =>
    obtain ⟨hpol, hnow, -, hconns, -⟩ :=
      startSubscription_cases g i owner sub.topic sub.partition
    refine ih (hi.startSubscription ?_) ?_
    · intro c hc
      obtain ⟨hu, ht, ha⟩ := hauth c hc
      exact ⟨ha sub List.mem_cons_self, hu, ht⟩
    · intro c' hc'
      obtain ⟨c, hc, hp, -⟩ := hconns i c' hc'
      obtain ⟨hu, ht, ha⟩ := hauth c hc
      rw [hp, hpol, hnow]
      exact ⟨hu, ht, fun sub' hsub => ha sub' (List.mem_cons_of_mem _ hsub)⟩

theorem Inv.teardown (hi : Inv g) (hc : g.conns[i]? = some c) (hl : c.live = true) :
    Inv (g.teardown i) := by
  unfold Server.teardown
  rw [hc]
  dsimp only
  have hconns : SameConns g (g.setConn i c.gone) :=
    .set hc rfl rfl rfl (fun h => by cases h)
  cases hsess : c.session with
  | none => exact hi.same hconns (fun _ => rfl) hi.starts
  | some id =>
    dsimp only
    have hne : ∀ (j : Nat) d, (g.setConn i c.gone).conns[j]? = some d →
        d.live = true → j ≠ i := by
      rintro j d hd hld rfl
      have hself : (g.setConn j c.gone).conns[j]? =
          some c.gone :=
        List.getElem?_set_self (List.getElem?_eq_some_iff.mp hc).1
      cases hself.symm.trans hd
      cases hld
    refine ⟨hi.starts, ?_, ?_, ?_⟩
    · intro k s hk
      dsimp only [SessionStore.detach] at hk
      rw [modify_sessions] at hk
      split at hk
      · obtain ⟨s0, hs0, rfl⟩ := Option.map_eq_some_iff.mp hk
        exact hi.owners k s0 hs0
      · exact hi.owners k s hk
    · intro j d k hd hld hk
      obtain ⟨d0, hd0, hp, hs, hlive⟩ := hconns j d hd
      have hlive0 := hlive hld
      obtain ⟨s, hs0, hrest⟩ := hi.held j d0 k hd0 hlive0 (hs.symm.trans hk)
      have hkid : k ≠ id := by
        rintro rfl
        exact hne j d hd hld (hi.lone j i d0 c k hd0 hc hlive0 hl (hs.symm.trans hk) hsess)
      refine ⟨s, ?_, ?_⟩
      · dsimp only [SessionStore.detach]
        rw [modify_sessions, if_neg hkid]
        exact hs0
      · rw [hp]
        exact hrest
    · intro j j' d d' k hd hd' hld hld' hk hk'
      obtain ⟨d0, hd0, -, hs, hlive⟩ := hconns j d hd
      obtain ⟨d1, hd1, -, hs', hlive'⟩ := hconns j' d' hd'
      exact hi.lone j j' d0 d1 k hd0 hd1 (hlive hld) (hlive' hld') (hs.symm.trans hk)
        (hs'.symm.trans hk')

theorem Inv.adopt {store : SessionStore} (hi : Inv g) (hc : g.conns[i]? = some c)
    (hfree : ∀ (j : Nat) d, g.conns[j]? = some d → d.live = true → d.session ≠ some id)
    (hstore : ∀ k : Bytes, store.sessions[k]? = if k = id then some s else g.store.sessions[k]?)
    (hatt : s.attached = true) (hown : s.principal.userID = s.owner.userID)
    (huser : c.principal.userID = s.owner.userID) (htenant : c.principal.tenant = s.owner.tenant) :
    Inv ({ g with store }.setConn i { c with session := some id }) := by
  have hlt := (List.getElem?_eq_some_iff.mp hc).1
  have hcases : ∀ (j : Nat) d,
      ({ g with store }.setConn i { c with session := some id }).conns[j]? = some d →
      (j = i ∧ d = { c with session := some id }) ∨ (j ≠ i ∧ g.conns[j]? = some d) := by
    intro j d hd
    dsimp only [setConn] at hd
    exact getElem?_set_cases hd
  refine ⟨hi.starts, ?_, ?_, ?_⟩
  · intro k s' hk
    have hk' : store.sessions[k]? = some s' := hk
    rw [hstore] at hk'
    split at hk'
    · cases hk'
      exact hown
    · exact hi.owners k s' hk'
  · intro j d k hd hld hk
    have hget : ({ g with store }.setConn i { c with session := some id }).store.sessions[k]? =
        if k = id then some s else g.store.sessions[k]? := hstore k
    rw [hget]
    rcases hcases j d hd with ⟨-, rfl⟩ | ⟨-, hold⟩
    · cases hk
      exact ⟨s, if_pos rfl, hatt, huser, htenant⟩
    · have hkid : k ≠ id := fun h => hfree j d hold hld (h ▸ hk)
      rw [if_neg hkid]
      exact hi.held j d k hold hld hk
  · intro j j' d d' k hd hd' hld hld' hk hk'
    rcases hcases j d hd with ⟨rfl, rfl⟩ | ⟨-, hold⟩
    · rcases hcases j' d' hd' with ⟨rfl, -⟩ | ⟨-, hold'⟩
      · rfl
      · cases hk
        exact absurd hk' (hfree j' d' hold' hld')
    · rcases hcases j' d' hd' with ⟨rfl, rfl⟩ | ⟨-, hold'⟩
      · cases hk'
        exact absurd hk (hfree j d hold hld)
      · exact hi.lone j j' d d' k hold hold' hld hld' hk hk'

theorem resume_some {st store : SessionStore} {token : Bytes} {p : Principal}
    (h : st.resume id token p = some store) : ∃ s, st.sessions[id]? = some s ∧
      s.principal.userID = p.userID ∧ s.attached = false ∧
      store = { st with sessions := st.sessions.insert id (s.reattach p) } := by
  unfold SessionStore.resume at h
  split at h
  · cases h
  rename_i s hs
  split at h
  · cases h
  split at h
  · cases h
  rename_i huser
  split at h
  · cases h
  rename_i hatt
  cases h
  exact ⟨s, hs, Decidable.not_not.mp huser, by simpa using hatt, rfl⟩

theorem attach_cases (g : Server) (p : Principal) (deviceID resume id token : Bytes) :
    (g.attach p deviceID resume id token = (g.store.create id token p deviceID, id, false)) ∨
    ∃ cut s store, cut ∈ cutResume resume ∧ g.store.sessions[cut.1]? = some s ∧
      s.principal.userID = p.userID ∧ s.attached = false ∧ (g.store.resume cut.1 cut.2 p).isSome ∧
      g.attach p deviceID resume id token = (store, cut.1, true) ∧
      ∀ k : Bytes, store.sessions[k]? = if k = cut.1 then
        some { s.reattach p with deviceID } else g.store.sessions[k]? := by
  unfold attach
  dsimp only
  split
  · exact .inl rfl
  split
  · exact .inl rfl
  rename_i session secret hcut
  split
  · exact .inl rfl
  rename_i store hstore
  obtain ⟨s, hs, huser, hatt, rfl⟩ := resume_some hstore
  refine .inr ⟨(session, secret), s, _, hcut, hs, huser, hatt, by rw [hstore]; rfl, rfl, ?_⟩
  intro k
  rw [modify_sessions]
  split
  · rename_i hk
    subst hk
    rw [TreeMap.getElem?_insert_self]
    rfl
  · rename_i hk
    exact getElem?_insert_other _ hk

theorem Inv.hello (hi : Inv g) (hc : g.conns[i]? = some c) (hl : c.live = true)
    (hid : id ∉ g.store.sessions) (hk : g.Checked (.hello i f id token)) :
    Inv (g.handleHello i c f id token) := by
  unfold handleHello
  split
  · exact hi.teardown hc hl
  split
  · exact hi.teardown hc hl
  have hlt := (List.getElem?_eq_some_iff.mp hc).1
  generalize f.device c.principal = deviceID
  rcases g.attach_cases c.principal deviceID f.resume id token with he |
    ⟨cut, s, store, hcut, hs, huser, hatt, hsome, he, hstore⟩
  · rw [he]
    dsimp only
    have hadopt : Inv ({ g with store := g.store.create id token c.principal deviceID }.setConn i
        { c with session := some id }) := by
      let s : Session :=
        { principal := c.principal, owner := c.principal, deviceID, resumeToken := token }
      refine hi.adopt (s := s) hc ?_ ?_ rfl rfl rfl rfl
      · intro j d hd hld hsess
        obtain ⟨s, hs, -⟩ := hi.held j d id hd hld hsess
        exact hid (mem_of_getElem? hs)
      · intro k
        unfold SessionStore.create
        dsimp only
        split
        · rename_i hk
          rw [hk, TreeMap.getElem?_insert_self]
        · rename_i hk
          exact getElem?_insert_other _ hk
    split
    · exact hadopt.teardown (List.getElem?_set_self hlt) hl
    · exact hadopt
  · rw [he]
    dsimp only
    obtain ⟨htenant, hauth⟩ := hk c hc cut hcut s hs hsome
    have hown : s.principal.userID = s.owner.userID := hi.owners cut.1 s hs
    have hadopt : Inv ({ g with store }.setConn i { c with session := some cut.1 }) := by
      refine hi.adopt hc ?_ hstore rfl (huser.symm.trans hown) (huser.symm.trans hown)
        htenant.symm
      intro j d hd hld hsess
      obtain ⟨s', hs', hatt', -⟩ := hi.held j d cut.1 hd hld hsess
      cases hs.symm.trans hs'
      rw [hatt] at hatt'
      cases hatt'
    split
    · exact hadopt.teardown (List.getElem?_set_self hlt) hl
    rw [hstore, if_pos rfl]
    refine hadopt.restart ?_
    intro c' hc'
    have hself : ({ g with store }.setConn i { c with session := some cut.1 }).conns[i]? =
        some { c with session := some cut.1 } := List.getElem?_set_self hlt
    cases hself.symm.trans hc'
    refine ⟨huser.symm.trans hown, htenant.symm, ?_⟩
    intro sub hsub
    obtain ⟨e, he, rfl⟩ := List.mem_map.mp hsub
    exact hauth e he

theorem Inv.subscribe (hi : Inv g) (hc : g.conns[i]? = some c) (hl : c.live = true)
    (hs : c.session = some id) : Inv (g.handleSubscribe i c id f created) := by
  unfold handleSubscribe
  split
  · exact hi
  split
  · exact hi
  rename_i hauth
  split
  · exact hi
  split
  · exact hi
  rename_i count _
  have hsame : ∀ topics, Inv { g with topics } := fun topics =>
    hi.same (fun j c' hj => ⟨c', hj, rfl, rfl, fun h => h⟩) (fun _ => rfl) hi.starts
  dsimp only
  split
  · rename_i hrange
    have hadd : Inv { g with
        topics := g.topics.insert f.topic count
        store := g.store.modify id
          (·.addSubscription f.topic (partitionOf f c.principal count).toNat f.start) } :=
      (hsame _).same (fun j c' hj => ⟨c', hj, rfl, rfl, fun h => h⟩)
        (.modify rfl (fun _ => ⟨rfl, rfl, rfl⟩)) hi.starts
    split
    · exact hadd
    rename_i s hsession
    refine hadd.startSubscription ?_
    intro c' hc'
    cases hc.symm.trans hc'
    obtain ⟨s', hs', -, huser, htenant⟩ := hadd.held i c id hc hl hs
    cases hsession.symm.trans hs'
    exact ⟨hauth, huser, htenant⟩
  · exact hsame _

theorem Inv.unsubscribe (hi : Inv g) (hc : g.conns[i]? = some c) :
    Inv (g.handleUnsubscribe i c id topic partition) :=
  hi.same (.set hc rfl rfl rfl (fun h => h)) (.modify rfl (fun _ => ⟨rfl, rfl, rfl⟩)) hi.starts

theorem Inv.onFrame (hi : Inv g) (h : g.onFrame i f = some g')
    (hf : ∀ c id, g.conns[i]? = some c → c.live = true → c.session = some id → Inv (f c id)) :
    Inv g' := by
  unfold Server.onFrame at h
  split at h
  · cases h
  rename_i c hc
  split at h
  · rename_i id hl hs
    cases h
    split
    · exact hi.teardown hc hl
    · exact hf c id hc hl hs
  · cases h

theorem Inv.reap (hi : Inv g) : Inv { g with store := g.store.reap g.now } := by
  have hget : ∀ k : Bytes, (g.store.reap g.now).sessions[k]? =
      g.store.sessions[k]?.filter (fun s =>
        s.attached || !s.detachedAt.any (fun at_ => at_ < g.now - g.store.resumeWindow)) :=
    fun k => TreeMap.getElem?_filter'
  refine ⟨hi.starts, ?_, ?_, hi.lone⟩
  · intro k s hk
    have hk' : (g.store.reap g.now).sessions[k]? = some s := hk
    rw [hget] at hk'
    exact hi.owners k s (Option.filter_eq_some_iff.mp hk').1
  · intro j c k hc hl hs
    obtain ⟨s, hs0, hatt, hrest⟩ := hi.held j c k hc hl hs
    refine ⟨s, ?_, hatt, hrest⟩
    have hk' := hget k
    rw [hs0, Option.filter_some, if_pos (by rw [hatt]; rfl)] at hk'
    exact hk'

theorem Inv.step (hi : Inv g) (hk : g.Checked op) (h : g.step op = some g') : Inv g' := by
  have hsame : ∀ {g' : Server}, g'.conns = g.conns → g'.store = g.store → g'.starts = g.starts →
      Inv g' := by
    intro g' hc hs hst
    refine hi.same (fun j c' hj => ⟨c', hc ▸ hj, rfl, rfl, fun h => h⟩) (fun _ => by rw [hs]) ?_
    rw [hst]
    exact hi.starts
  cases op with
  | connect p =>
    cases h
    have hnew : ∀ (j : Nat) c', (g.conns ++ [({ principal := p } : Connection)])[j]? = some c' →
        c'.session ≠ none → g.conns[j]? = some c' := by
      intro j c' hj hs
      rcases getElem?_concat_cases hj with ⟨_, rfl⟩ | hj
      · exact absurd rfl hs
      · exact hj
    refine ⟨hi.starts, hi.owners, ?_, ?_⟩
    · intro j c k hj hl hs
      exact hi.held j c k (hnew j c hj (by rw [hs]; simp)) hl hs
    · intro j j' c d k hj hj' hl hl' hs hs'
      exact hi.lone j j' c d k (hnew j c hj (by rw [hs]; simp)) (hnew j' d hj' (by rw [hs']; simp))
        hl hl' hs hs'
  | hello i f id token =>
    simp only [Server.step] at h
    split at h
    · cases h
    rename_i c hc
    split at h
    · rename_i hcond
      cases h
      exact hi.hello hc hcond.1 hcond.2.2 hk
    · cases h
  | subscribe i f created =>
    exact hi.onFrame h (fun c id hc hl hs => hi.subscribe hc hl hs)
  | unsubscribe i topic partition =>
    exact hi.onFrame h (fun c id hc _ _ => hi.unsubscribe hc)
  | disconnect i =>
    simp only [Server.step] at h
    split at h
    · cases h
    rename_i c hc
    split at h
    · rename_i hl
      cases h
      exact hi.teardown hc hl
    · cases h
  | setRules rules =>
    cases h
    exact hsame rfl rfl rfl
  | setMembership m =>
    cases h
    exact hsame rfl rfl rfl
  | topic name partitions =>
    cases h
    exact hsame rfl rfl rfl
  | deleteTopic name =>
    cases h
    exact hsame rfl rfl rfl
  | tick now =>
    simp only [Server.step] at h
    split at h
    · cases h
      exact hsame rfl rfl rfl
    · cases h
  | reap =>
    cases h
    exact hi.reap

end Steps

theorem Inv.new (cfg : Config) (policy : Policy) (resumeWindow now : Int) :
    Inv (new cfg policy resumeWindow now) where
  starts st hst := absurd hst List.not_mem_nil
  owners id s hs := by
    have hnone : (∅ : TreeMap Bytes Session)[id]? = some s := hs
    rw [TreeMap.getElem?_emptyc] at hnone
    cases hnone
  held i c id hc := by cases hc
  lone i j c d id hc := by cases hc

/-- Whenever the gateway starts or restarts a tail, the connection's principal is
authorised to read the topic then, and is of the session's owner's user and tenant. -/
theorem every_start_authorised {cfg : Config} {policy : Policy} {resumeWindow now : Int}
    {ops : List Op} {g : Server} (hr : Run Step Checked (new cfg policy resumeWindow now) ops g) :
    ∀ st ∈ g.starts, st.policy.authorize st.principal st.topic .read st.now = .ok () ∧
      st.principal.userID = st.owner.userID ∧ st.principal.tenant = st.owner.tenant := by
  have hi := hr.invariant Inv (.new cfg policy resumeWindow now) (fun _ _ _ hi hk hs => hi.step hk hs)
  intro st hst
  obtain ⟨hp, hu, ht⟩ := hi.starts st hst
  exact ⟨hp, hu, ht⟩

def member : Principal := { userID := [117], tenant := [116] }

def membersOnly : Policy where
  rules := [{ pattern := nameBytes "#", effect := .allow, requireMembership := true }]
  membership := fun _ user _ => .ok (user = [117])

def reconnect (meanwhile : List Op) : List Op :=
  [.connect member, .topic [97] 1, .hello 0 { deviceID := [100] } [1] [2],
    .subscribe 0 { topic := [97] } none, .disconnect 0] ++ meanwhile ++
  [.connect member, .hello 1 { deviceID := [100], resume := [1, 46, 2] } [3] [4]]

theorem reconnected_is_authorised :
    ∃ g, Run Step Checked (new {} membersOnly 0 0) (reconnect []) g ∧ g.starts.length = 2 ∧
      ∀ st ∈ g.starts, st.policy.authorize st.principal st.topic .read st.now = .ok () ∧
        st.principal.userID = st.owner.userID ∧ st.principal.tenant = st.owner.tenant := by
  refine Run.shown (fun g => g.starts.length = 2) (by decide +kernel) ?_
  rintro g hr hlen
  exact ⟨hlen, every_start_authorised hr⟩

/-- The user is taken out of the group meanwhile, and the resume streams its topic. -/
theorem removed_member_streams :
    ∃ g, Run Step always (new {} membersOnly 0 0) (reconnect [.setMembership denyAllMembership]) g ∧
      ∃ st ∈ g.starts, st.policy.authorize st.principal st.topic .read st.now = .error .denied :=
  Run.found _ (by decide +kernel)

end Server
end Boltq.Gateway
