import Boltq.Lib.Run
import Boltq.Presence.Registry

namespace Boltq.Presence
open Std Lib List Option Function

inductive Phase where
  | greeting
  | reported
  | bound
  | closed
  deriving DecidableEq, Repr

structure Connection where
  node : String
  userID : String
  deviceID : String
  session : Nat
  phase : Phase
  pinged : Nat
  deriving DecidableEq, Repr

def Connection.heard (c : Connection) (now : Nat) : Connection := { c with pinged := now }

structure GatewaySession where
  node : String
  userID : String
  deviceID : String
  deriving DecidableEq, Repr

structure Cluster where
  registries : String → Registry
  sessions : List GatewaySession
  conns : List Connection
  now : Nat

inductive Op where
  | hello (node userID deviceID : String) (resume : Option Nat)
  | report (i : Nat)
  | bind (i : Nat)
  | ping (i : Nat)
  | heartbeat (i : Nat)
  | teardown (i : Nat)
  | sweep (node : String)
  | tick (d : Nat)

namespace Cluster

def start (cfg : String → Config) : Cluster := ⟨fun node => .new (cfg node), [], [], 0⟩

section
variable (w : Cluster)

def setRegistry (node : String) (r : Registry) : Cluster :=
  { w with registries := update w.registries node r }

def setConn (i : Nat) (c : Connection) : Cluster := { w with conns := w.conns.set i c }

def inPhase (i : Nat) (p : Phase) : Option Connection :=
  (w.conns[i]?).filter (fun c => c.phase = p)

def device (c : Connection) : String :=
  (w.sessions[c.session]?).elim "" GatewaySession.deviceID

def attach (node userID deviceID : String) (resume : Option Nat) : List GatewaySession × Nat :=
  let fresh := (w.sessions ++ [⟨node, userID, deviceID⟩], w.sessions.length)
  match resume with
  | none => fresh
  | some id =>
    match w.sessions[id]? with
    | none => fresh
    | some s =>
      -- a session that a socket still holds is not resumed
      if s.node = node ∧ s.userID = userID ∧ ∀ c ∈ w.conns, c.session = id → c.phase = .closed then
        (w.sessions.set id { s with deviceID }, id)
      else fresh

def announcement (i : Nat) (c : Connection) : Session where
  userID := c.userID
  deviceID := c.deviceID
  nodeID := c.node
  region := (w.registries c.node).cfg.region
  connID := i
  state := some .online
  since := 0
  lastSeen := 0

end

def report (owner : String → String) (w : Cluster) (i : Nat) (c : Connection) : Cluster :=
  let told := w.setConn i { c with phase := .reported }
  match (w.registries (owner c.userID)).bind (w.announcement i c) w.now with
  | .error _ => told
  | .ok r => told.setRegistry (owner c.userID) r

def bindLocal (w : Cluster) (i : Nat) (c : Connection) : Cluster :=
  match (w.registries c.node).bind (w.announcement i c) w.now with
  | .error _ => w.setConn i { c with phase := .closed }
  | .ok r => (w.setConn i { c with phase := .bound, pinged := w.now }).setRegistry c.node r

def touchLocal (w : Cluster) (c : Connection) : Cluster :=
  w.setRegistry c.node ((w.registries c.node).touch c.userID (w.device c) w.now).1

def teardown (w : Cluster) (i : Nat) (c : Connection) : Cluster :=
  let r := ((w.registries c.node).unbind c.userID (w.device c) (some i)).1
  (w.setConn i { c with phase := .closed }).setRegistry c.node r

def step (owner : String → String) (w : Cluster) : Op → Option Cluster
  | .hello node userID deviceID resume =>
    if deviceID = "" then none
    else
      let (sessions, id) := w.attach node userID deviceID resume
      let c := ⟨node, userID, deviceID, id, .greeting, w.now⟩
      some { w with sessions, conns := w.conns ++ [c] }
  | .report i => (w.inPhase i .greeting).map (w.report owner i)
  | .bind i => (w.inPhase i .reported).map (w.bindLocal i)
  | .ping i =>
    (w.inPhase i .bound).map (fun c => (w.setConn i (c.heard w.now)).touchLocal c)
  | .heartbeat i => (w.inPhase i .bound).map w.touchLocal
  | .teardown i => (w.inPhase i .bound).map (w.teardown i)
  | .sweep node => some (w.setRegistry node ((w.registries node).sweep w.now))
  | .tick d => some { w with now := w.now + d }

def Step (owner : String → String) (w : Cluster) (op : Op) (w' : Cluster) : Prop :=
  w.step owner op = some w'

end Cluster

def Cluster.ownerOf (owner : String → String) (w : Cluster) (u : String) : Registry :=
  w.registries (owner u)

def Cluster.Doubled (w : Cluster) (i : Nat) (c : Connection) : Prop :=
  ∃ j < w.conns.length, j ≠ i ∧ ∃ c' ∈ w.conns[j]?, c'.userID = c.userID ∧
    c'.deviceID = c.deviceID ∧ c'.phase = .bound

instance (w : Cluster) (i : Nat) (c : Connection) : Decidable (w.Doubled i c) :=
  inferInstanceAs (Decidable (∃ j < _, _ ∧ ∃ c' ∈ w.conns[j]?, _))

/-- What is left aside for a user: a hello on a node other than the owner's, a ping that
finds the session swept, and the teardown of the connection a device's session is under
while another one of the device is up. -/
def Homely (owner : String → String) (u : String) (w : Cluster) : Op → Prop
  | .hello node userID _ _ => userID = u → node = owner u
  | .ping i =>
    ∀ c ∈ w.conns[i]?, c.userID = u → ((w.ownerOf owner u).session u c.deviceID).isSome = true
  | .teardown i =>
    ∀ c ∈ w.conns[i]?, c.userID = u →
      ((w.ownerOf owner u).session u c.deviceID).any (fun s => s.connID = i) = true → ¬ w.Doubled i c
  | _ => True

instance (owner : String → String) (u : String) (w : Cluster) :
    (op : Op) → Decidable (Homely owner u w op)
  | .hello .. => inferInstanceAs (Decidable (_ → _))
  | .ping i => inferInstanceAs (Decidable (∀ c ∈ w.conns[i]?, _))
  | .teardown i => inferInstanceAs (Decidable (∀ c ∈ w.conns[i]?, _))
  | .report _ | .bind _ | .heartbeat _ | .sweep _ | .tick _ => inferInstanceAs (Decidable True)

structure Mirrors (u : String) (r : Registry) (conns : List Connection) (now : Nat) : Prop where
  /-- An entry is for a connection that is up. -/
  live : ∀ {d : String} {s : Session}, r.session u d = some s → ∃ c, conns[s.connID]? = some c ∧ c.userID = u ∧
    c.deviceID = d ∧ (c.phase = .reported ∨ c.phase = .bound)
  identified : ∀ {d : String} {s : Session}, r.session u d = some s → u ≠ "" ∧ d ≠ ""
  past : ∀ {i : Nat} {c : Connection}, conns[i]? = some c → c.userID = u → c.phase = .bound → c.pinged ≤ now
  /-- A connection that is up has an entry at least as fresh as its last ping, or
  that ping has lapsed. -/
  fresh : ∀ {i : Nat} {c : Connection}, conns[i]? = some c → c.userID = u → c.phase = .bound →
    (∃ s, r.session u c.deviceID = some s ∧ c.pinged ≤ s.lastSeen) ∨ c.pinged + r.cfg.ttl < now

section Mirrors
variable {u : String} {r r' : Registry} {conns : List Connection} {now : Nat} {i : Nat}
  {c c' : Connection}

section
variable (h : Mirrors u r conns now)
include h

theorem Mirrors.congr (hs : ∀ d, r'.session u d = r.session u d)
    (hc : r'.cfg = r.cfg) : Mirrors u r' conns now where
  live := fun {d s} he => h.live (s := s) (by rw [← hs, he])
  identified := fun {d s} he => h.identified (s := s) (by rw [← hs, he])
  past := h.past
  fresh := by
    intro i c hi hu hp
    rw [hs, hc]
    exact h.fresh hi hu hp

theorem Mirrors.tick (d : Nat) : Mirrors u r conns (now + d) where
  live := h.live
  identified := h.identified
  past := fun hi hu hp => Nat.le_add_right_of_le (h.past hi hu hp)
  fresh := fun hi hu hp => (h.fresh hi hu hp).imp_right (fun hl => by omega)

theorem Mirrors.sweep : Mirrors u (r.sweep now) conns now where
  live := by
    intro d s he
    rw [Registry.sweep_session] at he
    exact h.live (eq_some_of_filter_eq_some he)
  identified := by
    intro d s he
    rw [Registry.sweep_session] at he
    exact h.identified (eq_some_of_filter_eq_some he)
  past := h.past
  fresh := by
    intro i c hi hu hp
    rcases h.fresh hi hu hp with ⟨s, hs, hle⟩ | hl
    · rw [Registry.sweep_session, hs, filter_some]
      by_cases hx : s.Expired now r.cfg.ttl
      · refine .inr ?_
        have hlapsed : r.cfg.ttl < now - s.lastSeen := hx
        show c.pinged + r.cfg.ttl < now
        omega
      · exact .inl ⟨s, if_pos (by rw [decide_eq_false hx]; rfl), hle⟩
    · exact .inr hl

theorem Mirrors.hello (hp : c.phase = .greeting) : Mirrors u r (conns ++ [c]) now where
  live := by
    intro d s he
    obtain ⟨c', hc', hrest⟩ := h.live he
    exact ⟨c', by rw [List.getElem?_append_left (List.getElem?_eq_some_iff.mp hc').1, hc'], hrest⟩
  identified := h.identified
  past := by
    intro i c' hi hu hb
    rcases getElem?_concat_cases hi with ⟨_, rfl⟩ | hi
    · rw [hp] at hb
      cases hb
    · exact h.past hi hu hb
  fresh := by
    intro i c' hi hu hb
    rcases getElem?_concat_cases hi with ⟨_, rfl⟩ | hi
    · rw [hp] at hb
      cases hb
    · exact h.fresh hi hu hb

section
variable (hi : conns[i]? = some c)
include hi

theorem Mirrors.other (hc : c.userID ≠ u)
    (hc' : c'.userID = c.userID) : Mirrors u r (conns.set i c') now where
  live := by
    intro d s he
    obtain ⟨b, hb, hu, hrest⟩ := h.live he
    have hne : s.connID ≠ i := by
      rintro rfl
      rw [hi] at hb
      exact hc (some.inj hb ▸ hu)
    exact ⟨b, by rw [getElem?_set_ne hne.symm, hb], hu, hrest⟩
  identified := h.identified
  past := by
    intro j b hj hu
    rcases getElem?_set_cases hj with ⟨rfl, rfl⟩ | ⟨_, hj⟩
    · exact absurd (hc'.symm.trans hu) hc
    · exact h.past hj hu
  fresh := by
    intro j b hj hu
    rcases getElem?_set_cases hj with ⟨rfl, rfl⟩ | ⟨_, hj⟩
    · exact absurd (hc'.symm.trans hu) hc
    · exact h.fresh hj hu

theorem Mirrors.set
    (hu : c'.userID = c.userID) (hd : c'.deviceID = c.deviceID)
    (hup : ∀ d s, r.session u d = some s → s.connID = i → c'.phase = .reported ∨ c'.phase = .bound)
    (hpast : c'.phase = .bound → c'.pinged ≤ now)
    (hfresh : c'.phase = .bound → ∃ s, r.session u c'.deviceID = some s ∧ c'.pinged ≤ s.lastSeen) :
    Mirrors u r (conns.set i c') now where
  live := by
    intro d s he
    obtain ⟨b, hb, hbu, hbd, hbp⟩ := h.live he
    by_cases hsi : s.connID = i
    · rw [hsi, hi] at hb
      cases hb
      refine ⟨c', ?_, hu.trans hbu, hd.trans hbd, hup d s he hsi⟩
      rw [hsi, List.getElem?_set_self (List.getElem?_eq_some_iff.mp hi).1]
    · exact ⟨b, by rw [List.getElem?_set_ne (Ne.symm hsi), hb], hbu, hbd, hbp⟩
  identified := h.identified
  past := by
    intro j b hj hbu hbp
    rcases getElem?_set_cases hj with ⟨rfl, rfl⟩ | ⟨_, hj⟩
    · exact hpast hbp
    · exact h.past hj hbu hbp
  fresh := by
    intro j b hj hbu hbp
    rcases getElem?_set_cases hj with ⟨rfl, rfl⟩ | ⟨_, hj⟩
    · exact .inl (hfresh hbp)
    · exact h.fresh hj hbu hbp

theorem Mirrors.bind (hc : c.userID = u)
    (hp : c.phase = .reported ∨ c.phase = .bound) {s : Session}
    (hd : s.deviceID = c.deviceID) (hid : s.connID = i) (hb : r.bind s now = .ok r') :
    Mirrors u r' conns now where
  live := by
    intro d x hx
    rw [Registry.bind_session hb] at hx
    split at hx
    · rename_i he
      cases hx
      exact ⟨c, hid ▸ hi, hc, (hd.symm.trans he.2.symm), hp⟩
    · exact h.live hx
  identified := by
    intro d x hx
    rw [Registry.bind_session hb] at hx
    split at hx
    · rename_i he
      rw [he.1, he.2]
      exact Registry.bind_named hb
    · exact h.identified hx
  past := h.past
  fresh := by
    intro j b hj hbu hbp
    rw [Registry.bind_session hb, Registry.bind_cfg hb]
    split
    · exact .inl ⟨_, rfl, h.past hj hbu hbp⟩
    · exact h.fresh hj hbu hbp

end

theorem Mirrors.touch (d : String) : Mirrors u (r.touch u d now).1 conns now where
  live := by
    intro e x hx
    rw [Registry.touch_session] at hx
    split at hx
    · obtain ⟨s, hs, rfl⟩ := map_eq_some_iff.mp hx
      obtain ⟨b, hb⟩ := h.live hs
      exact ⟨b, hb⟩
    · exact h.live hx
  identified := by
    intro e x hx
    rw [Registry.touch_session] at hx
    split at hx
    · obtain ⟨s, hs, rfl⟩ := map_eq_some_iff.mp hx
      exact h.identified hs
    · exact h.identified hx
  past := h.past
  fresh := by
    intro j b hj hbu hbp
    rw [Registry.touch_session, Registry.touch_cfg]
    rcases h.fresh hj hbu hbp with ⟨s, hs, hle⟩ | hl
    · rw [hs]
      split
      · exact .inl ⟨_, rfl, h.past hj hbu hbp⟩
      · exact .inl ⟨s, rfl, hle⟩
    · exact .inr hl

theorem Mirrors.unbind (hi : conns[i]? = some c)
    (hsole : (∃ s, r.session u c.deviceID = some s ∧ s.connID = i) →
      ∀ j b, conns[j]? = some b → j ≠ i → b.userID = u → b.deviceID = c.deviceID →
        b.phase ≠ .bound) (hc' : c'.phase = .closed) :
    Mirrors u (r.unbind u c.deviceID (some i)).1 (conns.set i c') now where
  live := by
    intro d x hx
    rw [Registry.unbind_session] at hx
    have hne : x.connID ≠ i ∧ r.session u d = some x := by
      split at hx
      · obtain ⟨hx, hid⟩ := filter_eq_some_iff.mp hx
        exact ⟨of_decide_eq_true hid, hx⟩
      rename_i hother
      refine ⟨fun hid => hother ⟨rfl, ?_⟩, hx⟩
      obtain ⟨b, hb, _, hbd, _⟩ := h.live hx
      rw [hid, hi] at hb
      cases hb
      exact hbd.symm
    obtain ⟨b, hb, hrest⟩ := h.live hne.2
    exact ⟨b, by rw [getElem?_set_ne hne.1.symm, hb], hrest⟩
  identified := by
    intro d x hx
    rw [Registry.unbind_session] at hx
    split at hx
    · exact h.identified (eq_some_of_filter_eq_some hx)
    · exact h.identified hx
  past := by
    intro j b hj hbu hbp
    rcases getElem?_set_cases hj with ⟨rfl, rfl⟩ | ⟨_, hj⟩
    · rw [hc'] at hbp
      cases hbp
    · exact h.past hj hbu hbp
  fresh := by
    intro j b hj hbu hbp
    rcases getElem?_set_cases hj with ⟨rfl, rfl⟩ | ⟨hji, hj⟩
    · rw [hc'] at hbp
      cases hbp
    rw [Registry.unbind_session, Registry.unbind_cfg]
    rcases h.fresh hj hbu hbp with ⟨s, hs, hle⟩ | hl
    · rw [hs]
      split
      · rename_i he
        by_cases hid : s.connID = i
        · exact absurd hbp (hsole ⟨s, he.2 ▸ hs, hid⟩ j b hj hji hbu he.2)
        · exact .inl ⟨s, by rw [filter_some, if_pos (decide_eq_true hid)], hle⟩
      · exact .inl ⟨s, rfl, hle⟩
    · exact .inr hl

theorem Mirrors.online (hc : c ∈ conns) (hu : c.userID = u)
    (hp : c.phase = .bound) (hping : now - c.pinged ≤ r.cfg.ttl) : r.online u = true := by
  obtain ⟨i, hi⟩ := mem_iff_getElem?.mp hc
  rcases h.fresh hi hu hp with ⟨s, hs, _⟩ | hl
  · exact Registry.online_iff.mpr ⟨_, s, hs⟩
  · omega

theorem Mirrors.offline (hc : ∀ c ∈ conns, c.userID = u → c.phase = .greeting ∨ c.phase = .closed) :
    r.online u = false := by
  rw [Bool.eq_false_iff]
  intro hon
  obtain ⟨d, s, hs⟩ := Registry.online_iff.mp hon
  obtain ⟨c, hi, hu, _, hup⟩ := h.live hs
  rcases hc c (mem_of_getElem? hi) hu with hp | hp <;> rw [hp] at hup <;> simp at hup

end

end Mirrors

structure Attached (owner : String → String) (u : String) (w : Cluster) : Prop where
  home : ∀ c ∈ w.conns, c.userID = u → c.node = owner u
  held : ∀ c ∈ w.conns, ∃ s, w.sessions[c.session]? = some s ∧ s.userID = c.userID
  named : ∀ c ∈ w.conns, c.userID = u → c.phase ≠ .closed → w.device c = c.deviceID

section Step
variable {owner : String → String} {u : String} {w w' : Cluster} {i : Nat} {c c' : Connection}

theorem Attached.set (h : Attached owner u w) (hi : w.conns[i]? = some c)
    (hid : (c'.node, c'.userID, c'.deviceID, c'.session) =
      (c.node, c.userID, c.deviceID, c.session)) (hp : c.phase ≠ .closed) :
    Attached owner u (w.setConn i c') := by
  simp only [Prod.mk.injEq] at hid
  obtain ⟨hnode, huser, hdevice, hsession⟩ := hid
  have hc := mem_of_getElem? hi
  have hcases : ∀ b ∈ (w.setConn i c').conns, b = c' ∨ b ∈ w.conns :=
    fun b hb => (mem_or_eq_of_mem_set hb).symm
  refine ⟨?_, ?_, ?_⟩
  · intro b hb hu
    rcases hcases b hb with rfl | hb
    · exact hnode.trans (h.home c hc (huser.symm.trans hu))
    · exact h.home b hb hu
  · intro b hb
    rcases hcases b hb with rfl | hb
    · rw [hsession, huser]
      exact h.held c hc
    · exact h.held b hb
  · intro b hb hu hbp
    rcases hcases b hb with rfl | hb
    · unfold Cluster.device
      rw [hsession, hdevice]
      exact h.named c hc (huser.symm.trans hu) hp
    · exact h.named b hb hu hbp

theorem Attached.congr (h : Attached owner u w) (hc : w'.conns = w.conns)
    (hs : w'.sessions = w.sessions) : Attached owner u w' := by
  obtain ⟨hhome, hheld, hnamed⟩ := h
  unfold Cluster.device at hnamed
  rw [← hc] at hhome hheld hnamed
  rw [← hs] at hheld hnamed
  exact ⟨hhome, hheld, hnamed⟩

theorem Cluster.attach_cases {node userID deviceID : String} {resume : Option Nat}
    {sessions : List GatewaySession} {id : Nat}
    (h : w.attach node userID deviceID resume = (sessions, id)) :
    (∃ s, sessions[id]? = some s ∧ s.userID = userID ∧ s.deviceID = deviceID) ∧
    (∀ j ≠ id, ∀ s, w.sessions[j]? = some s → sessions[j]? = some s) ∧
    (∀ s, w.sessions[id]? = some s →
      s.userID = userID ∧ ∀ c ∈ w.conns, c.session = id → c.phase = .closed) := by
  have hfresh : (w.sessions ++ [⟨node, userID, deviceID⟩], w.sessions.length) = (sessions, id) →
      (∃ s, sessions[id]? = some s ∧ s.userID = userID ∧ s.deviceID = deviceID) ∧
      (∀ j ≠ id, ∀ s, w.sessions[j]? = some s → sessions[j]? = some s) ∧
      (∀ s, w.sessions[id]? = some s →
        s.userID = userID ∧ ∀ c ∈ w.conns, c.session = id → c.phase = .closed) := by
    rintro ⟨⟩
    refine ⟨⟨_, List.getElem?_concat_length, rfl, rfl⟩, ?_, ?_⟩
    · intro j _ s hj
      rw [List.getElem?_append_left (List.getElem?_eq_some_iff.mp hj).1, hj]
    · intro s hs
      rw [List.getElem?_eq_none (Nat.le_refl _)] at hs
      cases hs
  unfold attach at h
  dsimp only at h
  split at h
  · exact hfresh h
  rename_i id'
  split at h
  · exact hfresh h
  rename_i s hs
  split at h
  · rename_i hmine
    cases h
    refine ⟨⟨{ s with deviceID }, ?_, hmine.2.1, rfl⟩, ?_, ?_⟩
    · exact List.getElem?_set_self (List.getElem?_eq_some_iff.mp hs).1
    · intro j hj s' hs'
      rw [List.getElem?_set_ne (Ne.symm hj), hs']
    · intro s' hs'
      rw [hs] at hs'
      cases hs'
      exact hmine.2
  · exact hfresh h

theorem Attached.hello (h : Attached owner u w) {node userID deviceID : String}
    {resume : Option Nat} (hok : Homely owner u w (.hello node userID deviceID resume))
    {sessions : List GatewaySession} {id : Nat}
    (ha : w.attach node userID deviceID resume = (sessions, id)) {p : Phase} {t : Nat} :
    Attached owner u { w with
      sessions, conns := w.conns ++ [⟨node, userID, deviceID, id, p, t⟩] } := by
  obtain ⟨⟨s, hs, hsu, hsd⟩, hothers, hold⟩ := Cluster.attach_cases ha
  refine ⟨?_, ?_, ?_⟩
  · intro b hb hu
    rcases mem_append.mp hb with hb | hb
    · exact h.home b hb hu
    · cases mem_singleton.mp hb
      exact hok hu
  · intro b hb
    rcases mem_append.mp hb with hb | hb
    · obtain ⟨s', hs', hu'⟩ := h.held b hb
      by_cases hid : b.session = id
      · refine ⟨s, by rw [hid]; exact hs, ?_⟩
        rw [hsu, ← hu', (hold s' (hid ▸ hs')).1]
      · exact ⟨s', hothers _ hid s' hs', hu'⟩
    · cases mem_singleton.mp hb
      exact ⟨s, hs, hsu⟩
  · intro b hb hu hbp
    unfold Cluster.device
    rcases mem_append.mp hb with hb | hb
    · obtain ⟨s', hs', hu'⟩ := h.held b hb
      by_cases hid : b.session = id
      · exact absurd ((hold s' (hid ▸ hs')).2 b hb hid) hbp
      · show sessions[b.session]?.elim "" _ = _
        rw [hothers _ hid s' hs', ← hs']
        exact h.named b hb hu hbp
    · cases mem_singleton.mp hb
      show sessions[id]?.elim "" _ = _
      rw [hs, elim_some, hsd]

structure Follows (owner : String → String) (u : String) (w : Cluster) : Prop where
  attached : Attached owner u w
  mirrors : Mirrors u (w.ownerOf owner u) w.conns w.now

theorem Cluster.inPhase_some (h : w.inPhase i p = some c) : w.conns[i]? = some c ∧ c.phase = p := by
  obtain ⟨hc, hp⟩ := filter_eq_some_iff.mp h
  exact ⟨hc, of_decide_eq_true hp⟩

theorem Mirrors.setRegistry (h : node ≠ owner u → Mirrors u (w.ownerOf owner u) conns now)
    (hr : node = owner u → Mirrors u r conns now) :
    Mirrors u ((w.setRegistry node r).ownerOf owner u) conns now := by
  show Mirrors u (update w.registries node r (owner u)) conns now
  by_cases hn : owner u = node
  · rw [hn, update_self]
    exact hr hn.symm
  · rw [update_of_ne hn]
    exact h (Ne.symm hn)

section
variable (h : Follows owner u w)
include h

theorem Follows.report (hi : w.conns[i]? = some c)
    (hp : c.phase = .greeting) : Follows owner u (w.report owner i c) := by
  have hup : c.phase ≠ .closed := by simp [hp]
  have hatt : Attached owner u (w.setConn i { c with phase := .reported }) :=
    h.attached.set hi rfl hup
  have htold :
      Mirrors u (w.ownerOf owner u) (w.conns.set i { c with phase := .reported }) w.now := by
    by_cases hu : c.userID = u
    · exact h.mirrors.set hi rfl rfl (fun _ _ _ _ => .inl rfl) nofun nofun
    · exact h.mirrors.other hi hu rfl
  have hget : (w.conns.set i { c with phase := .reported })[i]? = some { c with phase := .reported } :=
    List.getElem?_set_self (List.getElem?_eq_some_iff.mp hi).1
  unfold Cluster.report
  dsimp only
  split
  · exact ⟨hatt, htold⟩
  rename_i r hr
  refine ⟨hatt.congr rfl rfl, .setRegistry (fun _ => htold) (fun hn => ?_)⟩
  rw [hn] at hr
  by_cases hu : c.userID = u
  · exact htold.bind hget hu (.inl rfl) rfl rfl hr
  refine htold.congr (fun d => ?_) (Registry.bind_cfg hr)
  rw [Registry.bind_session hr, if_neg (fun he => hu he.1.symm)]
  rfl

theorem Follows.bindLocal (hi : w.conns[i]? = some c)
    (hp : c.phase = .reported) : Follows owner u (w.bindLocal i c) := by
  have hup : c.phase ≠ .closed := by simp [hp]
  unfold Cluster.bindLocal
  split
  · rename_i e he
    refine ⟨h.attached.set hi rfl hup, ?_⟩
    by_cases hu : c.userID = u
    · refine h.mirrors.set hi rfl rfl (fun d s hs hid => ?_) nofun nofun
      obtain ⟨b, hb, hbu, hbd, _⟩ := h.mirrors.live hs
      rw [hid, hi] at hb
      cases hb
      obtain ⟨hnu, hnd⟩ := h.mirrors.identified hs
      rcases Registry.bind_error he with hz | hz
      · exact absurd (hbu.symm.trans hz) hnu
      · exact absurd (hbd.symm.trans hz) hnd
    · exact h.mirrors.other hi hu rfl
  · rename_i r hr
    have hatt : Attached owner u (w.setConn i { c with phase := .bound, pinged := w.now }) :=
      h.attached.set hi rfl hup
    refine ⟨hatt.congr rfl rfl, ?_⟩
    by_cases hu : c.userID = u
    · have hn := h.attached.home c (mem_of_getElem? hi) hu
      refine .setRegistry (fun hne => absurd hn hne) (fun _ => ?_)
      rw [hn] at hr
      have hbind : Mirrors u r w.conns w.now := h.mirrors.bind hi hu (.inl hp) rfl rfl hr
      refine hbind.set hi rfl rfl (fun _ _ _ _ => .inr rfl) (fun _ => Nat.le_refl _) (fun _ => ?_)
      exact ⟨_, (Registry.bind_session hr).trans (if_pos ⟨hu.symm, rfl⟩), Nat.le_refl _⟩
    · have hset : Mirrors u (w.ownerOf owner u)
          (w.conns.set i { c with phase := .bound, pinged := w.now }) w.now :=
        h.mirrors.other hi hu rfl
      refine .setRegistry (fun _ => hset) (fun hn => ?_)
      rw [hn] at hr
      refine hset.congr (fun d => ?_) (Registry.bind_cfg hr)
      rw [Registry.bind_session hr, if_neg (fun he => hu he.1.symm)]
      rfl

theorem Follows.heartbeat : Follows owner u (w.touchLocal c) := by
  refine ⟨h.attached.congr rfl rfl, .setRegistry (fun _ => h.mirrors) (fun hn => ?_)⟩
  rw [hn]
  by_cases hu : c.userID = u
  · rw [hu]
    exact h.mirrors.touch _
  · refine h.mirrors.congr (fun d => ?_) Registry.touch_cfg
    rw [Registry.touch_session, if_neg (fun he => hu he.1.symm)]
    rfl

theorem Follows.ping (hok : Homely owner u w (.ping i))
    (hi : w.conns[i]? = some c) (hp : c.phase = .bound) :
    Follows owner u ((w.setConn i (c.heard w.now)).touchLocal c) := by
  have hup : c.phase ≠ .closed := by simp [hp]
  have hc := mem_of_getElem? hi
  have hatt : Attached owner u (w.setConn i (c.heard w.now)) := h.attached.set hi rfl hup
  refine ⟨hatt.congr rfl rfl, ?_⟩
  by_cases hu : c.userID = u
  · have hn := h.attached.home c hc hu
    have hd : (w.setConn i (c.heard w.now)).device c = c.deviceID := h.attached.named c hc hu hup
    obtain ⟨s, hs⟩ := isSome_iff_exists.mp (hok c hi hu)
    refine .setRegistry (fun hne => absurd hn hne) (fun _ => ?_)
    rw [hn, hd, hu]
    refine (h.mirrors.touch c.deviceID).set hi rfl rfl (fun _ _ _ _ => .inr hp)
      (fun _ => Nat.le_refl _) (fun _ => ?_)
    refine ⟨{ s with lastSeen := w.now }, ?_, Nat.le_refl _⟩
    have hsame : (c.heard w.now).deviceID = c.deviceID := rfl
    rw [hsame, Registry.touch_session, if_pos ⟨rfl, rfl⟩, hs, map_some]
  · have hset : Mirrors u (w.ownerOf owner u) (w.conns.set i (c.heard w.now)) w.now :=
      h.mirrors.other hi hu rfl
    refine .setRegistry (fun _ => hset) (fun hn => ?_)
    rw [hn]
    refine hset.congr (fun d => ?_) Registry.touch_cfg
    rw [Registry.touch_session, if_neg (fun he => hu he.1.symm)]
    rfl

theorem Follows.teardown (hok : Homely owner u w (.teardown i))
    (hi : w.conns[i]? = some c) (hp : c.phase = .bound) : Follows owner u (w.teardown i c) := by
  have hup : c.phase ≠ .closed := by simp [hp]
  have hc := List.mem_of_getElem? hi
  have hatt : Attached owner u (w.setConn i { c with phase := .closed }) := h.attached.set hi rfl hup
  refine ⟨hatt.congr rfl rfl, ?_⟩
  by_cases hu : c.userID = u
  · have hn := h.attached.home c hc hu
    refine .setRegistry (fun hne => absurd hn hne) (fun _ => ?_)
    rw [hn, h.attached.named c hc hu hup, hu]
    refine h.mirrors.unbind hi ?_ rfl
    rintro ⟨s, hs, hid⟩ j b hj hji hbu hbd hbp
    have hcurrent : ((w.ownerOf owner u).session u c.deviceID).any (fun s => s.connID = i) = true := by
      rw [hs]
      exact decide_eq_true hid
    exact hok c hi hu hcurrent
      ⟨j, (List.getElem?_eq_some_iff.mp hj).1, hji, b, hj, hbu.trans hu.symm, hbd, hbp⟩
  · have hset : Mirrors u (w.ownerOf owner u) (w.conns.set i { c with phase := .closed }) w.now :=
      h.mirrors.other hi hu rfl
    refine .setRegistry (fun _ => hset) (fun hn => ?_)
    rw [hn]
    refine hset.congr (fun d => ?_) Registry.unbind_cfg
    rw [Registry.unbind_session, if_neg (fun he => hu he.1.symm)]
    rfl

end

theorem Follows.start (cfg : String → Config) : Follows owner u (.start cfg) where
  attached := ⟨nofun, nofun, nofun⟩
  mirrors := {
    live := fun he => by cases (Registry.session_new _ _ _).symm.trans he
    identified := fun he => by cases (Registry.session_new _ _ _).symm.trans he
    past := nofun
    fresh := nofun }

theorem Follows.step (h : Follows owner u w) {op : Op} (hok : Homely owner u w op)
    (hs : Cluster.Step owner w op w') : Follows owner u w' := by
  unfold Cluster.Step at hs
  cases op with
  | hello node userID deviceID resume =>
    simp only [Cluster.step] at hs
    split at hs
    · cases hs
    · cases hs
      exact ⟨h.attached.hello hok rfl, h.mirrors.hello rfl⟩
  | report i =>
    obtain ⟨c, hc, rfl⟩ := map_eq_some_iff.mp hs
    obtain ⟨hi, hp⟩ := Cluster.inPhase_some hc
    exact h.report hi hp
  | bind i =>
    obtain ⟨c, hc, rfl⟩ := map_eq_some_iff.mp hs
    obtain ⟨hi, hp⟩ := Cluster.inPhase_some hc
    exact h.bindLocal hi hp
  | ping i =>
    obtain ⟨c, hc, rfl⟩ := map_eq_some_iff.mp hs
    obtain ⟨hi, hp⟩ := Cluster.inPhase_some hc
    exact h.ping hok hi hp
  | heartbeat i =>
    obtain ⟨c, hc, rfl⟩ := map_eq_some_iff.mp hs
    exact h.heartbeat
  | teardown i =>
    obtain ⟨c, hc, rfl⟩ := map_eq_some_iff.mp hs
    obtain ⟨hi, hp⟩ := Cluster.inPhase_some hc
    exact h.teardown hok hi hp
  | sweep node =>
    cases hs
    refine ⟨h.attached.congr rfl rfl, .setRegistry (fun _ => h.mirrors) (fun hn => ?_)⟩
    rw [hn]
    exact h.mirrors.sweep
  | tick d =>
    cases hs
    exact ⟨h.attached.congr rfl rfl, h.mirrors.tick d⟩

end Step

namespace Cluster

/-- The owner of a user's shard has the user online while a connection has pinged
within the TTL, and offline when no connection is up. -/
theorem owner_tracks_sockets (owner : String → String) (cfg : String → Config) (u : String)
    {ops : List Op} {w : Cluster} (hr : Run (Step owner) (Homely owner u) (start cfg) ops w) :
    (∀ c ∈ w.conns, c.userID = u → c.phase = .bound →
      w.now - c.pinged ≤ (w.ownerOf owner u).cfg.ttl → (w.ownerOf owner u).online u = true) ∧
    ((∀ c ∈ w.conns, c.userID = u → c.phase = .greeting ∨ c.phase = .closed) →
      (w.ownerOf owner u).online u = false) := by
  have h : Follows owner u w :=
    hr.invariant (Follows owner u) (.start cfg) (fun _ _ _ hi hok hs => hi.step hok hs)
  exact ⟨fun c hc hu hp hping => h.mirrors.online hc hu hp hping, h.mirrors.offline⟩

def firstOwns (_ : String) : String := "a"

def minute (node : String) : Config := ⟨60, node, ""⟩

def comesUp (node : String) : List Op :=
  [.hello node "u" "phone" none, .report 0, .bind 0]

def pings : List Op := [.tick 50, .ping 0, .tick 20, .sweep "a"]

/-- On the owner's node: up and pinging is online, and torn down is offline. -/
theorem homely_is_tracked :
    (∃ w, Run (Step firstOwns) (Homely firstOwns "u") (start minute) (comesUp "a" ++ pings) w ∧
      (w.ownerOf firstOwns "u").online "u" = true) ∧
    ∃ w, Run (Step firstOwns) (Homely firstOwns "u") (start minute)
        (comesUp "a" ++ pings ++ [.teardown 0]) w ∧
      (w.ownerOf firstOwns "u").online "u" = false := by
  constructor
  · obtain ⟨w, hr, c, hc, hu, hp, hping⟩ := Run.executed (Homely firstOwns "u") (step firstOwns)
      (start minute) (comesUp "a" ++ pings)
      (fun w => ∃ c ∈ w.conns, c.userID = "u" ∧ c.phase = .bound ∧
        w.now - c.pinged ≤ (w.ownerOf firstOwns "u").cfg.ttl) (by decide +kernel)
    exact ⟨w, hr, (owner_tracks_sockets firstOwns minute "u" hr).1 c hc hu hp hping⟩
  · obtain ⟨w, hr, hc⟩ := Run.executed (Homely firstOwns "u") (step firstOwns) (start minute)
      (comesUp "a" ++ pings ++ [.teardown 0])
      (fun w => ∀ c ∈ w.conns, c.userID = "u" → c.phase = .greeting ∨ c.phase = .closed)
      (by decide +kernel)
    exact ⟨w, hr, (owner_tracks_sockets firstOwns minute "u" hr).2 hc⟩

/-- On another node: the pings refresh only that node's registry, so the owner sweeps
a phone that pinged twenty seconds ago; and the owner is not told of a teardown. -/
theorem away_is_lost : (∃ w, Run (Step firstOwns) always (start minute) (comesUp "b" ++ pings) w ∧
      (∃ c ∈ w.conns, c.userID = "u" ∧ c.phase = .bound ∧
        w.now - c.pinged ≤ (w.ownerOf firstOwns "u").cfg.ttl) ∧
      (w.ownerOf firstOwns "u").online "u" = false) ∧
    ∃ w, Run (Step firstOwns) always (start minute) (comesUp "b" ++ [.teardown 0]) w ∧
      (∀ c ∈ w.conns, c.userID = "u" → c.phase = .greeting ∨ c.phase = .closed) ∧
      (w.ownerOf firstOwns "u").online "u" = true := by
  constructor
  · exact Run.found _ (by decide +kernel)
  · exact Run.found _ (by decide +kernel)

end Cluster

end Boltq.Presence
