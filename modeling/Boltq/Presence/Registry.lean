import Boltq.Lib.Tables

namespace Boltq.Presence
open Std Lib TreeMap Option

inductive State where
  | online
  | away
  | offline
  deriving DecidableEq, Repr

structure Session where
  userID : String
  deviceID : String
  nodeID : String
  region : String
  connID : Nat
  state : Option State
  since : Nat
  lastSeen : Nat
  deriving DecidableEq, Repr

def Session.Expired (s : Session) (now : Nat) (ttl : Int) : Prop :=
  ttl < now - s.lastSeen
  deriving Decidable

structure Config where
  ttl : Int
  nodeID : String
  region : String

def Config.applyDefaults (cfg : Config) : Config :=
  if cfg.ttl ≤ 0 then { cfg with ttl := 90 * 10 ^ 9 } else cfg

structure Registry where
  cfg : Config
  users : TreeMap String (TreeMap String Session)

def Registry.new (cfg : Config) : Registry := ⟨cfg.applyDefaults, ∅⟩

section
variable (r : Registry)

def Registry.devices (userID : String) : TreeMap String Session :=
  (r.users[userID]?).getD ∅

def Registry.session (userID deviceID : String) : Option Session :=
  (r.devices userID)[deviceID]?

def Registry.online (userID : String) : Bool :=
  !(r.devices userID).isEmpty

def Registry.stored (s : Session) (now : Nat) : Session :=
  { s with
    nodeID := if s.nodeID = "" then r.cfg.nodeID else s.nodeID
    region := if s.region = "" then r.cfg.region else s.region
    state := s.state <|> some .online
    since := now
    lastSeen := now }

def Registry.bind (s : Session) (now : Nat) : Except String Registry :=
  if s.userID = "" ∨ s.deviceID = "" then
    .error "presence: user_id and device_id are required"
  else
    let devices := (r.devices s.userID).insert s.deviceID (r.stored s now)
    .ok { r with users := r.users.insert s.userID devices }

def Registry.touch (userID deviceID : String) (now : Nat) : Registry × Bool :=
  match r.session userID deviceID with
  | none => (r, false)
  | some s =>
    let devices := (r.devices userID).insert deviceID { s with lastSeen := now }
    ({ r with users := r.users.insert userID devices }, true)

def Registry.keep (userID : String) (devices : TreeMap String Session) : Registry :=
  if devices.isEmpty then { r with users := r.users.erase userID }
  else { r with users := r.users.insert userID devices }

def Registry.unbind (userID deviceID : String) (connID : Option Nat) : Registry × Bool :=
  match r.session userID deviceID with
  | none => (r, false)
  | some s =>
    if ∃ id ∈ connID, s.connID ≠ id then (r, false)
    else (r.keep userID ((r.devices userID).erase deviceID), true)

def Registry.sweep (now : Nat) : Registry :=
  let live := r.users.map (fun _ devices =>
    devices.filter (fun _ s => !decide (s.Expired now r.cfg.ttl)))
  { r with users := live.filter (fun _ devices => !devices.isEmpty) }

end

theorem Registry.session_new (cfg : Config) (u d : String) : (new cfg).session u d = none := by
  unfold session devices new
  rw [getElem?_emptyc]
  exact getElem?_emptyc

theorem Registry.online_iff {r : Registry} : r.online u = true ↔ ∃ d s, r.session u d = some s := by
  unfold online session
  rw [Bool.not_eq_true', isEmpty_eq_false_iff_exists_mem]
  simp only [mem_iff_isSome_getElem?, isSome_iff_exists]

section Table
variable {r : Registry} {u v d e : String} {ds : TreeMap String Session} {s : Session}

theorem Registry.session_insert :
    session { r with users := r.users.insert v ds } u d = if u = v then ds[d]? else r.session u d := by
  unfold session devices
  dsimp only
  split
  · rename_i he
    rw [he, getElem?_insert_self, getD_some]
  · rename_i hne
    rw [getElem?_insert_other _ hne]

theorem Registry.session_keep :
    (r.keep v ds).session u d = if u = v then ds[d]? else r.session u d := by
  unfold keep
  split
  · rename_i hempty
    unfold session devices
    dsimp only
    split
    · rename_i he
      rw [he, getElem?_erase_self, getD_none, getElem?_emptyc,
        getElem?_of_isEmpty hempty]
    · rename_i hne
      rw [getElem?_erase_other hne]
  · exact session_insert

theorem Registry.session_store :
    session { r with users := r.users.insert v ((r.devices v).insert e s) } u d =
      if u = v ∧ d = e then some s else r.session u d := by
  rw [session_insert]
  by_cases hu : u = v
  · by_cases hd : d = e
    · rw [if_pos hu, if_pos ⟨hu, hd⟩, hd, getElem?_insert_self]
    · rw [if_pos hu, if_neg (fun h => hd h.2), getElem?_insert_other _ hd, hu, session]
  · rw [if_neg hu, if_neg (fun h => hu h.1)]

end Table

section Lookups
variable {r r' : Registry} {s : Session} {u v d e : String} {now : Nat}

section
variable (h : r.bind s now = .ok r')
include h

theorem Registry.bind_session :
    r'.session u d = if u = s.userID ∧ d = s.deviceID then some (r.stored s now)
      else r.session u d := by
  unfold bind at h
  split at h
  · cases h
  · cases h
    exact session_store

theorem Registry.bind_cfg : r'.cfg = r.cfg := by
  unfold bind at h
  split at h
  · cases h
  · cases h
    rfl

theorem Registry.bind_named : s.userID ≠ "" ∧ s.deviceID ≠ "" := by
  unfold bind at h
  split at h
  · cases h
  · rename_i hn
    exact not_or.mp hn

end

theorem Registry.bind_error (h : r.bind s now = .error text) : s.userID = "" ∨ s.deviceID = "" := by
  unfold bind at h
  split at h
  · assumption
  · cases h

theorem Registry.touch_session : (r.touch v e now).1.session u d = if u = v ∧ d = e then
      (r.session u d).map (fun s => { s with lastSeen := now }) else r.session u d := by
  unfold touch
  split
  · rename_i he
    split
    · rename_i h
      rw [h.1, h.2, he, map_none]
    · rfl
  · rename_i s he
    rw [session_store]
    split
    · rename_i h
      rw [h.1, h.2, he, map_some]
    · rfl

theorem Registry.touch_cfg : (r.touch v e now).1.cfg = r.cfg := by
  unfold touch
  split <;> rfl

theorem Registry.unbind_session : (r.unbind v e (some connID)).1.session u d =
      if u = v ∧ d = e then (r.session u d).filter (fun s => s.connID ≠ connID)
      else r.session u d := by
  unfold unbind
  split
  · rename_i he
    split
    · rename_i h
      rw [h.1, h.2, he, filter_none]
    · rfl
  · rename_i s he
    split
    · rename_i hother
      obtain ⟨_, ⟨⟩, hne⟩ := hother
      split
      · rename_i h
        rw [h.1, h.2, he, filter_some, if_pos (decide_eq_true hne)]
      · rfl
    · rename_i hmine
      rw [session_keep]
      by_cases hu : u = v
      · by_cases hd : d = e
        · rw [if_pos hu, if_pos ⟨hu, hd⟩, hu, hd, he, getElem?_erase_self,
            filter_some, if_neg]
          exact fun hne => hmine ⟨connID, rfl, of_decide_eq_true hne⟩
        · rw [if_pos hu, if_neg (fun h => hd h.2), getElem?_erase_other hd, hu, session]
      · rw [if_neg hu, if_neg (fun h => hu h.1)]

theorem Registry.unbind_cfg : (r.unbind v e connID).1.cfg = r.cfg := by
  unfold unbind keep
  split
  · rfl
  split
  · rfl
  · dsimp only
    split <;> rfl

theorem Registry.sweep_session : (r.sweep now).session u d =
      (r.session u d).filter (fun s => !decide (s.Expired now r.cfg.ttl)) := by
  unfold session devices sweep
  dsimp only
  rw [getElem?_filter', getElem?_map]
  cases r.users[u]? with
  | none =>
    simp only [map_none, filter_none, getD_none, getElem?_emptyc]
  | some ds =>
    rw [map_some, filter_some, getD_some]
    split
    · rw [getD_some, getElem?_filter']
    rename_i hempty
    rw [Bool.not_eq_true, Bool.not_eq_false'] at hempty
    rw [getD_none, getElem?_emptyc, ← getElem?_of_isEmpty hempty,
      getElem?_filter']

end Lookups

end Boltq.Presence
