import Boltq.Identity.Policy

namespace Boltq.Gateway
open Lib Identity Std

structure Subscription where
  topic : Bytes
  partition : Nat
  fromSeq : Nat
  deriving DecidableEq

def subKey (topic : Bytes) (partition : Nat) : Bytes := topic ++ 0 :: decimal partition

structure Session where
  principal : Principal
  owner : Principal
  deviceID : Bytes
  resumeToken : Bytes
  subscriptions : TreeMap Bytes Subscription := ∅
  detachedAt : Option Int := none
  attached : Bool := true

namespace Session

def addSubscription (s : Session) (topic : Bytes) (partition fromSeq : Nat) : Session :=
  { s with subscriptions :=
      s.subscriptions.insert (subKey topic partition) ⟨topic, partition, fromSeq⟩ }

def removeSubscription (s : Session) (topic : Bytes) (partition : Nat) : Session :=
  { s with subscriptions := s.subscriptions.erase (subKey topic partition) }

def advance (s : Session) (topic : Bytes) (partition nextSeq : Nat) : Session :=
  match s.subscriptions[subKey topic partition]? with
  | none => s
  | some sub =>
    if sub.fromSeq < nextSeq then
      { s with subscriptions :=
          s.subscriptions.insert (subKey topic partition) { sub with fromSeq := nextSeq } }
    else s

def reattach (s : Session) (p : Principal) : Session :=
  { s with attached := true, detachedAt := none, principal := p }

def fromSeq (s : Session) (topic : Bytes) (partition : Nat) : Option Nat :=
  s.subscriptions[subKey topic partition]?.map Subscription.fromSeq

section Positions
variable {s : Session} {topic : Bytes} {partition : Nat}

theorem fromSeq_addSubscription (n : Nat) :
    (s.addSubscription topic partition n).fromSeq topic partition = some n := by
  unfold fromSeq addSubscription
  dsimp only
  rw [TreeMap.getElem?_insert_self]
  rfl

theorem fromSeq_removeSubscription :
    (s.removeSubscription topic partition).fromSeq topic partition = none := by
  unfold fromSeq removeSubscription
  dsimp only
  rw [TreeMap.getElem?_erase_self]
  rfl

theorem fromSeq_advance (n : Nat) : (s.advance topic partition n).fromSeq topic partition =
      (s.fromSeq topic partition).map (max n) := by
  unfold fromSeq advance
  cases hs : s.subscriptions[subKey topic partition]? with
  | none =>
    dsimp only
    rw [hs]
    rfl
  | some sub =>
    dsimp only
    split
    · dsimp only
      rw [TreeMap.getElem?_insert_self]
      simp only [Option.map_some, Option.some.injEq]
      omega
    · rw [hs]
      simp only [Option.map_some, Option.some.injEq]
      omega

end Positions
end Session

structure SessionStore where
  resumeWindow : Int
  sessions : TreeMap Bytes Session := ∅

namespace SessionStore

def new (resumeWindow : Int) : SessionStore where
  resumeWindow := if resumeWindow ≤ 0 then 300000000000 else resumeWindow

section
variable (st : SessionStore)

def create (id token : Bytes) (p : Principal) (deviceID : Bytes) : SessionStore :=
  let session : Session := { principal := p, owner := p, deviceID, resumeToken := token }
  { st with sessions := st.sessions.insert id session }

def resume (id token : Bytes) (p : Principal) : Option SessionStore :=
  match st.sessions[id]? with
  | none => none
  | some s =>
    if s.resumeToken ≠ token then none
    else if s.principal.userID ≠ p.userID then none
    else if s.attached then none
    else some { st with sessions := st.sessions.insert id (s.reattach p) }

def modify (id : Bytes) (f : Session → Session) : SessionStore :=
  match st.sessions[id]? with
  | none => st
  | some s => { st with sessions := st.sessions.insert id (f s) }

def detach (id : Bytes) (now : Int) : SessionStore :=
  st.modify id (fun s => { s with attached := false, detachedAt := some now })

def reap (now : Int) : SessionStore :=
  { st with sessions := st.sessions.filter (fun _ s =>
      s.attached || !s.detachedAt.any (fun at_ => at_ < now - st.resumeWindow)) }

end

end SessionStore
end Boltq.Gateway
