import Boltq.Stream.Topics

namespace Boltq.Fanout
open Lib Boltq.Stream Std TreeMap

structure Outcome where
  messageID : String := ""
  topic : String := ""
  partition : Int := 0
  seq : Nat := 0
  timestamp : Int := 0
  deriving DecidableEq

namespace Dedup

structure Entry where
  result : Outcome := {}
  expires : Int
  complete : Bool := false
  deriving DecidableEq

structure Config where
  ttl : Int := 0
  maxEntries : Int := 0
  deriving DecidableEq

def Config.applyDefaults (c : Config) : Config :=
  { c with ttl := if c.ttl ≤ 0 then 600000000000 else c.ttl }

def shardCount : Nat := 64

structure Key where
  sender : String
  clientMsgID : String
  deriving DecidableEq

def Key.string (k : Key) : String := k.sender ++ "\x00" ++ k.clientMsgID

def hashKey (s : String) : Nat :=
  ((nameBytes s).foldl (fun h b => (h ^^^ b.toUInt32) * 16777619) (2166136261 : UInt32)).toNat %
    shardCount

structure Table where
  cfg : Config
  entries : TreeMap String Entry := ∅

namespace Table

def new (cfg : Config) : Table := { cfg := cfg.applyDefaults }

inductive Claim where
  | duplicate (result : Outcome)
  | inFlight
  | claimed
  deriving DecidableEq

def shardSize (t : Table) (s : String) : Nat :=
  (t.entries.filter (fun k _ => hashKey k = hashKey s)).size

def evict (t : Table) (s : String) (now : Int) : Table :=
  if 0 < t.cfg.maxEntries ∧ t.cfg.maxEntries / shardCount ≤ t.shardSize s then
    { t with entries := t.entries.filter (fun k e => ¬ (hashKey k = hashKey s ∧ e.expires < now)) }
  else t

def reserve (t : Table) (s : String) (now : Int) : Table :=
  { t with entries := (t.evict s now).entries.insert s { expires := now + t.cfg.ttl } }

def claim (t : Table) (k : Key) (now : Int) : Table × Claim :=
  match t.entries[k.string]? with
  | none => (t.reserve k.string now, .claimed)
  | some e =>
    if now < e.expires then (t, if e.complete then .duplicate e.result else .inFlight)
    else (t.reserve k.string now, .claimed)

def complete (t : Table) (k : Key) (r : Outcome) (now : Int) : Table :=
  let entry : Entry := { result := r, complete := true, expires := now + t.cfg.ttl }
  { t with entries := t.entries.insert k.string entry }

def abandon (t : Table) (k : Key) : Table :=
  match t.entries[k.string]? with
  | none => t
  | some e => if e.complete then t else { t with entries := t.entries.erase k.string }

def sweep (t : Table) (now : Int) : Table :=
  { t with entries := t.entries.filter (fun _ e => ¬ e.expires < now) }

variable {t : Table} {k s : String} {now : Int}

def Lapsed (t t' : Table) (now : Int) (k : String) : Prop :=
  t'.entries[k]? = t.entries[k]? ∨
    t'.entries[k]? = none ∧ ∃ e, t.entries[k]? = some e ∧ e.expires < now

theorem filter_lapsed (h : ∀ e, t.entries[k]? = some e → p k e = false → e.expires < now) :
    Lapsed t { t with entries := t.entries.filter p } now k := by
  unfold Lapsed
  dsimp only
  rw [getElem?_filter']
  cases hk : t.entries[k]? with
  | none => exact .inl rfl
  | some e =>
    cases hp : p k e with
    | true => exact .inl (by simp [Option.filter, hp])
    | false => exact .inr ⟨by simp [Option.filter, hp], e, rfl, h e hk hp⟩

theorem sweep_lapsed (t : Table) (now : Int) (k : String) : Lapsed t (t.sweep now) now k :=
  filter_lapsed (fun e _ hp => by simpa using hp)

theorem evict_lapsed (t : Table) (s : String) (now : Int) (k : String) :
    Lapsed t (t.evict s now) now k := by
  unfold evict
  split
  · refine filter_lapsed (fun e _ hp => ?_)
    have hp' : hashKey k = hashKey s ∧ e.expires < now := by simpa using hp
    exact hp'.2
  · exact .inl rfl

theorem reserve_self (t : Table) (s : String) (now : Int) :
    (t.reserve s now).entries[s]? = some { expires := now + t.cfg.ttl } :=
  getElem?_insert_self

theorem reserve_other (h : k ≠ s) : Lapsed t (t.reserve s now) now k := by
  have he : (t.reserve s now).entries[k]? = (t.evict s now).entries[k]? :=
    getElem?_insert_other _ h
  unfold Lapsed
  rw [he]
  exact evict_lapsed t s now k

theorem claim_cases (t : Table) (k : Key) (now : Int) :
    (∃ e, t.entries[k.string]? = some e ∧ now < e.expires ∧
      t.claim k now = (t, if e.complete then .duplicate e.result else .inFlight)) ∨
    ((∀ e, t.entries[k.string]? = some e → e.expires ≤ now) ∧
      t.claim k now = (t.reserve k.string now, .claimed)) := by
  unfold claim
  cases hk : t.entries[k.string]? with
  | none => exact .inr ⟨fun e he => (by cases he), rfl⟩
  | some e =>
    dsimp only
    by_cases hn : now < e.expires
    · exact .inl ⟨e, rfl, hn, if_pos hn⟩
    refine .inr ⟨?_, if_neg hn⟩
    intro e' he
    cases he
    exact Int.not_lt.mp hn

theorem complete_self (t : Table) (k : Key) (r : Outcome) (now : Int) :
    (t.complete k r now).entries[k.string]? =
      some { result := r, complete := true, expires := now + t.cfg.ttl } :=
  getElem?_insert_self

theorem complete_other {key : Key} (h : k ≠ key.string) (r : Outcome) :
    (t.complete key r now).entries[k]? = t.entries[k]? := getElem?_insert_other _ h

theorem abandon_other {key : Key} (h : k ≠ key.string) :
    (t.abandon key).entries[k]? = t.entries[k]? := by
  unfold abandon
  split
  · rfl
  split
  · rfl
  · exact getElem?_erase_other h

theorem abandon_open {key : Key} (h : t.entries[key.string]? = some e) (hc : e.complete = false) :
    (t.abandon key).entries[key.string]? = none := by
  unfold abandon
  rw [h]
  dsimp only
  rw [if_neg (by simp [hc])]
  exact getElem?_erase_self

theorem abandon_le (h : (t.abandon key).entries[k]? = some e) : t.entries[k]? = some e := by
  unfold abandon at h
  split at h
  · exact h
  split at h
  · exact h
  · exact getElem?_of_erase h

@[simp] theorem abandon_cfg (t : Table) (key : Key) : (t.abandon key).cfg = t.cfg := by
  unfold abandon
  split
  · rfl
  split <;> rfl

end Table
end Dedup
end Boltq.Fanout
