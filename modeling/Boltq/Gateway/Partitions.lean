import Boltq.Gateway.Streams
import Boltq.Stream.Cursor

namespace Boltq.Gateway
open Lib Identity Boltq.Stream Std List TreeMap

inductive Request where
  | subscribe
  | unsubscribe
  | history
  | commit

def Request.partition (p : Principal) (topic : Bytes) (count : Nat) : Request → Int
  | subscribe | history => Server.partitionOf ⟨topic, none, 0⟩ p count
  | unsubscribe | commit => 0

structure Running where
  topic : Bytes
  start : Nat

structure Device where
  principal : Principal
  deviceID : Bytes
  maxSubscriptions : Int
  log : TreeMap Bytes (List (Nat × Nat)) := ∅
  cursors : CursorStore := { file := [] }
  subs : TreeMap Bytes Running := ∅
  commits : List (Bytes × Nat) := []

namespace Device

section
variable (d : Device)

def cursorKey (topic : Bytes) (partition : Int) : CursorKey :=
  ⟨topic, partition, nameBytes "user:" ++ d.principal.userID, d.deviceID⟩

def handleSubscribe (topic : Bytes) (fromSeq : Nat)
    (created : Option (List (Nat × Nat))) : Device × Option Nat :=
  if topic = [] ∨ d.maxSubscriptions ≤ d.subs.size then (d, none)
  else
    match d.log[topic]? <|> created with
    | none => (d, none)
    | some parts =>
      let d := { d with log := d.log.insert topic parts }
      let partition := Request.subscribe.partition d.principal topic parts.length
      match if 0 ≤ partition then parts[partition.toNat]? else none with
      | none => (d, none)
      | some (first, next) =>
        let start := if fromSeq = 0 then
          (d.cursors.position (d.cursorKey topic partition)).getD next else fromSeq
        let start := max start first
        ({ d with subs := d.subs.insert (subKey topic partition.toNat) ⟨topic, start⟩ }, some start)

def handleUnsubscribe (topic : Bytes) : Device :=
  { d with subs := d.subs.erase (subKey topic 0) }

def handleCommit (topic : Bytes) (seq : Nat) : Device :=
  if topic = [] ∨ seq = 0 then d
  else
    match d.cursors.commit (d.cursorKey topic 0) seq with
    | (cursors, some _) => { d with cursors }
    | (cursors, none) => { d with cursors, commits := d.commits ++ [(topic, seq)] }

inductive Act where
  | subscribe (topic : Bytes) (fromSeq : Nat) (created : Option (List (Nat × Nat)))
  | unsubscribe (topic : Bytes)
  | commit (topic : Bytes) (seq : Nat)
  | reconnect
  | log (topic : Bytes) (parts : List (Nat × Nat))

def step : Act → Option Device
  | .subscribe topic fromSeq created => some (d.handleSubscribe topic fromSeq created).1
  | .unsubscribe topic => some (d.handleUnsubscribe topic)
  | .commit topic seq => some (d.handleCommit topic seq)
  | .reconnect => some { d with subs := ∅ }
  | .log topic parts =>
    if d.log[topic]?.all (·.length = parts.length) then
      some { d with log := d.log.insert topic parts }
    else none

def Step (a : Act) (d' : Device) : Prop := d.step a = some d'

/-- A subscription falls on partition 0. -/
def FirstOnly : Act → Prop
  | .subscribe topic _ created => ∀ parts ∈ d.log[topic]? <|> created,
    Request.subscribe.partition d.principal topic parts.length = 0
  | _ => True

end

instance (d : Device) (a : Act) : Decidable (d.FirstOnly a) := by
  unfold FirstOnly
  split <;> infer_instance

def Largest (d : Device) (topic : Bytes) (n : Nat) : Prop :=
  (topic, n) ∈ d.commits ∧ ∀ s, (topic, s) ∈ d.commits → s ≤ n

structure Inv (d : Device) : Prop where
  cursor : ∀ topic, (d.cursors.position (d.cursorKey topic 0) = none ∧ ∀ s, (topic, s) ∉ d.commits) ∨
    ∃ n, d.cursors.position (d.cursorKey topic 0) = some n ∧ d.Largest topic n
  keyed : ∀ (k : Bytes) (t : Running), d.subs[k]? = some t → k = subKey t.topic 0

theorem cursorKey_inj {d : Device}
    (h : (d.cursorKey topic 0).string = (d.cursorKey topic' 0).string) : topic = topic' :=
  append_cancel_right h

theorem handleSubscribe_cases (d : Device) (topic : Bytes) (fromSeq : Nat)
    (created : Option (List (Nat × Nat))) :
    (∃ log, d.handleSubscribe topic fromSeq created = ({ d with log }, none)) ∨
    ∃ parts first next partition, (d.log[topic]? <|> created) = some parts ∧
      partition = Request.subscribe.partition d.principal topic parts.length ∧
      parts[partition.toNat]? = some (first, next) ∧ let start := max (if fromSeq = 0 then
        (d.cursors.position (d.cursorKey topic partition)).getD next else fromSeq) first
      d.handleSubscribe topic fromSeq created =
        ({ d with
          log := d.log.insert topic parts
          subs := d.subs.insert (subKey topic partition.toNat) ⟨topic, start⟩ }, some start) := by
  unfold handleSubscribe
  split
  · exact .inl ⟨_, rfl⟩
  split
  · exact .inl ⟨_, rfl⟩
  rename_i parts hparts
  dsimp only
  split
  · exact .inl ⟨_, rfl⟩
  rename_i first next hp
  split at hp
  · exact .inr ⟨parts, first, next, _, hparts, rfl, hp, rfl⟩
  · cases hp

theorem Inv.handleCommit (h : Inv d) : Inv (d.handleCommit topic seq) := by
  unfold Device.handleCommit
  split
  · exact h
  unfold CursorStore.commit
  by_cases hc : d.cursors.closed = true
  · rw [if_pos hc]
    exact ⟨h.cursor, h.keyed⟩
  rw [if_neg hc]
  split
  · rename_i heq
    split at heq <;> cases heq
  rename_i cursors heq
  refine ⟨fun t => ?_, h.keyed⟩
  have hother : t ≠ topic → ∀ s, (t, s) ∈ d.commits ++ [(topic, seq)] ↔ (t, s) ∈ d.commits := by
    intro ht s
    simp [ht]
  split at heq
  · cases heq
    rename_i hany
    obtain ⟨cur, hcur, hle⟩ := (Option.any_eq_true _ _).mp hany
    have hle := of_decide_eq_true hle
    by_cases ht : t = topic
    · subst ht
      rcases h.cursor t with ⟨hnone, -⟩ | ⟨n, hn, hin, hmax⟩
      · cases hnone.symm.trans hcur
      obtain rfl := Option.some.inj (hn.symm.trans hcur)
      refine .inr ⟨n, hn, mem_append_left _ hin, fun s hs => ?_⟩
      rcases mem_append.mp hs with hs | hs
      · exact hmax s hs
      · cases mem_singleton.mp hs
        exact hle
    · have hc := h.cursor t
      simp only [Largest, ← hother ht] at hc
      exact hc
  · cases heq
    rename_i hany
    by_cases ht : t = topic
    · subst ht
      refine .inr ⟨seq, getElem?_insert_self, by simp, fun s hs => ?_⟩
      rcases mem_append.mp hs with hs | hs
      · rcases h.cursor t with ⟨-, hno⟩ | ⟨n, hn, -, hmax⟩
        · exact absurd hs (hno s)
        refine Nat.le_trans (hmax s hs) (Nat.le_of_not_le (fun hle => hany ?_))
        exact (Option.any_eq_true _ _).mpr ⟨n, hn, decide_eq_true hle⟩
      · cases mem_singleton.mp hs
        exact Nat.le_refl _
    · have hpos : (d.cursors.positions.insert (d.cursorKey topic 0).string seq)[
          (d.cursorKey t 0).string]? = d.cursors.position (d.cursorKey t 0) :=
        getElem?_insert_other _ (fun he => ht (cursorKey_inj he))
      have hc := h.cursor t
      simp only [← hpos, Largest, ← hother ht] at hc
      exact hc

theorem Inv.step (h : Inv d) (hf : d.FirstOnly a) (hs : d.step a = some d') : Inv d' := by
  cases a with
  | subscribe topic fromSeq created =>
    cases hs
    rcases d.handleSubscribe_cases topic fromSeq created with ⟨log, he⟩ |
      ⟨parts, first, next, partition, hparts, hpart, -, he⟩
    · rw [he]
      exact ⟨h.cursor, h.keyed⟩
    · have hz : partition = 0 := hpart.trans (hf parts hparts)
      rw [he, hz]
      refine ⟨h.cursor, fun k t hk => ?_⟩
      rcases insert_cases hk with ⟨rfl, rfl⟩ | ⟨-, hk⟩
      · rfl
      · exact h.keyed k t hk
  | unsubscribe topic =>
    cases hs
    exact ⟨h.cursor, fun k t hk => h.keyed k t (getElem?_of_erase hk)⟩
  | commit topic seq =>
    cases hs
    exact h.handleCommit
  | reconnect =>
    cases hs
    exact ⟨h.cursor, fun k t hk => (nomatch getElem?_emptyc.symm.trans hk)⟩
  | log topic parts =>
    simp only [Device.step] at hs
    split at hs <;> cases hs
    exact ⟨h.cursor, h.keyed⟩

/-- Where the keys are of the first partition, the four requests address one partition, a
subscription starts at the largest number committed, or at the first that is kept, and
no stream of a topic is left when it is unsubscribed. -/
theorem default_partitions_agree (p : Principal) (deviceID : Bytes) (maxSubscriptions : Int)
    {acts : List Act} {d : Device}
    (hr : Run Step FirstOnly { principal := p, deviceID, maxSubscriptions } acts d) (topic : Bytes)
    (parts : List (Nat × Nat)) (hp : d.log[topic]? = some parts)
    (hz : Request.subscribe.partition d.principal topic parts.length = 0) :
    (∀ r r' : Request, r.partition d.principal topic parts.length =
      r'.partition d.principal topic parts.length) ∧
    (∀ seq created d' start, (topic, seq) ∈ d.commits →
      d.handleSubscribe topic 0 created = (d', some start) →
        ∃ first next n, parts[0]? = some (first, next) ∧ d.Largest topic n ∧ start = max n first) ∧
    ∀ (k : Bytes) (t : Running), (d.handleUnsubscribe topic).subs[k]? = some t → t.topic ≠ topic := by
  have hi : Inv d := hr.invariant Inv
    ⟨fun _ => .inl ⟨getElem?_emptyc, fun _ => not_mem_nil⟩,
      fun _ _ hk => (nomatch getElem?_emptyc.symm.trans hk)⟩
    (fun _ _ _ hi hc hs => hi.step hc hs)
  have hzero : ∀ r : Request, r.partition d.principal topic parts.length = 0 := by
    intro r
    cases r with
    | subscribe | history => exact hz
    | unsubscribe | commit => rfl
  refine ⟨fun r r' => (hzero r).trans (hzero r').symm, fun seq created d' start hin hs => ?_,
    fun k t hk htopic => ?_⟩
  · rcases d.handleSubscribe_cases topic 0 created with ⟨log, he⟩ |
      ⟨parts', first, next, partition, hparts, rfl, hfirst, he⟩
    · cases he.symm.trans hs
    rw [hp] at hparts
    obtain rfl := Option.some.inj hparts
    rw [hz] at hfirst he
    rcases hi.cursor topic with ⟨-, hno⟩ | ⟨n, hn, hlargest⟩
    · exact absurd hin (hno seq)
    rw [if_pos rfl, hn] at he
    cases he.symm.trans hs
    exact ⟨first, next, n, hfirst, hlargest, rfl⟩
  · have hkey := hi.keyed k t (getElem?_of_erase hk)
    rw [htopic] at hkey
    subst hkey
    cases (getElem?_erase_self).symm.trans hk

def alice : Principal := { userID := nameBytes "alice" }

theorem default_partitions_agree_one : ∃ d, Run Step FirstOnly
      { principal := alice, deviceID := [1], maxSubscriptions := 200 }
      [.log [7] [(4, 9)], .commit [7] 2, .commit [7] 6, .subscribe [7] 0 none] d ∧
    (∃ first next n, [(4, 9)][0]? = some (first, next) ∧ d.Largest [7] n ∧ 6 = max n first) ∧
    ∀ (k : Bytes) (t : Running), (d.handleUnsubscribe [7]).subs[k]? = some t → t.topic ≠ [7] := by
  refine Run.shown (fun d => d.log[([7] : Bytes)]? = some [(4, 9)] ∧ d.principal = alice ∧
    ([7], 2) ∈ d.commits ∧ (d.handleSubscribe [7] 0 none).2 = some 6) (by decide +kernel) ?_
  rintro d hr ⟨hlog, hp, hin, hstart⟩
  obtain ⟨-, hresume, hstop⟩ := default_partitions_agree alice [1] 200 hr [7] [(4, 9)] hlog
    (by rw [hp]; decide +kernel)
  exact ⟨hresume 2 none _ 6 hin (Prod.ext rfl hstart), hstop⟩

/-- A group whose key is of the second partition: what was committed is not resumed from,
and the stream goes on after it is unsubscribed. -/
theorem second_partition_disagrees :
    (∃ r r' : Request, r.partition alice (nameBytes "chat.group.b") 2 ≠
      r'.partition alice (nameBytes "chat.group.b") 2) ∧
    ∃ d, Run Step always { principal := alice, deviceID := [1], maxSubscriptions := 200 }
      [.log (nameBytes "chat.group.b") [(1, 9), (1, 9)], .commit (nameBytes "chat.group.b") 6,
        .subscribe (nameBytes "chat.group.b") 0 none, .unsubscribe (nameBytes "chat.group.b")] d ∧
      d.subs.toList.map (fun p => (p.2.topic, p.2.start)) = [(nameBytes "chat.group.b", 9)] :=
  ⟨⟨.subscribe, .commit, by decide +kernel⟩, Run.found _ (by decide +kernel)⟩

end Device
end Boltq.Gateway
