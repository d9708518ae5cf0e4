import Boltq.Fanout.Dedup
import Boltq.Streamctl.Forwarding

namespace Boltq.Fanout
open Lib Boltq.Stream Streamctl Std Option

def kindDirect : String := "direct"
def kindGroup : String := "group"

def topicDirectPrefix : String := "chat.direct."
def topicGroupPrefix : String := "chat.group."
def topicInboxPrefix : String := "chat.inbox."

def conversationTopic (kind conversationID : String) : String :=
  if kind = kindGroup then topicGroupPrefix ++ conversationID
  else topicDirectPrefix ++ conversationID

def inboxTopic (userID : String) : String := topicInboxPrefix ++ userID

def headerSender : Bytes := nameBytes "sender"
def headerClientMsgID : Bytes := nameBytes "client_msg_id"
def headerKind : Bytes := nameBytes "kind"
def headerConvID : Bytes := nameBytes "conversation"
def headerConvSeq : Bytes := nameBytes "conv_seq"
def headerConvPart : Bytes := nameBytes "conv_partition"
def headerMessageID : Bytes := nameBytes "message_id"
def headerPointer : Bytes := nameBytes "pointer"

structure Config where
  fanoutOnWriteLimit : Int := 0
  inboxPartitions : Int := 0
  conversationPartitions : Int := 0
  tenant : String := ""
  deriving DecidableEq

def Config.applyDefaults (c : Config) : Config :=
  { c with
    fanoutOnWriteLimit := if c.fanoutOnWriteLimit ≤ 0 then 256 else c.fanoutOnWriteLimit
    inboxPartitions := if c.inboxPartitions ≤ 0 then 1 else c.inboxPartitions
    conversationPartitions := if c.conversationPartitions ≤ 0 then 16 else c.conversationPartitions }

structure Message where
  kind : String
  conversationID : String
  senderID : String
  clientMsgID : String
  deriving DecidableEq

def Message.topic (m : Message) : String := conversationTopic m.kind m.conversationID

def Message.dedupKey (m : Message) : Dedup.Key := ⟨m.senderID, m.clientMsgID⟩

structure SendRequest extends Message where
  tenant : String
  payload : Bytes := []
  headers : Headers := .empty
  deriving DecidableEq

def SendRequest.normal (r : SendRequest) (cfg : Config) : SendRequest :=
  { r with
    kind := if r.kind = "" then kindDirect else r.kind
    tenant := if r.tenant = "" then cfg.tenant else r.tenant }

def SendRequest.recordHeaders (r : SendRequest) (messageID : String) : Headers :=
  let h := (((r.headers.set headerMessageID (nameBytes messageID)).set headerSender
    (nameBytes r.senderID)).set headerKind (nameBytes r.kind)).set headerConvID
    (nameBytes r.conversationID)
  if r.clientMsgID ≠ "" then h.set headerClientMsgID (nameBytes r.clientMsgID) else h

inductive Strategy where
  | unset
  | onWrite
  | onRead
  deriving DecidableEq

structure SendResult where
  messageID : String
  conversationID : String
  topic : String
  partition : Int
  seq : Nat
  timestamp : Int
  recipients : Nat := 0
  inboxWrites : Nat := 0
  offlineUsers : List String := []
  strategy : Strategy := .unset
  duplicate : Bool := false
  deriving DecidableEq

def SendResult.outcome (out : SendResult) : Outcome :=
  ⟨out.messageID, out.topic, out.partition, out.seq, out.timestamp⟩

def SendRequest.replay (r : SendRequest) (prev : Outcome) : SendResult where
  messageID := prev.messageID
  conversationID := r.conversationID
  topic := prev.topic
  partition := prev.partition
  seq := prev.seq
  timestamp := prev.timestamp
  duplicate := true

structure Posted where
  request : SendRequest
  messageID : String
  result : AppendResult
  deriving DecidableEq

def Posted.record (p : Posted) : Record where
  seq := p.result.seq
  timestamp := p.result.timestamp
  key := nameBytes p.request.conversationID
  headers := p.request.recordHeaders p.messageID
  payload := p.request.payload
  flags := 0
  epoch := 0

def Posted.outcome (p : Posted) : Outcome :=
  ⟨p.messageID, p.request.topic, p.result.partition, p.result.seq, p.result.timestamp⟩

inductive InboxErr where
  | createTopic (e : String)
  | append (e : String)
  deriving DecidableEq

def InboxErr.message (member : String) : InboxErr → String
  | .createTopic e => "create topic " ++ inboxTopic member ++ ": " ++ e
  | .append e => "inbox " ++ member ++ ": " ++ e

inductive SendErr where
  | emptyConversation
  | inFlight
  | noMembers
  | listMembers (e : String)
  | createTopic (topic e : String)
  | append (e : ForwardErr)
  | inbox (e : String)
  deriving DecidableEq

inductive Fate where
  | refused (e : ForwardErr)
  | stored (res : AppendResult)
  | unacknowledged (res : AppendResult) (e : ForwardErr)
  deriving DecidableEq

inductive Phase where
  | entered
  | listing
  | ensuring (members : List String)
  | appending (members : List String) (messageID : String)
  | pointing (members : List String) (out : SendResult)
  | asking (members : List String) (out : SendResult)
  | completing (out : SendResult) (err : Option SendErr)
  | failing (err : SendErr)
  | returned (out : Option SendResult) (err : Option SendErr)
  deriving DecidableEq

structure Attempt where
  request : SendRequest
  phase : Phase
  deriving DecidableEq

inductive Act where
  | claim
  | members (answer : Except String (List String))
  | ensure (err : Option String) (messageID : String)
  | append (fate : Fate)
  | point (errs : List (Option InboxErr))
  | offline (online : List String)
  | complete
  | abandon

structure Deliverer where
  cfg : Config
  dedupe : Option Dedup.Table
  presence : Bool
  logs : TreeMap String (List Posted)
  inboxes : TreeMap String (List Record)
  attempts : List Attempt
  now : Int

namespace Deliverer

def new (cfg : Config) (dedupe : Option Dedup.Config) (presence : Bool) (now : Int) : Deliverer where
  cfg := cfg.applyDefaults
  dedupe := dedupe.map .new
  presence := presence
  logs := ∅
  inboxes := ∅
  attempts := []
  now := now

def posted (d : Deliverer) (topic : String) : List Posted := d.logs[topic]?.getD []

def records (d : Deliverer) (m : Message) : List Posted :=
  (d.posted m.topic).filter (fun p => p.request.toMessage = m)

def tableFor (d : Deliverer) (r : SendRequest) : Option Dedup.Table :=
  if r.clientMsgID ≠ "" then d.dedupe else none

def enter (d : Deliverer) (r : SendRequest) : Attempt :=
  if r.conversationID = "" then ⟨r, .returned none (some .emptyConversation)⟩
  else ⟨r.normal d.cfg, .entered⟩

def claim (d : Deliverer) (r : SendRequest) : Deliverer × Phase :=
  match d.tableFor r with
  | none => (d, .listing)
  | some t =>
    let (t', answer) := t.claim r.dedupKey d.now
    ({ d with dedupe := some t' },
      match answer with
      | .duplicate prev => .returned (some (r.replay prev)) none
      | .inFlight => .returned none (some .inFlight)
      | .claimed => .listing)

section
variable (d : Deliverer)

def completeDedup (r : SendRequest) (out : SendResult) : Deliverer :=
  match d.tableFor r with
  | none => d
  | some t => { d with dedupe := some (t.complete r.dedupKey out.outcome d.now) }

def abandonDedup (r : SendRequest) : Deliverer :=
  match d.tableFor r with
  | none => d
  | some t => { d with dedupe := some (t.abandon r.dedupKey) }

def store (r : SendRequest) (messageID : String) (res : AppendResult) : Deliverer :=
  { d with logs := d.logs.insert r.topic (d.posted r.topic ++ [⟨r, messageID, res⟩]) }

def sent (r : SendRequest) (members : List String) (messageID : String)
    (res : AppendResult) : SendResult where
  messageID := messageID
  conversationID := r.conversationID
  topic := r.topic
  partition := res.partition
  seq := res.seq
  timestamp := res.timestamp
  recipients := members.length
  strategy := if members.length ≤ d.cfg.fanoutOnWriteLimit then .onWrite else .onRead

def pointer (r : SendRequest) (out : SendResult) (member : String) : Record where
  seq := 0
  timestamp := 0
  key := nameBytes member
  headers :=
    let h := ((((((Headers.empty.set headerPointer (nameBytes "1")).set headerMessageID
      (nameBytes out.messageID)).set headerSender (nameBytes r.senderID)).set headerKind
      (nameBytes r.kind)).set headerConvID (nameBytes r.conversationID)).set headerConvSeq
      (decimal out.seq)).set headerConvPart (nameBytes (toString out.partition))
    match (r.recordHeaders out.messageID).entries.lookup headerClientMsgID with
    | some v => h.set headerClientMsgID v
    | none => h
  payload := []
  flags := 0
  epoch := 0

def writeInboxPointers (r : SendRequest) (out : SendResult) :
    List (String × Option InboxErr) → TreeMap String (List Record) →
      TreeMap String (List Record) × Nat × Option String
  | [], inboxes => (inboxes, 0, none)
  | (member, some e) :: rest, inboxes =>
    let (inboxes, n, _) := writeInboxPointers r out rest inboxes
    (inboxes, n, some (e.message member))
  | (member, none) :: rest, inboxes =>
    let topic := inboxTopic member
    let (inboxes, n, first) := writeInboxPointers r out rest
      (inboxes.insert topic (inboxes[topic]?.getD [] ++ [pointer r out member]))
    (inboxes, n + 1, first)

def act (r : SendRequest) : Phase → Act → Option (Deliverer × Phase)
  | .entered, .claim => some (d.claim r)
  | .listing, .members answer => some (d,
      match answer with
      | .error e => .failing (.listMembers e)
      | .ok [] => .failing .noMembers
      | .ok members => .ensuring members)
  | .ensuring members, .ensure err messageID => some (d,
      match err with
      | some e => .failing (.createTopic r.topic e)
      | none => .appending members messageID)
  | .appending members messageID, .append fate => some (
      match fate with
      | .refused e => (d, .failing (.append e))
      | .unacknowledged res e => (d.store r messageID res, .failing (.append e))
      | .stored res =>
        let out := d.sent r members messageID res
        (d.store r messageID res,
          if out.strategy = .onWrite then .pointing members out else .asking members out))
  | .pointing members out, .point errs =>
    if errs.length = members.length then
      let (inboxes, n, first) := writeInboxPointers r out (members.zip errs) d.inboxes
      let out := { out with inboxWrites := n }
      some ({ d with inboxes }, match first with
        | some e => .completing out (some (.inbox e))
        | none => .asking members out)
    else none
  | .asking members out, .offline online =>
    let recipients := members.filter (· ≠ r.senderID)
    let out := if d.presence then { out with offlineUsers := recipients.filter (· ∉ online) }
      else out
    some (d, .completing out none)
  | .completing out err, .complete => some (d.completeDedup r out, .returned (some out) err)
  | .failing err, .abandon => some (d.abandonDedup r, .returned none (some err))
  | _, _ => none

inductive Op where
  | send (r : SendRequest)
  | tick (now : Int)
  | sweep
  | act (i : Nat) (x : Act)

def step : Op → Option Deliverer
  | .send r => some { d with attempts := d.attempts ++ [d.enter r] }
  | .tick now => if d.now ≤ now then some { d with now } else none
  | .sweep => some { d with dedupe := d.dedupe.map (·.sweep d.now) }
  | .act i x =>
    match d.attempts[i]? with
    | none => none
    | some a =>
      match d.act a.request a.phase x with
      | none => none
      | some (d', phase) => some { d' with attempts := d.attempts.set i { a with phase } }

def Step (op : Op) (d' : Deliverer) : Prop := d.step op = some d'

def entry (k : String) : Option Dedup.Entry := d.dedupe.bind (·.entries[k]?)

end

end Deliverer

def Phase.working : Phase → Bool
  | .entered => false
  | .returned _ _ => false
  | _ => true

def Phase.out : Phase → Option SendResult
  | .pointing _ out => some out
  | .asking _ out => some out
  | .completing out _ => some out
  | _ => none

def Phase.held (ph : Phase) : Option (Outcome × Bool) :=
  ph.out.map (fun out => (out.outcome, out.duplicate))

structure Phase.Quiet (ph ph' : Phase) : Prop where
  before : ph.working = true
  after : ph'.working = true
  held : ph'.held = ph.held
  failing : ph' ≠ .failing .inFlight ∧ ph' ≠ .failing .emptyConversation

namespace Deliverer
variable {d d' : Deliverer} {r : SendRequest} {ph ph' : Phase} {x : Act}

theorem sent_held (d : Deliverer) (r : SendRequest) (members : List String) (messageID : String)
    (res : AppendResult) : ((d.sent r members messageID res).outcome,
      (d.sent r members messageID res).duplicate) =
      ((⟨r, messageID, res⟩ : Posted).outcome, false) := rfl

theorem act_cases (h : d.act r ph x = some (d', ph')) : (ph = .entered ∧ (d', ph') = d.claim r) ∨
    (ph.Quiet ph' ∧ ∃ inboxes, d' = { d with inboxes }) ∨
    (∃ members messageID res, ph = .appending members messageID ∧ d' = d.store r messageID res ∧
      ((x = .append (.stored res) ∧ ph'.working = true ∧
          ph'.held = some ((⟨r, messageID, res⟩ : Posted).outcome, false)) ∨
        ∃ e, x = .append (.unacknowledged res e) ∧ ph' = .failing (.append e))) ∨
    (∃ out err, ph = .completing out err ∧ d' = d.completeDedup r out ∧
      ph' = .returned (some out) err) ∨
    (∃ err, ph = .failing err ∧ d' = d.abandonDedup r ∧ ph' = .returned none (some err)) := by
  unfold act at h
  split at h
  · exact .inl ⟨rfl, (some.inj h).symm⟩
  · cases h
    refine .inr (.inl ⟨?_, d.inboxes, rfl⟩)
    split
    · exact ⟨rfl, rfl, rfl, by simp⟩
    · exact ⟨rfl, rfl, rfl, by simp⟩
    · exact ⟨rfl, rfl, rfl, by simp⟩
  · cases h
    refine .inr (.inl ⟨?_, d.inboxes, rfl⟩)
    split
    · exact ⟨rfl, rfl, rfl, by simp⟩
    · exact ⟨rfl, rfl, rfl, by simp⟩
  · rename_i members messageID fate
    cases fate with
    | refused e =>
      cases h
      exact .inr (.inl ⟨⟨rfl, rfl, rfl, by simp⟩, d.inboxes, rfl⟩)
    | unacknowledged res e =>
      cases h
      exact .inr (.inr (.inl ⟨members, messageID, res, rfl, rfl, .inr ⟨e, rfl, rfl⟩⟩))
    | stored res =>
      cases h
      refine .inr (.inr (.inl ⟨members, messageID, res, rfl, rfl, .inl ⟨rfl, ?_⟩⟩))
      split
      · exact ⟨rfl, congrArg some (sent_held d r members messageID res)⟩
      · exact ⟨rfl, congrArg some (sent_held d r members messageID res)⟩
  · split at h
    · rename_i members out errs _
      cases h
      refine .inr (.inl ⟨?_, _, rfl⟩)
      split
      · exact ⟨rfl, rfl, rfl, by simp⟩
      · exact ⟨rfl, rfl, rfl, by simp⟩
    · cases h
  · cases h
    refine .inr (.inl ⟨⟨rfl, rfl, ?_, by simp⟩, d.inboxes, rfl⟩)
    split <;> rfl
  · rename_i out err
    cases h
    exact .inr (.inr (.inr (.inl ⟨out, err, rfl, rfl, rfl⟩)))
  · rename_i err
    cases h
    exact .inr (.inr (.inr (.inr ⟨err, rfl, rfl, rfl⟩)))
  · cases h

theorem step_cases (h : d.step op = some d') :
    (∃ r, op = .send r ∧ d' = { d with attempts := d.attempts ++ [d.enter r] }) ∨
    (∃ now, op = .tick now ∧ d.now ≤ now ∧ d' = { d with now }) ∨
    (op = .sweep ∧ d' = { d with dedupe := d.dedupe.map (·.sweep d.now) }) ∨
    ∃ i x a e ph, op = .act i x ∧ d.attempts[i]? = some a ∧
      d.act a.request a.phase x = some (e, ph) ∧
      d' = { e with attempts := d.attempts.set i { a with phase := ph } } := by
  cases op with
  | send r => exact .inl ⟨r, rfl, (some.inj h).symm⟩
  | tick now =>
    simp only [step] at h
    split at h
    · exact .inr (.inl ⟨now, rfl, ‹_›, (some.inj h).symm⟩)
    · cases h
  | sweep => exact .inr (.inr (.inl ⟨rfl, (some.inj h).symm⟩))
  | act i x =>
    simp only [step] at h
    split at h
    · cases h
    rename_i a ha
    split at h
    · cases h
    rename_i e ph hact
    exact .inr (.inr (.inr ⟨i, x, a, e, ph, rfl, ha, hact, (some.inj h).symm⟩))

theorem tableFor_some (h : d.tableFor r = some t) : r.clientMsgID ≠ "" ∧ d.dedupe = some t := by
  unfold tableFor at h
  split at h
  · exact ⟨‹_›, h⟩
  · cases h

theorem tableFor_eq (h : r.clientMsgID ≠ "") : d.tableFor r = d.dedupe := if_pos h

theorem entry_eq (h : d.dedupe = some t) (k : String) : d.entry k = t.entries[k]? := by
  unfold entry
  rw [h]
  rfl

theorem claim_cases (d : Deliverer) (r : SendRequest) :
    (d.tableFor r = none ∧ d.claim r = (d, .listing)) ∨
    ∃ t, r.clientMsgID ≠ "" ∧ d.dedupe = some t ∧
      ((∃ e, t.entries[r.dedupKey.string]? = some e ∧ d.now < e.expires ∧
          d.claim r = (d, if e.complete then .returned (some (r.replay e.result)) none
            else .returned none (some .inFlight))) ∨
        (∀ e, t.entries[r.dedupKey.string]? = some e → e.expires ≤ d.now) ∧
          d.claim r = ({ d with dedupe := some (t.reserve r.dedupKey.string d.now) }, .listing)) := by
  unfold claim
  cases ht : d.tableFor r with
  | none => exact .inl ⟨rfl, rfl⟩
  | some t =>
    obtain ⟨hid, hd⟩ := tableFor_some ht
    refine .inr ⟨t, hid, hd, ?_⟩
    rcases t.claim_cases r.dedupKey d.now with ⟨e, he, hlive, hc⟩ | ⟨hexp, hc⟩
    · refine .inl ⟨e, he, hlive, ?_⟩
      simp only [hc, ← hd]
      cases e.complete <;> rfl
    · refine .inr ⟨hexp, ?_⟩
      simp only [hc]

theorem completeDedup_cases (d : Deliverer) (r : SendRequest) (out : SendResult) :
    (r.clientMsgID = "" ∨ d.dedupe = none) ∧ d.completeDedup r out = d ∨
    ∃ t, r.clientMsgID ≠ "" ∧ d.dedupe = some t ∧ d.completeDedup r out =
      { d with dedupe := some (t.complete r.dedupKey out.outcome d.now) } := by
  unfold completeDedup tableFor
  by_cases hid : r.clientMsgID = ""
  · exact .inl ⟨.inl hid, by simp [hid]⟩
  rw [if_pos hid]
  cases hd : d.dedupe with
  | none => exact .inl ⟨.inr rfl, rfl⟩
  | some t => exact .inr ⟨t, hid, rfl, rfl⟩

theorem abandonDedup_cases (d : Deliverer) (r : SendRequest) :
    (r.clientMsgID = "" ∨ d.dedupe = none) ∧ d.abandonDedup r = d ∨
    ∃ t, r.clientMsgID ≠ "" ∧ d.dedupe = some t ∧
      d.abandonDedup r = { d with dedupe := some (t.abandon r.dedupKey) } := by
  unfold abandonDedup tableFor
  by_cases hid : r.clientMsgID = ""
  · exact .inl ⟨.inl hid, by simp [hid]⟩
  rw [if_pos hid]
  cases hd : d.dedupe with
  | none => exact .inl ⟨.inr rfl, rfl⟩
  | some t => exact .inr ⟨t, hid, rfl, rfl⟩

theorem posted_store (d : Deliverer) (r : SendRequest) (messageID : String) (res : AppendResult)
    (topic : String) : (d.store r messageID res).posted topic =
      d.posted topic ++ if topic = r.topic then [⟨r, messageID, res⟩] else [] := by
  unfold posted store
  dsimp only
  split
  · rename_i h
    rw [h, TreeMap.getElem?_insert_self]
    rfl
  · rename_i h
    rw [getElem?_insert_other _ h, List.append_nil]

def hello : SendRequest :=
  { kind := "direct", conversationID := "c", senderID := "u", clientMsgID := "1", tenant := "t" }

end Deliverer

end Boltq.Fanout
