import Boltq.Fanout.Send
import Boltq.Queuelog.Leases

namespace Boltq.Outbox
open Lib Boltq.Stream Queuelog Fanout List

structure Notification where
  userID : Bytes
  messageID : Bytes
  conversationID : Bytes
  kind : Bytes
  senderID : Bytes
  convTopic : Bytes
  convPartition : Int
  convSeq : Nat
  headers : Headers
  timestamp : Int
  attempt : Nat
  deriving DecidableEq

def headerOf (r : Record) (name : Bytes) : Bytes := (r.headers.entries.lookup name).getD []

def parseUint (v : Bytes) : Nat := (parseDecimal v).elim 0 (fun n => min n (2 ^ 64 - 1))

def parseInt32 (v : Bytes) : Option Int :=
  let signed : Option Int :=
    match v with
    | 45 :: digits => (parseDecimal digits).map (fun n => -(n : Int))
    | 43 :: digits => (parseDecimal digits).map (fun n => (n : Int))
    | digits => (parseDecimal digits).map (fun n => (n : Int))
  signed.filter (fun n => decide (-2 ^ 31 ≤ n ∧ n < 2 ^ 31))

def notification (attempt : Nat) (r : Record) : Notification where
  userID := r.key
  messageID := headerOf r headerMessageID
  conversationID := headerOf r headerConvID
  kind := headerOf r headerKind
  senderID := headerOf r headerSender
  convTopic :=
    if headerOf r headerConvID = [] then []
    else if headerOf r headerKind = nameBytes kindGroup then
      nameBytes topicGroupPrefix ++ headerOf r headerConvID
    else nameBytes topicDirectPrefix ++ headerOf r headerConvID
  convPartition :=
    if headerOf r headerConvPart = [] then 0 else (parseInt32 (headerOf r headerConvPart)).getD 0
  convSeq := if headerOf r headerConvSeq = [] then 0 else parseUint (headerOf r headerConvSeq)
  headers := r.headers
  timestamp := r.timestamp
  attempt := attempt

structure Config where
  batchSize : Int := 0
  maxAttempts : Int := 0
  graceDelay : Int := 0
  deriving DecidableEq

structure Tuning extends Config where
  batch : 0 < batchSize
  attempts : 0 < maxAttempts

def Config.applyDefaults (c : Config) : Tuning where
  batchSize := if c.batchSize ≤ 0 then 256 else c.batchSize
  maxAttempts := if c.maxAttempts ≤ 0 then 5 else c.maxAttempts
  graceDelay := if c.graceDelay < 0 then 0 else c.graceDelay
  batch := by split <;> omega
  attempts := by split <;> omega

inductive Phase where
  | done
  | starting
  | top
  | reading
  | waiting
  | retrying
  | building (now : Int) (last : Nat) (rest batch : List Record) (slept : Bool)
  | delivering (last : Nat) (batch : List Record) (attempt : Nat)
  | backoff (last : Nat) (batch : List Record) (attempt : Nat)
  | committing (last : Nat)
  deriving DecidableEq

inductive Fate where
  | accepted
  | suppressed
  | keyless
  | dropped
  deriving DecidableEq

structure Push where
  cfg : Tuning
  presence : Bool
  log : Queuelog.Log
  cursor : Cursor := {}
  cancelled : Bool := false
  frm : Nat := 0
  phase : Phase := .done
  base : Nat := 0
  fates : List (Nat × Fate) := []
  seen : List Nat := []

namespace Push

inductive Op where
  | log (l : Queuelog.Log)
  | spawn
  | begin
  | cancel
  | check
  | read (view : LogView) (now : Int)
  | wake
  | quit
  | keyless
  | grace (slept : Bool)
  | look (online : Bool)
  | deliver
  | notify (accepts : List Notification → Bool)
  | backoff (slept : Bool)
  | commit
  | closeCursor

def afterRead (w : Push) (now : Int) : Except Err (List Record) → Push
  | .error (.seqTruncated _ _) => { w with frm := w.log.first, phase := .top }
  | .error .closed => { w with phase := .done }
  | .error _ => { w with phase := .retrying }
  | .ok [] => { w with phase := .waiting }
  | .ok (r :: rest) =>
    { w with
      phase := .building now ((r :: rest).getLast (cons_ne_nil r rest)).seq (r :: rest) [] false
      seen := w.seen ++ (r :: rest).map Record.seq }

def Young (w : Push) (now : Int) (r : Record) : Prop :=
  0 < w.cfg.graceDelay ∧ now - r.timestamp < w.cfg.graceDelay
  deriving Decidable

def settle (w : Push) (fate : Fate) (rs : List Record) : Push :=
  { w with fates := w.fates ++ rs.map (fun r => (r.seq, fate)) }

def step (w : Push) : Op → Option Push
  | .log l => if w.log.Evolves l then some { w with log := l } else none
  | .spawn => if w.phase = .done then some { w with phase := .starting, cancelled := false } else none
  | .begin =>
    if w.phase = .starting then
      some { w with
        frm := w.cursor.positionOr w.log.next
        base := if w.cursor.position.isNone then w.log.next else w.base
        phase := .top }
    else none
  | .cancel => some { w with cancelled := true }
  | .check =>
    if w.phase = .top then
      some { w with phase := if w.cancelled then .done else .reading }
    else none
  | .read view now =>
    if w.phase = .reading ∧ w.log.Evolves view.log then
      some ({ w with log := view.log }.afterRead now (view.readFrom w.frm w.cfg.batchSize))
    else none
  | .wake => if w.phase = .waiting ∨ w.phase = .retrying then some { w with phase := .top } else none
  | .quit =>
    if (w.phase = .waiting ∨ w.phase = .retrying) ∧ w.cancelled then some { w with phase := .done }
    else none
  | .keyless =>
    match w.phase with
    | .building now last (r :: rest) batch _ =>
      if r.key = [] then
        some ({ w with phase := .building now last rest batch false }.settle .keyless [r])
      else none
    | _ => none
  | .grace slept =>
    match w.phase with
    | .building now last (r :: rest) batch false =>
      if r.key ≠ [] ∧ w.Young now r then
        if slept then some { w with phase := .building now last (r :: rest) batch true }
        -- the batch is returned as far as it is built
        else if w.cancelled then some { w with phase := .building now last [] batch false } else none
      else none
    | _ => none
  | .look online =>
    match w.phase with
    | .building now last (r :: rest) batch slept =>
      if r.key ≠ [] ∧ (slept ∨ ¬ w.Young now r) then
        if w.presence ∧ online then
          some ({ w with phase := .building now last rest batch false }.settle .suppressed [r])
        else some { w with phase := .building now last rest (batch ++ [r]) false }
      else none
    | _ => none
  | .deliver =>
    match w.phase with
    | .building _ last [] batch _ =>
      some { w with phase := if batch = [] then .committing last else .delivering last batch 1 }
    | _ => none
  | .notify accepts =>
    match w.phase with
    | .delivering last batch attempt =>
      if accepts (batch.map (notification attempt)) then
        some ({ w with phase := .committing last }.settle .accepted batch)
      else if attempt = w.cfg.maxAttempts then
        some ({ w with phase := .committing last }.settle .dropped batch)
      else some { w with phase := .backoff last batch attempt }
    | _ => none
  | .backoff slept =>
    match w.phase with
    | .backoff last batch attempt =>
      if slept then some { w with phase := .delivering last batch (attempt + 1) }
      else if w.cancelled then some { w with phase := .done } else none
    | _ => none
  | .commit =>
    match w.phase with
    | .committing last =>
      some { w with frm := last + 1, cursor := (w.cursor.commit (last + 1)).1, phase := .top }
    | _ => none
  | .closeCursor => some { w with cursor := { w.cursor with closed := true } }

def Step (w : Push) (op : Op) (w' : Push) : Prop := w.step op = some w'

def new (cfg : Config) (presence : Bool) (log : Queuelog.Log) : Push where
  cfg := cfg.applyDefaults
  presence := presence
  log := log

end Push

def Phase.live : Phase → Bool
  | .done => false
  | .starting => false
  | _ => true

def Phase.last : Phase → Option Nat
  | .building _ last _ _ _ => some last
  | .delivering last _ _ => some last
  | .backoff last _ _ => some last
  | .committing last => some last
  | _ => none

def Phase.pending : Phase → List Record
  | .building _ _ rest batch _ => batch ++ rest
  | .delivering _ batch _ => batch
  | .backoff _ batch _ => batch
  | _ => []

section Logs
variable {l l' : Queuelog.Log} {r : Record}

theorem seq_lt_next (h : r ∈ l.records) : l.first ≤ r.seq ∧ r.seq < l.next := by
  obtain ⟨i, hi⟩ := List.getElem?_of_mem h
  have hseq := l.numbered i r hi
  have hlt := (List.getElem?_eq_some_iff.mp hi).1
  unfold SeqLog.next
  omega

theorem seq_first (l : Queuelog.Log) : l.first ≤ l.next := Nat.le_add_right _ _

theorem mem_of_evolves (he : l.Evolves l') (h : r ∈ l'.records) (hlt : r.seq < l.next) :
    r ∈ l.records := by
  obtain ⟨i, hi⟩ := getElem?_of_mem h
  have hseq := l'.numbered i r hi
  obtain ⟨t, ht⟩ := he.same
  have hfirst := he.first
  have hlen : i < (l.records.drop (l'.first - l.first)).length := by
    rw [length_drop]
    unfold SeqLog.next at hlt
    omega
  rw [← ht, getElem?_append_left hlen] at hi
  exact mem_of_mem_drop (mem_of_getElem? hi)

theorem read_records {view : LogView} (h : view.readFrom frm want = .ok recs) (hf : 0 < frm)
    (hw : 0 < want) :
    (∀ i x, recs[i]? = some x → x.seq = frm + i) ∧ frm + recs.length ≤ max frm view.log.next ∧
      ∀ x ∈ view.log.records, frm ≤ x.seq → x.seq < frm + recs.length → x ∈ recs := by
  obtain ⟨hfirst, ⟨t, ht⟩, -⟩ := view.served h hf hw
  have hget : ∀ i, i < recs.length → recs[i]? = view.log.records[frm - view.log.first + i]? := by
    intro i hi
    rw [← List.getElem?_drop, ← ht, List.getElem?_append_left hi]
  refine ⟨?_, ?_, ?_⟩
  · intro i x hx
    have hi := (List.getElem?_eq_some_iff.mp hx).1
    have hseq := view.log.numbered _ x ((hget i hi).symm.trans hx)
    omega
  · have hlen := congrArg List.length ht
    rw [length_append, length_drop] at hlen
    unfold SeqLog.next
    omega
  · intro x hx hle hlt
    obtain ⟨j, hj⟩ := List.getElem?_of_mem hx
    have hseq := view.log.numbered j x hj
    have hi : j - (frm - view.log.first) < recs.length := by omega
    have heq := hget _ hi
    rw [show frm - view.log.first + (j - (frm - view.log.first)) = j by omega, hj] at heq
    exact mem_of_getElem? heq

end Logs

namespace Push

structure Bounded (w : Push) : Prop where
  frm : w.phase.live = true → 0 < w.frm ∧ w.frm ≤ w.log.next
  last : ∀ n, w.phase.last = some n → w.frm ≤ n ∧ n < w.log.next
  cursor : ∀ v, w.cursor.position = some v → 0 < v ∧ v ≤ w.log.next

def Behind (w : Push) (P : Nat → Prop) (n : Nat) : Prop :=
  ∀ r ∈ w.log.records, r.seq < n → P r.seq

section Steps
variable {w w' : Push} {op : Op} {P : Nat → Prop} {n : Nat}

theorem Behind.evolve (h : w.Behind P n) (he : w.log.Evolves l) (hn : n ≤ w.log.next) :
    { w with log := l }.Behind P n :=
  fun r hr hlt => h r (mem_of_evolves he hr (Nat.lt_of_lt_of_le hlt hn)) hlt

theorem last_seq {r : Record} {rest : List Record} {frm : Nat}
    (h : ∀ i x, (r :: rest)[i]? = some x → x.seq = frm + i) :
    ((r :: rest).getLast (cons_ne_nil r rest)).seq = frm + rest.length := by
  refine h rest.length _ ?_
  rw [getLast_eq_getElem]
  exact getElem?_eq_getElem (by simp)

theorem commit_position {c : Cursor} (h : (c.commit seq).1.position = some v) :
    v = seq ∨ c.position = some v := by
  unfold Cursor.commit at h
  split at h
  · exact .inr h
  split at h
  · exact .inr h
  · exact .inl (Option.some.inj h).symm

theorem Bounded.evolve (hb : Bounded w) (he : w.log.Evolves l) : Bounded { w with log := l } := by
  have hnext := he.next
  refine ⟨?_, ?_, ?_⟩
  · intro hl
    have := hb.frm hl
    dsimp only
    omega
  · intro n hn
    have := hb.last n hn
    dsimp only
    omega
  · intro v hv
    have := hb.cursor v hv
    dsimp only
    omega

section Reads
variable (w : Push) (now : Int) (x : Except Err (List Record))

@[simp] theorem afterRead_log : (w.afterRead now x).log = w.log := by
  unfold afterRead
  split <;> rfl

@[simp] theorem afterRead_base : (w.afterRead now x).base = w.base := by
  unfold afterRead
  split <;> rfl

@[simp] theorem afterRead_fates : (w.afterRead now x).fates = w.fates := by
  unfold afterRead
  split <;> rfl

theorem afterRead_seen : ∀ s ∈ w.seen, s ∈ (w.afterRead now x).seen := by
  intro s hs
  unfold afterRead
  split
  · exact hs
  · exact hs
  · exact hs
  · exact hs
  · exact mem_append_left _ hs

end Reads

theorem afterRead_error (w : Push) (now : Int) (e : Err) :
    w.afterRead now (.error e) = { w with frm := w.log.first, phase := .top } ∨
    w.afterRead now (.error e) = { w with phase := .done } ∨
    w.afterRead now (.error e) = { w with phase := .retrying } := by
  cases e with
  | seqTruncated requested oldest => exact .inl rfl
  | closed => exact .inr (.inl rfl)
  | _ => exact .inr (.inr rfl)

theorem Bounded.read {view : LogView} (hb : Bounded w) (now : Int) (hph : w.phase = .reading)
    (he : w.log.Evolves view.log) : Bounded ({ w with log := view.log }.afterRead now
      (view.readFrom w.frm w.cfg.batchSize)) := by
  have hb' := hb.evolve he
  have hfrm := hb'.frm (by rw [hph]; rfl)
  cases hread : view.readFrom w.frm w.cfg.batchSize with
  | error e =>
    rcases afterRead_error { w with log := view.log } now e with heq | heq | heq <;> rw [heq]
    · exact ⟨fun _ => ⟨view.log.positive, seq_first view.log⟩, fun n hn => (by cases hn), hb'.cursor⟩
    · exact ⟨fun hl => (by cases hl), fun n hn => (by cases hn), hb'.cursor⟩
    · exact ⟨fun _ => hfrm, fun n hn => (by cases hn), hb'.cursor⟩
  | ok recs =>
    obtain ⟨hnum, hlen, -⟩ := read_records hread hfrm.1 w.cfg.batch
    cases recs with
    | nil => exact ⟨fun _ => hfrm, fun n hn => (by cases hn), hb'.cursor⟩
    | cons r rest =>
      refine ⟨fun _ => hfrm, ?_, hb'.cursor⟩
      intro n hn
      cases hn
      show w.frm ≤ ((r :: rest).getLast (cons_ne_nil r rest)).seq ∧
        ((r :: rest).getLast (cons_ne_nil r rest)).seq < view.log.next
      rw [last_seq hnum]
      rw [length_cons] at hlen
      omega

structure Moves (w : Push) (op : Op) (ph : Phase) (more : List (Nat × Fate)) : Prop where
  starting : ph = .starting → op = .spawn ∨ w.phase = .starting
  live : ph.live = true → w.phase.live = true
  last : ∀ n, ph.last = some n → w.phase.last = some n ∧ (op ≠ .grace false →
    ∀ r ∈ w.phase.pending, r ∈ ph.pending ∨ r.seq ∈ more.map Prod.fst)

theorem Moves.within {ph : Phase} {more : List (Nat × Fate)} {last : Nat}
    (hl : w.phase.last = some last) (hph : ph.last = some last)
    (hp : op ≠ .grace false → ∀ r ∈ w.phase.pending, r ∈ ph.pending ∨ r.seq ∈ more.map Prod.fst) :
    w.Moves op ph more where
  starting h := by
    rw [h] at hph
    cases hph
  live _ := by
    cases h : w.phase <;> rw [h] at hl <;> first | rfl | cases hl
  last n hn := ⟨by rw [hl, ← hph, hn], hp⟩

theorem Moves.kept {ph : Phase} {last : Nat} (hl : w.phase.last = some last)
    (hph : ph.last = some last) (hp : w.phase.pending = ph.pending) : w.Moves op ph [] := by
  refine .within hl hph (fun _ r hr => ?_)
  rw [hp] at hr
  exact .inl hr

theorem mem_settled {rs : List Record} {r : Record} (fate : Fate) (h : r ∈ rs) :
    r.seq ∈ (rs.map (fun r => (r.seq, fate))).map Prod.fst := by
  rw [map_map]
  exact mem_map.mpr ⟨r, h, rfl⟩

theorem Moves.next_settled {now : Int} {last : Nat} {r : Record} {rest batch : List Record}
    {slept : Bool} (hph : w.phase = .building now last (r :: rest) batch slept) (fate : Fate) :
    w.Moves op (.building now last rest batch false) ([r].map (fun r => (r.seq, fate))) := by
  refine .within (by rw [hph]; rfl) rfl (fun _ x hx => ?_)
  rw [hph] at hx
  rcases mem_append.mp hx with hbatch | hrest
  · exact .inl (mem_append_left _ hbatch)
  rcases mem_cons.mp hrest with rfl | hrest
  · exact .inr (mem_settled fate (mem_singleton_self _))
  · exact .inl (mem_append_right _ hrest)

theorem Moves.batch_settled {last attempt : Nat} {batch : List Record}
    (hph : w.phase = .delivering last batch attempt) (fate : Fate) :
    w.Moves op (.committing last) (batch.map (fun r => (r.seq, fate))) := by
  refine .within (by rw [hph]; rfl) rfl (fun _ x hx => ?_)
  rw [hph] at hx
  exact .inr (mem_settled fate hx)

theorem Moves.outside (hs : ph = .starting → op = .spawn)
    (hl : ph.live = true → w.phase.live = true) (hph : ph.last = none) : w.Moves op ph more where
  starting h := .inl (hs h)
  live := hl
  last n hn := by cases hph.symm.trans hn

theorem Moves.stay (w : Push) (op : Op) : w.Moves op w.phase [] where
  starting h := .inr h
  live hl := hl
  last _ hn := ⟨hn, fun _ _ hr => .inl hr⟩

inductive Happens (w : Push) (op : Op) : Push → Prop where
  | log (l : Queuelog.Log) (he : w.log.Evolves l) : w.Happens op { w with log := l }
  | begin (hop : op = .begin) (hph : w.phase = .starting) : w.Happens op { w with
      frm := w.cursor.positionOr w.log.next
      base := if w.cursor.position.isNone then w.log.next else w.base
      phase := .top }
  | read (view : LogView) (now : Int) (hph : w.phase = .reading) (he : w.log.Evolves view.log) :
      w.Happens op ({ w with log := view.log }.afterRead now (view.readFrom w.frm w.cfg.batchSize))
  | commit (last : Nat) (hph : w.phase = .committing last) : w.Happens op { w with
      frm := last + 1
      cursor := (w.cursor.commit (last + 1)).1
      phase := .top }
  | move (ph : Phase) (more : List (Nat × Fate)) (cancelled closed : Bool)
      (hm : w.Moves op ph more) : w.Happens op { w with
        phase := ph
        fates := w.fates ++ more
        cancelled
        cursor := { w.cursor with closed } }

theorem Happens.quiet (cancelled closed : Bool) (hm : w.Moves op ph []) :
    w.Happens op { w with phase := ph, cancelled, cursor := { w.cursor with closed } } := by
  have h := Happens.move ph [] cancelled closed hm
  rw [append_nil] at h
  exact h

theorem Happens.rephase (hm : w.Moves op ph []) : w.Happens op { w with phase := ph } :=
  .quiet w.cancelled w.cursor.closed hm

theorem Happens.settle {rs : List Record} (hm : w.Moves op ph (rs.map (fun r => (r.seq, fate)))) :
    w.Happens op ({ w with phase := ph }.settle fate rs) :=
  .move ph _ w.cancelled w.cursor.closed hm

theorem happens (h : w.step op = some w') : w.Happens op w' := by
  cases op with
  | log l =>
    simp only [Push.step] at h
    split at h
    · rename_i he
      cases h
      exact .log l he
    · cases h
  | begin =>
    simp only [Push.step] at h
    split at h
    · rename_i hph
      cases h
      exact .begin rfl hph
    · cases h
  | read view now =>
    simp only [Push.step] at h
    split at h
    · rename_i hcond
      cases h
      exact .read view now hcond.1 hcond.2
    · cases h
  | commit =>
    simp only [Push.step] at h
    split at h
    · rename_i last hph
      cases h
      exact .commit last hph
    · cases h
  | spawn =>
    simp only [Push.step] at h
    split at h
    · cases h
      exact .quiet false w.cursor.closed
        (.outside (fun _ => rfl) (fun hl => (by cases hl)) rfl : w.Moves .spawn .starting [])
    · cases h
  | cancel =>
    cases h
    exact .quiet true w.cursor.closed (.stay w .cancel)
  | closeCursor =>
    cases h
    exact .quiet w.cancelled true (.stay w .closeCursor)
  | check =>
    simp only [Push.step] at h
    split at h
    · rename_i hph
      cases h
      refine .rephase (.outside (fun hs => ?_) (fun _ => ?_) ?_)
      · split at hs <;> cases hs
      · rw [hph]
        rfl
      · split <;> rfl
    · cases h
  | wake =>
    simp only [Push.step] at h
    split at h
    · rename_i hph
      cases h
      refine .rephase (.outside (fun hs => (by cases hs)) (fun _ => ?_) rfl)
      rcases hph with hph | hph <;> rw [hph] <;> rfl
    · cases h
  | quit =>
    simp only [Push.step] at h
    split at h
    · cases h
      exact .rephase (.outside (fun hs => (by cases hs)) (fun hl => (by cases hl)) rfl)
    · cases h
  | keyless =>
    simp only [Push.step] at h
    split at h
    · rename_i now last r rest batch slept hph
      split at h
      · cases h
        exact .settle (.next_settled hph .keyless)
      · cases h
    · cases h
  | grace slept =>
    simp only [Push.step] at h
    split at h
    · rename_i now last r rest batch hph
      split at h
      · split at h
        · cases h
          exact .rephase (.kept (by rw [hph]; rfl) rfl (by rw [hph]; rfl))
        rename_i hslept
        split at h
        · cases h
          refine .rephase (.within (by rw [hph]; rfl) rfl ?_)
          intro hne
          rw [Bool.not_eq_true] at hslept
          exact absurd (by rw [hslept]) hne
        · cases h
      · cases h
    · cases h
  | look online =>
    simp only [Push.step] at h
    split at h
    · rename_i now last r rest batch slept hph
      split at h
      · split at h
        · cases h
          exact .settle (.next_settled hph .suppressed)
        · cases h
          refine .rephase (.kept (by rw [hph]; rfl) rfl ?_)
          rw [hph]
          exact (append_assoc batch [r] rest).symm
      · cases h
    · cases h
  | deliver =>
    simp only [Push.step] at h
    split at h
    · rename_i now last batch slept hph
      have hpend : w.phase.pending = batch := by
        rw [hph]
        exact append_nil batch
      cases h
      refine .rephase (.kept (by rw [hph]; rfl) ?_ ?_)
      · split <;> rfl
      rw [hpend]
      split
      · rename_i hnil
        exact hnil
      · rfl
    · cases h
  | notify accepts =>
    simp only [Push.step] at h
    split at h
    · rename_i last batch attempt hph
      split at h
      · cases h
        exact .settle (.batch_settled hph .accepted)
      split at h
      · cases h
        exact .settle (.batch_settled hph .dropped)
      · cases h
        exact .rephase (.kept (by rw [hph]; rfl) rfl (by rw [hph]; rfl))
    · cases h
  | backoff slept =>
    simp only [Push.step] at h
    split at h
    · rename_i last batch attempt hph
      split at h
      · cases h
        exact .rephase (.kept (by rw [hph]; rfl) rfl (by rw [hph]; rfl))
      · split at h
        · cases h
          exact .rephase (.outside (fun hs => (by cases hs)) (fun hl => (by cases hl)) rfl)
        · cases h
    · cases h

theorem Bounded.step (hb : Bounded w) (h : w.step op = some w') : Bounded w' := by
  cases happens h with
  | log l he => exact hb.evolve he
  | begin hop hph =>
    refine ⟨fun _ => ?_, fun n hn => (by cases hn), hb.cursor⟩
    unfold Cursor.positionOr
    cases hp : w.cursor.position with
    | none => exact ⟨Nat.lt_of_lt_of_le w.log.positive (seq_first w.log), Nat.le_refl _⟩
    | some v => exact hb.cursor v hp
  | read view now hph he => exact hb.read now hph he
  | commit last hph =>
    have hlast := hb.last last (by rw [hph]; rfl)
    refine ⟨fun _ => ⟨Nat.succ_pos _, hlast.2⟩, fun n hn => (by cases hn), ?_⟩
    intro v hv
    rcases commit_position hv with rfl | hold
    · exact ⟨Nat.succ_pos _, hlast.2⟩
    · exact hb.cursor v hold
  | move ph more cancelled closed hm =>
    exact ⟨fun hl => hb.frm (hm.live hl), fun n hn => hb.last n (hm.last n hn).1, hb.cursor⟩

theorem Bounded.new (cfg : Config) (presence : Bool) (log : Queuelog.Log) :
    Bounded (new cfg presence log) :=
  ⟨fun hl => (by cases hl), fun n hn => (by cases hn), fun v hv => (by cases hv)⟩

structure Past (w : Push) (P : Nat → Prop) : Prop extends Bounded w where
  passed : ∀ v, w.cursor.position = some v → w.Behind P v
  behind : w.phase.live = true → w.Behind P w.frm

section
variable (h : w.Past P)
include h

theorem Past.mono (hpq : ∀ s, P s → Q s) : w.Past Q :=
  ⟨h.toBounded, fun v hv r hr hlt => hpq _ (h.passed v hv r hr hlt),
    fun hl r hr hlt => hpq _ (h.behind hl r hr hlt)⟩

theorem Past.evolve (he : w.log.Evolves l) : { w with log := l }.Past P where
  toBounded := h.toBounded.evolve he
  passed v hv := (h.passed v hv).evolve he (h.cursor v hv).2
  behind hl := (h.behind hl).evolve he (h.toBounded.frm hl).2

theorem Past.read {view : LogView} (now : Int) (hph : w.phase = .reading)
    (he : w.log.Evolves view.log) : Past ({ w with log := view.log }.afterRead now
      (view.readFrom w.frm w.cfg.batchSize)) P := by
  have hb := h.toBounded.read now hph he
  have h' := h.evolve he
  have hbehind := h'.behind (by rw [hph]; rfl)
  cases hread : view.readFrom w.frm w.cfg.batchSize with
  | error e =>
    rw [hread] at hb
    rcases afterRead_error { w with log := view.log } now e with heq | heq | heq <;> rw [heq] at hb ⊢
    · refine ⟨hb, h'.passed, fun _ r hr hlt => ?_⟩
      exact absurd hlt (Nat.not_lt.mpr (seq_lt_next hr).1)
    · exact ⟨hb, h'.passed, fun hl => (by cases hl)⟩
    · exact ⟨hb, h'.passed, fun _ => hbehind⟩
  | ok recs =>
    rw [hread] at hb
    cases recs with
    | nil => exact ⟨hb, h'.passed, fun _ => hbehind⟩
    | cons r rest => exact ⟨hb, h'.passed, fun _ => hbehind⟩

theorem read_batch {view : LogView} {now : Int} (hph : w.phase = .reading)
    (he : w.log.Evolves view.log) (hn : ({ w with log := view.log }.afterRead now
      (view.readFrom w.frm w.cfg.batchSize)).phase.last = some n) :
    ∃ r rest, view.readFrom w.frm w.cfg.batchSize = .ok (r :: rest) ∧
      ∀ x ∈ view.log.records, x.seq ≤ n → P x.seq ∨ x ∈ r :: rest := by
  have h' := h.evolve he
  have hlive : w.phase.live = true := by rw [hph]; rfl
  cases hread : view.readFrom w.frm w.cfg.batchSize with
  | error e =>
    rw [hread] at hn
    rcases afterRead_error { w with log := view.log } now e with heq | heq | heq <;>
      rw [heq] at hn <;> cases hn
  | ok recs =>
    rw [hread] at hn
    obtain ⟨hnum, -, hall⟩ := read_records hread (h'.toBounded.frm hlive).1 w.cfg.batch
    cases recs with
    | nil => cases hn
    | cons r rest =>
      refine ⟨r, rest, rfl, ?_⟩
      cases hn
      intro x hx hle
      rw [last_seq hnum] at hle
      by_cases hlt : x.seq < w.frm
      · exact .inl (h'.behind hlive x hx hlt)
      refine .inr (hall x hx (Nat.not_lt.mp hlt) ?_)
      rw [length_cons]
      omega

theorem Past.commit (hl : w.Behind P (last + 1)) (hb : Bounded { w with
      frm := last + 1, cursor := (w.cursor.commit (last + 1)).1, phase := .top }) :
    Past { w with
      frm := last + 1, cursor := (w.cursor.commit (last + 1)).1, phase := .top } P where
  toBounded := hb
  passed v hv := by
    rcases commit_position hv with rfl | hold
    · exact hl
    · exact h.passed v hold
  behind _ := hl

end

end Steps

def pointerTo (seq : Nat) : Record := { Record.ofPayload [] with seq, key := [117] }

theorem dense_nil : Dense 1 [] := fun i r hr => by cases hr

def noPointers : Queuelog.Log where
  first := 1
  records := []
  positive := Nat.one_pos
  numbered := dense_nil

def twoPointers : Queuelog.Log where
  first := 1
  records := [pointerTo 1, pointerTo 2]
  positive := Nat.one_pos
  numbered := by
    intro i r hr
    match i with
    | 0 =>
      cases hr
      rfl
    | 1 =>
      cases hr
      rfl
    | i + 2 => cases hr

end Push
end Boltq.Outbox
