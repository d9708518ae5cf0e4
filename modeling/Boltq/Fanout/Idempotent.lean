import Boltq.Fanout.Send

namespace Boltq.Fanout.Deliverer
open Lib Boltq.Stream Streamctl Std List

/-- The step of a run about one message: a request whose key is the message's is
for the message, time stays in the window, and no record of the message is
stored by an append that fails. -/
def Within (m : Message) (bound : Int) (d : Deliverer) : Op → Prop
  | .send r => r.clientMsgID ≠ "" →
      (r.normal d.cfg).dedupKey.string = m.dedupKey.string → (r.normal d.cfg).toMessage = m
  | .tick now => now < bound
  | .act i (.append (.unacknowledged _ _)) => ∀ a ∈ d.attempts[i]?, a.request.toMessage ≠ m
  | _ => True

instance (m : Message) (bound : Int) (d : Deliverer) (op : Op) : Decidable (d.Within m bound op) := by
  induction op using Op.casesOn with
  | act i x =>
    induction x using Act.casesOn with
    | append fate => induction fate using Fate.casesOn <;> dsimp only [Within] <;> infer_instance
    | _ => exact .isTrue trivial
  | _ =>
    dsimp only [Within]
    infer_instance

def Mine (m : Message) (d : Deliverer) (i : Nat) (a : Attempt) : Prop :=
  d.attempts[i]? = some a ∧ a.request.toMessage = m

structure Idle (m : Message) (d : Deliverer) : Prop where
  entry : d.entry m.dedupKey.string = none
  attempts : ∀ i a, Mine m d i a → a.phase.working = false
  records : d.records m = []

structure Busy (m : Message) (bound : Int) (d : Deliverer) (i : Nat) (a : Attempt)
    (e : Dedup.Entry) : Prop where
  entry : d.entry m.dedupKey.string = some e
  live : bound ≤ e.expires
  pending : e.complete = false
  mine : Mine m d i a
  working : a.phase.working = true
  lone : ∀ j b, Mine m d j b → b.phase.working = true → j = i
  before : a.phase.held = none → d.records m = []
  after : ∀ o f, a.phase.held = some (o, f) → ∃ p, d.records m = [p] ∧ p.outcome = o

structure Done (m : Message) (bound : Int) (d : Deliverer) (e : Dedup.Entry) : Prop where
  entry : d.entry m.dedupKey.string = some e
  live : bound ≤ e.expires
  complete : e.complete = true
  attempts : ∀ i a, Mine m d i a → a.phase.working = false
  record : ∃ p, d.records m = [p] ∧ p.outcome = e.result

structure Open (m : Message) (bound : Int) (d : Deliverer) : Prop where
  early : d.now < bound
  table : ∃ t, d.dedupe = some t ∧ bound ≤ d.now + t.cfg.ttl
  keys : ∀ a ∈ d.attempts, a.phase = .entered ∨ a.phase.working = true →
    a.request.clientMsgID ≠ "" → a.request.dedupKey.string = m.dedupKey.string →
    a.request.toMessage = m

structure Inv (m : Message) (bound : Int) (d : Deliverer) : Prop extends Open m bound d where
  stage : Idle m d ∨ (∃ i a e, Busy m bound d i a e) ∨ ∃ e, Done m bound d e
  answers : ∀ i a out err, Mine m d i a → a.phase = .returned (some out) err →
    ∃ e, Done m bound d e ∧ out.outcome = e.result

section Frames
variable {m : Message} {bound : Int} {d d' : Deliverer} {i j : Nat} {a b : Attempt} {e : Dedup.Entry}
  {ph : Phase}

theorem Mine.unique (ha : Mine m d i a) (hb : Mine m d i b) : a = b :=
  Option.some.inj (ha.1.symm.trans hb.1)

theorem mine_set (ha : d.attempts[i]? = some a)
    (hset : d'.attempts = d.attempts.set i { a with phase := ph }) :
    Mine m d' j b ↔
      (j = i ∧ b = { a with phase := ph } ∧ a.request.toMessage = m) ∨ (j ≠ i ∧ Mine m d j b) := by
  have hlt : i < d.attempts.length := (List.getElem?_eq_some_iff.mp ha).1
  unfold Mine
  rw [hset]
  by_cases hj : j = i
  · subst hj
    rw [List.getElem?_set_self hlt]
    constructor
    · rintro ⟨h, hm⟩
      cases h
      exact .inl ⟨rfl, rfl, hm⟩
    · rintro (⟨-, rfl, hm⟩ | ⟨hne, -⟩)
      · exact ⟨rfl, hm⟩
      · exact absurd rfl hne
  · rw [List.getElem?_set_ne (Ne.symm hj)]
    constructor
    · intro h
      exact .inr ⟨hj, h⟩
    · rintro (⟨rfl, -⟩ | ⟨-, h⟩)
      · exact absurd rfl hj
      · exact h

structure Same (m : Message) (d d' : Deliverer) : Prop where
  entry : d'.entry m.dedupKey.string = d.entry m.dedupKey.string
  records : d'.records m = d.records m
  kept : ∀ j b, Mine m d j b → b.phase.working = true → Mine m d' j b
  only : ∀ j b, Mine m d' j b → Mine m d j b ∨ b.phase.working = false

section
variable (hs : Same m d d')
include hs

theorem Same.resting (h : ∀ i a, Mine m d i a → a.phase.working = false) :
    ∀ i a, Mine m d' i a → a.phase.working = false := by
  intro i a ha
  rcases hs.only i a ha with hold | hrest
  · exact h i a hold
  · exact hrest

theorem Idle.same (h : Idle m d) : Idle m d' :=
  ⟨hs.entry.trans h.entry, hs.resting h.attempts, hs.records.trans h.records⟩

theorem Busy.same (h : Busy m bound d i a e) : Busy m bound d' i a e where
  entry := hs.entry.trans h.entry
  live := h.live
  pending := h.pending
  mine := hs.kept i a h.mine h.working
  working := h.working
  lone := by
    intro j b hb hw
    rcases hs.only j b hb with hold | hrest
    · exact h.lone j b hold hw
    · rw [hrest] at hw
      cases hw
  before hn := hs.records.trans (h.before hn)
  after o f ho := by
    obtain ⟨p, hp, hpo⟩ := h.after o f ho
    exact ⟨p, hs.records.trans hp, hpo⟩

theorem Done.same (h : Done m bound d e) : Done m bound d' e where
  entry := hs.entry.trans h.entry
  live := h.live
  complete := h.complete
  attempts := hs.resting h.attempts
  record := by
    obtain ⟨p, hp, hpo⟩ := h.record
    exact ⟨p, hs.records.trans hp, hpo⟩

end

theorem Inv.same (hi : Inv m bound d) (ho : Open m bound d') (hs : Same m d d')
    (hnew : ∀ j b out err, Mine m d' j b → b.phase = .returned (some out) err →
      Mine m d j b ∨ ∃ e, Done m bound d e ∧ out.outcome = e.result) : Inv m bound d' where
  toOpen := ho
  stage := by
    rcases hi.stage with hidle | ⟨i, a, e, hbusy⟩ | ⟨e, hdone⟩
    · exact .inl (hidle.same hs)
    · exact .inr (.inl ⟨i, a, e, hbusy.same hs⟩)
    · exact .inr (.inr ⟨e, hdone.same hs⟩)
  answers := by
    intro i a out err ha hret
    have hdone : ∃ e, Done m bound d e ∧ out.outcome = e.result := by
      rcases hnew i a out err ha hret with hold | hdone
      · exact hi.answers i a out err hold hret
      · exact hdone
    obtain ⟨e, hdone, hout⟩ := hdone
    exact ⟨e, hdone.same hs, hout⟩

theorem Inv.live (hi : Inv m bound d) (he : d.entry m.dedupKey.string = some e) : d.now < e.expires := by
  have hb : bound ≤ e.expires := by
    rcases hi.stage with hidle | ⟨i, a, e', hbusy⟩ | ⟨e', hdone⟩
    · rw [hidle.entry] at he
      cases he
    · cases hbusy.entry.symm.trans he
      exact hbusy.live
    · cases hdone.entry.symm.trans he
      exact hdone.live
  have := hi.early
  omega

theorem Inv.lapsed (hi : Inv m bound d) (ht : d.dedupe = some t)
    (hl : t.Lapsed t' d.now m.dedupKey.string) :
    t'.entries[m.dedupKey.string]? = d.entry m.dedupKey.string := by
  have hent := entry_eq ht m.dedupKey.string
  rcases hl with hsame | ⟨-, e, he, hexp⟩
  · exact hsame.trans hent.symm
  · have := hi.live (hent.trans he)
    omega

end Frames

section Acts
variable {m : Message} {bound : Int} {d d' : Deliverer} {r : SendRequest} {ph ph' : Phase} {x : Act}

theorem act_keeps (h : d.act r ph x = some (d', ph')) :
    d'.now = d.now ∧ d'.cfg = d.cfg ∧ (ph = .entered ∨ ph.working = true) ∧
      ∀ t, d.dedupe = some t → ∃ t', d'.dedupe = some t' ∧ t'.cfg = t.cfg := by
  rcases act_cases h with ⟨hph, hc⟩ | ⟨hq, inboxes, rfl⟩ | ⟨members, messageID, res, rfl, rfl, -⟩ |
    ⟨out, err, rfl, rfl, -⟩ | ⟨err, rfl, rfl, -⟩
  · refine ⟨?_, ?_, .inl hph, ?_⟩ <;>
      rcases d.claim_cases r with ⟨-, he⟩ | ⟨t, -, hd, ⟨e, -, -, he⟩ | ⟨-, he⟩⟩ <;>
      rw [he] at hc <;> cases hc
    · rfl
    · rfl
    · rfl
    · rfl
    · rfl
    · rfl
    · exact fun t ht => ⟨t, ht, rfl⟩
    · exact fun t ht => ⟨t, ht, rfl⟩
    · intro t' ht'
      cases hd.symm.trans ht'
      exact ⟨_, rfl, rfl⟩
  · exact ⟨rfl, rfl, .inr hq.before, fun t ht => ⟨t, ht, rfl⟩⟩
  · exact ⟨rfl, rfl, .inr rfl, fun t ht => ⟨t, ht, rfl⟩⟩
  · rcases d.completeDedup_cases r out with ⟨-, he⟩ | ⟨t, -, hd, he⟩ <;> rw [he]
    · exact ⟨rfl, rfl, .inr rfl, fun t ht => ⟨t, ht, rfl⟩⟩
    refine ⟨rfl, rfl, .inr rfl, fun t' ht' => ?_⟩
    cases hd.symm.trans ht'
    exact ⟨_, rfl, rfl⟩
  · rcases d.abandonDedup_cases r with ⟨-, he⟩ | ⟨t, -, hd, he⟩ <;> rw [he]
    · exact ⟨rfl, rfl, .inr rfl, fun t ht => ⟨t, ht, rfl⟩⟩
    refine ⟨rfl, rfl, .inr rfl, fun t' ht' => ?_⟩
    cases hd.symm.trans ht'
    exact ⟨_, rfl, t.abandon_cfg r.dedupKey⟩

theorem Inv.other_entry (hi : Inv m bound d) (h : d.act r ph x = some (d', ph'))
    (hk : r.clientMsgID ≠ "" → m.dedupKey.string ≠ r.dedupKey.string) :
    d'.entry m.dedupKey.string = d.entry m.dedupKey.string := by
  rcases act_cases h with ⟨-, hc⟩ | ⟨-, inboxes, rfl⟩ | ⟨members, messageID, res, rfl, rfl, -⟩ |
    ⟨out, err, rfl, rfl, -⟩ | ⟨err, rfl, rfl, -⟩
  · rcases d.claim_cases r with ⟨-, he⟩ | ⟨t, hid, hd, ⟨e, -, -, he⟩ | ⟨-, he⟩⟩ <;>
      rw [he] at hc <;> cases hc
    · rfl
    · rfl
    · exact hi.lapsed hd (Dedup.Table.reserve_other (hk hid))
  · rfl
  · rfl
  · rcases d.completeDedup_cases r out with ⟨-, he⟩ | ⟨t, hid, hd, he⟩ <;> rw [he]
    exact (Dedup.Table.complete_other (hk hid) _).trans (entry_eq hd _).symm
  · rcases d.abandonDedup_cases r with ⟨-, he⟩ | ⟨t, hid, hd, he⟩ <;> rw [he]
    exact (Dedup.Table.abandon_other (hk hid)).trans (entry_eq hd _).symm

theorem records_store (d : Deliverer) (r : SendRequest) (messageID : String) (res : AppendResult) :
    (d.store r messageID res).records m =
      d.records m ++ if r.toMessage = m then [⟨r, messageID, res⟩] else [] := by
  unfold records
  rw [posted_store, filter_append]
  congr 1
  by_cases hm : r.toMessage = m
  · subst hm
    rw [if_pos rfl, if_pos rfl, filter_cons_of_pos (by simp), filter_nil]
  · rw [if_neg hm]
    split
    · rw [filter_cons_of_neg (by simpa using hm), filter_nil]
    · rfl

theorem other_records (h : d.act r ph x = some (d', ph')) (hm : r.toMessage ≠ m) :
    d'.records m = d.records m := by
  rcases act_cases h with ⟨-, hc⟩ | ⟨-, inboxes, rfl⟩ | ⟨members, messageID, res, rfl, rfl, -⟩ |
    ⟨out, err, rfl, rfl, -⟩ | ⟨err, rfl, rfl, -⟩
  · rcases d.claim_cases r with ⟨-, he⟩ | ⟨t, -, -, ⟨e, -, -, he⟩ | ⟨-, he⟩⟩ <;>
      rw [he] at hc <;> cases hc <;> rfl
  · rfl
  · rw [records_store, if_neg hm, append_nil]
  · rcases d.completeDedup_cases r out with ⟨-, he⟩ | ⟨t, -, -, he⟩ <;> rw [he]
    rfl
  · rcases d.abandonDedup_cases r with ⟨-, he⟩ | ⟨t, -, -, he⟩ <;> rw [he]
    rfl

end Acts

section Steps
variable {m : Message} {bound : Int} {d d' e : Deliverer} {i : Nat} {a : Attempt} {c : Dedup.Entry}
  {ph : Phase} {x : Act} {op : Op}

theorem Busy.not_done (hb : Busy m bound d i a c) (hd : Done m bound d c') : False := by
  cases hb.entry.symm.trans hd.entry
  have hc := hd.complete
  rw [hb.pending] at hc
  cases hc

theorem Inv.busy (hi : Inv m bound d) (ha : Mine m d i a) (hw : a.phase.working = true) :
    ∃ c, Busy m bound d i a c := by
  rcases hi.stage with hidle | ⟨j, b, c, hbusy⟩ | ⟨c, hdone⟩
  · rw [hidle.attempts i a ha] at hw
    cases hw
  · obtain rfl := hbusy.lone i a ha hw
    cases hbusy.mine.unique ha
    exact ⟨c, hbusy⟩
  · rw [hdone.attempts i a ha] at hw
    cases hw

theorem Open.step (ho : Open m bound d) (hw : d.Within m bound op) (h : d.step op = some d') :
    Open m bound d' := by
  rcases step_cases h with ⟨r, rfl, rfl⟩ | ⟨now, rfl, hle, rfl⟩ | ⟨rfl, rfl⟩ |
    ⟨i, x, a, e, ph, rfl, ha, hact, rfl⟩
  · refine ⟨ho.early, ho.table, ?_⟩
    intro a ha hph hid hk
    rcases mem_append.mp ha with hold | hnew
    · exact ho.keys a hold hph hid hk
    rw [mem_singleton] at hnew
    subst hnew
    unfold enter at hph hid hk ⊢
    split at hph
    · rcases hph with hph | hph <;> cases hph
    rename_i hconv
    rw [if_neg hconv] at hid hk ⊢
    exact hw hid hk
  · obtain ⟨t, ht, hb⟩ := ho.table
    refine ⟨hw, ⟨t, ht, ?_⟩, ho.keys⟩
    dsimp only
    omega
  · obtain ⟨t, ht, hb⟩ := ho.table
    refine ⟨ho.early, ⟨t.sweep d.now, ?_, hb⟩, ho.keys⟩
    dsimp only
    rw [ht]
    rfl
  · obtain ⟨hnow, -, hph, hcfg⟩ := act_keeps hact
    obtain ⟨t, ht, hb⟩ := ho.table
    obtain ⟨t', ht', hc⟩ := hcfg t ht
    refine ⟨hnow ▸ ho.early, ⟨t', ht', ?_⟩, ?_⟩
    · dsimp only
      rw [hnow, hc]
      exact hb
    · intro b hb hph' hid hk
      rcases mem_or_eq_of_mem_set hb with hold | rfl
      · exact ho.keys b hold hph' hid hk
      · exact ho.keys a (mem_of_getElem? ha) hph hid hk

theorem Inv.act_other (hi : Inv m bound d) (ha : d.attempts[i]? = some a)
    (hact : d.act a.request a.phase x = some (e, ph)) (hm : a.request.toMessage ≠ m)
    (ho : Open m bound { e with attempts := d.attempts.set i { a with phase := ph } }) :
    Inv m bound { e with attempts := d.attempts.set i { a with phase := ph } } := by
  have hback : ∀ j b, Mine m { e with attempts := d.attempts.set i { a with phase := ph } } j b →
      Mine m d j b := by
    intro j b hb
    rcases (mine_set ha rfl).mp hb with ⟨-, -, hma⟩ | ⟨-, hold⟩
    · exact absurd hma hm
    · exact hold
  have hk : a.request.clientMsgID ≠ "" → m.dedupKey.string ≠ a.request.dedupKey.string :=
    fun hid hk => hm (hi.keys a (mem_of_getElem? ha) (act_keeps hact).2.2.1 hid hk.symm)
  have hentry : e.entry m.dedupKey.string = d.entry m.dedupKey.string := hi.other_entry hact hk
  have hrecords : e.records m = d.records m := other_records hact hm
  refine hi.same ho ⟨hentry, hrecords, ?_, ?_⟩ ?_
  · intro j b hb _
    refine (mine_set ha rfl).mpr (.inr ⟨?_, hb⟩)
    rintro rfl
    cases hb.1.symm.trans ha
    exact hm hb.2
  · exact fun j b hb => .inl (hback j b hb)
  · exact fun j b _ _ hb _ => .inl (hback j b hb)

section
variable (hb : Busy m bound d i a c)
include hb

theorem Busy.go_on (hi : Inv m bound d) (hw : ph.working = true)
    (hentry : e.entry m.dedupKey.string = some c) (hbefore : ph.held = none → e.records m = [])
    (hafter : ∀ o f, ph.held = some (o, f) → ∃ p, e.records m = [p] ∧ p.outcome = o)
    (ho : Open m bound { e with attempts := d.attempts.set i { a with phase := ph } }) :
    Inv m bound { e with attempts := d.attempts.set i { a with phase := ph } } where
  toOpen := ho
  stage := by
    refine .inr (.inl ⟨i, { a with phase := ph }, c, ?_⟩)
    refine ⟨hentry, hb.live, hb.pending, ?_, hw, ?_, hbefore, hafter⟩
    · exact (mine_set hb.mine.1 rfl).mpr (.inl ⟨rfl, rfl, hb.mine.2⟩)
    intro j b hj hwork
    rcases (mine_set hb.mine.1 rfl).mp hj with ⟨rfl, -⟩ | ⟨-, hold⟩
    · rfl
    · exact hb.lone j b hold hwork
  answers := by
    intro j b out err hj hret
    rcases (mine_set hb.mine.1 rfl).mp hj with ⟨-, rfl, -⟩ | ⟨-, hold⟩
    · dsimp only at hret
      rw [hret] at hw
      cases hw
    · obtain ⟨c', hdone, -⟩ := hi.answers j b out err hold hret
      exact (hb.not_done hdone).elim

theorem Busy.rest (hw : ph.working = false)
    (hset : e.attempts = d.attempts.set i { a with phase := ph }) :
    ∀ j b, Mine m e j b → b.phase.working = false := by
  intro j b hj
  rcases (mine_set hb.mine.1 hset).mp hj with ⟨-, rfl, -⟩ | ⟨hne, hold⟩
  · exact hw
  cases hwork : b.phase.working with
  | false => rfl
  | true => exact absurd (hb.lone j b hold hwork) hne

theorem Busy.complete (hi : Inv m bound d) (hid : m.clientMsgID ≠ "")
    (hph : a.phase = .completing out err) (ho : Open m bound { d.completeDedup a.request out with
      attempts := d.attempts.set i { a with phase := .returned (some out) err } }) :
    Inv m bound { d.completeDedup a.request out with
      attempts := d.attempts.set i { a with phase := .returned (some out) err } } := by
  obtain ⟨t, ht, hbound⟩ := hi.table
  obtain ⟨p, hp, hpo⟩ := hb.after out.outcome out.duplicate (by rw [hph]; rfl)
  obtain rfl := hb.mine.2
  rcases d.completeDedup_cases a.request out with ⟨hnone, -⟩ | ⟨t', -, ht', he⟩
  · rcases hnone with hempty | hnone
    · exact absurd hempty hid
    · rw [ht] at hnone
      cases hnone
  cases ht'.symm.trans ht
  rw [he] at ho ⊢
  have hdone : Done a.request.toMessage bound { d with
      dedupe := some (t.complete a.request.dedupKey out.outcome d.now)
      attempts := d.attempts.set i { a with phase := .returned (some out) err } }
      { result := out.outcome, complete := true, expires := d.now + t.cfg.ttl } := by
    refine ⟨t.complete_self a.request.dedupKey out.outcome d.now, hbound, rfl, ?_, p, hp, hpo⟩
    exact hb.rest rfl rfl
  refine ⟨ho, .inr (.inr ⟨_, hdone⟩), ?_⟩
  intro j b out' err' hj hret
  rcases (mine_set hb.mine.1 rfl).mp hj with ⟨-, rfl, -⟩ | ⟨-, hold⟩
  · cases hret
    exact ⟨_, hdone, rfl⟩
  · obtain ⟨c', hold', -⟩ := hi.answers j b out' err' hold hret
    exact (hb.not_done hold').elim

theorem Busy.abandon (hi : Inv m bound d) (hid : m.clientMsgID ≠ "")
    (hph : a.phase = .failing err) (ho : Open m bound { d.abandonDedup a.request with
      attempts := d.attempts.set i { a with phase := .returned none (some err) } }) :
    Inv m bound { d.abandonDedup a.request with
      attempts := d.attempts.set i { a with phase := .returned none (some err) } } := by
  obtain ⟨t, ht, -⟩ := hi.table
  have hrec := hb.before (by rw [hph]; rfl)
  obtain rfl := hb.mine.2
  rcases d.abandonDedup_cases a.request with ⟨hnone, -⟩ | ⟨t', -, ht', he⟩
  · rcases hnone with hempty | hnone
    · exact absurd hempty hid
    · rw [ht] at hnone
      cases hnone
  cases ht'.symm.trans ht
  rw [he] at ho ⊢
  refine ⟨ho, .inl ⟨?_, ?_, hrec⟩, ?_⟩
  · exact Dedup.Table.abandon_open ((entry_eq ht _).symm.trans hb.entry) hb.pending
  · exact hb.rest rfl rfl
  intro j b out err' hj hret
  rcases (mine_set hb.mine.1 rfl).mp hj with ⟨-, rfl, -⟩ | ⟨-, hold⟩
  · cases hret
  · obtain ⟨c', hdone, -⟩ := hi.answers j b out err' hold hret
    exact (hb.not_done hdone).elim

end

theorem Inv.claim (hi : Inv m bound d) (hid : m.clientMsgID ≠ "") (ha : Mine m d i a)
    (hph : a.phase = .entered) (hc : (e, ph) = d.claim a.request)
    (ho : Open m bound { e with attempts := d.attempts.set i { a with phase := ph } }) :
    Inv m bound { e with attempts := d.attempts.set i { a with phase := ph } } := by
  obtain ⟨t, ht, hbound⟩ := hi.table
  have hrest : a.phase.working = false := by rw [hph]; rfl
  have hkept : ∀ {e' : Deliverer} {ph' : Phase} j b, Mine m d j b → b.phase.working = true →
      Mine m { e' with attempts := d.attempts.set i { a with phase := ph' } } j b := by
    intro e' ph' j b hb hw
    refine (mine_set ha.1 rfl).mpr (.inr ⟨?_, hb⟩)
    rintro rfl
    cases ha.unique hb
    rw [hrest] at hw
    cases hw
  obtain rfl := ha.2
  rcases d.claim_cases a.request with ⟨hnone, -⟩ | ⟨t', -, ht', ⟨c, hent, -, he⟩ | ⟨hexp, he⟩⟩
  · rw [tableFor_eq hid, ht] at hnone
    cases hnone
  · -- a live claim: answered, or refused while it is pending
    rw [he] at hc
    cases hc
    cases ht'.symm.trans ht
    have hentry := (entry_eq ht a.request.dedupKey.string).trans hent
    refine hi.same ho ⟨rfl, rfl, hkept, ?_⟩ ?_
    · intro j b hb
      rcases (mine_set ha.1 rfl).mp hb with ⟨-, rfl, -⟩ | ⟨-, hold⟩
      · right
        dsimp only
        split <;> rfl
      · exact .inl hold
    · intro j b out err hb hret
      rcases (mine_set ha.1 rfl).mp hb with ⟨-, rfl, -⟩ | ⟨-, hold⟩
      · right
        dsimp only at hret
        split at hret
        · rename_i hcomplete
          cases hret
          rcases hi.stage with hidle | ⟨j', b, c', hbusy⟩ | ⟨c', hdone⟩
          · cases hidle.entry.symm.trans hentry
          · cases hbusy.entry.symm.trans hentry
            rw [hbusy.pending] at hcomplete
            cases hcomplete
          · cases hdone.entry.symm.trans hentry
            exact ⟨c, hdone, rfl⟩
        · cases hret
      · exact .inl hold
  · -- no claim: the attempt takes it
    rw [he] at hc
    cases hc
    cases ht'.symm.trans ht
    have hnone : d.entry a.request.dedupKey.string = none := by
      cases hentry : d.entry a.request.dedupKey.string with
      | none => rfl
      | some c =>
        have hlive := hi.live hentry
        have := hexp c ((entry_eq ht _).symm.trans hentry)
        omega
    have hidle : Idle a.request.toMessage d := by
      rcases hi.stage with hidle | ⟨j', b, c', hbusy⟩ | ⟨c', hdone⟩
      · exact hidle
      · cases hnone.symm.trans hbusy.entry
      · cases hnone.symm.trans hdone.entry
    refine ⟨ho, .inr (.inl ⟨i, { a with phase := .listing }, { expires := d.now + t.cfg.ttl }, ?_⟩), ?_⟩
    · refine ⟨t.reserve_self a.request.dedupKey.string d.now, hbound, rfl, ?_, rfl, ?_, ?_, ?_⟩
      · exact (mine_set ha.1 rfl).mpr (.inl ⟨rfl, rfl, rfl⟩)
      · intro j b hb hw
        rcases (mine_set ha.1 rfl).mp hb with ⟨rfl, -⟩ | ⟨-, hold⟩
        · rfl
        · rw [hidle.attempts j b hold] at hw
          cases hw
      · exact fun _ => hidle.records
      · intro o f hheld
        cases hheld
    · intro j b out err hb hret
      rcases (mine_set ha.1 rfl).mp hb with ⟨-, rfl, -⟩ | ⟨-, hold⟩
      · cases hret
      · obtain ⟨c', hdone, -⟩ := hi.answers j b out err hold hret
        cases hnone.symm.trans hdone.entry

theorem Inv.step (hid : m.clientMsgID ≠ "") (hi : Inv m bound d) (hw : d.Within m bound op)
    (h : d.step op = some d') : Inv m bound d' := by
  have ho := hi.toOpen.step hw h
  rcases step_cases h with ⟨r, rfl, rfl⟩ | ⟨now, rfl, hle, rfl⟩ | ⟨rfl, rfl⟩ |
    ⟨i, x, a, e, ph, rfl, ha, hact, rfl⟩
  · have hnew : ∀ j b, Mine m { d with attempts := d.attempts ++ [d.enter r] } j b →
        Mine m d j b ∨ b = d.enter r := by
      intro j b hb
      obtain ⟨hget, hm⟩ := hb
      dsimp only at hget
      rcases getElem?_concat_cases hget with ⟨_, hnew⟩ | hold
      · exact .inr hnew
      · exact .inl ⟨hold, hm⟩
    refine hi.same ho ⟨rfl, rfl, ?_, ?_⟩ ?_
    · intro j b hb _
      refine ⟨?_, hb.2⟩
      dsimp only
      rw [List.getElem?_append_left (List.getElem?_eq_some_iff.mp hb.1).1]
      exact hb.1
    · intro j b hb
      rcases hnew j b hb with hold | rfl
      · exact .inl hold
      right
      unfold enter
      split <;> rfl
    · intro j b out err hb hret
      rcases hnew j b hb with hold | rfl
      · exact .inl hold
      · unfold enter at hret
        split at hret <;> cases hret
  · exact hi.same ho ⟨rfl, rfl, fun j b hb _ => hb, fun j b hb => .inl hb⟩ (fun j b _ _ hb _ => .inl hb)
  · obtain ⟨t, ht, -⟩ := hi.table
    refine hi.same ho ⟨?_, rfl, fun j b hb _ => hb, fun j b hb => .inl hb⟩ (fun j b _ _ hb _ => .inl hb)
    refine (entry_eq (t := t.sweep d.now) ?_ _).trans (hi.lapsed ht (t.sweep_lapsed d.now _))
    dsimp only
    rw [ht]
    rfl
  · by_cases hm : a.request.toMessage = m
    · have hmine : Mine m d i a := ⟨ha, hm⟩
      rcases act_cases hact with ⟨hph, hc⟩ | ⟨hq, inboxes, rfl⟩ |
        ⟨members, messageID, res, hph, rfl, ⟨rfl, hwork, hheld⟩ | ⟨err, rfl, -⟩⟩ |
        ⟨out, err, hph, rfl, rfl⟩ | ⟨err, hph, rfl, rfl⟩
      · exact hi.claim hid hmine hph hc ho
      · obtain ⟨c, hb⟩ := hi.busy hmine hq.before
        refine hb.go_on hi hq.after hb.entry ?_ ?_ ho
        · intro hnone
          exact hb.before (hq.held.symm.trans hnone)
        · intro o f hsome
          exact hb.after o f (hq.held.symm.trans hsome)
      · obtain ⟨c, hb⟩ := hi.busy hmine (by rw [hph]; rfl)
        have hrec : d.records m = [] := hb.before (by rw [hph]; rfl)
        refine hb.go_on hi hwork hb.entry ?_ ?_ ho
        · intro hnone
          cases hnone.symm.trans hheld
        intro o f hsome
        cases hsome.symm.trans hheld
        refine ⟨⟨a.request, messageID, res⟩, ?_, rfl⟩
        rw [records_store, hrec, if_pos hm]
        rfl
      · exact absurd hm (hw a ha)
      · obtain ⟨c, hb⟩ := hi.busy hmine (by rw [hph]; rfl)
        exact hb.complete hi hid hph ho
      · obtain ⟨c, hb⟩ := hi.busy hmine (by rw [hph]; rfl)
        exact hb.abandon hi hid hph ho
    · exact hi.act_other ha hact hm ho

end Steps

theorem Inv.new (cfg : Config) (dcfg : Dedup.Config) (presence : Bool) (start : Int) (m : Message)
    (hpos : 0 < dcfg.applyDefaults.ttl) :
    Inv m (start + dcfg.applyDefaults.ttl) (new cfg (some dcfg) presence start) where
  early := by
    show start < start + dcfg.applyDefaults.ttl
    omega
  table := ⟨.new dcfg, rfl, Int.le_refl _⟩
  keys a ha := absurd ha not_mem_nil
  stage := .inl ⟨by unfold entry; rfl, fun i a ha => (by cases ha.1), by unfold records posted; rfl⟩
  answers i a out err ha := by cases ha.1

theorem ttl_pos (dcfg : Dedup.Config) : 0 < dcfg.applyDefaults.ttl := by
  unfold Dedup.Config.applyDefaults
  dsimp only
  split <;> omega

/-- However attempts to send a message interleave in the time its claim lives, the
conversation's log has at most one record of it, and an attempt that returns
without error gives that record's coordinates. -/
theorem sent_once (cfg : Config) (dcfg : Dedup.Config) (presence : Bool) (start : Int) {m : Message}
    (hid : m.clientMsgID ≠ "") {ops : List Op} {d : Deliverer}
    (hr : Run Step (Within m (start + dcfg.applyDefaults.ttl)) (new cfg (some dcfg) presence start)
      ops d) : (d.records m).length ≤ 1 ∧
      ∀ a ∈ d.attempts, a.request.toMessage = m → ∀ out, a.phase = .returned (some out) none →
        ∃ p, d.records m = [p] ∧ out.outcome = p.outcome := by
  have hi := hr.invariant (Inv m (start + dcfg.applyDefaults.ttl))
    (Inv.new cfg dcfg presence start m (ttl_pos dcfg)) (fun _ _ _ hi hc hs => hi.step hid hc hs)
  refine ⟨?_, ?_⟩
  · rcases hi.stage with hidle | ⟨i, a, e, hbusy⟩ | ⟨e, hdone⟩
    · rw [hidle.records]
      exact Nat.zero_le 1
    · cases hheld : a.phase.held with
      | none =>
        rw [hbusy.before hheld]
        exact Nat.zero_le 1
      | some o =>
        obtain ⟨p, hp, -⟩ := hbusy.after o.1 o.2 hheld
        rw [hp]
        exact Nat.le_refl 1
    · obtain ⟨p, hp, -⟩ := hdone.record
      rw [hp]
      exact Nat.le_refl 1
  · intro a ha hm out hret
    obtain ⟨i, hget⟩ := getElem?_of_mem ha
    obtain ⟨e, hdone, hout⟩ := hi.answers i a out none ⟨hget, hm⟩ hret
    obtain ⟨p, hp, hpo⟩ := hdone.record
    exact ⟨p, hp, hout.trans hpo.symm⟩

def retried : List Op :=
  [.send hello, .act 0 .claim, .act 0 (.members (.ok ["u", "v"])), .send hello, .act 1 .claim,
    .act 0 (.ensure none "m1"), .act 0 (.append (.stored ⟨"chat.direct.c", 3, 1, 40⟩)),
    .act 0 (.point [none, some (.append "disk full")]), .act 0 .complete, .send hello, .act 2 .claim]

theorem retried_once : ∃ d, Run Step (Within hello.toMessage (10 + 50))
      (new {} (some ⟨50, 0⟩) true 10) retried d ∧
    d.attempts[1]? = some ⟨hello, .returned none (some .inFlight)⟩ ∧
    d.attempts[2]? = some ⟨hello, .returned (some (hello.replay ⟨"m1", "chat.direct.c", 3, 1, 40⟩)) none⟩ ∧
    (d.records hello.toMessage).length ≤ 1 ∧ ∃ p, d.records hello.toMessage = [p] := by
  refine Run.shown (fun d => d.attempts[1]? = some ⟨hello, .returned none (some .inFlight)⟩ ∧
      d.attempts[2]? =
        some ⟨hello, .returned (some (hello.replay ⟨"m1", "chat.direct.c", 3, 1, 40⟩)) none⟩)
    (by decide +kernel) ?_
  rintro d hr ⟨hflight, hdup⟩
  obtain ⟨hlen, hans⟩ := sent_once {} ⟨50, 0⟩ true 10 (m := hello.toMessage) (by decide) hr
  obtain ⟨p, hp, -⟩ := hans _ (mem_of_getElem? hdup) rfl _ rfl
  exact ⟨hflight, hdup, hlen, p, hp⟩

def unreplicated : List Op :=
  [.send hello, .act 0 .claim, .act 0 (.members (.ok ["u", "v"])), .act 0 (.ensure none "m1"),
    .act 0 (.append (.unacknowledged ⟨"chat.direct.c", 3, 1, 40⟩
      (.notReplicated (.ackTimeout ⟨"chat.direct.c", 3⟩ 1 0 1)))), .act 0 .abandon,
    .send hello, .act 1 .claim, .act 1 (.members (.ok ["u", "v"])), .act 1 (.ensure none "m2"),
    .act 1 (.append (.stored ⟨"chat.direct.c", 3, 2, 41⟩))]

theorem unreplicated_twice : ∃ d, Run Step always (new {} (some ⟨50, 0⟩) true 10) unreplicated d ∧
    (d.records hello.toMessage).map (·.messageID) = ["m1", "m2"] :=
  Run.found _ (by decide +kernel)

end Boltq.Fanout.Deliverer
