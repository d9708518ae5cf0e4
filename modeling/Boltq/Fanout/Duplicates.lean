import Boltq.Fanout.Send

namespace Boltq.Fanout
open Lib Boltq.Stream Streamctl Std List

def SendRequest.Keyed (r : SendRequest) : Prop := r.conversationID ≠ "" ∧ r.clientMsgID ≠ ""
  deriving Decidable

def SendRequest.Alike (r r' : SendRequest) : Prop :=
  r.tenant = r'.tenant ∧ r.toMessage = r'.toMessage
  deriving Decidable

theorem SendRequest.Alike.symm {r r' : SendRequest} (h : r.Alike r') : r'.Alike r :=
  ⟨h.1.symm, h.2.symm⟩

def Phase.claimed : Phase → Bool
  | .entered => false
  | .returned (some out) _ => !out.duplicate
  | .returned none (some .inFlight) => false
  | .returned none (some .emptyConversation) => false
  | _ => true

theorem Phase.claimed_of_working {ph : Phase} (h : ph.working = true) : ph.claimed = true := by
  cases ph with
  | entered => cases h
  | returned out err => cases h
  | _ => rfl

namespace Deliverer

/-- Requests with the same dedup key are the same request. -/
def KeysApart (d : Deliverer) : Op → Prop
  | .send r => r.Keyed → ∀ a ∈ d.attempts, a.request.Keyed →
      a.request.dedupKey.string = r.dedupKey.string → a.request.Alike (r.normal d.cfg)
  | _ => True

instance (d : Deliverer) (op : Op) : Decidable (d.KeysApart op) := by
  unfold KeysApart
  split <;> infer_instance

def Sourced (d : Deliverer) (r : SendRequest) (o : Outcome) : Prop :=
  ∃ p ∈ d.posted r.topic, p.request = r ∧ p.outcome = o

structure Traced (d : Deliverer) : Prop where
  conversation : ∀ a ∈ d.attempts, a.phase = .entered ∨ a.phase.working = true →
    a.request.conversationID ≠ ""
  held : ∀ a ∈ d.attempts, ∀ o f, a.phase.held = some (o, f) → f = false ∧ d.Sourced a.request o
  failing : ∀ a ∈ d.attempts, a.phase ≠ .failing .inFlight ∧ a.phase ≠ .failing .emptyConversation
  claims : ∀ k e, d.entry k = some e → ∃ a ∈ d.attempts, a.phase.claimed = true ∧
    a.request.Keyed ∧ a.request.dedupKey.string = k ∧
    (e.complete = true → d.Sourced a.request e.result)
  alike : ∀ a ∈ d.attempts, ∀ b ∈ d.attempts, a.request.Keyed → b.request.Keyed →
    a.request.dedupKey.string = b.request.dedupKey.string → a.request.Alike b.request
  answers : ∀ a ∈ d.attempts, ∀ out err, a.phase = .returned (some out) err →
    out.duplicate = true → ∃ b ∈ d.attempts, b.phase.claimed = true ∧
      b.request.Alike a.request ∧ d.Sourced b.request out.outcome
  refusals : ∀ a ∈ d.attempts, a.phase = .returned none (some .inFlight) →
    ∃ b ∈ d.attempts, b.phase.claimed = true ∧ b.request.Alike a.request

section Steps
variable {d d' e : Deliverer} {i : Nat} {a b : Attempt} {r : SendRequest} {ph ph' : Phase} {x : Act}
  {o : Outcome} {op : Op}

structure Grows (d d' : Deliverer) : Prop where
  posted : ∀ topic, ∀ p ∈ d.posted topic, p ∈ d'.posted topic
  claimed : ∀ b ∈ d.attempts, b.phase.claimed = true →
    ∃ b' ∈ d'.attempts, b'.request = b.request ∧ b'.phase.claimed = true

theorem Sourced.grow (hg : Grows d d') (h : d.Sourced r o) : d'.Sourced r o := by
  obtain ⟨p, hp, hr, ho⟩ := h
  exact ⟨p, hg.posted _ p hp, hr, ho⟩

theorem act_posted (h : d.act r ph x = some (d', ph')) :
    ∀ topic, ∀ p ∈ d.posted topic, p ∈ d'.posted topic := by
  intro topic p hp
  rcases act_cases h with ⟨-, hc⟩ | ⟨-, inboxes, rfl⟩ | ⟨members, messageID, res, rfl, rfl, -⟩ |
    ⟨out, err, rfl, rfl, -⟩ | ⟨err, rfl, rfl, -⟩
  · rcases d.claim_cases r with ⟨-, he⟩ | ⟨t, -, -, ⟨c, -, -, he⟩ | ⟨-, he⟩⟩ <;>
      rw [he] at hc <;> cases hc <;> exact hp
  · exact hp
  · rw [posted_store]
    exact mem_append_left _ hp
  · rcases d.completeDedup_cases r out with ⟨-, he⟩ | ⟨t, -, -, he⟩ <;> rw [he] <;> exact hp
  · rcases d.abandonDedup_cases r with ⟨-, he⟩ | ⟨t, -, -, he⟩ <;> rw [he] <;> exact hp

theorem act_entry {k : String} {c : Dedup.Entry} (h : d.act r ph x = some (d', ph'))
    (hc : d'.entry k = some c) : d.entry k = some c ∨ r.clientMsgID ≠ "" ∧ k = r.dedupKey.string ∧
      ((ph = .entered ∧ ph' = .listing ∧ c.complete = false) ∨
        ∃ out err, ph = .completing out err ∧ c.result = out.outcome) := by
  rcases act_cases h with ⟨hph, hclaim⟩ | ⟨-, inboxes, rfl⟩ |
    ⟨members, messageID, res, rfl, rfl, -⟩ | ⟨out, err, hph, rfl, -⟩ | ⟨err, rfl, rfl, -⟩
  · rcases d.claim_cases r with ⟨-, he⟩ | ⟨t, hid, ht, ⟨c', -, -, he⟩ | ⟨-, he⟩⟩ <;>
      rw [he] at hclaim <;> cases hclaim
    · exact .inl hc
    · exact .inl hc
    by_cases hk : k = r.dedupKey.string
    · subst hk
      cases (t.reserve_self r.dedupKey.string d.now).symm.trans hc
      exact .inr ⟨hid, rfl, .inl ⟨hph, rfl, rfl⟩⟩
    · have hl : t.Lapsed (t.reserve r.dedupKey.string d.now) d.now k :=
        Dedup.Table.reserve_other hk
      rcases hl with hsame | ⟨hgone, -⟩
      · exact .inl ((entry_eq ht k).trans (hsame.symm.trans hc))
      · cases hgone.symm.trans hc
  · exact .inl hc
  · exact .inl hc
  · rcases d.completeDedup_cases r out with ⟨-, he⟩ | ⟨t, hid, ht, he⟩ <;> rw [he] at hc
    · exact .inl hc
    by_cases hk : k = r.dedupKey.string
    · subst hk
      cases (t.complete_self r.dedupKey out.outcome d.now).symm.trans hc
      exact .inr ⟨hid, rfl, .inr ⟨out, err, hph, rfl⟩⟩
    · exact .inl ((entry_eq ht k).trans ((Dedup.Table.complete_other hk _).symm.trans hc))
  · rcases d.abandonDedup_cases r with ⟨-, he⟩ | ⟨t, -, ht, he⟩ <;> rw [he] at hc
    · exact .inl hc
    · exact .inl ((entry_eq ht k).trans (Dedup.Table.abandon_le hc))

section
variable (hi : Traced d)
include hi

theorem Traced.act_claimed (ha : a ∈ d.attempts)
    (h : d.act a.request a.phase x = some (d', ph')) (hc : a.phase.claimed = true) :
    ph'.claimed = true := by
  rcases act_cases h with ⟨hph, -⟩ | ⟨hq, -⟩ |
    ⟨members, messageID, res, -, -, ⟨-, hw, -⟩ | ⟨err, -, rfl⟩⟩ | ⟨out, err, hph, -, rfl⟩ |
    ⟨err, hph, -, rfl⟩
  · rw [hph] at hc
    cases hc
  · exact Phase.claimed_of_working hq.after
  · exact Phase.claimed_of_working hw
  · rfl
  · have hdup := (hi.held a ha out.outcome out.duplicate (by rw [hph]; rfl)).1
    show (!out.duplicate) = true
    rw [hdup]
    rfl
  · obtain ⟨hflight, hempty⟩ := hi.failing a ha
    rw [hph] at hflight hempty
    cases err with
    | inFlight => exact absurd rfl hflight
    | emptyConversation => exact absurd rfl hempty
    | _ => rfl

theorem Traced.act_grows (ha : d.attempts[i]? = some a)
    (h : d.act a.request a.phase x = some (e, ph)) :
    Grows d { e with attempts := d.attempts.set i { a with phase := ph } } where
  posted topic p hp := (act_posted h topic p hp : p ∈ e.posted topic)
  claimed := by
    intro b hb hc
    obtain ⟨j, hj⟩ := List.getElem?_of_mem hb
    by_cases hji : j = i
    · subst hji
      cases ha.symm.trans hj
      have hlt : j < d.attempts.length := (List.getElem?_eq_some_iff.mp ha).1
      refine ⟨{ a with phase := ph }, mem_of_getElem? (List.getElem?_set_self hlt), rfl, ?_⟩
      exact hi.act_claimed hb h hc
    · refine ⟨b, mem_of_getElem? (i := j) ?_, rfl, hc⟩
      dsimp only
      rw [List.getElem?_set_ne (Ne.symm hji)]
      exact hj

theorem Traced.fewer (ha : d'.attempts = d.attempts) (hl : d'.logs = d.logs)
    (he : ∀ k c, d'.entry k = some c → d.entry k = some c) : Traced d' := by
  have hs : ∀ r o, d.Sourced r o → d'.Sourced r o := by
    intro r o h
    unfold Sourced posted at h ⊢
    rw [hl]
    exact h
  refine ⟨?_, ?_, ?_, ?_, ?_, ?_, ?_⟩ <;> rw [ha]
  · exact hi.conversation
  · intro a hmem o f hheld
    obtain ⟨hf, hsrc⟩ := hi.held a hmem o f hheld
    exact ⟨hf, hs _ _ hsrc⟩
  · exact hi.failing
  · intro k c hk
    obtain ⟨a, hmem, hc, hkey, hstr, hsrc⟩ := hi.claims k c (he k c hk)
    exact ⟨a, hmem, hc, hkey, hstr, fun hcomp => hs _ _ (hsrc hcomp)⟩
  · exact hi.alike
  · intro a hmem out err hret hdup
    obtain ⟨b, hb, hc, hal, hsrc⟩ := hi.answers a hmem out err hret hdup
    exact ⟨b, hb, hc, hal, hs _ _ hsrc⟩
  · exact hi.refusals

theorem Traced.send (hk : d.KeysApart (.send r)) :
    Traced { d with attempts := d.attempts ++ [d.enter r] } := by
  have hnew : ∀ a ∈ d.attempts ++ [d.enter r], a ∈ d.attempts ∨ a = d.enter r := by
    intro a ha
    rcases mem_append.mp ha with hold | hnew
    · exact .inl hold
    · exact .inr (mem_singleton.mp hnew)
  have hphase : (d.enter r).phase = .entered ∧ r.conversationID ≠ "" ∧
      (d.enter r).request = r.normal d.cfg ∨
      (d.enter r).phase = .returned none (some .emptyConversation) ∧ ¬ (d.enter r).request.Keyed := by
    unfold enter
    split
    · rename_i hconv
      exact .inr ⟨rfl, fun h => h.1 hconv⟩
    · rename_i hconv
      exact .inl ⟨rfl, hconv, rfl⟩
  have halike : ∀ a ∈ d.attempts, a.request.Keyed → (d.enter r).request.Keyed →
      a.request.dedupKey.string = (d.enter r).request.dedupKey.string →
      a.request.Alike (d.enter r).request := by
    intro a ha hka hkr hstr
    rcases hphase with ⟨-, -, hreq⟩ | ⟨-, hno⟩
    · rw [hreq] at hkr hstr ⊢
      exact hk hkr a ha hka hstr
    · exact absurd hkr hno
  refine ⟨?_, ?_, ?_, ?_, ?_, ?_, ?_⟩
  · intro a ha hph
    rcases hnew a ha with hold | rfl
    · exact hi.conversation a hold hph
    rcases hphase with ⟨-, hconv, hreq⟩ | ⟨hret, -⟩
    · rw [hreq]
      exact hconv
    · rw [hret] at hph
      rcases hph with hph | hph <;> cases hph
  · intro a ha o f hheld
    rcases hnew a ha with hold | rfl
    · exact hi.held a hold o f hheld
    rcases hphase with ⟨hent, -⟩ | ⟨hret, -⟩
    · rw [hent] at hheld
      cases hheld
    · rw [hret] at hheld
      cases hheld
  · intro a ha
    rcases hnew a ha with hold | rfl
    · exact hi.failing a hold
    rcases hphase with ⟨hent, -⟩ | ⟨hret, -⟩
    · rw [hent]
      exact ⟨by simp, by simp⟩
    · rw [hret]
      exact ⟨by simp, by simp⟩
  · intro k c hc
    obtain ⟨a, ha, hrest⟩ := hi.claims k c hc
    exact ⟨a, mem_append_left _ ha, hrest⟩
  · intro a ha b hb hka hkb hstr
    rcases hnew a ha with holda | rfl
    · rcases hnew b hb with holdb | rfl
      · exact hi.alike a holda b holdb hka hkb hstr
      · exact halike a holda hka hkb hstr
    · rcases hnew b hb with holdb | rfl
      · exact (halike b holdb hkb hka hstr.symm).symm
      · exact ⟨rfl, rfl⟩
  · intro a ha out err hret hdup
    rcases hnew a ha with hold | rfl
    · obtain ⟨b, hb, hrest⟩ := hi.answers a hold out err hret hdup
      exact ⟨b, mem_append_left _ hb, hrest⟩
    · rcases hphase with ⟨hent, -⟩ | ⟨hempty, -⟩
      · cases hent.symm.trans hret
      · cases hempty.symm.trans hret
  · intro a ha hret
    rcases hnew a ha with hold | rfl
    · obtain ⟨b, hb, hrest⟩ := hi.refusals a hold hret
      exact ⟨b, mem_append_left _ hb, hrest⟩
    · rcases hphase with ⟨hent, -⟩ | ⟨hempty, -⟩
      · cases hent.symm.trans hret
      · cases hempty.symm.trans hret

theorem Traced.claim_answer (ha : a ∈ d.attempts)
    (hact : d.act a.request a.phase x = some (e, ph)) (hret : ph.claimed = false) :
    ∃ b ∈ d.attempts, b.phase.claimed = true ∧ b.request.Alike a.request ∧
      ∀ out err, ph = .returned (some out) err → d.Sourced b.request out.outcome := by
  have hstart := hi.act_claimed ha hact
  rcases act_cases hact with ⟨hph, hclaim⟩ | ⟨hq, -⟩ |
    ⟨members, messageID, res, -, -, ⟨-, hw, -⟩ | ⟨err, -, rfl⟩⟩ | ⟨out, err, hph, -, rfl⟩ |
    ⟨err, hph, -, rfl⟩
  · rcases d.claim_cases a.request with ⟨-, he⟩ | ⟨t, hid, ht, ⟨c, hc, -, he⟩ | ⟨-, he⟩⟩ <;>
      rw [he] at hclaim <;> cases hclaim
    · cases hret
    · have hkeyed : a.request.Keyed := ⟨hi.conversation a ha (.inl hph), hid⟩
      obtain ⟨b, hb, hbc, hbk, hstr, hsrc⟩ := hi.claims _ c ((entry_eq ht _).trans hc)
      refine ⟨b, hb, hbc, hi.alike b hb a ha hbk hkeyed hstr, ?_⟩
      intro out err hout
      split at hout
      · cases hout
        exact hsrc ‹_›
      · cases hout
    · cases hret
  · rw [Phase.claimed_of_working hq.after] at hret
    cases hret
  · rw [Phase.claimed_of_working hw] at hret
    cases hret
  · cases hret
  · rw [hstart (by rw [hph]; rfl)] at hret
    cases hret
  · rw [hstart (by rw [hph]; rfl)] at hret
    cases hret

theorem Traced.act_held (ha : a ∈ d.attempts)
    (hact : d.act a.request a.phase x = some (e, ph)) {f : Bool} (hheld : ph.held = some (o, f)) :
    f = false ∧ e.Sourced a.request o := by
  have hposted := act_posted hact
  rcases act_cases hact with ⟨-, hclaim⟩ | ⟨hq, -⟩ |
    ⟨members, messageID, res, -, rfl, ⟨-, -, hnew⟩ | ⟨err, -, rfl⟩⟩ | ⟨out, err, -, -, rfl⟩ |
    ⟨err, -, -, rfl⟩
  · rcases d.claim_cases a.request with ⟨-, he⟩ | ⟨t, -, -, ⟨c, -, -, he⟩ | ⟨-, he⟩⟩ <;>
      rw [he] at hclaim <;> cases hclaim
    · cases hheld
    · split at hheld <;> cases hheld
    · cases hheld
  · obtain ⟨hf, p, hp, hrest⟩ := hi.held a ha o f (hq.held.symm.trans hheld)
    exact ⟨hf, p, hposted _ p hp, hrest⟩
  · cases hnew.symm.trans hheld
    refine ⟨rfl, ⟨a.request, messageID, res⟩, ?_, rfl, rfl⟩
    rw [posted_store, if_pos rfl]
    exact mem_append_right _ (mem_singleton_self _)
  · cases hheld
  · cases hheld
  · cases hheld

theorem Traced.act (ha : d.attempts[i]? = some a)
    (hact : d.act a.request a.phase x = some (e, ph)) :
    Traced { e with attempts := d.attempts.set i { a with phase := ph } } := by
  have hmem := mem_of_getElem? ha
  have hg := hi.act_grows ha hact
  have hback : ∀ b ∈ d.attempts.set i { a with phase := ph },
      b ∈ d.attempts ∨ b = { a with phase := ph } := fun b hb => mem_or_eq_of_mem_set hb
  have hown : { a with phase := ph } ∈ d.attempts.set i { a with phase := ph } :=
    mem_of_getElem? (List.getElem?_set_self (List.getElem?_eq_some_iff.mp ha).1)
  have hwas : a.phase = .entered ∨ a.phase.working = true := by
    rcases act_cases hact with ⟨hph, -⟩ | ⟨hq, -⟩ | ⟨_, _, _, hph, -⟩ | ⟨_, _, hph, -⟩ | ⟨_, hph, -⟩
    · exact .inl hph
    · exact .inr hq.before
    all_goals
      rw [hph]
      exact .inr rfl
  refine ⟨?_, ?_, ?_, ?_, ?_, ?_, ?_⟩
  · intro b hb hph
    rcases hback b hb with hold | rfl
    · exact hi.conversation b hold hph
    · exact hi.conversation a hmem hwas
  · intro b hb o f hheld
    rcases hback b hb with hold | rfl
    · obtain ⟨hf, hsrc⟩ := hi.held b hold o f hheld
      exact ⟨hf, hsrc.grow hg⟩
    · exact hi.act_held hmem hact hheld
  · intro b hb
    rcases hback b hb with hold | rfl
    · exact hi.failing b hold
    rcases act_cases hact with ⟨-, hclaim⟩ | ⟨hq, -⟩ |
      ⟨members, messageID, res, -, -, ⟨-, -, hnew⟩ | ⟨err, -, rfl⟩⟩ | ⟨out, err, -, -, rfl⟩ |
      ⟨err, -, -, rfl⟩
    · rcases d.claim_cases a.request with ⟨-, he⟩ | ⟨t, -, -, ⟨c, -, -, he⟩ | ⟨-, he⟩⟩ <;>
        rw [he] at hclaim <;> cases hclaim
      · exact ⟨by simp, by simp⟩
      · dsimp only
        split
        · exact ⟨by simp, by simp⟩
        · exact ⟨by simp, by simp⟩
      · exact ⟨by simp, by simp⟩
    · exact hq.failing
    · constructor
      · rintro rfl
        cases hnew
      · rintro rfl
        cases hnew
    · exact ⟨by simp, by simp⟩
    · exact ⟨by simp, by simp⟩
    · exact ⟨by simp, by simp⟩
  · intro k c hc
    rcases act_entry hact hc with hold | ⟨hid, rfl, hcase⟩
    · obtain ⟨b, hb, hbc, hbk, hstr, hsrc⟩ := hi.claims k c hold
      obtain ⟨b', hb', hreq, hbc'⟩ := hg.claimed b hb hbc
      rw [← hreq] at hbk hstr hsrc
      exact ⟨b', hb', hbc', hbk, hstr, fun hcomp => (hsrc hcomp).grow hg⟩
    · refine ⟨{ a with phase := ph }, hown, ?_, ⟨hi.conversation a hmem hwas, hid⟩, rfl, ?_⟩
      · rcases hcase with ⟨-, rfl, -⟩ | ⟨out, err, hph, -⟩
        · rfl
        · exact hi.act_claimed hmem hact (by rw [hph]; rfl)
      · intro hcomp
        rcases hcase with ⟨-, -, hopen⟩ | ⟨out, err, hph, hres⟩
        · rw [hopen] at hcomp
          cases hcomp
        · rw [hres]
          exact (hi.held a hmem out.outcome out.duplicate (by rw [hph]; rfl)).2.grow hg
  · intro b hb b' hb' hk hk' hstr
    have hof : ∀ b ∈ d.attempts.set i { a with phase := ph }, ∃ c ∈ d.attempts,
        c.request = b.request := by
      intro b hb
      rcases hback b hb with hold | rfl
      · exact ⟨b, hold, rfl⟩
      · exact ⟨a, hmem, rfl⟩
    obtain ⟨c, hc, hreq⟩ := hof b hb
    obtain ⟨c', hc', hreq'⟩ := hof b' hb'
    rw [← hreq] at hk hstr ⊢
    rw [← hreq'] at hk' hstr ⊢
    exact hi.alike c hc c' hc' hk hk' hstr
  · intro b hb out err hret hdup
    have hfrom : ∃ c ∈ d.attempts, c.phase.claimed = true ∧ c.request.Alike b.request ∧
        d.Sourced c.request out.outcome := by
      rcases hback b hb with hold | rfl
      · exact hi.answers b hold out err hret hdup
      dsimp only at hret
      have hno : ph.claimed = false := by
        rw [hret]
        show (!out.duplicate) = false
        rw [hdup]
        rfl
      obtain ⟨c, hc, hcc, hal, hsrc⟩ := hi.claim_answer hmem hact hno
      exact ⟨c, hc, hcc, hal, hsrc out err hret⟩
    obtain ⟨c, hc, hcc, hal, hsrc⟩ := hfrom
    obtain ⟨c', hc', hreq, hcc'⟩ := hg.claimed c hc hcc
    rw [← hreq] at hal hsrc
    exact ⟨c', hc', hcc', hal, hsrc.grow hg⟩
  · intro b hb hret
    have hfrom : ∃ c ∈ d.attempts, c.phase.claimed = true ∧ c.request.Alike b.request := by
      rcases hback b hb with hold | rfl
      · exact hi.refusals b hold hret
      dsimp only at hret
      obtain ⟨c, hc, hcc, hal, -⟩ := hi.claim_answer hmem hact (by rw [hret]; rfl)
      exact ⟨c, hc, hcc, hal⟩
    obtain ⟨c, hc, hcc, hal⟩ := hfrom
    obtain ⟨c', hc', hreq, hcc'⟩ := hg.claimed c hc hcc
    rw [← hreq] at hal
    exact ⟨c', hc', hcc', hal⟩

theorem Traced.step (hk : d.KeysApart op) (h : d.step op = some d') : Traced d' := by
  rcases step_cases h with ⟨r, rfl, rfl⟩ | ⟨now, rfl, -, rfl⟩ | ⟨rfl, rfl⟩ |
    ⟨i, x, a, e, ph, rfl, ha, hact, rfl⟩
  · exact hi.send hk
  · exact hi.fewer rfl rfl (fun _ _ hc => hc)
  · refine hi.fewer rfl rfl ?_
    intro k c hc
    cases ht : d.dedupe with
    | none =>
      unfold entry at hc
      rw [ht] at hc
      cases hc
    | some t =>
      have hsweep : (t.sweep d.now).entries[k]? = some c := by
        unfold entry at hc
        rw [ht] at hc
        exact hc
      rcases t.sweep_lapsed d.now k with hsame | ⟨hgone, -⟩
      · exact (entry_eq ht k).trans (hsame.symm.trans hsweep)
      · cases hgone.symm.trans hsweep
  · exact hi.act ha hact

end

end Steps

theorem Traced.new (cfg : Config) (dcfg : Option Dedup.Config) (presence : Bool) (start : Int) :
    Traced (new cfg dcfg presence start) where
  conversation a ha := absurd ha not_mem_nil
  held a ha := absurd ha not_mem_nil
  failing a ha := absurd ha not_mem_nil
  claims k c hc := by
    cases dcfg with
    | none => cases hc
    | some dcfg =>
      have hnone : (∅ : TreeMap String Dedup.Entry)[k]? = some c := hc
      rw [TreeMap.getElem?_emptyc] at hnone
      cases hnone
  alike a ha := absurd ha not_mem_nil
  answers a ha := absurd ha not_mem_nil
  refusals a ha := absurd ha not_mem_nil

/-- A duplicate answer gives the coordinates of a record in the same conversation's
log, written by another attempt to send the same message for the same tenant;
a refusal while a submission is in flight is about such an attempt too. -/
theorem duplicate_same_message (cfg : Config) (dcfg : Option Dedup.Config) (presence : Bool)
    (start : Int) {ops : List Op} {d : Deliverer}
    (hr : Run Step KeysApart (new cfg dcfg presence start) ops d) {a : Attempt}
    (ha : a ∈ d.attempts) : (∀ out, a.phase = .returned (some out) none → out.duplicate = true →
      ∃ p ∈ d.posted a.request.topic, p.outcome = out.outcome ∧ p.request.Alike a.request ∧
        ∃ b ∈ d.attempts, b.phase.claimed = true ∧ b.request = p.request) ∧
    (a.phase = .returned none (some .inFlight) →
      ∃ b ∈ d.attempts, b.phase.claimed = true ∧ b.request.Alike a.request) := by
  have hi := hr.invariant Traced (.new cfg dcfg presence start) (fun _ _ _ hi hc hs => hi.step hc hs)
  refine ⟨?_, hi.refusals a ha⟩
  intro out hret hdup
  obtain ⟨b, hb, hc, hal, p, hp, hreq, ho⟩ := hi.answers a ha out none hret hdup
  have htopic : b.request.topic = a.request.topic := congrArg Message.topic hal.2
  rw [htopic] at hp
  exact ⟨p, hp, ho, hreq ▸ hal, b, hb, hc, hreq.symm⟩

def resent : List Op :=
  [.send hello, .act 0 .claim, .act 0 (.members (.ok ["u", "v"])), .act 0 (.ensure none "m1"),
    .act 0 (.append (.stored ⟨"chat.direct.c", 3, 1, 40⟩)), .act 0 (.point [none, none]),
    .act 0 (.offline []), .act 0 .complete, .send hello, .act 1 .claim]

theorem resent_same_message : ∃ d, Run Step KeysApart (new {} (some ⟨50, 0⟩) true 10) resent d ∧
    ∃ a ∈ d.attempts, a.request = hello ∧
      a.phase = .returned (some (hello.replay ⟨"m1", "chat.direct.c", 3, 1, 40⟩)) none ∧
      ∃ p ∈ d.posted hello.topic, p.outcome = ⟨"m1", "chat.direct.c", 3, 1, 40⟩ ∧
        p.request.Alike hello := by
  refine Run.shown (fun d => d.attempts[1]? =
      some ⟨hello, .returned (some (hello.replay ⟨"m1", "chat.direct.c", 3, 1, 40⟩)) none⟩)
    (by decide +kernel) ?_
  rintro d hr hdup
  have ha := mem_of_getElem? hdup
  obtain ⟨p, hp, ho, hal, -⟩ :=
    (duplicate_same_message {} (some ⟨50, 0⟩) true 10 hr ha).1 _ rfl rfl
  exact ⟨_, ha, rfl, rfl, p, hp, ho, hal⟩

def elsewhere : SendRequest := { hello with conversationID := "d" }

def renumbered : List Op := resent.take 8 ++ [.send elsewhere, .act 1 .claim]

def suppressed : Attempt :=
  ⟨elsewhere, .returned (some (elsewhere.replay ⟨"m1", "chat.direct.c", 3, 1, 40⟩)) none⟩

/-- The message to the other conversation is answered so, and its own conversation
has no record. -/
theorem renumbered_is_suppressed :
    ∃ d, Run Step always (new {} (some ⟨50, 0⟩) true 10) renumbered d ∧
      d.attempts[1]? = some suppressed ∧ d.posted elsewhere.topic = [] :=
  Run.found _ (by decide +kernel)

end Deliverer
end Boltq.Fanout
