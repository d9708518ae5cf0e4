import Boltq.Queuelog.Acquire
import Boltq.Queuelog.Queue

namespace Boltq.Queuelog
open Lib Boltq.Stream Std List

namespace SharePartition
variable {sp : SharePartition}

def Idle (sp : SharePartition) : Prop :=
  ∀ (seq : Nat) (e : Entry), sp.entries[seq]? = some e → e.state ≠ .acquired

theorem fold_visits {f : SharePartition → Nat → Entry → SharePartition} {Q : Entry → Prop}
    (hother : ∀ sp seq e s, s ≠ seq → (f sp seq e).entries[s]? = sp.entries[s]?)
    (hdo : ∀ sp seq e, sp.entries[seq]? = some e → ∀ e' : Entry,
      (f sp seq e).entries[seq]? = some e' → Q e') : ∀ (seq : Nat) (e : Entry),
      (sp.entries.toList.foldl (fun sp x => f sp x.1 x.2) sp).entries[seq]? = some e → Q e := by
  -- what has not been come to yet may still be anything
  refine fun seq e he => fold_rest (P := fun xs sp => ∀ (seq : Nat) (e : Entry),
    sp.entries[seq]? = some e → (∀ x ∈ xs, x.1 ≠ seq) → Q e) hother ?_ ?_ seq e he nofun
  · intro x xs sp hq hin seq e he hnot
    by_cases hseq : seq = x.1
    · subst hseq
      exact hdo sp x.1 x.2 hin e he
    · rw [hother _ _ _ _ hseq] at he
      exact hq seq e he (forall_mem_cons.mpr ⟨fun h => hseq h.symm, hnot⟩)
  · intro seq e he hnot
    exact absurd rfl (hnot (seq, e) (TreeMap.mem_toList_iff_getElem?_eq_some.mpr he))

theorem releaseAll_idle (sp : SharePartition) : sp.releaseAll.1.Idle := by
  refine fold_visits (releaseOne_other _) ?_
  intro sp seq e he e' he'
  unfold releaseOne at he'
  split at he'
  · rcases insert_cases he' with ⟨_, rfl⟩ | ⟨hne, _⟩
    · nofun
    · exact absurd rfl hne
  · rename_i hn
    cases he.symm.trans he'
    exact fun hacq => hn ⟨hacq, rfl⟩

theorem Idle.releaseWhere (h : sp.Idle) (held : String → Bool) : (sp.releaseWhere held).1 = sp := by
  refine fold_entries (P := fun sp' => sp' = sp) (releaseOne_other held) ?_ rfl
  rintro _ seq e rfl he
  exact if_neg (fun hacq => h seq e he hacq.1)

theorem Idle.sweep (h : sp.Idle) (route : DeadLetterFunc) (now : Int) :
    (sp.sweep route now).Idle := by
  have hfold : sp.entries.toList.foldl (fun sp x => reapOne route now sp x.1 x.2) sp = sp := by
    refine fold_entries (P := fun sp' => sp' = sp) (reapOne_other route now) ?_ rfl
    rintro _ seq e rfl he
    exact if_pos (.inl (h seq e he))
  unfold SharePartition.sweep reapExpired
  split
  · exact h
  rw [hfold]
  intro seq e he
  rw [advance_entries] at he
  exact h seq e he

theorem Idle.ack (h : sp.Idle) (consumer : String) (seq : Nat) : (sp.ack consumer seq).1 = sp := by
  rcases ack_cases sp consumer seq with hsame | ⟨e, he, hacq, _⟩
  · exact hsame
  · exact absurd hacq (h seq e he)

theorem Idle.nack (h : sp.Idle) (route : DeadLetterFunc) (consumer : String) (seq : Nat)
    (requeue : Bool) : (sp.nack route consumer seq requeue).1 = sp := by
  rcases nack_cases sp route consumer seq requeue with hsame | ⟨e, he, hacq, _⟩
  · exact hsame
  · exact absurd hacq (h seq e he)

theorem redeliver_partition (consumer : String) (max : Nat) (now : Int) (heap : List Nat)
    (sp : SharePartition) (out : List Delivery) (h : ∀ d ∈ out, d.partition = sp.id) :
    (redeliver consumer max now heap sp out).1.id = sp.id ∧
    ∀ d ∈ (redeliver consumer max now heap sp out).2, d.partition = sp.id := by
  fun_induction redeliver consumer max now heap sp out with
  | case1 | case2 => exact ⟨rfl, h⟩
  | case3 _ _ _ _ _ _ ih | case5 _ _ _ _ _ _ _ _ ih => exact ih h
  | case4 seq heap sp out _ e _ _ sp' d hl ih =>
    cases hl
    exact ih (forall_mem_append.mpr ⟨h, forall_mem_singleton.mpr rfl⟩)

theorem enterAll_partition (consumer : String) (max : Nat) (now : Int) (recs : List Record)
    (sp : SharePartition) (out : List Delivery) (h : ∀ d ∈ out, d.partition = sp.id) :
    (enterAll consumer max now recs sp out).1.id = sp.id ∧
    ∀ d ∈ (enterAll consumer max now recs sp out).2, d.partition = sp.id := by
  fun_induction enterAll consumer max now recs sp out with
  | case1 | case2 => exact ⟨rfl, h⟩
  | case3 r recs sp out _ sp' d hl ih =>
    cases hl
    exact ih (forall_mem_append.mpr ⟨h, forall_mem_singleton.mpr rfl⟩)

theorem skipTo_id (sp : SharePartition) (seq : Nat) : (sp.skipTo seq).id = sp.id := by
  obtain ⟨_, _, _, _, _, h⟩ := sp.skipTo_same seq
  rw [h]

theorem readFresh_partition (consumer : String) (max : Nat) (now : Int) (views : List LogView)
    (sp : SharePartition) (out : List Delivery) (h : ∀ d ∈ out, d.partition = sp.id)
    (hr : readFresh consumer max now views sp out = some (sp', r)) :
    sp'.id = sp.id ∧ ∀ d ∈ given r, d.partition = sp.id := by
  fun_induction readFresh consumer max now views sp out with
  | case1 sp out | case3 view views sp out | case7 view views sp out =>
    cases hr
    exact ⟨rfl, h⟩
  | case2 | case4 => cases hr
  | case5 view sp out hroom requested oldest hread later views ih =>
    rw [← sp.skipTo_id later.log.first] at h ⊢
    exact ih h hr
  | case6 view views sp out hroom e hother hread =>
    cases hr
    refine ⟨rfl, ?_⟩
    split
    · exact fun d hd => absurd hd not_mem_nil
    · exact h
  | case8 view views sp out hroom recs hne hread sp1 out1 hall ih =>
    obtain ⟨hid, hout⟩ := enterAll_partition consumer max now recs sp out h
    rw [hall] at hid hout
    rw [← hid] at hout ⊢
    exact ih hout hr

theorem acquire_partition {route : DeadLetterFunc} {views : List LogView} {consumer : String}
    {max now : Int} {sp' : SharePartition} {r : Except ShareErr (List Delivery)}
    (hr : sp.acquire route views consumer max now = some (sp', r)) :
    sp'.id = sp.id ∧ ∀ d ∈ given r, d.partition = sp.id := by
  unfold acquire at hr
  split at hr
  · cases hr
    exact ⟨rfl, nofun⟩
  split at hr
  · cases hr
    exact ⟨rfl, nofun⟩
  have hid := (frame_stable.reapExpired (.refl sp) route now).id
  generalize sp.reapExpired route now = sp1 at hr hid
  obtain ⟨hid2, hout⟩ := redeliver_partition consumer max.toNat now sp1.available sp1 [] nofun
  rw [← hid2] at hout
  obtain ⟨hid3, hgiven⟩ := readFresh_partition consumer max.toNat now views _ _ hout hr
  rw [hid2, hid] at hid3 hgiven
  exact ⟨hid3, hgiven⟩

end SharePartition

def Call.Past (c : Call) (n p : Nat) : Prop :=
  (c.checked = true ∧ c.index n = p) ∨ ∃ d ∈ c.out, d.partition = p
  deriving Decidable

theorem Call.got_past {c c' : Call} {n p : Nat} {r : Except ShareErr (List Delivery)}
    (hg : c.got r = .goes c') (hr : ∀ d ∈ SharePartition.given r, d.partition ≠ p)
    (hn : ¬ c.Past n p) : ¬ c'.Past n p := by
  have hout : ∀ d ∈ c.out, d.partition ≠ p := fun d hd he => hn (Or.inr ⟨d, hd, he⟩)
  cases r with
  | error e =>
    simp only [got] at hg
    split at hg
    · cases hg
      rintro (⟨hc, _⟩ | ⟨d, hd, he⟩)
      · cases hc
      · exact hout d hd he
    · cases hg
  | ok new =>
    cases hg
    rintro (⟨hc, _⟩ | ⟨d, hd, he⟩)
    · cases hc
    rcases mem_append.mp hd with hd | hd
    · exact hout d hd he
    · exact hr d hd he

theorem Call.got_returned (c : Call) (r : Except ShareErr (List Delivery)) :
    ∀ d ∈ (c.got r).returned, d ∈ c.out := by
  cases r with
  | error e =>
    simp only [got]
    split
    · nofun
    split
    · nofun
    · exact fun d hd => hd
  | ok new => nofun

namespace LeadershipGate
variable {g : LeadershipGate} {p p' : Nat} {leads : Bool}

def Shut (g : LeadershipGate) (p : Nat) : Prop := g.enforced = true ∧ g.allowed[p]? = some false

theorem Shut.mayLease (h : g.Shut p) : g.mayLease p = false := by
  rw [LeadershipGate.mayLease, h.1, getD_eq_getElem?_getD, h.2]
  rfl

theorem set_enforced (g : LeadershipGate) (p : Nat) (leads : Bool) :
    (g.set p leads).1.enforced = g.enforced := by
  unfold set
  split <;> rfl

theorem set_other (h : p' ≠ p) : (g.set p leads).1.allowed[p']? = g.allowed[p']? := by
  unfold set
  split
  · rfl
  · exact getElem?_set_ne h.symm

theorem set_self (hp : p < g.allowed.length) : (g.set p leads).1.allowed[p]? = some leads := by
  unfold set
  rw [getElem?_eq_getElem hp]
  exact getElem?_set_self hp

theorem set_length (g : LeadershipGate) (p : Nat) (leads : Bool) :
    (g.set p leads).1.allowed.length = g.allowed.length := by
  unfold set
  split
  · rfl
  · exact length_set

end LeadershipGate

namespace Queue

def Past (q : Queue) (p : Nat) : Prop := ∃ x ∈ q.calls.toList, x.2.Past q.parts.length p
  deriving Decidable

def Releasing (q : Queue) (p : Nat) : Prop :=
  ∃ x ∈ q.refreshes.toList, x.2.releasing = true ∧ x.2.i = p
  deriving Decidable

/-- A refresh does not outrun a call that passed the gate, or a release. -/
def Unhurried (q : Queue) : Op → Prop
  | .mark id false =>
    ∀ r ∈ q.refreshes[id]?,
      if q.gate.allowed[r.i]? = some true then ¬ q.Past r.i else ¬ q.Releasing r.i
  | _ => True

instance (q : Queue) (op : Op) : Decidable (q.Unhurried op) := by
  unfold Unhurried
  split <;> infer_instance

theorem past_iff {q : Queue} :
    q.Past p ↔ ∃ (id : Nat) (c : Call), q.calls[id]? = some c ∧ c.Past q.parts.length p := by
  constructor
  · rintro ⟨⟨id, c⟩, hx, hp⟩
    exact ⟨id, c, TreeMap.mem_toList_iff_getElem?_eq_some.mp hx, hp⟩
  · rintro ⟨id, c, hc, hp⟩
    exact ⟨(id, c), TreeMap.mem_toList_iff_getElem?_eq_some.mpr hc, hp⟩

def ReleasingBy (refreshes : TreeMap Nat Refresh) (id p : Nat) : Prop :=
  ∃ r : Refresh, refreshes[id]? = some r ∧ r.releasing = true ∧ r.i = p

theorem releasing_iff {q : Queue} : q.Releasing p ↔ ∃ id, ReleasingBy q.refreshes id p := by
  constructor
  · rintro ⟨⟨id, r⟩, hx, hp⟩
    exact ⟨id, r, TreeMap.mem_toList_iff_getElem?_eq_some.mp hx, hp⟩
  · rintro ⟨id, r, hr, hp⟩
    exact ⟨(id, r), TreeMap.mem_toList_iff_getElem?_eq_some.mpr hr, hp⟩

def IdleAt (q : Queue) (p : Nat) : Prop :=
  ∀ sp : SharePartition, q.parts[p]? = some sp → sp.Idle

structure Inv (q : Queue) : Prop where
  size : q.gate.allowed.length = q.parts.length
  enforced : q.leadership = true → q.gate.enforced = true
  sourced : ∀ id ∈ q.refreshes, q.leadership = true
  ids : ∀ (i : Nat) (sp : SharePartition), q.parts[i]? = some sp → sp.id = i
  gated : ∀ p, q.gate.Shut p → ¬ q.Past p
  leased : ∀ p, q.gate.Shut p → q.IdleAt p ∨ q.Releasing p
  marked : ∀ id p, (id, p) ∈ q.marked → q.gate.Shut p ∧
    (q.IdleAt p ∨ ReleasingBy q.refreshes id p)
  settled : ∀ p ∈ q.settled, q.gate.Shut p ∧ q.IdleAt p

variable {q q' : Queue}

theorem Inv.calls (h : Inv q) {calls : TreeMap Nat Call} {rotate : Nat}
    (hp : ∀ p, q.gate.Shut p → ∀ (id : Nat) (c : Call), calls[id]? = some c →
      ¬ c.Past q.parts.length p) : Inv { q with calls, rotate } := by
  refine { h with gated := ?_ }
  intro p hs hpast
  obtain ⟨id, c, hc, hpc⟩ := past_iff.mp hpast
  exact hp p hs id c hc hpc

theorem Inv.settle (h : Inv q) (id : Nat)
    (ho : ∀ c, o = .goes c → ∀ p, q.gate.Shut p → ¬ c.Past q.parts.length p) :
    Inv (q.settle id o) := by
  have hold : ∀ p, q.gate.Shut p → ∀ (id : Nat) (c : Call), q.calls[id]? = some c →
      ¬ c.Past q.parts.length p :=
    fun p hs id c hc hp => h.gated p hs (past_iff.mpr ⟨id, c, hc, hp⟩)
  cases o with
  | goes c =>
    apply h.calls
    intro p hs id' c' hc'
    rcases insert_cases hc' with ⟨_, rfl⟩ | ⟨_, hc'⟩
    · exact ho c' rfl p hs
    · exact hold p hs id' c' hc'
  | returns r =>
    apply h.calls
    intro p hs id' c' hc'
    by_cases hid : id' = id
    · rw [hid, TreeMap.getElem?_erase_self] at hc'
      cases hc'
    · rw [getElem?_erase_other hid] at hc'
      exact hold p hs id' c' hc'

theorem Inv.part (h : Inv q) {sp' : SharePartition} (hsp : q.parts[i]? = some sp)
    (hid : sp'.id = sp.id) (hidle : q.gate.Shut i → sp.Idle → sp'.Idle) :
    Inv { q with parts := q.parts.set i sp' } := by
  have hi : i < q.parts.length := (List.getElem?_eq_some_iff.mp hsp).1
  have hkeep : ∀ p, q.gate.Shut p → q.IdleAt p → IdleAt { q with parts := q.parts.set i sp' } p := by
    intro p hs hidp x hx
    dsimp only at hx
    rcases getElem?_set_cases hx with ⟨rfl, rfl⟩ | ⟨_, hx⟩
    · exact hidle hs (hidp sp hsp)
    · exact hidp x hx
  refine ⟨by rw [length_set]; exact h.size, h.enforced, h.sourced, ?_, ?_, ?_, ?_, ?_⟩
  · intro j x hx
    dsimp only at hx
    rcases getElem?_set_cases hx with ⟨rfl, rfl⟩ | ⟨_, hx⟩
    · rw [hid]
      exact h.ids j sp hsp
    · exact h.ids j x hx
  · intro p hs hp
    refine h.gated p hs ?_
    unfold Past at hp
    rw [length_set] at hp
    exact hp
  · intro p hs
    exact (h.leased p hs).imp_left (hkeep p hs)
  · intro id p hm
    obtain ⟨hs, hl⟩ := h.marked id p hm
    exact ⟨hs, hl.imp_left (hkeep p hs)⟩
  · intro p hp
    obtain ⟨hs, hl⟩ := h.settled p hp
    exact ⟨hs, hkeep p hs hl⟩

theorem Inv.window (h : Inv q) (hf : ∀ sp, (f sp).id = sp.id ∧ (sp.Idle → (f sp).Idle))
    (hs : q.window p f = some q') : Inv q' := by
  obtain ⟨sp, hsp, rfl⟩ := Option.map_eq_some_iff.mp hs
  exact h.part hsp (hf sp).1 (fun _ => (hf sp).2)

theorem Inv.answer (h : Inv q) (id : Int)
    (hf : ∀ sp, (f sp).1.id = sp.id ∧ (sp.Idle → (f sp).1.Idle)) : Inv (q.answer id f).1 := by
  unfold Queue.answer
  cases hp : q.partition id with
  | error e => exact h
  | ok sp =>
    cases q.checkLease id with
    | some e => exact h
    | none =>
      have hsp : q.parts[id.toNat]? = some sp := by
        unfold Queue.partition at hp
        split at hp
        · cases hp
        split at hp
        · cases hp
        rename_i hget
        cases hp
        exact hget
      exact h.part hsp (hf sp).1 (fun _ => (hf sp).2)

theorem ReleasingBy.insert {id id' p : Nat} {r r' : Refresh} {refreshes : TreeMap Nat Refresh}
    (h : ReleasingBy refreshes id' p) (hr : refreshes[id]? = some r)
    (hrel : r.releasing = true → r.i ≠ p) : ReleasingBy (refreshes.insert id r') id' p := by
  obtain ⟨x, hx, hxr, hxi⟩ := h
  have hne : id' ≠ id := by
    rintro rfl
    cases hr.symm.trans hx
    exact hrel hxr hxi
  exact ⟨x, (getElem?_insert_other r' hne).trans hx, hxr, hxi⟩

theorem Inv.mark_led (h : Inv q) {id : Nat} {r : Refresh} (hr : q.refreshes[id]? = some r)
    (hrel : r.releasing = false) (hi : r.i < q.parts.length) : Inv (q.mark id r true) := by
  have hnot : ∀ p, r.releasing = true → r.i ≠ p := fun _ ht => absurd ht (Bool.eq_false_iff.mp hrel)
  have hshut : ∀ p, (q.gate.set r.i true).1.Shut p → p ≠ r.i ∧ q.gate.Shut p := by
    rintro p ⟨he, hp⟩
    rw [LeadershipGate.set_enforced] at he
    by_cases hpi : p = r.i
    · rw [hpi, LeadershipGate.set_self (h.size ▸ hi)] at hp
      cases hp
    · rw [LeadershipGate.set_other hpi] at hp
      exact ⟨hpi, he, hp⟩
  have hstay : ∀ p, p ≠ r.i → q.gate.Shut p → (q.gate.set r.i true).1.Shut p := by
    rintro p hpi ⟨he, hp⟩
    exact ⟨(LeadershipGate.set_enforced _ _ _).trans he, (LeadershipGate.set_other hpi).trans hp⟩
  unfold Queue.mark
  simp only [Bool.not_true, Bool.and_false, Bool.false_eq_true, if_false, if_true]
  refine ⟨(LeadershipGate.set_length _ _ _).trans h.size, ?_, ?_, h.ids, ?_, ?_, ?_, ?_⟩
  · intro hl
    exact (LeadershipGate.set_enforced _ _ _).trans (h.enforced hl)
  · intro id' hid
    exact h.sourced id (mem_of_getElem? hr)
  · intro p hp
    exact h.gated p (hshut p hp).2
  · intro p hp
    refine (h.leased p (hshut p hp).2).imp_right ?_
    intro hq
    obtain ⟨id', hx⟩ := releasing_iff.mp hq
    exact releasing_iff.mpr ⟨id', hx.insert hr (hnot p)⟩
  · intro id' p hm
    obtain ⟨hm, hpi⟩ := mem_filter.mp hm
    obtain ⟨hs, hl⟩ := h.marked id' p hm
    exact ⟨hstay p (of_decide_eq_true hpi) hs, hl.imp_right (·.insert hr (hnot p))⟩
  · intro p hp
    obtain ⟨hp, hpi⟩ := mem_filter.mp hp
    obtain ⟨hs, hl⟩ := h.settled p hp
    exact ⟨hstay p (of_decide_eq_true hpi) hs, hl⟩

theorem Inv.mark_lost (h : Inv q) {id : Nat} {r : Refresh} (hr : q.refreshes[id]? = some r)
    (hrel : r.releasing = false) (hi : r.i < q.parts.length) (hc : q.Unhurried (.mark id false)) :
    Inv (q.mark id r false) := by
  have hnot : ∀ p, r.releasing = true → r.i ≠ p := fun _ ht => absurd ht (Bool.eq_false_iff.mp hrel)
  have hmem : id ∈ q.refreshes := mem_of_getElem? hr
  have henf := h.enforced (h.sourced id hmem)
  obtain ⟨was, hwas⟩ : ∃ was, q.gate.allowed[r.i]? = some was :=
    ⟨_, getElem?_eq_getElem (h.size ▸ hi)⟩
  have hset : (q.gate.set r.i false).2 = was := by
    unfold LeadershipGate.set
    rw [hwas]
    cases was <;> rfl
  have hself : (q.gate.set r.i false).1.Shut r.i :=
    ⟨(LeadershipGate.set_enforced _ _ _).trans henf, LeadershipGate.set_self (h.size ▸ hi)⟩
  have hstay : ∀ p, q.gate.Shut p → (q.gate.set r.i false).1.Shut p := by
    rintro p ⟨he, hp⟩
    by_cases hpi : p = r.i
    · exact hpi ▸ hself
    · exact ⟨(LeadershipGate.set_enforced _ _ _).trans he, (LeadershipGate.set_other hpi).trans hp⟩
  have hshut : ∀ p, (q.gate.set r.i false).1.Shut p → p ≠ r.i → q.gate.Shut p := by
    rintro p ⟨_, hp⟩ hpi
    exact ⟨henf, (LeadershipGate.set_other hpi).symm.trans hp⟩
  -- the partition was led until now, or it was not and its leases are given back
  have hnow : ¬ q.Past r.i ∧ (was = true ∨ q.IdleAt r.i) := by
    have hc := hc r hr
    cases was with
    | true =>
      rw [if_pos hwas] at hc
      exact ⟨hc, .inl rfl⟩
    | false =>
      rw [if_neg (by rw [hwas]; nofun)] at hc
      exact ⟨h.gated r.i ⟨henf, hwas⟩, .inr ((h.leased r.i ⟨henf, hwas⟩).resolve_right hc)⟩
  unfold Queue.mark
  simp only [hset, Bool.not_false, Bool.and_true, Bool.false_eq_true, if_false]
  refine ⟨(LeadershipGate.set_length _ _ _).trans h.size, ?_, ?_, h.ids, ?_, ?_, ?_, ?_⟩
  · intro hl
    exact (LeadershipGate.set_enforced _ _ _).trans (h.enforced hl)
  · intro id' hid
    exact h.sourced id hmem
  · intro p hp
    by_cases hpi : p = r.i
    · exact hpi ▸ hnow.1
    · exact h.gated p (hshut p hp hpi)
  · intro p hp
    by_cases hpi : p = r.i
    · subst hpi
      rcases hnow.2 with rfl | hidle
      · exact .inr (releasing_iff.mpr ⟨id, _, TreeMap.getElem?_insert_self, rfl, rfl⟩)
      · exact .inl hidle
    · refine (h.leased p (hshut p hp hpi)).imp_right ?_
      intro hq
      obtain ⟨id', hx⟩ := releasing_iff.mp hq
      exact releasing_iff.mpr ⟨id', hx.insert hr (hnot p)⟩
  · intro id' p hm
    rcases mem_cons.mp hm with he | hm
    · cases he
      refine ⟨hself, ?_⟩
      rcases hnow.2 with rfl | hidle
      · exact .inr ⟨_, TreeMap.getElem?_insert_self, rfl, rfl⟩
      · exact .inl hidle
    · obtain ⟨hs, hl⟩ := h.marked id' p hm
      exact ⟨hstay p hs, hl.imp_right (·.insert hr (hnot p))⟩
  · intro p hp
    obtain ⟨hs, hl⟩ := h.settled p hp
    exact ⟨hstay p hs, hl⟩

theorem Inv.releaseAll (h : Inv q) {id : Nat} {r : Refresh} (hr : q.refreshes[id]? = some r)
    {sp : SharePartition} (hsp : q.parts[r.i]? = some sp) :
    Inv { q with
      parts := q.parts.set r.i sp.releaseAll.1
      refreshes := q.refreshes.insert id { i := r.i + 1 } } := by
  have hp := h.part hsp (SharePartition.frame_stable.releaseWhere (.refl sp) _).id
    (fun _ _ => sp.releaseAll_idle)
  have hidle : IdleAt { q with parts := q.parts.set r.i sp.releaseAll.1 } r.i := by
    intro x hx
    dsimp only at hx
    rw [List.getElem?_set_self (List.getElem?_eq_some_iff.mp hsp).1] at hx
    cases hx
    exact sp.releaseAll_idle
  have hkeep : ∀ id' p, ReleasingBy q.refreshes id' p →
      IdleAt { q with parts := q.parts.set r.i sp.releaseAll.1 } p ∨
        ReleasingBy (q.refreshes.insert id { i := r.i + 1 }) id' p := by
    intro id' p hx
    by_cases hpi : r.i = p
    · exact .inl (hpi ▸ hidle)
    · exact .inr (hx.insert hr (fun _ => hpi))
  refine ⟨hp.size, h.enforced, ?_, hp.ids, hp.gated, ?_, ?_, hp.settled⟩
  · intro id' _
    exact h.sourced id (mem_of_getElem? hr)
  · intro p hs
    rcases hp.leased p hs with hl | hl
    · exact .inl hl
    · obtain ⟨id', hx⟩ := releasing_iff.mp hl
      exact (hkeep id' p hx).imp_right (fun hx => releasing_iff.mpr ⟨id', hx⟩)
  · intro id' p hm
    obtain ⟨hs, hl⟩ := hp.marked id' p hm
    refine ⟨hs, ?_⟩
    rcases hl with hl | hl
    · exact .inl hl
    · exact hkeep id' p hl

theorem Inv.refreshed (h : Inv q) {id : Nat} {r : Refresh} (hr : q.refreshes[id]? = some r)
    (hrel : r.releasing = false) :
    Inv { q with
      refreshes := q.refreshes.erase id
      marked := q.marked.filter (fun x => x.1 ≠ id)
      settled := (q.marked.filter (fun x => x.1 = id)).map Prod.snd ++ q.settled } := by
  have hkeep : ∀ id' p, ReleasingBy q.refreshes id' p → id' ≠ id ∧
      ReleasingBy (q.refreshes.erase id) id' p := by
    rintro id' p ⟨x, hx, hxr, hxi⟩
    have hne : id' ≠ id := by
      rintro rfl
      cases hr.symm.trans hx
      rw [hrel] at hxr
      cases hxr
    exact ⟨hne, x, (getElem?_erase_other hne).trans hx, hxr, hxi⟩
  refine { h with sourced := ?_, leased := ?_, marked := ?_, settled := ?_ }
  · intro id' hid
    exact h.sourced id' (mem_erase_iff.mp hid).2
  · intro p hs
    refine (h.leased p hs).imp_right ?_
    intro hl
    obtain ⟨id', hx⟩ := releasing_iff.mp hl
    exact releasing_iff.mpr ⟨id', (hkeep id' p hx).2⟩
  · intro id' p hm
    obtain ⟨hs, hl⟩ := h.marked id' p (mem_filter.mp hm).1
    exact ⟨hs, hl.imp_right (fun hx => (hkeep id' p hx).2)⟩
  · intro p hp
    rcases mem_append.mp hp with hp | hp
    · obtain ⟨⟨id', _⟩, hm, rfl⟩ := mem_map.mp hp
      obtain ⟨hm, hid⟩ := mem_filter.mp hm
      obtain ⟨hs, hl⟩ := h.marked id' _ hm
      exact ⟨hs, hl.resolve_right (fun hx => (hkeep id' _ hx).1 (of_decide_eq_true hid))⟩
    · exact h.settled p hp

theorem check_past (hc : q.check c = .goes c') (hu : c.checked = false) (hs : q.gate.Shut p)
    (hn : ¬ c.Past q.parts.length p) : ¬ c'.Past q.parts.length p := by
  unfold check at hc
  split at hc
  · split at hc
    · rename_i hmay
      cases hc
      rintro (⟨_, he⟩ | hout)
      · have hidx : c.index q.parts.length = p := he
        rw [hidx, hs.mayLease] at hmay
        cases hmay
      · exact hn (Or.inr hout)
    · cases hc
      rintro (⟨ht, _⟩ | hout)
      · rw [hu] at ht
        cases ht
      · exact hn (Or.inr hout)
  · cases hc

theorem Inv.refresh (h : Inv q) {id : Nat} (hnew : id ∉ q.refreshes) (hlead : q.leadership = true) :
    Inv { q with refreshes := q.refreshes.insert id {} } := by
  have hkeep : ∀ id' p, ReleasingBy q.refreshes id' p →
      ReleasingBy (q.refreshes.insert id {}) id' p := by
    rintro id' p ⟨x, hx, hxr⟩
    have hne : id' ≠ id := by
      rintro rfl
      exact hnew (mem_of_getElem? hx)
    exact ⟨x, (getElem?_insert_other _ hne).trans hx, hxr⟩
  refine { h with sourced := fun _ _ => hlead, leased := ?_, marked := ?_ }
  · intro p hshut
    refine (h.leased p hshut).imp_right ?_
    intro hl
    obtain ⟨id', hx⟩ := releasing_iff.mp hl
    exact releasing_iff.mpr ⟨id', hkeep id' p hx⟩
  · intro id' p hm
    obtain ⟨hshut, hl⟩ := h.marked id' p hm
    exact ⟨hshut, hl.imp_right (hkeep id' p)⟩

theorem Inv.step (h : Inv q) {op : Op} (hc : q.Unhurried op) (hs : q.Step op q') : Inv q' := by
  have hpast : ∀ {id : Nat} {c : Call}, q.calls[id]? = some c → ∀ p, q.gate.Shut p →
      ¬ c.Past q.parts.length p :=
    fun hcall p hshut hp => h.gated p hshut (past_iff.mpr ⟨_, _, hcall, hp⟩)
  cases op with
  | tryConsume id consumer prefetch now =>
    simp only [Step, Queue.step] at hs
    split at hs
    · cases hs
    split at hs
    · cases hs
      exact h
    cases hs
    apply h.calls
    intro p hshut id' c hcall
    rcases insert_cases hcall with ⟨_, rfl⟩ | ⟨_, hcall⟩
    · rintro (⟨ht, _⟩ | ⟨d, hd, _⟩)
      · cases ht
      · cases hd
    · exact hpast hcall p hshut
  | check id =>
    obtain ⟨c, hcall, hrest⟩ := Option.bind_eq_some_iff.mp hs
    split at hrest
    · cases hrest
    rename_i hu
    cases hrest
    apply h.settle
    intro c' hc' p hshut
    exact check_past hc' (Bool.eq_false_iff.mpr hu) hshut (hpast hcall p hshut)
  | acquire id route views =>
    obtain ⟨c, hcall, hrest⟩ := Option.bind_eq_some_iff.mp hs
    split at hrest
    case isFalse => cases hrest
    rename_i hchecked
    obtain ⟨sp, hsp, hrest⟩ := Option.bind_eq_some_iff.mp hrest
    obtain ⟨⟨sp', r⟩, hr, rfl⟩ := Option.map_eq_some_iff.mp hrest
    obtain ⟨hid, hgiven⟩ := SharePartition.acquire_partition hr
    have hopen : ¬ q.gate.Shut (c.index q.parts.length) :=
      fun hshut => hpast hcall _ hshut (.inl ⟨hchecked, rfl⟩)
    have hp := h.part hsp hid (fun hshut => absurd hshut hopen)
    apply hp.settle
    intro c' hc' p hshut
    rw [length_set]
    refine Call.got_past hc' ?_ (hpast hcall p hshut)
    intro d hd he
    rw [hgiven d hd, h.ids _ sp hsp] at he
    have hidx : c.index q.parts.length = p := Int.ofNat.inj he
    exact hopen (hidx ▸ hshut)
  | refresh id =>
    simp only [Step, Queue.step] at hs
    split at hs
    · cases hs
    split at hs
    · rename_i hnew hlead
      cases hs
      exact h.refresh hnew hlead
    · cases hs
      exact h
  | mark id leads =>
    obtain ⟨r, hr, hrest⟩ := Option.bind_eq_some_iff.mp hs
    split at hrest
    case isTrue => cases hrest
    rename_i hn
    cases hrest
    have hrel : r.releasing = false := Bool.eq_false_iff.mpr (fun ht => hn (.inl ht))
    have hi : r.i < q.parts.length := Nat.lt_of_not_le (fun hle => hn (.inr hle))
    cases leads with
    | true => exact h.mark_led hr hrel hi
    | false => exact h.mark_lost hr hrel hi hc
  | releaseAll id =>
    obtain ⟨r, hr, hrest⟩ := Option.bind_eq_some_iff.mp hs
    split at hrest
    · obtain ⟨sp, hsp, rfl⟩ := Option.map_eq_some_iff.mp hrest
      exact h.releaseAll hr hsp
    · cases hrest
  | refreshed id =>
    obtain ⟨r, hr, hrest⟩ := Option.bind_eq_some_iff.mp hs
    split at hrest
    case isTrue => cases hrest
    rename_i hn
    cases hrest
    exact h.refreshed hr (Bool.eq_false_iff.mpr (fun ht => hn (.inl ht)))
  | ack consumer partition seq =>
    cases hs
    exact h.answer partition (fun sp =>
      ⟨(SharePartition.frame_stable.ack (.refl sp) consumer seq).id,
        fun hidle => (hidle.ack consumer seq).symm ▸ hidle⟩)
  | nack route consumer partition seq requeue =>
    cases hs
    exact h.answer partition (fun sp =>
      ⟨(SharePartition.frame_stable.nack (.refl sp) route consumer seq requeue).id,
        fun hidle => (hidle.nack route consumer seq requeue).symm ▸ hidle⟩)
  | releaseConsumer p consumer =>
    exact h.window (fun sp => ⟨(SharePartition.frame_stable.releaseWhere (.refl sp) _).id,
      fun hidle => (hidle.releaseWhere _).symm ▸ hidle⟩) hs
  | sweep p route now =>
    exact h.window (fun sp => ⟨(SharePartition.frame_stable.sweep (.refl sp) route now).id,
      fun hidle => hidle.sweep route now⟩) hs
  | close =>
    cases hs
    exact { h with }
  | closePart p =>
    have hf : ∀ sp : SharePartition, { sp with closed := true }.id = sp.id ∧
        (sp.Idle → { sp with closed := true }.Idle) := fun _ => ⟨rfl, fun hidle => hidle⟩
    exact h.window hf hs

theorem enforceLeadership_inv (name : String) (logs : List (Nat × Option Cursor))
    (cfg : ShareConfig) (src : Bool) : Inv ((opened name logs cfg).enforceLeadership src) := by
  have hpart : ∀ (i : Nat) (sp : SharePartition), (opened name logs cfg).parts[i]? = some sp →
      sp.id = i ∧ sp.Idle := by
    intro i sp hsp
    simp only [opened, getElem?_mapIdx, Option.map_eq_some_iff] at hsp
    obtain ⟨l, _, rfl⟩ := hsp
    exact ⟨rfl, fun seq e he => by simp [openSharePartition] at he⟩
  refine ⟨length_replicate, fun hl => hl, ?_, fun i sp hsp => (hpart i sp hsp).1, ?_, ?_,
    fun _ _ hm => absurd hm not_mem_nil, fun _ hm => absurd hm not_mem_nil⟩
  · intro id hid
    exact absurd hid TreeMap.not_mem_emptyc
  · intro p _ hp
    obtain ⟨id, c, hcall, _⟩ := past_iff.mp hp
    simp [enforceLeadership, opened] at hcall
  · intro p _
    exact .inl (fun sp hsp => (hpart p sp hsp).2)

theorem deliveries_past {op : Op} {d : Delivery} (hd : d ∈ q.deliveries op) {p : Nat}
    (hp : d.partition = p) : q.Past p := by
  have hout : ∀ (id : Nat) (c : Call), q.calls[id]? = some c → d ∈ c.out → q.Past p :=
    fun id c hcall hmem => past_iff.mpr ⟨id, c, hcall, .inr ⟨d, hmem, hp⟩⟩
  cases op with
  | check id =>
    simp only [deliveries] at hd
    cases hcall : q.calls[id]? with
    | none =>
      rw [hcall] at hd
      cases hd
    | some c =>
      rw [hcall, Option.elim_some] at hd
      refine hout id c hcall ?_
      unfold check at hd
      split at hd
      · split at hd <;> cases hd
      · exact hd
  | acquire id route views =>
    simp only [deliveries] at hd
    cases hcall : q.calls[id]? with
    | none =>
      rw [hcall] at hd
      cases hd
    | some c =>
      rw [hcall, Option.elim_some] at hd
      refine hout id c hcall ?_
      cases hr : q.parts[c.index q.parts.length]?.bind (fun sp =>
          sp.acquire route views c.consumer (c.prefetch - c.out.length) c.now) with
      | none =>
        rw [hr] at hd
        cases hd
      | some r =>
        rw [hr, Option.elim_some] at hd
        exact c.got_returned r.2 d hd
  | _ => cases hd

/-- While partitions are taken away only when no call is past their gate, this node
holds no lease on a partition taken away, and no call returns its records, from
when the refresh that took it away is over until one finds it led again. -/
theorem lost_partition_is_not_served (name : String) (logs : List (Nat × Option Cursor))
    (cfg : ShareConfig) (src : Bool) {ops : List Op} {q : Queue}
    (hr : Run Step Unhurried ((opened name logs cfg).enforceLeadership src) ops q) :
    ∀ p ∈ q.settled, (∀ sp : SharePartition, q.parts[p]? = some sp →
        ∀ (seq : Nat) (e : Entry), sp.entries[seq]? = some e → e.state ≠ .acquired) ∧
      ∀ op q', q.Step op q' → ∀ d ∈ q.deliveries op, d.partition ≠ p := by
  have hi := hr.invariant Inv (enforceLeadership_inv name logs cfg src)
    (fun _ _ _ hi hc hs => hi.step hc hs)
  intro p hp
  obtain ⟨hshut, hidle⟩ := hi.settled p hp
  exact ⟨hidle, fun op q' _ d hd he => hi.gated p hshut (deliveries_past hd he)⟩

def oneQueue : Queue := (opened "jobs" [(1, none)] {}).enforceLeadership true

def passesGate : List Op :=
  [.refresh 0, .mark 0 true, .refreshed 0, .tryConsume 0 "a" 1 5, .check 0]

def acquiresOne : Op := .acquire 0 (fun _ _ => true) [(oneRecord 1).view]

def loses : List Op := [.refresh 1, .mark 1 false, .releaseAll 1, .refreshed 1]

theorem lost_after_call_is_not_served :
    ∃ q, Run Step Unhurried oneQueue (passesGate ++ [acquiresOne, .check 0] ++ loses) q ∧
      0 ∈ q.settled ∧ ∀ sp : SharePartition, q.parts[0]? = some sp →
        ∀ (seq : Nat) (e : Entry), sp.entries[seq]? = some e → e.state ≠ .acquired := by
  refine Run.shown (fun q => 0 ∈ q.settled) (by decide +kernel) ?_
  rintro q hr hs
  exact ⟨hs, (lost_partition_is_not_served "jobs" [(1, none)] {} true hr 0 hs).1⟩

/-- The refresh falls between the gate check of a call and its acquisition: the
record is leased, and returned, after the refresh is over. -/
theorem lost_within_call_is_served :
    ∃ q, Run Step always oneQueue (passesGate ++ loses ++ [acquiresOne]) q ∧ 0 ∈ q.settled ∧
      (q.parts[0]?.bind (fun sp => sp.entries[1]?)).any (fun e => e.state = .acquired) = true ∧
      ∃ q', q.Step (.check 0) q' ∧ ∃ d ∈ q.deliveries (.check 0), d.partition = 0 := by
  refine Run.shown (fun q => 0 ∈ q.settled ∧
      (q.parts[0]?.bind (fun sp => sp.entries[1]?)).any (fun e => e.state = .acquired) = true ∧
      (q.step (.check 0)).isSome = true ∧ ∃ d ∈ q.deliveries (.check 0), d.partition = 0)
    (by decide +kernel) ?_
  rintro q hr ⟨hs, hl, hret, hd⟩
  obtain ⟨q', hq'⟩ := Option.isSome_iff_exists.mp hret
  exact ⟨hs, hl, q', hq', hd⟩

end Queue
end Boltq.Queuelog
