import Boltq.Queuelog.Share

namespace Boltq.Queuelog
open Lib Boltq.Stream Std

namespace SharePartition

structure Inv (start first : Nat) (sp : SharePartition) : Prop where
  positive : 0 < sp.base
  ordered : sp.base ≤ sp.next
  covered : ∀ seq, seq ∈ sp.entries ∨ seq ∈ sp.retired ↔ sp.base ≤ seq ∧ seq < sp.next
  apart : ∀ seq ∈ sp.entries, seq ∉ sp.retired
  bounded : (sp.next : Int) - sp.base ≤ sp.cfg.maxInFlight
  heaped : ∀ seq e, sp.entries[seq]? = some e → e.state = .available → seq ∈ sp.available
  finished : ∀ seq ∈ sp.retired, seq ∈ sp.done
  gone : ∀ seq ∈ sp.done, seq < sp.next ∧ seq ∉ sp.entries
  below : ∀ seq, start ≤ seq → seq < sp.base → seq ∈ sp.done ∨ seq < first
  cursor : ∀ c ∈ sp.cursors, ∀ pos ∈ c.position, pos ≤ sp.base

variable {start first : Nat} {sp : SharePartition}

theorem Inv.entry_range (h : Inv start first sp) (hs : seq ∈ sp.entries) :
    sp.base ≤ seq ∧ seq < sp.next := (h.covered seq).mp (Or.inl hs)

theorem Inv.later (h : Inv start first sp) (hf : first ≤ first') : Inv start first' sp :=
  { h with below := fun seq hs hb => (h.below seq hs hb).imp_right (Nat.lt_of_lt_of_le · hf) }

theorem openSharePartition_inv (topic : String) (id : Int) (hf : 0 < first)
    (cursors : Option Cursor) (cfg : ShareConfig) :
    Inv (openSharePartition topic id first cursors cfg).base first
      (openSharePartition topic id first cursors cfg) := by
  have hpos := cfg.applyDefaults_pos
  refine ⟨?_, Nat.le_refl _, ?_, ?_, ?_, ?_, ?_, ?_, ?_, ?_⟩
  · simp only [openSharePartition]
    split <;> omega
  · intro seq
    simp only [openSharePartition, TreeMap.not_mem_emptyc, TreeSet.not_mem_emptyc, or_self,
      false_iff]
    omega
  · intro seq hs
    exact absurd hs TreeMap.not_mem_emptyc
  · simp only [openSharePartition]
    omega
  · intro seq e he
    simp [openSharePartition] at he
  · intro seq hs
    exact absurd hs TreeSet.not_mem_emptyc
  · intro seq hs
    exact absurd hs List.not_mem_nil
  · intro seq hs hb
    exact absurd hs (Nat.not_le_of_lt hb)
  · intro c hc pos hp
    cases cursors with
    | none => cases hc
    | some cur =>
      cases hc
      simp only [openSharePartition, Option.elim_some, Cursor.positionOr, Option.mem_def.mp hp,
        Option.getD_some]
      split <;> omega

section
variable (h : Inv start first sp)
include h

section
variable (hs : seq ∈ sp.entries)
include hs

theorem Inv.update {e : Entry}
    (hheap : ∀ s ∈ sp.available, s = seq ∨ s ∈ heap) (he : e.state = .available → seq ∈ heap) :
    Inv start first { sp with entries := sp.entries.insert seq e, available := heap } := by
  have hmem : ∀ s, s ∈ sp.entries.insert seq e ↔ s ∈ sp.entries := by
    intro s
    rw [mem_insert_iff]
    exact or_iff_right_of_imp (fun he => he ▸ hs)
  refine { h with covered := ?_, apart := ?_, heaped := ?_, gone := ?_ }
  · intro s
    simp only [hmem]
    exact h.covered s
  · intro s hin
    exact h.apart s ((hmem s).mp hin)
  · intro s e' hl hav
    rcases insert_cases hl with ⟨rfl, rfl⟩ | ⟨hne, hl⟩
    · exact he hav
    · exact (hheap s (h.heaped s e' hl hav)).resolve_left hne
  · intro s hd
    exact ⟨(h.gone s hd).1, fun hin => (h.gone s hd).2 ((hmem s).mp hin)⟩

theorem Inv.release (e : Entry) :
    Inv start first (sp.release seq e) :=
  h.update hs (fun _ hin => Or.inr (mem_heapPush.mpr (Or.inr hin)))
    (fun _ => mem_heapPush.mpr (Or.inl rfl))

theorem Inv.retire :
    Inv start first (sp.retire seq) := by
  have hent : ∀ s, s ∈ sp.entries.erase seq ↔ s ≠ seq ∧ s ∈ sp.entries := fun _ => mem_erase_iff
  have hret : ∀ s, s ∈ sp.retired.insert seq ↔ s = seq ∨ s ∈ sp.retired :=
    fun _ => mem_set_insert_iff
  refine { h with covered := ?_, apart := ?_, heaped := ?_, finished := ?_, gone := ?_, below := ?_ }
  · intro s
    simp only [SharePartition.retire, hent, hret]
    rw [← h.covered s]
    by_cases hse : s = seq
    · subst hse
      simp [hs]
    · simp [hse]
  · intro s hin hr
    rcases (hret s).mp hr with rfl | hr
    · exact ((hent s).mp hin).1 rfl
    · exact h.apart s ((hent s).mp hin).2 hr
  · intro s e hl hav
    have hin : s ∈ (sp.retire seq).entries := mem_of_getElem? hl
    have hne : s ≠ seq := ((hent s).mp hin).1
    exact h.heaped s e ((getElem?_erase_other hne).symm.trans hl) hav
  · intro s hr
    rcases (hret s).mp hr with rfl | hr
    · exact List.mem_cons_self
    · exact List.mem_cons_of_mem _ (h.finished s hr)
  · intro s hd
    rcases List.mem_cons.mp hd with rfl | hd
    · exact ⟨(h.entry_range hs).2, fun hin => ((hent s).mp hin).1 rfl⟩
    · exact ⟨(h.gone s hd).1, fun hin => (h.gone s hd).2 ((hent s).mp hin).2⟩
  · intro s hst hb
    exact (h.below s hst hb).imp_left (List.mem_cons_of_mem _)

end

end

theorem commit_position {c : Cursor} (h : pos ∈ (c.commit seq).1.position)
    (hc : ∀ p ∈ c.position, p ≤ seq) : pos ≤ seq := by
  unfold Cursor.commit at h
  split at h
  · exact hc pos h
  split at h
  · exact hc pos h
  · cases h
    exact Nat.le_refl _

theorem Inv.commit (h : Inv start first sp) : Inv start first sp.commit.1 := by
  unfold SharePartition.commit
  cases hc : sp.cursors with
  | none => exact h
  | some c =>
    refine { h with cursor := ?_ }
    intro c' hc' pos hp
    cases hc'
    exact commit_position hp (h.cursor c hc)

theorem slide_spec (fuel base : Nat) (retired : TreeSet Nat) : base ≤ (slide fuel base retired).1 ∧
    (∀ s, base ≤ s → s < (slide fuel base retired).1 → s ∈ retired) ∧
    ∀ s, s ∈ (slide fuel base retired).2 ↔
      s ∈ retired ∧ ¬ (base ≤ s ∧ s < (slide fuel base retired).1) := by
  induction fuel generalizing base retired with
  | zero =>
    refine ⟨Nat.le_refl _, ?_, ?_⟩
    · intro s hb hl
      exact absurd hl (Nat.not_lt.mpr hb)
    · intro s
      exact ⟨fun hr => ⟨hr, fun hn => absurd hn.2 (Nat.not_lt.mpr hn.1)⟩, And.left⟩
  | succ fuel ih =>
    simp only [slide]
    split
    · rename_i hin
      obtain ⟨hle, hret, hleft⟩ := ih (base + 1) (retired.erase base)
      refine ⟨by omega, ?_, ?_⟩
      · intro s hb hl
        by_cases hs : s = base
        · exact hs ▸ hin
        · exact (mem_set_erase_iff.mp (hret s (by omega) hl)).2
      · intro s
        rw [hleft, mem_set_erase_iff]
        constructor
        · rintro ⟨⟨hne, hr⟩, hn⟩
          exact ⟨hr, by omega⟩
        · rintro ⟨hr, hn⟩
          exact ⟨⟨by omega, hr⟩, by omega⟩
    · refine ⟨Nat.le_refl _, ?_, ?_⟩
      · intro s hb hl
        exact absurd hl (Nat.not_lt.mpr hb)
      · intro s
        exact ⟨fun hr => ⟨hr, fun hn => absurd hn.2 (Nat.not_lt.mpr hn.1)⟩, And.left⟩

theorem Inv.advance (h : Inv start first sp) : Inv start first sp.advance.1 := by
  obtain ⟨hle, hret, hleft⟩ := slide_spec sp.retired.size sp.base sp.retired
  unfold SharePartition.advance
  dsimp only
  split
  · exact h
  apply Inv.commit
  generalize slide sp.retired.size sp.base sp.retired = moved at hle hret hleft
  have hmoved : ∀ s, sp.base ≤ s → s < moved.1 → s < sp.next ∧ s ∈ sp.done := by
    intro s hb hl
    have hr := hret s hb hl
    exact ⟨((h.covered s).mp (Or.inr hr)).2, h.finished s hr⟩
  have hnext : moved.1 ≤ sp.next := by
    apply Nat.le_of_not_lt
    intro hlt
    have := (hmoved sp.next h.ordered hlt).1
    omega
  refine ⟨Nat.lt_of_lt_of_le h.positive hle, hnext, ?_, ?_, ?_, h.heaped, ?_, h.gone, ?_, ?_⟩
  · intro s
    have hcov := h.covered s
    simp only [hleft]
    constructor
    · rintro (hin | ⟨hr, hn⟩)
      · have hrange := h.entry_range hin
        refine ⟨?_, hrange.2⟩
        apply Nat.le_of_not_lt
        intro hlt
        exact h.apart s hin (hret s hrange.1 hlt)
      · have hrange := hcov.mp (Or.inr hr)
        omega
    · rintro ⟨hb, hn⟩
      rcases hcov.mpr ⟨by omega, hn⟩ with hin | hr
      · exact Or.inl hin
      · exact Or.inr ⟨hr, by omega⟩
  · intro s hin hr
    exact h.apart s hin ((hleft s).mp hr).1
  · have := h.bounded
    dsimp only
    omega
  · intro s hr
    exact h.finished s ((hleft s).mp hr).1
  · intro s hst hb
    by_cases hlt : s < sp.base
    · exact h.below s hst hlt
    · exact Or.inl (hmoved s (by omega) hb).2
  · intro c hc pos hp
    exact Nat.le_trans (h.cursor c hc pos hp) hle

theorem Inv.skipTo (h : Inv start first sp) (hs : seq ≤ first) :
    Inv start first (sp.skipTo seq) := by
  unfold SharePartition.skipTo
  split
  · exact h
  rename_i hgt
  apply Inv.commit
  have hent : ∀ s, s ∈ sp.entries.filter (fun s _ => decide (seq ≤ s)) ↔
      s ∈ sp.entries ∧ seq ≤ s := by
    intro s
    rw [mem_filter_iff, decide_eq_true_iff]
  have hret : ∀ s, s ∈ sp.retired.filter (fun s => decide (seq ≤ s)) ↔
      s ∈ sp.retired ∧ seq ≤ s := by
    intro s
    rw [mem_set_filter_iff, decide_eq_true_iff]
  have hnext : sp.next ≤ (if sp.next < seq then seq else sp.next) ∧
      (seq ≤ sp.next → (if sp.next < seq then seq else sp.next) = sp.next) := by
    split <;> omega
  refine ⟨Nat.lt_of_le_of_lt (Nat.zero_le _) (Nat.lt_of_not_le hgt), ?_, ?_, ?_, ?_, ?_, ?_, ?_, ?_, ?_⟩
  · dsimp only
    split <;> omega
  · intro s
    have hcov := h.covered s
    simp only [hent, hret, ← or_and_right, hcov]
    split <;> omega
  · intro s hin hr
    exact h.apart s ((hent s).mp hin).1 ((hret s).mp hr).1
  · have := h.bounded
    have := h.ordered
    dsimp only
    split <;> omega
  · intro s e hl hav
    rw [TreeMap.getElem?_filter', Option.filter_eq_some_iff] at hl
    exact h.heaped s e hl.1 hav
  · intro s hr
    exact h.finished s ((hret s).mp hr).1
  · intro s hd
    exact ⟨Nat.lt_of_lt_of_le (h.gone s hd).1 hnext.1,
      fun hin => (h.gone s hd).2 ((hent s).mp hin).1⟩
  · intro s _ hb
    exact Or.inr (Nat.lt_of_lt_of_le hb hs)
  · intro c hc pos hp
    exact Nat.le_trans (h.cursor c hc pos hp) (Nat.le_of_not_le hgt)

section
variable (sp : SharePartition)

theorem commit_same : ∃ cursors, sp.commit.1 = { sp with cursors } := by
  unfold commit
  split
  · exact ⟨sp.cursors, rfl⟩
  · exact ⟨_, rfl⟩

theorem skipTo_same (seq : Nat) : ∃ entries retired base next cursors,
    sp.skipTo seq = { sp with entries, retired, base, next, cursors } := by
  unfold skipTo
  split
  · exact ⟨_, _, _, _, _, rfl⟩
  · obtain ⟨cursors, hc⟩ := commit_same _
    exact ⟨_, _, _, _, cursors, hc⟩

theorem advance_same : ∃ base retired cursors, sp.base ≤ base ∧
      sp.advance.1 = { sp with base, retired, cursors } := by
  unfold advance
  dsimp only
  split
  · exact ⟨sp.base, sp.retired, sp.cursors, Nat.le_refl _, rfl⟩
  obtain ⟨cursors, hc⟩ := commit_same
    { sp with base := (slide sp.retired.size sp.base sp.retired).1,
              retired := (slide sp.retired.size sp.base sp.retired).2 }
  exact ⟨_, _, cursors, (slide_spec _ _ _).1, hc⟩

theorem advance_entries : sp.advance.1.entries = sp.entries := by
  obtain ⟨_, _, _, _, h⟩ := sp.advance_same
  rw [h]

theorem advance_done : sp.advance.1.done = sp.done := by
  obtain ⟨_, _, _, _, h⟩ := sp.advance_same
  rw [h]

end

theorem deadLetter_other (route : DeadLetterFunc) (seq : Nat) (e : Entry) (reason : String)
    (hs : s ≠ seq) : (sp.deadLetter route seq e reason).entries[s]? = sp.entries[s]? := by
  unfold deadLetter
  split
  · exact getElem?_insert_other _ hs
  · exact getElem?_erase_other hs

theorem reapOne_other (route : DeadLetterFunc) (now : Int) (sp : SharePartition) (seq : Nat)
    (e : Entry) (s : Nat) (hs : s ≠ seq) :
    (reapOne route now sp seq e).entries[s]? = sp.entries[s]? := by
  unfold reapOne
  split
  · rfl
  dsimp only
  split
  · exact deadLetter_other route seq e _ hs
  · exact getElem?_insert_other _ hs

theorem releaseOne_other (held : String → Bool) (sp : SharePartition) (seq : Nat) (e : Entry)
    (s : Nat) (hs : s ≠ seq) : (releaseOne held sp seq e).entries[s]? = sp.entries[s]? := by
  unfold releaseOne
  split
  · exact getElem?_insert_other _ hs
  · rfl

theorem fold_rest {f : SharePartition → Nat → Entry → SharePartition}
    {P : List (Nat × Entry) → SharePartition → Prop}
    (hother : ∀ sp seq e s, s ≠ seq → (f sp seq e).entries[s]? = sp.entries[s]?)
    (hstep : ∀ x xs sp, P (x :: xs) sp → sp.entries[x.1]? = some x.2 → P xs (f sp x.1 x.2))
    (hp : P sp.entries.toList sp) :
    P [] (sp.entries.toList.foldl (fun sp x => f sp x.1 x.2) sp) := by
  have hwalk : ∀ (xs : List (Nat × Entry)) (sp : SharePartition),
      xs.Pairwise (fun x y => ¬ compare x.1 y.1 = .eq) →
      (∀ x ∈ xs, sp.entries[x.1]? = some x.2) → P xs sp →
      P [] (xs.foldl (fun sp x => f sp x.1 x.2) sp) := by
    intro xs
    induction xs with
    | nil => exact fun sp _ _ hp => hp
    | cons x xs ih =>
      intro sp hd hin hp
      obtain ⟨hx, hd⟩ := List.pairwise_cons.mp hd
      refine ih _ hd ?_ (hstep x xs sp hp (hin x List.mem_cons_self))
      intro y hy
      have hne : y.1 ≠ x.1 := fun he => hx y hy (by rw [he]; exact ReflCmp.compare_self)
      rw [hother _ _ _ _ hne]
      exact hin y (List.mem_cons_of_mem _ hy)
  exact hwalk _ sp TreeMap.distinct_keys_toList
    (fun x hx => TreeMap.mem_toList_iff_getElem?_eq_some.mp hx) hp

theorem fold_entries {f : SharePartition → Nat → Entry → SharePartition} {P : SharePartition → Prop}
    (hother : ∀ sp seq e s, s ≠ seq → (f sp seq e).entries[s]? = sp.entries[s]?)
    (hstep : ∀ sp seq e, P sp → sp.entries[seq]? = some e → P (f sp seq e)) (hp : P sp) :
    P (sp.entries.toList.foldl (fun sp x => f sp x.1 x.2) sp) :=
  fold_rest (P := fun _ => P) hother (fun x _ sp => hstep sp x.1 x.2) hp

structure Stable (P : SharePartition → Prop) : Prop where
  counted : ∀ {sp}, P sp → ∀ acked nacked expired dlqCount,
    P { sp with acked, nacked, expired, dlqCount }
  release : ∀ {sp seq e}, P sp → sp.entries[seq]? = some e → P (sp.release seq e)
  retire : ∀ {sp seq e}, P sp → sp.entries[seq]? = some e → P (sp.retire seq)
  advance : ∀ {sp}, P sp → P sp.advance.1

section
variable (hP : Stable P)
include hP

theorem Stable.deadLetter (h : P sp) (he : sp.entries[seq]? = some e)
    (route : DeadLetterFunc) (reason : String) : P (sp.deadLetter route seq e reason) := by
  unfold SharePartition.deadLetter
  split
  · exact hP.release h he
  · exact hP.retire (hP.counted h _ _ _ _) he

theorem Stable.reapExpired (h : P sp) (route : DeadLetterFunc) (now : Int) :
    P (sp.reapExpired route now) := by
  refine hP.advance (fold_entries (reapOne_other route now) (fun sp seq e h he => ?_) h)
  have hcount : P { sp with expired := sp.expired + 1 } := hP.counted h _ _ _ _
  unfold reapOne
  split
  · exact h
  dsimp only
  split
  · exact hP.deadLetter hcount he route _
  · exact hP.release hcount he

theorem Stable.sweep (h : P sp) (route : DeadLetterFunc) (now : Int) :
    P (sp.sweep route now) := by
  unfold SharePartition.sweep
  split
  · exact h
  · exact hP.reapExpired h route now

theorem Stable.releaseWhere (h : P sp) (held : String → Bool) :
    P (sp.releaseWhere held).1 := by
  refine fold_entries (releaseOne_other held) (fun sp seq e h he => ?_) h
  unfold releaseOne
  split
  · exact hP.release h he
  · exact h

end

theorem reapExpired_keeps (route : DeadLetterFunc) {now : Int} {seq : Nat} {e : Entry}
    (he : sp.entries[seq]? = some e) (hd : now < e.deadline) :
    (sp.reapExpired route now).entries[seq]? = some e := by
  unfold reapExpired
  rw [advance_entries]
  refine fold_entries (P := fun sp => sp.entries[seq]? = some e)
    (reapOne_other route now) ?_ he
  intro sp s e' hp hs
  by_cases hse : seq = s
  · subst hse
    cases hp.symm.trans hs
    rw [reapOne, if_pos (Or.inr hd)]
    exact hp
  · rw [reapOne_other route now sp s e' seq hse]
    exact hp

theorem ack_cases (sp : SharePartition) (consumer : String) (seq : Nat) :
    (sp.ack consumer seq).1 = sp ∨
    ∃ e, sp.entries[seq]? = some e ∧ e.state = .acquired ∧ e.holder = consumer ∧
      (sp.ack consumer seq).1 = { sp.retire seq with acked := sp.acked + 1 }.advance.1 := by
  unfold ack
  split
  · exact Or.inl rfl
  cases he : sp.entries[seq]? with
  | none => exact Or.inl rfl
  | some e =>
    dsimp only
    split
    · exact Or.inl rfl
    rename_i hacq
    split
    · exact Or.inl rfl
    · rename_i hholder
      exact Or.inr ⟨e, rfl, not_not.mp hacq, not_not.mp hholder, rfl⟩

theorem nack_cases (sp : SharePartition) (route : DeadLetterFunc) (consumer : String) (seq : Nat)
    (requeue : Bool) : (sp.nack route consumer seq requeue).1 = sp ∨
    ∃ e, sp.entries[seq]? = some e ∧ e.state = .acquired ∧ e.holder = consumer ∧
      ((∃ reason, (sp.nack route consumer seq requeue).1 =
        ({ sp with nacked := sp.nacked + 1 }.deadLetter route seq e reason).advance.1) ∨
      (sp.nack route consumer seq requeue).1 = { sp with nacked := sp.nacked + 1 }.release seq e) := by
  unfold nack
  split
  · exact Or.inl rfl
  cases he : sp.entries[seq]? with
  | none => exact Or.inl rfl
  | some e =>
    dsimp only
    split
    · exact Or.inl rfl
    rename_i hacq
    split
    · exact Or.inl rfl
    rename_i hholder
    refine Or.inr ⟨e, rfl, not_not.mp hacq, not_not.mp hholder, ?_⟩
    split
    · exact Or.inl ⟨_, rfl⟩
    split
    · exact Or.inl ⟨_, rfl⟩
    · exact Or.inr rfl

theorem Stable.ack (hP : Stable P) (h : P sp) (consumer : String) (seq : Nat) :
    P (sp.ack consumer seq).1 := by
  rcases ack_cases sp consumer seq with hr | ⟨e, he, _, _, hr⟩
  · rw [hr]
    exact h
  · rw [hr]
    exact hP.advance (hP.counted (hP.retire h he) _ _ _ _)

theorem Stable.nack (hP : Stable P) (h : P sp) (route : DeadLetterFunc) (consumer : String)
    (seq : Nat) (requeue : Bool) : P (sp.nack route consumer seq requeue).1 := by
  have hcount : P { sp with nacked := sp.nacked + 1 } := hP.counted h _ _ _ _
  rcases nack_cases sp route consumer seq requeue with hr | ⟨e, he, _, _, ⟨reason, hr⟩ | hr⟩
  · rw [hr]
    exact h
  · rw [hr]
    exact hP.advance (hP.deadLetter hcount he route reason)
  · rw [hr]
    exact hP.release hcount he

theorem inv_stable : Stable (Inv start first) where
  counted := fun h _ _ _ _ => { h with }
  release := fun h he => h.release (mem_of_getElem? he) _
  retire := fun h he => h.retire (mem_of_getElem? he)
  advance := Inv.advance

theorem done_stable {seqs : List Nat} : Stable (fun sp => ∀ s ∈ seqs, s ∈ sp.done) where
  counted := fun h _ _ _ _ => h
  release := fun h _ => h
  retire := fun h _ s hs => List.mem_cons_of_mem _ (h s hs)
  advance := fun h s hs => by
    rw [advance_done]
    exact h s hs

theorem ack_keeps (he : sp.entries[s]? = some e) (hn : ¬ (seq = s ∧ e.holder = consumer)) :
    (sp.ack consumer seq).1.entries[s]? = some e := by
  rcases ack_cases sp consumer seq with hr | ⟨e', he', _, hholder, hr⟩
  · rw [hr]
    exact he
  rw [hr, advance_entries]
  have hne : s ≠ seq := by
    rintro rfl
    cases he.symm.trans he'
    exact hn ⟨rfl, hholder⟩
  exact (getElem?_erase_other hne).trans he

theorem nack_keeps (route : DeadLetterFunc) (requeue : Bool) (he : sp.entries[s]? = some e)
    (hn : ¬ (seq = s ∧ e.holder = consumer)) :
    (sp.nack route consumer seq requeue).1.entries[s]? = some e := by
  rcases nack_cases sp route consumer seq requeue with hr | ⟨e', he', _, hholder, hr⟩
  · rw [hr]
    exact he
  have hne : s ≠ seq := by
    rintro rfl
    cases he.symm.trans he'
    exact hn ⟨rfl, hholder⟩
  rcases hr with ⟨reason, hr⟩ | hr
  · rw [hr, advance_entries, deadLetter_other route seq e' reason hne]
    exact he
  · rw [hr]
    exact (getElem?_insert_other _ hne).trans he

theorem releaseWhere_keeps {held : String → Bool} {seq : Nat} {e : Entry}
    (he : sp.entries[seq]? = some e) (hn : held e.holder = false) :
    (sp.releaseWhere held).1.entries[seq]? = some e := by
  refine fold_entries (P := fun sp => sp.entries[seq]? = some e) (releaseOne_other held) ?_ he
  intro sp s e' hp hs
  by_cases hse : seq = s
  · subst hse
    cases hp.symm.trans hs
    rw [releaseOne, if_neg (by simp [hn])]
    exact hp
  · rw [releaseOne_other held sp s e' seq hse]
    exact hp

theorem releaseWhere_done (held : String → Bool) : (sp.releaseWhere held).1.done = sp.done := by
  refine fold_entries (P := fun sp' => sp'.done = sp.done) (releaseOne_other held) ?_ rfl
  intro sp' seq e hp _
  unfold releaseOne
  split
  · exact hp
  · exact hp

structure Frame (sp sp' : SharePartition) : Prop where
  id : sp'.id = sp.id
  next : sp'.next = sp.next
  base : sp.base ≤ sp'.base

theorem Frame.refl (sp : SharePartition) : Frame sp sp := ⟨rfl, rfl, Nat.le_refl _⟩

theorem Frame.trans (h : Frame sp1 sp2) (h' : Frame sp2 sp3) : Frame sp1 sp3 :=
  ⟨h'.id.trans h.id, h'.next.trans h.next, Nat.le_trans h.base h'.base⟩

theorem frame_stable : Stable (Frame sp) where
  counted := fun h _ _ _ _ => ⟨h.id, h.next, h.base⟩
  release := fun h _ => ⟨h.id, h.next, h.base⟩
  retire := fun h _ => ⟨h.id, h.next, h.base⟩
  advance := fun {sp'} h => by
    obtain ⟨_, _, _, hle, he⟩ := sp'.advance_same
    rw [he]
    exact ⟨h.id, h.next, Nat.le_trans h.base hle⟩

end SharePartition
end Boltq.Queuelog
