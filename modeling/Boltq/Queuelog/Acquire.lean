import Boltq.Queuelog.Window

namespace Boltq.Queuelog
open Lib Boltq.Stream Std List

def Delivery.entry (d : Delivery) : Entry where
  record := d.record
  state := .acquired
  count := d.count
  deadline := d.deadline
  holder := d.consumer

namespace SharePartition

variable {start first : Nat} {sp : SharePartition}

theorem lease_entry (seq : Nat) (e : Entry) (consumer : String) (now : Int) :
    (sp.lease seq e consumer now).1.entries[seq]? =
      some (sp.lease seq e consumer now).2.entry := TreeMap.getElem?_insert_self

theorem redeliver_spec (consumer : String) (max : Nat) (now : Int) (out : List Delivery)
    (h : Inv start first { sp with available := heap }) :
    Inv start first (redeliver consumer max now heap sp out).1 ∧
    (redeliver consumer max now heap sp out).1.done = sp.done ∧
    (redeliver consumer max now heap sp out).1.next = sp.next ∧
    (∀ (seq : Nat) (e : Entry), sp.entries[seq]? = some e → e.state = .acquired →
      (redeliver consumer max now heap sp out).1.entries[seq]? = some e) ∧
    ∃ new, (redeliver consumer max now heap sp out).2 = out ++ new ∧
      ∀ d ∈ new, (redeliver consumer max now heap sp out).1.entries[d.seq]? = some d.entry ∧
        ∃ e : Entry, sp.entries[d.seq]? = some e ∧ e.state = .available := by
  induction heap generalizing sp out with
  | nil => exact ⟨h, rfl, rfl, fun _ _ he _ => he, [], (append_nil _).symm, nofun⟩
  | cons seq heap ih =>
    have hdrop : (∀ e, sp.entries[seq]? = some e → e.state ≠ .available) →
        Inv start first { sp with available := heap } := by
      intro hna
      refine { h with heaped := ?_ }
      intro s e he hav
      rcases mem_cons.mp (h.heaped s e he hav) with rfl | hm
      · exact absurd hav (hna e he)
      · exact hm
    simp only [redeliver]
    split
    · exact ⟨h, rfl, rfl, fun _ _ he _ => he, [], (append_nil _).symm, nofun⟩
    cases he : sp.entries[seq]? with
    | none => exact ih out (hdrop (by simp [he]))
    | some e =>
      dsimp only
      split
      · rename_i hav
        have hl : Inv start first { (sp.lease seq e consumer now).1 with available := heap } :=
          h.update (mem_of_getElem? he) (fun s hs => mem_cons.mp hs) nofun
        obtain ⟨hi, hdone, hnext, hkept, new, hnew, hgiven⟩ :=
          ih (out ++ [(sp.lease seq e consumer now).2]) hl
        have hother : ∀ s : Nat, s ≠ seq →
            (sp.lease seq e consumer now).1.entries[s]? = sp.entries[s]? :=
          fun s hs => getElem?_insert_other _ hs
        refine ⟨hi, hdone, hnext, ?_, (sp.lease seq e consumer now).2 :: new, ?_, ?_⟩
        · intro s e' hs hacq
          have hne : s ≠ seq := by
            rintro rfl
            cases he.symm.trans hs
            rw [hav] at hacq
            cases hacq
          exact hkept s e' ((hother s hne).trans hs) hacq
        · rw [hnew, append_assoc, singleton_append]
        · intro d hd
          rcases mem_cons.mp hd with rfl | hd
          · exact ⟨hkept seq _ (lease_entry seq e consumer now) rfl, e, he, hav⟩
          obtain ⟨hent, e', he', hav'⟩ := hgiven d hd
          have hne : d.seq ≠ seq := by
            intro heq
            rw [heq, lease_entry] at he'
            cases he'
            cases hav'
          exact ⟨hent, e', (hother _ hne).symm.trans he', hav'⟩
      · rename_i hna
        exact ih out (hdrop (by simp [he, hna]))

def given : Except ShareErr (List Delivery) → List Delivery
  | .ok out => out
  | .error _ => []

structure Gives (first : Nat) (sp sp' : SharePartition) (new : List Delivery) : Prop where
  done : sp'.done = sp.done
  next : sp.next ≤ sp'.next
  kept : ∀ (seq : Nat) (e : Entry), sp.entries[seq]? = some e →
    sp'.entries[seq]? = some e ∨ seq < first
  fresh : ∀ d ∈ new, sp.next ≤ d.seq ∧ d.seq < sp'.next ∧
    (sp'.entries[d.seq]? = some d.entry ∨ d.seq < first)

theorem Gives.refl (first : Nat) (sp : SharePartition) : Gives first sp sp [] :=
  ⟨rfl, Nat.le_refl _, fun _ _ => .inl, nofun⟩

theorem Gives.trans (h : Gives first sp1 sp2 new) (h' : Gives first sp2 sp3 new') :
    Gives first sp1 sp3 (new ++ new') := by
  refine ⟨h'.done.trans h.done, Nat.le_trans h.next h'.next, ?_, ?_⟩
  · intro seq e he
    rcases h.kept seq e he with hk | hlt
    · exact h'.kept seq e hk
    · exact .inr hlt
  · intro d hd
    rcases mem_append.mp hd with hd | hd
    · obtain ⟨hlo, hhi, hent⟩ := h.fresh d hd
      refine ⟨hlo, Nat.lt_of_lt_of_le hhi h'.next, ?_⟩
      rcases hent with he | hlt
      · exact h'.kept _ _ he
      · exact .inr hlt
    · obtain ⟨hlo, hhi, hent⟩ := h'.fresh d hd
      exact ⟨Nat.le_trans h.next hlo, hhi, hent⟩

theorem Inv.skip_gives (h : Inv start first sp) (hs : seq ≤ first) :
    Inv start first (sp.skipTo seq) ∧ Gives first sp (sp.skipTo seq) [] := by
  refine ⟨h.skipTo hs, ?_⟩
  unfold SharePartition.skipTo
  split
  · exact .refl first sp
  obtain ⟨cursors, hc⟩ := commit_same { sp with
      entries := sp.entries.filter (fun s _ => decide (seq ≤ s))
      retired := sp.retired.filter (fun s => decide (seq ≤ s))
      base := seq
      next := if sp.next < seq then seq else sp.next }
  rw [hc]
  refine ⟨rfl, ?_, ?_, nofun⟩
  · dsimp only
    split <;> omega
  intro s e he
  by_cases hle : seq ≤ s
  · left
    rw [TreeMap.getElem?_filter', he]
    simp [Option.filter, hle]
  · exact .inr (by omega)

theorem Inv.extend (h : Inv start first sp) (hroom : 0 < sp.room) (e : Entry) :
    Inv start first { sp with
      entries := sp.entries.insert sp.next e
      next := sp.next + 1
      available := sp.next :: sp.available } := by
  have hle := h.ordered
  have hmem : ∀ s, s ∈ sp.entries.insert sp.next e ↔ s = sp.next ∨ s ∈ sp.entries :=
    fun _ => mem_insert_iff
  refine { h with
    ordered := Nat.le_succ_of_le hle, covered := ?_, apart := ?_, bounded := ?_, heaped := ?_, gone := ?_ }
  · intro s
    have hcov := h.covered s
    simp only [hmem, or_assoc, hcov]
    omega
  · intro s hin hr
    rcases (hmem s).mp hin with rfl | hin
    · exact Nat.lt_irrefl _ ((h.covered sp.next).mp (.inr hr)).2
    · exact h.apart s hin hr
  · unfold room at hroom
    dsimp only
    omega
  · intro s e' hl hav
    rcases insert_cases hl with ⟨rfl, rfl⟩ | ⟨hne, hl⟩
    · exact mem_cons_self
    · exact mem_cons_of_mem _ (h.heaped s e' hl hav)
  · intro s hd
    obtain ⟨hlt, hnot⟩ := h.gone s hd
    refine ⟨by dsimp only; omega, ?_⟩
    intro hin
    rcases (hmem s).mp hin with rfl | hin
    · exact Nat.lt_irrefl _ hlt
    · exact hnot hin

theorem Inv.enter (h : Inv start first sp) (hroom : 0 < sp.room) {r : Record} (hr : r.seq = sp.next)
    (consumer : String) (now : Int) : Inv start first (enter consumer now sp r).1 ∧
    Gives first sp (enter consumer now sp r).1 [(enter consumer now sp r).2] ∧
    (enter consumer now sp r).1.next = sp.next + 1 ∧
    (enter consumer now sp r).1.room = sp.room - 1 := by
  have hnext : (if sp.next ≤ r.seq then r.seq + 1 else sp.next) = sp.next + 1 := by
    rw [hr, if_pos (Nat.le_refl _)]
  have hi : Inv start first (SharePartition.enter consumer now sp r).1 := by
    unfold SharePartition.enter SharePartition.lease
    simp only [hnext]
    rw [hr]
    exact (h.extend hroom { record := r }).update (mem_insert_iff.mpr (.inl rfl))
      (fun s hs => mem_cons.mp hs) nofun
  have hn : (SharePartition.enter consumer now sp r).1.next = sp.next + 1 := hnext
  refine ⟨hi, ⟨rfl, by omega, ?_, ?_⟩, hn, ?_⟩
  · intro s e he
    have hlt := (h.entry_range (mem_of_getElem? he)).2
    have hne : s ≠ r.seq := by omega
    left
    simp only [SharePartition.enter, SharePartition.lease]
    rw [getElem?_insert_other _ hne, getElem?_insert_other _ hne]
    exact he
  · intro d hd
    cases mem_singleton.mp hd
    have hseq : (SharePartition.enter consumer now sp r).2.seq = r.seq := rfl
    refine ⟨by omega, by omega, .inl ?_⟩
    rw [hseq]
    exact lease_entry r.seq { record := r } consumer now
  · have hb : (SharePartition.enter consumer now sp r).1.base = sp.base := rfl
    have hc : (SharePartition.enter consumer now sp r).1.cfg = sp.cfg := rfl
    unfold room
    rw [hn, hb, hc]
    omega

theorem enterAll_spec (consumer : String) (max : Nat) (now : Int) (out : List Delivery)
    (h : Inv start first sp) (hd : Dense sp.next recs) (hroom : (recs.length : Int) ≤ sp.room) :
    Inv start first (enterAll consumer max now recs sp out).1 ∧
    ∃ new, (enterAll consumer max now recs sp out).2 = out ++ new ∧
      Gives first sp (enterAll consumer max now recs sp out).1 new := by
  induction recs generalizing sp out with
  | nil => exact ⟨h, [], (append_nil _).symm, .refl first sp⟩
  | cons r recs ih =>
    simp only [enterAll]
    split
    · exact ⟨h, [], (append_nil _).symm, .refl first sp⟩
    rw [length_cons] at hroom
    obtain ⟨hi, hg, hn, hr⟩ := h.enter (by omega) (hd 0 r rfl) consumer now
    have hd' : Dense (enter consumer now sp r).1.next recs := by
      intro i x hx
      rw [hn, hd (i + 1) x hx]
      omega
    obtain ⟨hi', new, hnew, hg'⟩ := ih (out ++ [(enter consumer now sp r).2]) hi hd' (by omega)
    refine ⟨hi', (enter consumer now sp r).2 :: new, ?_, hg.trans hg'⟩
    rw [hnew, append_assoc, singleton_append]

theorem LogView.numbered_read {view : LogView} (h : view.readFrom seq want = .ok out) (hs : 0 < seq)
    (hw : 0 < want) : Dense seq out ∧ (out.length : Int) ≤ want := by
  obtain ⟨hlow, ⟨rest, hrest⟩, hlen⟩ := view.served h hs hw
  refine ⟨?_, hlen⟩
  intro i r hr
  have hget : (view.log.records.drop (seq - view.log.first))[i]? = some r := by
    rw [← hrest, List.getElem?_append_left (List.getElem?_eq_some_iff.mp hr).1]
    exact hr
  rw [List.getElem?_drop] at hget
  rw [view.log.numbered _ _ hget]
  omega

theorem readFresh_spec (consumer : String) (max : Nat) (now : Int) (h : Inv start first sp)
    (hv : ∀ v ∈ views, v.log.first ≤ first)
    (hr : readFresh consumer max now views sp out = some (sp', r)) :
    Inv start first sp' ∧ ∃ new, Gives first sp sp' new ∧ given r = out ++ new := by
  have hstop : ∀ (sp : SharePartition) (out : List Delivery), Inv start first sp →
      sp.finish out = (sp', r) →
      Inv start first sp' ∧ ∃ new, Gives first sp sp' new ∧ given r = out ++ new := by
    intro sp out hi hf
    cases hf
    exact ⟨{ hi with }, [], ⟨rfl, Nat.le_refl _, fun _ _ => .inl, nofun⟩,
      (append_nil _).symm⟩
  fun_induction readFresh consumer max now views sp out with
  | case1 sp out | case3 view views sp out => exact hstop sp out h (Option.some.inj hr)
  | case2 | case4 => cases hr
  | case5 view sp out hroom requested oldest hread later views ih =>
    obtain ⟨hi, hg⟩ := h.skip_gives (hv later (by simp))
    obtain ⟨hi', new, hg', hnew⟩ := ih hi (fun v hm => hv v (by simp [hm])) hr
    exact ⟨hi', new, hg.trans hg', hnew⟩
  | case6 view views sp out hroom e hother hread =>
    cases hr
    refine ⟨h, [], .refl first _, ?_⟩
    split
    · rename_i hnil
      simp [hnil, given]
    · simp [given]
  | case7 view views sp out hroom hread => exact hstop sp out h (Option.some.inj hr)
  | case8 view views sp out hroom recs hne hread sp1 out1 hall ih =>
    have hpos : 0 < sp.next := Nat.lt_of_lt_of_le h.positive h.ordered
    obtain ⟨hd, hlen⟩ := LogView.numbered_read hread hpos (by omega)
    obtain ⟨hi, new, hnew, hg⟩ := enterAll_spec consumer max now out h hd (by omega)
    simp only [hall] at hi hnew hg
    obtain ⟨hi', new', hg', hnew'⟩ := ih hi (fun v hm => hv v (by simp [hm])) hr
    refine ⟨hi', new ++ new', hg.trans hg', ?_⟩
    rw [hnew', hnew, append_assoc]

structure Leased (first : Nat) (now : Int) (sp sp' : SharePartition) (out : List Delivery) :
    Prop where
  done : ∀ s ∈ sp.done, s ∈ sp'.done
  kept : ∀ (seq : Nat) (e : Entry), sp.entries[seq]? = some e → e.state = .acquired →
    now < e.deadline → sp'.entries[seq]? = some e ∨ seq < first
  other : ∀ (seq : Nat) (e : Entry), sp.entries[seq]? = some e → e.state = .acquired →
    now < e.deadline → ∀ d ∈ out, d.seq ≠ seq
  given : ∀ d ∈ out, d.seq ∉ sp'.done ∧ (sp'.entries[d.seq]? = some d.entry ∨ d.seq < first)

theorem acquire_leases {route : DeadLetterFunc} {views : List LogView} {consumer : String}
    {max now : Int} {sp' : SharePartition} {r : Except ShareErr (List Delivery)}
    (h : Inv start first sp) (hv : ∀ v ∈ views, v.log.first ≤ first)
    (hr : sp.acquire route views consumer max now = some (sp', r)) :
    Inv start first sp' ∧ Leased first now sp sp' (given r) := by
  have hsame : Leased first now sp sp [] :=
    ⟨fun _ hs => hs, fun _ _ he _ _ => .inl he, fun _ _ _ _ _ _ hd => absurd hd not_mem_nil,
      nofun⟩
  unfold acquire at hr
  split at hr
  · cases hr
    exact ⟨h, hsame⟩
  split at hr
  · cases hr
    exact ⟨h, hsame⟩
  dsimp only at hr
  have hi1 := inv_stable.reapExpired h route now
  have hkeep1 := fun (seq : Nat) (e : Entry) (he : sp.entries[seq]? = some e)
    (hd : now < e.deadline) => reapExpired_keeps route he hd
  have hdone1 := done_stable.reapExpired (fun _ (hs : _ ∈ sp.done) => hs) route now
  generalize sp.reapExpired route now = sp1 at hr hi1 hkeep1 hdone1
  obtain ⟨hi2, hdone2, hnext2, hkeep2, new2, hnew2, hgiven2⟩ :=
    redeliver_spec consumer max.toNat now [] hi1
  generalize redeliver consumer max.toNat now sp1.available sp1 [] = p
    at hr hi2 hdone2 hnext2 hkeep2 hnew2 hgiven2
  obtain ⟨sp2, out⟩ := p
  rw [nil_append] at hnew2
  obtain rfl : out = new2 := hnew2
  obtain ⟨hi3, new, hg, hout⟩ := readFresh_spec consumer max.toNat now hi2 hv hr
  refine ⟨hi3, ?_, ?_, ?_, ?_⟩
  · intro s hs
    rw [hg.done, hdone2]
    exact hdone1 s hs
  · intro seq e he hacq hd
    exact hg.kept seq e (hkeep2 seq e (hkeep1 seq e he hd) hacq)
  · intro seq e he hacq hd d hdel
    have he1 := hkeep1 seq e he hd
    rw [hout] at hdel
    rintro rfl
    rcases mem_append.mp hdel with hdel | hdel
    · obtain ⟨_, e', he', hav⟩ := hgiven2 d hdel
      cases he1.symm.trans he'
      rw [hav] at hacq
      cases hacq
    · have hlt := (hi1.entry_range (mem_of_getElem? he1)).2
      have hle := (hg.fresh d hdel).1
      omega
  · intro d hdel
    rw [hg.done, hdone2]
    rw [hout] at hdel
    rcases mem_append.mp hdel with hdel | hdel
    · obtain ⟨hent, e', he', _⟩ := hgiven2 d hdel
      exact ⟨fun hd => (hi1.gone d.seq hd).2 (mem_of_getElem? he'), hg.kept _ _ hent⟩
    obtain ⟨hle, _, hent⟩ := hg.fresh d hdel
    refine ⟨?_, hent⟩
    intro hd
    have hlt := (hi1.gone d.seq hd).1
    omega

end SharePartition
end Boltq.Queuelog
