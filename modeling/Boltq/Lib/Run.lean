import Mathlib

namespace Boltq.Lib
open List

inductive Run (step : σ → α → σ → Prop) (ok : σ → α → Prop) (s : σ) : List α → σ → Prop where
  | nil : Run step ok s [] s
  | snoc (as : List α) (a : α) (t u : σ)
      (before : Run step ok s as t) (meets : ok t a) (taken : step t a u) :
      Run step ok s (as ++ [a]) u

def always (_ : σ) (_ : α) : Prop := True

theorem Run.invariant (Inv : σ → Prop) (hr : Run step ok s as t) (h0 : Inv s)
    (hs : ∀ t a u, Inv t → ok t a → step t a u → Inv u) : Inv t := by
  induction hr with
  | nil => exact h0
  | snoc as a t u before meets taken ih => exact hs t a u ih meets taken

theorem Run.last (hr : Run step ok s (as ++ [a]) u) :
    ∃ t, Run step ok s as t ∧ ok t a ∧ step t a u := by
  generalize hall : as ++ [a] = all at hr
  cases hr with
  | nil => simp at hall
  | snoc bs b t u before meets taken =>
    obtain ⟨rfl, hlast⟩ := append_inj' hall rfl
    cases hlast
    exact ⟨t, before, meets, taken⟩

theorem Run.mono (hr : Run step ok s as t) (hi : ∀ t a, ok t a → ok' t a) :
    Run step ok' s as t := by
  induction hr with
  | nil => exact .nil
  | snoc as a t u before meets taken ih => exact .snoc as a t u ih (hi t a meets) taken

theorem Run.congr {as : List α} (Inv : σ → Prop) (h0 : Inv s)
    (hs : ∀ t a u, Inv t → step t a u → Inv u) (hi : ∀ t a, Inv t → (ok t a ↔ ok' t a)) :
    Run step ok s as t ↔ Run step ok' s as t := by
  have hkeep : ∀ {ok : σ → α → Prop} {as : List α} {t : σ}, Run step ok s as t → Inv t :=
    fun hr => hr.invariant Inv h0 (fun t a u ht _ hst => hs t a u ht hst)
  constructor
  · intro hr
    induction hr with
    | nil => exact .nil
    | snoc as a t u before meets taken ih =>
      exact .snoc as a t u ih ((hi t a (hkeep before)).mp meets) taken
  · intro hr
    induction hr with
    | nil => exact .nil
    | snoc as a t u before meets taken ih =>
      exact .snoc as a t u ih ((hi t a (hkeep before)).mpr meets) taken

theorem Run.refine (step' : τ → α → τ → Prop) (f : σ → τ) (Inv : σ → Prop) (hr : Run step ok s as t)
    (h0 : Inv s) (hs : ∀ t a u, Inv t → ok t a → step t a u → Inv u ∧ step' (f t) a (f u)) :
    Inv t ∧ Run step' always (f s) as (f t) := by
  induction hr with
  | nil => exact ⟨h0, .nil⟩
  | snoc as a t u before meets taken ih =>
    obtain ⟨hinv, hstep⟩ := hs t a u ih.1 meets taken
    exact ⟨hinv, .snoc as a _ _ ih.2 trivial hstep⟩

def answers (step : σ → α → σ × β) : σ → List α → List β
  | _, [] => []
  | s, a :: as => (step s a).2 :: answers step (step s a).1 as

theorem answers_eq {step : σ → α → σ × β} {step' : τ → α → τ × β} (R : σ → τ → Prop)
    (hstep : ∀ s t a, R s t → (step s a).2 = (step' t a).2 ∧ R (step s a).1 (step' t a).1)
    {s : σ} {t : τ} (h : R s t) (as : List α) : answers step s as = answers step' t as := by
  induction as generalizing s t with
  | nil => rfl
  | cons a as ih =>
    obtain ⟨hout, hnext⟩ := hstep s t a h
    rw [answers, answers, hout, ih hnext]

section Agreement
variable {step : σ → α → σ → Prop} {ok : σ → α → Prop} (seen : α → Option β) (R : σ → σ → Prop)

theorem Run.unseen (hrefl : ∀ s, R s s) (htrans : ∀ {s t u}, R s t → R t u → R s u)
    (hquiet : ∀ s a t, seen a = none → ok s a → step s a t → R s t) (hr : Run step ok s as t)
    (hn : as.filterMap seen = []) : R s t := by
  induction hr with
  | nil => exact hrefl s
  | snoc as a t u before meets taken ih =>
    rw [filterMap_append] at hn
    obtain ⟨hn, ha⟩ := append_eq_nil_iff.mp hn
    cases hs : seen a with
    | none => exact htrans (ih hn) (hquiet t a u hs meets taken)
    | some c => simp [hs] at ha

theorem Run.last_seen (hrefl : ∀ s, R s s) (htrans : ∀ {s t u}, R s t → R t u → R s u)
    (hquiet : ∀ s a t, seen a = none → ok s a → step s a t → R s t) (hr : Run step ok s as t)
    (hn : as.filterMap seen = cs ++ [c]) :
    ∃ bs a u v, Run step ok s bs u ∧ bs.filterMap seen = cs ∧ seen a = some c ∧ ok u a ∧
      step u a v ∧ R v t := by
  induction hr with
  | nil => simp at hn
  | snoc as a t u before meets taken ih =>
    cases hs : seen a with
    | none =>
      rw [filterMap_append, filterMap_cons_none hs, filterMap_nil,
        append_nil] at hn
      obtain ⟨bs, a', v, w, hbs, hcs, ha', hok, hstep, hw⟩ := ih hn
      exact ⟨bs, a', v, w, hbs, hcs, ha', hok, hstep, htrans hw (hquiet t a u hs meets taken)⟩
    | some c' =>
      rw [filterMap_append, filterMap_cons_some hs, filterMap_nil] at hn
      obtain ⟨hcs, hc⟩ := append_inj' hn rfl
      cases hc
      exact ⟨as, a, t, u, before, hcs, hs, meets, taken, hrefl u⟩

theorem Run.agree (hrefl : ∀ s, R s s) (hsymm : ∀ {s t}, R s t → R t s)
    (htrans : ∀ {s t u}, R s t → R t u → R s u)
    (hquiet : ∀ s a t, seen a = none → ok s a → step s a t → R s t)
    (hseen : ∀ s s' a a' t t' c, R s s' → seen a = some c → seen a' = some c → ok s a → ok s' a' →
      step s a t → step s' a' t' → R t t') (h : R s s') (hr : Run step ok s as t)
    (hr' : Run step ok s' as' t') (hn : as.filterMap seen = as'.filterMap seen) : R t t' := by
  generalize hcs : as'.filterMap seen = cs at hn
  have hlen : ∀ n, cs.length = n → R t t' := by
    intro n
    induction n generalizing cs t t' as as' with
    | zero =>
      intro hz
      obtain rfl := eq_nil_of_length_eq_zero hz
      have ht := hr.unseen seen R hrefl htrans hquiet hn
      have ht' := hr'.unseen seen R hrefl htrans hquiet hcs
      exact htrans (hsymm ht) (htrans h ht')
    | succ n ih =>
      intro hl
      obtain ⟨ds, c, rfl⟩ : ∃ ds c, cs = ds ++ [c] := by
        have hne : cs ≠ [] := fun he => by rw [he] at hl; cases hl
        exact ⟨cs.dropLast, cs.getLast hne, (dropLast_concat_getLast hne).symm⟩
      obtain ⟨bs, a, u, v, hb, hds, ha, hok, hst, hv⟩ := hr.last_seen seen R hrefl htrans hquiet hn
      obtain ⟨bs', a', u', v', hb', hds', ha', hok', hst', hv'⟩ :=
        hr'.last_seen seen R hrefl htrans hquiet hcs
      have hu : R u u' := ih hb hb' ds hds' hds (by simpa using hl)
      exact htrans (hsymm hv) (htrans (hseen u u' a a' v v' c hu ha ha' hok hok' hst hst') hv')
  exact hlen _ rfl

end Agreement

theorem Run.append (hr : Run step ok s as t) (hq : Run step ok t bs u) :
    Run step ok s (as ++ bs) u := by
  induction hq with
  | nil => simpa using hr
  | snoc bs b v w before meets taken ih =>
    rw [← append_assoc]
    exact .snoc (as ++ bs) b v w ih meets taken

instance (s : σ) (a : α) : Decidable (always s a) := inferInstanceAs (Decidable True)

def execAll (ok : σ → α → Prop) [∀ s a, Decidable (ok s a)] (f : σ → α → Option σ) :
    σ → List α → Option σ
  | s, [] => some s
  | s, a :: as => if ok s a then (f s a).bind (fun t => execAll ok f t as) else none

theorem Run.of_execAll [∀ s a, Decidable (ok s a)] (hf : ∀ s a t, f s a = some t → step s a t)
    (h : execAll ok f s as = some t) : Run step ok s as t := by
  induction as generalizing s with
  | nil =>
    simp only [execAll, Option.some.injEq] at h
    exact h ▸ .nil
  | cons a as ih =>
    simp only [execAll] at h
    split at h
    · rename_i hok
      obtain ⟨u, hu, hrest⟩ := Option.bind_eq_some_iff.mp h
      exact Run.append (.snoc [] a s u .nil hok (hf s a u hu)) (ih hrest)
    · cases h

theorem Run.found_of {step : σ → α → σ → Prop} {ok : σ → α → Prop} [∀ s a, Decidable (ok s a)]
    {f : σ → α → Option σ} (hf : ∀ s a t, f s a = some t → step s a t) {s : σ} {as : List α}
    (P : σ → Prop) [DecidablePred P] (h : (execAll ok f s as).any (fun t => decide (P t)) = true) :
    ∃ t, Run step ok s as t ∧ P t := by
  obtain ⟨t, ht, hp⟩ := (Option.any_eq_true _ _).mp h
  exact ⟨t, .of_execAll hf ht, of_decide_eq_true hp⟩

theorem Run.found {ok : σ → α → Prop} [∀ s a, Decidable (ok s a)] {f : σ → α → Option σ} {s : σ}
    {as : List α} (P : σ → Prop) [DecidablePred P]
    (h : (execAll ok f s as).any (fun t => decide (P t)) = true) :
    ∃ t, Run (fun s a t => f s a = some t) ok s as t ∧ P t :=
  Run.found_of (fun _ _ _ h => h) P h

theorem Run.shown {ok : σ → α → Prop} [∀ s a, Decidable (ok s a)] {f : σ → α → Option σ} {s : σ}
    {as : List α} {Q : σ → Prop} (P : σ → Prop) [DecidablePred P]
    (h : (execAll ok f s as).any (fun t => decide (P t)) = true)
    (hq : ∀ t, Run (fun s a t => f s a = some t) ok s as t → P t → Q t) :
    ∃ t, Run (fun s a t => f s a = some t) ok s as t ∧ Q t := by
  obtain ⟨t, hr, hp⟩ := Run.found P h
  exact ⟨t, hr, hq t hr hp⟩

theorem Run.executed (ok : σ → α → Prop) [∀ s a, Decidable (ok s a)] (f : σ → α → Option σ) (s : σ)
    (as : List α) (P : σ → Prop) [DecidablePred P]
    (h : (execAll ok f s as).any (fun t => decide (P t)) = true) :
    ∃ t, Run (fun s a t => f s a = some t) ok s as t ∧ P t := Run.found P h

end Boltq.Lib
