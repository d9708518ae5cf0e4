import Boltq.QueuePlane.Topology

namespace Boltq.QueuePlane
open Lib Std List

section Routes
variable (e : Exchange) (routingKey : String) (headers : List (String × String))

def Exchange.Accepts (b : Binding) : Prop :=
  match e.type with
  | .direct => b.bindingKey = routingKey
  | .fanout => True
  | .topic => topicMatch routingKey b.bindingKey = true
  | .headers =>
    if b.matchAll then ∀ h ∈ b.headers, headers.lookup h.1 = some h.2
    else b.headers = [] ∨ ∃ h ∈ b.headers, headers.lookup h.1 = some h.2
  | .other _ => False

instance : DecidablePred (e.Accepts routingKey headers) := fun b => by
  unfold Exchange.Accepts
  split <;> infer_instance

variable {e routingKey headers}

/-- The binding does not accept the message, but would if a missing header were an empty one. -/
def Exchange.ReadsAbsent (e : Exchange) (headers : List (String × String)) (b : Binding) : Prop :=
  e.type = .headers ∧ if b.matchAll then
      (∀ h ∈ b.headers, headers.lookup h.1 = some h.2 ∨ headers.lookup h.1 = none ∧ h.2 = "") ∧
        ∃ h ∈ b.headers, headers.lookup h.1 = none
    else (∃ h ∈ b.headers, headers.lookup h.1 = none ∧ h.2 = "") ∧
      ∀ h ∈ b.headers, headers.lookup h.1 ≠ some h.2

instance : DecidablePred (e.ReadsAbsent headers) := fun b => by
  unfold Exchange.ReadsAbsent
  infer_instance

/-- Wherever a binding reads a missing header as an empty one, for a queue that is not among
the queues `seen` so far, the next new queue that a binding accepts the message for is the same. -/
def Exchange.Undisturbed (e : Exchange) (routingKey : String) (headers : List (String × String)) :
    List String → List Binding → Prop
  | _, [] => True
  | seen, b :: bs =>
    if b.queue ∈ seen then Undisturbed e routingKey headers seen bs
    else if e.Accepts routingKey headers b then
      Undisturbed e routingKey headers (b.queue :: seen) bs
    else if e.ReadsAbsent headers b then
      (bs.find? fun b' => b'.queue ∉ seen ∧ e.Accepts routingKey headers b').map (·.queue) =
          some b.queue ∧ Undisturbed e routingKey headers (b.queue :: seen) bs
    else Undisturbed e routingKey headers seen bs

theorem matches_iff : e.Matches routingKey headers b = true ↔
    e.Accepts routingKey headers b ∨ e.ReadsAbsent headers b := by
  unfold Exchange.Matches Exchange.Accepts Exchange.ReadsAbsent
  cases ht : e.type with
  | headers =>
    have hget : ∀ h : String × String, (headers.lookup h.1).getD "" = h.2 ↔
        headers.lookup h.1 = some h.2 ∨ headers.lookup h.1 = none ∧ h.2 = "" := by
      intro h
      cases headers.lookup h.1 with
      | none => simp [eq_comm (b := h.2)]
      | some v => simp
    by_cases hb : b.headers = []
    · simp [headersMatch, hb]
    cases hm : b.matchAll with
    | false =>
      simp only [headersMatch, hb, Bool.false_eq_true, if_false, false_or, any_eq_true,
        decide_eq_true_eq, hget, true_and]
      grind
    | true =>
      simp only [headersMatch, hb, if_false, if_true, all_eq_true, decide_eq_true_eq, hget, true_and]
      grind
  | _ => simp

theorem route_eq (e : Exchange) (routingKey : String) (headers : List (String × String)) :
    e.route routingKey headers =
        ((e.bindings.filter (e.Matches routingKey headers)).map (·.queue)).eraseDups ∧
      (e.route routingKey headers).Nodup := by
  unfold Exchange.route
  induction e.bindings using reverseRecOn with
  | nil => simp
  | append_singleton bs b ih =>
    rw [foldl_concat, filter_append, map_append, eraseDups_append, ← ih.1]
    generalize bs.foldl _ [] = queues at ih
    generalize (bs.filter _).map _ = matching at ih
    have hmem : b.queue ∈ matching ↔ b.queue ∈ queues := by rw [ih.1, mem_eraseDups]
    by_cases hq : b.queue ∈ queues <;> cases hm : e.Matches routingKey headers b <;>
      simp [hq, hm, hmem, ih.2, removeAll, eraseDups_cons, nodup_append]
    exact fun queue hin he => hq (he ▸ hin)

theorem mem_route : queue ∈ Exchange.route e routingKey headers ↔
    ∃ b ∈ e.bindings, b.queue = queue ∧ e.Matches routingKey headers b = true := by
  simp only [(route_eq e routingKey headers).1, mem_eraseDups, mem_map, mem_filter,
    and_assoc]
  exact exists_congr fun b => and_congr_right fun _ => and_comm

section Listed
variable (f g : Binding → Prop) [DecidablePred f] [DecidablePred g]

/-- The queues that a walk over the bindings that meet `f` adds to those it has `seen`. -/
def listed (seen : List String) (bs : List Binding) : List String :=
  (((bs.filter f).map (·.queue)).filter (· ∉ seen)).eraseDups

variable {f g}

theorem listed_cons : listed f seen (b :: bs) =
    if b.queue ∉ seen ∧ f b then b.queue :: listed f (b.queue :: seen) bs else listed f seen bs := by
  unfold listed
  by_cases hf : f b
  · by_cases hq : b.queue ∈ seen
    · simp [hf, hq]
    · simp [hf, hq, eraseDups_cons, filter_filter]
      rfl
  · simp [hf]

theorem listed_tail (h : listed f seen bs = queue :: rest) : listed f (queue :: seen) bs = rest := by
  induction bs with
  | nil => simp [listed] at h
  | cons b bs ih =>
    rw [listed_cons] at h ⊢
    split_ifs at h with hb
    · obtain ⟨rfl, rfl⟩ := cons_eq_cons.mp h
      simp
    · rw [if_neg (fun hc => hb ⟨fun hs => hc.1 (mem_cons_of_mem _ hs), hc.2⟩)]
      exact ih h

theorem head?_listed (f : Binding → Prop) [DecidablePred f] (seen : List String)
    (bs : List Binding) : (listed f seen bs).head? =
      (bs.find? fun b => b.queue ∉ seen ∧ f b).map (·.queue) := by
  induction bs with
  | nil => rfl
  | cons b bs ih =>
    rw [listed_cons, find?_cons]
    split_ifs with hb
    · simp [hb]
    · simpa [hb] using ih

end Listed

theorem listed_eq_iff (seen : List String) (bs : List Binding) :
    listed (e.Matches routingKey headers · = true) seen bs =
        listed (e.Accepts routingKey headers) seen bs ↔
      e.Undisturbed routingKey headers seen bs := by
  induction bs generalizing seen with
  | nil => simp [listed, Exchange.Undisturbed]
  | cons b bs ih =>
    rw [listed_cons, listed_cons, Exchange.Undisturbed]
    by_cases hq : b.queue ∈ seen
    · simp [hq, ih]
    by_cases ha : e.Accepts routingKey headers b
    · simp [hq, ha, matches_iff.mpr (.inl ha), ih]
    by_cases hr : e.ReadsAbsent headers b
    · have hm : e.Matches routingKey headers b = true := matches_iff.mpr (.inr hr)
      simp only [hq, ha, hr, hm, not_false_eq_true, true_and, if_true, and_false, if_false,
        ← head?_listed, ← ih]
      constructor
      · intro h
        exact ⟨by rw [← h, head?_cons], (listed_tail h.symm).symm⟩
      · rintro ⟨hhead, htail⟩
        obtain ⟨rest, hrest⟩ := head?_eq_some_iff.mp hhead
        rw [htail, listed_tail hrest, hrest]
    · have hm : ¬ e.Matches routingKey headers b = true := by
        rw [matches_iff]
        exact not_or.mpr ⟨ha, hr⟩
      simp [hq, ha, hr, hm, ih]

/-- An exchange routes to the queues of the bindings that accept the message, each once and
where it came first, exactly if no binding that reads a missing header as empty disturbs it. -/
theorem route_exact (e : Exchange) (routingKey : String) (headers : List (String × String)) :
    (e.route routingKey headers =
        ((e.bindings.filter (e.Accepts routingKey headers)).map (·.queue)).eraseDups ∧
      (e.route routingKey headers).Nodup ∧ ∀ queue, queue ∈ e.route routingKey headers ↔
        ∃ b ∈ e.bindings, b.queue = queue ∧ e.Accepts routingKey headers b) ↔
    e.Undisturbed routingKey headers [] e.bindings := by
  obtain ⟨hroute, hnd⟩ := route_eq e routingKey headers
  rw [← listed_eq_iff]
  simp only [listed, not_mem_nil, not_false_eq_true, decide_true, filter_true, Bool.decide_eq_true]
  rw [← hroute, and_iff_left_iff_imp]
  intro h
  refine ⟨hnd, fun queue => ?_⟩
  simp only [h, mem_eraseDups, mem_map, mem_filter, decide_eq_true_eq, and_assoc]
  exact exists_congr fun b => and_congr_right fun _ => and_comm

/-- A missing header read as empty does no harm where the queue is listed already. -/
theorem route_exact_listed :
    (Exchange.mk "orders" .headers true [⟨"orders", "q", "", [], false⟩,
      ⟨"orders", "q", "", [("region", "")], true⟩]).route "" [] = ["q"] :=
  ((route_exact (.mk "orders" .headers true [⟨"orders", "q", "", [], false⟩,
    ⟨"orders", "q", "", [("region", "")], true⟩]) "" []).mpr
      (by simp only [Exchange.Undisturbed]; decide +kernel)).1.trans (by decide +kernel)

/-- A binding that asks for an empty header takes a message that has no such header. -/
theorem route_takes_absent_header :
    let e : Exchange := ⟨"orders", .headers, true, [⟨"orders", "eu", "", [("region", "")], true⟩]⟩
    e.route "" [] = ["eu"] ∧ ∀ b ∈ e.bindings, ¬ e.Accepts "" [] b := by decide +kernel

end Routes

section Bindings

inductive BindOp where
  | bind (queue bindingKey : String) (headers : List (String × String)) (matchAll : Bool)
  | unbind (queue bindingKey : String)
  deriving DecidableEq

namespace BindOp

def pair : BindOp → String × String
  | bind queue bindingKey .. => (queue, bindingKey)
  | unbind queue bindingKey => (queue, bindingKey)

def binds : BindOp → Bool
  | bind .. => true
  | unbind .. => false

end BindOp

def boundLast (ops : List BindOp) (pair : String × String) : Bool :=
  ops.foldl (fun last op => if op.pair = pair then op.binds else last) false

def Binding.pair (b : Binding) : String × String := (b.queue, b.bindingKey)

namespace Exchange

def replace (b : Binding) : List Binding → List Binding
  | [] => [b]
  | existing :: rest =>
    if existing.queue = b.queue ∧ existing.bindingKey = b.bindingKey then b :: rest
    else existing :: replace b rest

def bind (e : Exchange) (b : Binding) : Exchange := { e with bindings := replace b e.bindings }

def perform (e : Exchange) (name : String) : BindOp → Exchange
  | .bind queue bindingKey headers matchAll => e.bind ⟨name, queue, bindingKey, headers, matchAll⟩
  | .unbind queue bindingKey => e.unbind queue bindingKey

def performAll (e : Exchange) (name : String) (ops : List BindOp) : Exchange :=
  ops.foldl (fun e op => e.perform name op) e

end Exchange

def Broker.perform (b : Broker) (name : String) : Env × BindOp → Broker
  | (e, .bind queue bindingKey headers matchAll) =>
    (b.bindQueue e ⟨name, queue, bindingKey, headers, matchAll⟩).1
  | (e, .unbind queue bindingKey) => (b.unbindQueue e name queue bindingKey).1

def Broker.performAll (b : Broker) (name : String) (ops : List (Env × BindOp)) : Broker :=
  ops.foldl (fun b op => b.perform name op) b

theorem boundLast_concat (ops : List BindOp) (op : BindOp) (pair : String × String) :
    boundLast (ops ++ [op]) pair = if op.pair = pair then op.binds else boundLast ops pair := by
  simp [boundLast]

theorem pairs_unbind (e : Exchange) (queue bindingKey : String) :
    (e.unbind queue bindingKey).bindings.map Binding.pair =
      (e.bindings.map Binding.pair).erase (queue, bindingKey) := by
  have hp : (fun b : Binding => decide (b.queue = queue ∧ b.bindingKey = bindingKey)) =
      ((queue, bindingKey) == ·) ∘ Binding.pair := by
    funext b
    rw [Bool.eq_iff_iff, Function.comp, beq_iff_eq, eq_comm (b := b.pair)]
    simp [Binding.pair]
  rw [erase_eq_eraseP, eraseP_map, ← hp]
  rfl

theorem replace_cases (b : Binding) (bs : List Binding) :
    (b.pair ∈ bs.map Binding.pair ∧ (Exchange.replace b bs).map Binding.pair = bs.map Binding.pair) ∨
      (b.pair ∉ bs.map Binding.pair ∧ Exchange.replace b bs = bs ++ [b]) := by
  induction bs with
  | nil => simp [Exchange.replace]
  | cons existing rest ih =>
    have hpair : (existing.queue = b.queue ∧ existing.bindingKey = b.bindingKey) ↔
        existing.pair = b.pair := by simp [Binding.pair]
    simp only [Exchange.replace, hpair]
    split_ifs with h
    · simp [h]
    rcases ih with ⟨hmem, heq⟩ | ⟨hmem, heq⟩
    · exact .inl ⟨mem_cons_of_mem _ hmem, by simp [heq]⟩
    · exact .inr ⟨by simp_all [eq_comm], by simp [heq]⟩

theorem performAll_pairs {x : Exchange} (hnew : x.bindings = []) (name : String) (ops : List BindOp) :
    ((x.performAll name ops).bindings.map Binding.pair).Nodup ∧
    (∀ pair, pair ∈ (x.performAll name ops).bindings.map Binding.pair ↔ boundLast ops pair = true) ∧
    (x.performAll name ops).type = x.type := by
  unfold Exchange.performAll
  induction ops using reverseRecOn with
  | nil => simp [hnew, boundLast]
  | append_singleton ops op ih =>
    simp only [foldl_concat, boundLast_concat]
    generalize ops.foldl _ x = y at ih
    obtain ⟨hnd, hmem, htype⟩ := ih
    cases op with
    | bind queue bindingKey headers matchAll =>
      let b : Binding := ⟨name, queue, bindingKey, headers, matchAll⟩
      change ((Exchange.replace b y.bindings).map Binding.pair).Nodup ∧
        (∀ pair, pair ∈ (Exchange.replace b y.bindings).map Binding.pair ↔
          (if b.pair = pair then true else boundLast ops pair) = true) ∧ y.type = x.type
      rcases replace_cases b y.bindings with ⟨hin, heq⟩ | ⟨hin, heq⟩
      · rw [heq]
        refine ⟨hnd, fun pair => ?_, htype⟩
        rw [hmem] at hin ⊢
        split_ifs with hp
        · simp [← hp, hin]
        · rfl
      · rw [heq, map_append]
        refine ⟨?_, fun pair => ?_, htype⟩
        · exact concat_eq_append ▸ hnd.concat hin
        · rw [mem_append, hmem, map_singleton, mem_singleton, eq_comm (b := b.pair)]
          split_ifs with hp <;> simp [hp]
    | unbind queue bindingKey =>
      simp only [Exchange.perform, pairs_unbind]
      refine ⟨hnd.erase _, fun pair => ?_, htype⟩
      rw [hnd.mem_erase_iff, hmem, ne_comm]
      change _ ↔ (if (queue, bindingKey) = pair then false else boundLast ops pair) = true
      split_ifs with hp <;> simp [hp]

theorem perform_exchange {b : Broker} (hx : b.exchanges[name]? = some x)
    (hnew : op.binds = true → op.pair ∉ x.bindings.map Binding.pair) :
    (b.perform name (e, op)).exchanges[name]? = some (x.perform name op) := by
  cases op with
  | bind queue bindingKey headers matchAll =>
    obtain ⟨hin, -⟩ | ⟨-, heq⟩ := replace_cases ⟨name, queue, bindingKey, headers, matchAll⟩ x.bindings
    · exact absurd hin (hnew rfl)
    simp only [Broker.perform, Broker.bindQueue, hx]
    rw [Broker.writeMetadata_eq, Exchange.perform, Exchange.bind, heq]
    exact TreeMap.getElem?_insert_self
  | unbind queue bindingKey =>
    simp only [Broker.perform, Broker.unbindQueue, hx]
    rw [Broker.writeMetadata_eq]
    exact TreeMap.getElem?_insert_self

theorem performAll_exchange {b : Broker} (hx : b.exchanges[name]? = some x) (hnew : x.bindings = [])
    (ops : List (Env × BindOp)) (hfresh : ∀ i (hi : i < ops.length), ops[i].2.binds = true →
      boundLast ((ops.take i).map (·.2)) ops[i].2.pair = false) :
    (b.performAll name ops).exchanges[name]? = some (x.performAll name (ops.map (·.2))) := by
  induction ops using reverseRecOn with
  | nil => exact hx
  | append_singleton ops op ih =>
    have hx' := ih fun i hi => by
      have := hfresh i (by simp; omega)
      rwa [getElem_append_left hi, take_append_of_le_length (Nat.le_of_lt hi)] at this
    simp only [Broker.performAll, Exchange.performAll, map_append, map_singleton,
      foldl_concat]
    refine perform_exchange hx' fun hb => ?_
    have hlast := hfresh ops.length (by simp) (by simpa using hb)
    rw [← Exchange.performAll, (performAll_pairs hnew name _).2.1]
    simpa using hlast

/-- What is bound to an exchange is what the last operation on a queue and a key bound. It is
the same for operations through the broker, if none binds what is bound already. -/
theorem bindings_follow_last_operation (b : Broker) (name : String) (x : Exchange)
    (hx : b.exchanges[name]? = some x) (hnew : x.bindings = []) (ops : List (Env × BindOp)) :
    let acts := ops.map (·.2)
    (∀ queue bindingKey, ((∃ binding ∈ (x.performAll name acts).bindings,
        binding.queue = queue ∧ binding.bindingKey = bindingKey) ↔
          boundLast acts (queue, bindingKey) = true) ∧
      (x.type = .direct → ∀ headers, queue ∈ (x.performAll name acts).route bindingKey headers ↔
        boundLast acts (queue, bindingKey) = true)) ∧
    ((∀ i (hi : i < ops.length), ops[i].2.binds = true →
        boundLast ((ops.take i).map (·.2)) ops[i].2.pair = false) →
      (b.performAll name ops).exchanges[name]? = some (x.performAll name acts)) := by
  refine ⟨fun queue bindingKey => ?_, performAll_exchange hx hnew ops⟩
  obtain ⟨-, hmem, htype⟩ := performAll_pairs hnew name (ops.map (·.2))
  rw [← hmem]
  refine ⟨by simp [Binding.pair], fun ht headers => ?_⟩
  simp [mem_route, Exchange.Matches, htype, ht, Binding.pair]

/-- A queue that was bound and unbound is not bound, on either plane. -/
theorem bindings_follow_last_operation_unbound :
    ((Broker.new {} none ∅).performAll "" [(⟨0, none, none⟩, .bind "q" "k" [] false),
      (⟨0, none, none⟩, .unbind "q" "k")]).exchanges[""]? = some defaultExchange :=
  (bindings_follow_last_operation (.new {} none ∅) "" defaultExchange TreeMap.getElem?_insert_self rfl
    [(⟨0, none, none⟩, .bind "q" "k" [] false), (⟨0, none, none⟩, .unbind "q" "k")]).2 (by decide)

/-- Through the broker a queue that was bound twice stays bound when it is unbound. -/
theorem unbind_leaves_repeated_binding :
    let acts : List BindOp := [.bind "q" "k" [] false, .bind "q" "k" [] false, .unbind "q" "k"]
    boundLast acts ("q", "k") = false ∧
    ((Broker.new {} none ∅).performAll "" (acts.map (⟨0, none, none⟩, ·))).exchanges[""]?.map
      (·.route "k" []) = some ["q"] ∧
    (defaultExchange.performAll "" acts).route "k" [] = [] := by
  decide +kernel

end Bindings

end Boltq.QueuePlane
