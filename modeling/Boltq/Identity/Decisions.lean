import Boltq.Fanout.Send
import Boltq.Identity.Wildcards

namespace Boltq.Identity
open Lib Boltq.Stream Fanout List

structure Rule.Speaks (r : Rule) (p : Principal) (topic : Bytes) (a : Action) : Prop where
  covers : r.actions = [] ∨ a ∈ r.actions
  pattern : topicMatch topic (expand r.pattern p) = true
  exception : r.exceptPattern ≠ [] → topicMatch topic (expand r.exceptPattern p) = false
  scope : r.requireScope = [] ∨ ∃ s ∈ r.requireScope, s ∈ p.scopes

def Rule.Asks (r : Rule) (topic group : Bytes) : Prop :=
  r.requireMembership = true ∧ 0 ≤ r.membershipSegment ∧
    (segments topic)[r.membershipSegment.toNat]? = some group

structure Rule.Applies (r : Rule) (m : MembershipChecker) (p : Principal) (topic : Bytes)
    (a : Action) : Prop extends r.Speaks p topic a where
  member : r.requireMembership = true →
    ∃ group, r.Asks topic group ∧ m p.tenant p.userID group = .ok true

theorem Rule.concerns_iff (hp : p.anonymous = false) :
    Rule.concerns r p topic a = true ↔ r.Speaks p topic a := by
  have hscope : r.scopeSatisfied p = true ↔
      r.requireScope = [] ∨ ∃ s ∈ r.requireScope, s ∈ p.scopes := by
    simp [scopeSatisfied, Principal.hasScope, hp]
  simp only [concerns, covers, Bool.and_eq_true, hscope]
  constructor
  · rintro ⟨⟨⟨hcov, hpat⟩, hexc⟩, hsc⟩
    exact ⟨by simpa using hcov, hpat, by simpa [or_iff_not_imp_left] using hexc, hsc⟩
  · intro h
    exact ⟨⟨⟨by simpa using h.covers, h.pattern⟩,
      by simpa [or_iff_not_imp_left] using h.exception⟩, h.scope⟩

theorem Rule.member_iff : Rule.member r m p topic = .ok true ↔ (r.requireMembership = true →
    ∃ group, r.Asks topic group ∧ m p.tenant p.userID group = .ok true) := by
  unfold member Asks
  split_ifs with hreq hneg
  · simp [hreq, not_le.mpr hneg]
  · cases hseg : (segments topic)[r.membershipSegment.toNat]? <;> simp [hreq, not_lt.mp hneg]
  · simp [hreq]

theorem Rule.member_error_iff : Rule.member r m p topic = .error e ↔
    ∃ group, r.Asks topic group ∧ m p.tenant p.userID group = .error e := by
  unfold member Asks
  split_ifs with hreq hneg
  · simp [not_le.mpr hneg]
  · cases hseg : (segments topic)[r.membershipSegment.toNat]? <;> simp [hreq, not_lt.mp hneg]
  · simp [hreq]

theorem Rule.applies_iff (hp : p.anonymous = false) : Rule.Applies r m p topic a ↔
    r.concerns p topic a = true ∧ r.member m p topic = .ok true := by
  rw [concerns_iff hp, member_iff]
  exact ⟨fun h => ⟨h.toSpeaks, h.member⟩, fun h => ⟨h.1, h.2⟩⟩

theorem evaluate_iff (rules : List Rule) : evaluate m p topic a allowed rules = .ok () ↔
    (allowed = true ∨ ∃ r ∈ rules, r.effect ≠ .deny ∧ r.concerns p topic a = true ∧
      r.member m p topic = .ok true) ∧ (∀ r ∈ rules, r.effect = .deny →
      ¬ (r.concerns p topic a = true ∧ r.member m p topic = .ok true)) ∧
    ∀ r ∈ rules, r.concerns p topic a = true → ∀ e, r.member m p topic ≠ .error e := by
  induction rules generalizing allowed with
  | nil => simp [evaluate]
  | cons r rules ih =>
    simp only [evaluate, exists_mem_cons_iff, forall_mem_cons]
    by_cases hc : r.concerns p topic a = true
    · rcases hm : r.member m p topic with e | _ | _ <;> by_cases he : r.effect = .deny <;>
        simp [hc, he, ih]
    · simp [hc, ih]

theorem authorize_iff (hp : p.anonymous = false) : Policy.authorize pol p topic a now = .ok () ↔
    (∀ t, p.expiresAt = some t → now ≤ t) ∧
    evaluate pol.membership p topic a false pol.rules = .ok () := by
  have hexp : p.expired now = true ↔ ¬ ∀ t, p.expiresAt = some t → now ≤ t := by
    cases ht : p.expiresAt <;> simp [Principal.expired, hp, ht]
  by_cases he : p.expired now = true
  · simp [Policy.authorize, he, hexp.mp he]
  · rw [and_iff_right (not_not.mp (mt hexp.mpr he))]
    simp [Policy.authorize, he, hp]

section Grants
variable (pol : Policy) (p : Principal) (topic : Bytes) (a : Action) (now : Int)

/-- The request is refused whatever the allow rules say. -/
inductive Policy.Refuses : Prop where
  | expired (t : Int) (ht : p.expiresAt = some t) (hlt : t < now)
  | denied (r : Rule) (hr : r ∈ pol.rules) (he : r.effect = .deny)
      (happ : r.Applies pol.membership p topic a)
  | untold (r : Rule) (hr : r ∈ pol.rules) (hs : r.Speaks p topic a) (group : Bytes)
      (hg : r.Asks topic group) (e : String)
      (he : pol.membership p.tenant p.userID group = .error e)

def Policy.Grants : Prop :=
  (∃ r ∈ pol.rules, r.effect = .allow ∧ r.Applies pol.membership p topic a) ∧
    ¬ pol.Refuses p topic a now

variable {pol p topic a now}

theorem authorize_ok_iff (hp : p.anonymous = false) : pol.authorize p topic a now = .ok () ↔
    (∃ r ∈ pol.rules, r.effect ≠ .deny ∧ r.Applies pol.membership p topic a) ∧
      ¬ pol.Refuses p topic a now := by
  simp only [authorize_iff hp, evaluate_iff, Bool.false_eq_true, false_or, ← Rule.applies_iff hp]
  constructor
  · rintro ⟨hfresh, hallow, hdeny, htold⟩
    refine ⟨hallow, fun h => ?_⟩
    cases h with
    | expired t ht hlt => exact absurd (hfresh t ht) (not_le.mpr hlt)
    | denied r hr he happ => exact hdeny r hr he happ
    | untold r hr hs group hg e he =>
      exact htold r hr ((Rule.concerns_iff hp).mpr hs) e (Rule.member_error_iff.mpr ⟨group, hg, he⟩)
  · rintro ⟨hallow, hnot⟩
    refine ⟨fun t ht => ?_, hallow, fun r hr he happ => hnot (.denied r hr he happ), ?_⟩
    · by_contra hlt
      exact hnot (.expired t ht (not_le.mp hlt))
    intro r hr hc e hm
    obtain ⟨group, hg, he⟩ := Rule.member_error_iff.mp hm
    exact hnot (.untold r hr ((Rule.concerns_iff hp).mp hc) group hg e he)

end Grants

/-- Granted means that an allow rule applies and nothing refuses, exactly as long as no rule
of another effect is what allows the request. The order of the rules never matters. -/
theorem authorize_deny_overrides (pol : Policy) (p : Principal) (hp : p.anonymous = false)
    (topic : Bytes) (a : Action) (now : Int) :
    ((pol.authorize p topic a now = .ok () ↔ pol.Grants p topic a now) ↔
      ∀ r ∈ pol.rules, r.effect ≠ .allow → r.effect ≠ .deny →
        r.Applies pol.membership p topic a → pol.Refuses p topic a now ∨
          ∃ r ∈ pol.rules, r.effect = .allow ∧ r.Applies pol.membership p topic a) ∧
    ∀ rules, pol.rules.Perm rules → ({ pol with rules := rules }.authorize p topic a now = .ok () ↔
      pol.authorize p topic a now = .ok ()) := by
  refine ⟨?_, fun rules hperm => by simp only [authorize_iff hp, evaluate_iff, hperm.mem_iff]⟩
  rw [authorize_ok_iff hp, Policy.Grants]
  by_cases href : pol.Refuses p topic a now
  · simp [href]
  simp only [href, not_false_eq_true, and_true, false_or]
  constructor
  · intro h r hr _ hdeny happ
    exact h.mp ⟨r, hr, hdeny, happ⟩
  · intro h
    refine ⟨?_, fun ⟨r, hr, he, happ⟩ => ⟨r, hr, by simp [he], happ⟩⟩
    rintro ⟨r, hr, hdeny, happ⟩
    by_cases he : r.effect = .allow
    · exact ⟨r, hr, he, happ⟩
    · exact h r hr he hdeny happ

/-- The chat policy has no rule of another effect: a user may read what is announced to all. -/
theorem authorize_deny_overrides_system :
    ({ rules := chatPolicyRules } : Policy).authorize ⟨nameBytes "ann", [], [], [], none, false⟩
        (nameBytes "system.news") .read 0 = .ok () ∧
      ({ rules := chatPolicyRules } : Policy).Grants ⟨nameBytes "ann", [], [], [], none, false⟩
        (nameBytes "system.news") .read 0 :=
  have h : ({ rules := chatPolicyRules } : Policy).authorize
      ⟨nameBytes "ann", [], [], [], none, false⟩ (nameBytes "system.news") .read 0 = .ok () := by
    decide +kernel
  have heff : ∀ r ∈ chatPolicyRules, r.effect = .allow ∨ r.effect = .deny := by decide +kernel
  ⟨h, ((authorize_deny_overrides { rules := chatPolicyRules } _ rfl _ _ _).1.mpr
    fun r hr ha hd _ => absurd (heff r hr) (not_or.mpr ⟨ha, hd⟩)).mp h⟩

/-- A rule without an effect lets everyone into every chat. -/
theorem unnamed_effect_allows :
    let pol : Policy := { rules := [{ pattern := nameBytes "chat.#", effect := .other "" }] }
    let ann : Principal := ⟨nameBytes "ann", [], [], [], none, false⟩
    pol.authorize ann (nameBytes (inboxTopic "bob")) .read 0 = .ok () ∧
      ¬ pol.Grants ann (nameBytes (inboxTopic "bob")) .read 0 := by
  refine ⟨by decide +kernel, ?_⟩
  rintro ⟨⟨r, hr, he, -⟩, -⟩
  rw [mem_singleton] at hr
  subst hr
  cases he

section Chat

@[simp] theorem segments_dot (x y : Bytes) : segments (x ++ 46 :: y) = segments x ++ segments y :=
  splitOn_append_cons 46 x y

theorem topicMatch_initial (h : topicMatch topic (pre ++ 46 :: rest) = true)
    (hplain : ∀ w ∈ segments pre, w ≠ nameBytes "*" ∧ w ≠ nameBytes "#") :
    segments pre <+: segments topic := by
  rw [topicMatch_iff, segments_dot] at h
  exact h.initial hplain

theorem expand_inbox (p : Principal) : expand (nameBytes "chat.inbox.${user}.#") p =
    (nameBytes "chat.inbox" ++ 46 :: p.userID) ++ 46 :: nameBytes "#" := by
  rw [append_assoc]
  rfl

theorem segments_inboxTopic (v : String) : segments (nameBytes (inboxTopic v)) =
    segments (nameBytes "chat.inbox") ++ segments (nameBytes v) := by
  rw [← segments_dot, inboxTopic, nameBytes_append]
  rfl

theorem own_inbox_eq (p : Principal) (v : String) :
    topicMatch (nameBytes (inboxTopic v)) (expand (nameBytes "chat.inbox.${user}.#") p) =
      topicMatch (nameBytes v) (p.userID ++ 46 :: nameBytes "#") := by
  rw [Bool.eq_iff_iff, topicMatch_iff, topicMatch_iff, expand_inbox, segments_inboxTopic]
  rw [segments_dot, segments_dot, segments_dot, append_assoc]
  have hplain : ∀ w ∈ segments (nameBytes "chat.inbox"), w ≠ nameBytes "*" ∧ w ≠ nameBytes "#" := by
    decide
  exact Aligned.append_iff hplain

/-- The rules that can speak of a chat topic: the two about inboxes, of which the second
excepts one's own, and those about conversations, which ask for the third segment. -/
theorem chat_rule_cases (hseg : segments topic = nameBytes "chat" :: shape :: rest)
    (ha : a = .read ∨ a = .write) (hr : r ∈ chatPolicyRules) (hs : r.Speaks p topic a) :
    (shape = nameBytes "inbox" ∧ r.requireMembership = false ∧
      (r.effect = .deny → r.exceptPattern = nameBytes "chat.inbox.${user}.#")) ∨
    shape ≠ nameBytes "inbox" ∧ r.effect ≠ .deny ∧ r.requireMembership = true ∧
      r.membershipSegment = 2 := by
  have hstart : ∀ pre rest', expand r.pattern p = nameBytes pre ++ 46 :: rest' →
      (∀ w ∈ segments (nameBytes pre), w ≠ nameBytes "*" ∧ w ≠ nameBytes "#") →
      segments (nameBytes pre) <+: nameBytes "chat" :: shape :: rest := by
    intro pre rest' he hplain
    rw [← hseg]
    exact topicMatch_initial (he ▸ hs.pattern) hplain
  have hshape : ∀ word, [nameBytes "chat", nameBytes word] <+: nameBytes "chat" :: shape :: rest →
      shape = nameBytes word := by
    intro word h
    simpa [eq_comm] using h
  have hfirst : ∀ word, [nameBytes word] <+: nameBytes "chat" :: shape :: rest → word = "chat" := by
    intro word h
    simpa using h
  simp only [chatPolicyRules, mem_cons, not_mem_nil, or_false] at hr
  rcases hr with rfl | rfl | rfl | rfl | rfl | rfl | rfl | rfl | rfl | rfl
  · exact .inl ⟨hshape "inbox" (hstart "chat.inbox" _ rfl (by decide)), rfl, nofun⟩
  · exact .inl ⟨hshape "inbox" (hstart "chat.inbox" _ rfl (by decide)), rfl, fun _ => rfl⟩
  · have hd := hshape "direct" (hstart "chat.direct" _ rfl (by decide))
    exact .inr ⟨by rw [hd]; decide, nofun, rfl, rfl⟩
  · have hg := hshape "group" (hstart "chat.group" _ rfl (by decide))
    exact .inr ⟨by rw [hg]; decide, nofun, rfl, rfl⟩
  · exact absurd (hfirst "presence" (hstart "presence" _ rfl (by decide))) (by decide)
  · exact absurd (hfirst "presence" (hstart "presence" _ rfl (by decide))) (by decide)
  · exact absurd (hfirst "typing" (hstart "typing" _ rfl (by decide))) (by decide)
  · exact absurd (hfirst "system" (hstart "system" _ rfl (by decide))) (by decide)
  · exact absurd (hfirst "system" (hstart "system" _ rfl (by decide))) (by decide)
  · -- the last rule is about managing topics only
    rcases hs.covers with h | h <;> simp_all

/-- Nobody reads or writes the inbox of another, exactly unless their own id, read as the
beginning of a pattern, matches the other's. -/
theorem inboxes_private (m : MembershipChecker) (anonymous : Bool) (p : Principal)
    (hp : p.anonymous = false) (v : String) (now : Int) :
    (∀ a, a = .read ∨ a = .write → (Policy.mk chatPolicyRules m anonymous).authorize p
        (nameBytes (inboxTopic v)) a now ≠ .ok ()) ↔
      p.expired now = true ∨ topicMatch (nameBytes v) (p.userID ++ 46 :: nameBytes "#") = false := by
  rw [← own_inbox_eq]
  constructor
  · intro h
    by_contra hopen
    rw [not_or, Bool.not_eq_true, Bool.not_eq_false] at hopen
    refine h .read (.inl rfl) ?_
    simp only [Policy.authorize, hopen.1, hp, Bool.false_eq_true, if_false]
    have hcases := fun r (hr : r ∈ chatPolicyRules) hc => chat_rule_cases (segments_inboxTopic v)
      (.inl rfl) hr ((Rule.concerns_iff (p := p) (a := .read) hp).mp hc)
    refine (evaluate_iff _).mpr ⟨.inr ⟨_, .head _, nofun, (Rule.concerns_iff hp).mpr
      ⟨.inr (.head _), hopen.2, fun h => absurd rfl h, .inl rfl⟩, rfl⟩, ?_, ?_⟩
    · rintro r hr he ⟨hc, -⟩
      rcases hcases r hr hc with ⟨-, -, hexc⟩ | ⟨-, hne, -⟩
      · have hfalse := ((Rule.concerns_iff hp).mp hc).exception (by rw [hexc he]; decide)
        rw [hexc he, hopen.2] at hfalse
        cases hfalse
      · exact hne he
    · intro r hr hc e hm
      rcases hcases r hr hc with ⟨-, hreq, -⟩ | ⟨hne, -⟩
      · simp [Rule.member, hreq] at hm
      · exact hne rfl
  · intro hpriv a _ h
    rcases hpriv with hexp | hpriv
    · simp [Policy.authorize, hexp] at h
    obtain ⟨-, -, hdeny, -⟩ := ((authorize_iff hp).mp h).imp_right (evaluate_iff _).mp
    -- the second rule denies every inbox but one's own
    refine hdeny _ (.tail _ (.head _)) rfl
      ⟨(Rule.concerns_iff hp).mpr ⟨.inl rfl, ?_, fun _ => hpriv, .inl rfl⟩, rfl⟩
    rw [topicMatch_iff, segments_inboxTopic]
    exact .word (nameBytes "chat") (by decide) (.word (nameBytes "inbox") (by decide) (.last _))

/-- The ids `x.*` and `x.#` are patterns as well, and do not match `bob`. -/
theorem inboxes_private_bob : (Policy.mk chatPolicyRules (fun _ _ _ => .ok true) false).authorize
      ⟨nameBytes "x.*", [], [], [], none, false⟩ (nameBytes (inboxTopic "bob")) .read 0 ≠ .ok () :=
  (inboxes_private _ _ ⟨nameBytes "x.*", [], [], [], none, false⟩ rfl _ _).mpr
    (.inr (by decide +kernel)) _ (.inl rfl)

/-- The user `*` reads the inbox of everyone, and the user `a` writes that of `a.b`. -/
theorem inboxes_open : (Policy.mk chatPolicyRules denyAllMembership false).authorize
      ⟨nameBytes "*", [], [], [], none, false⟩ (nameBytes (inboxTopic "bob")) .read 0 = .ok () ∧
    (Policy.mk chatPolicyRules denyAllMembership false).authorize
      ⟨nameBytes "a", [], [], [], none, false⟩ (nameBytes (inboxTopic "a.b")) .write 0 = .ok () := by
  decide +kernel

/-- A conversation's topic continues with its id, and one of the rules lets its readers in. -/
theorem segments_conversationTopic (kind c : String) : ∃ shape,
    segments (nameBytes (conversationTopic kind c)) =
        nameBytes "chat" :: shape :: segments (nameBytes c) ∧ shape ≠ nameBytes "inbox" ∧
      ∃ r ∈ chatPolicyRules, ∀ p, r.Speaks p (nameBytes (conversationTopic kind c)) .read := by
  have hpre : ∀ pre, segments (nameBytes (pre ++ "." ++ c)) =
      segments (nameBytes pre) ++ segments (nameBytes c) := by
    intro pre
    rw [← segments_dot, nameBytes_append, nameBytes_append, append_assoc]
    rfl
  obtain ⟨group, rest, hgroup⟩ := exists_cons_of_ne_nil (splitOn_ne_nil 46 (nameBytes c))
  have htail : Aligned (nameBytes "*") (nameBytes "#") (segments (nameBytes c))
      [nameBytes "*", nameBytes "#"] := by
    rw [segments, hgroup]
    exact .star group (.last rest)
  have hspeaks : ∀ (r : Rule) topic shape, r.actions = [.read, .write] → r.exceptPattern = [] →
      r.requireScope = [] → (∀ p, expand r.pattern p = r.pattern) → shape ≠ nameBytes "*" ∧
      shape ≠ nameBytes "#" → segments r.pattern =
        [nameBytes "chat", shape, nameBytes "*", nameBytes "#"] →
      segments topic = nameBytes "chat" :: shape :: segments (nameBytes c) →
      ∀ p, r.Speaks p topic .read := by
    intro r topic shape hact hexc hscope hexp hshape hpat htopic p
    refine ⟨.inr (by simp [hact]), ?_, fun h => absurd hexc h, .inl hscope⟩
    rw [hexp, topicMatch_iff, hpat, htopic]
    exact .word _ (by decide) (.word _ hshape htail)
  unfold conversationTopic
  split
  · refine ⟨nameBytes "group", hpre "chat.group", by decide, chatPolicyRules[3], by decide, ?_⟩
    exact hspeaks _ _ _ rfl rfl rfl (fun _ => rfl) (by decide) (by decide) (hpre "chat.group")
  · refine ⟨nameBytes "direct", hpre "chat.direct", by decide, chatPolicyRules[2], by decide, ?_⟩
    exact hspeaks _ _ _ rfl rfl rfl (fun _ => rfl) (by decide) (by decide) (hpre "chat.direct")

theorem segments_head_iff (c : String) :
    (segments (nameBytes c)).head? = some (nameBytes c) ↔ '.' ∉ c.toList := by
  constructor
  · intro h hdot
    obtain ⟨l, r, hlr, hl⟩ := eq_append_cons_of_mem hdot
    have hsplit := splitOn_append_left hl []
    rw [append_nil] at hsplit
    rw [segments_nameBytes, splitOn_dot, hlr, splitOn_append_cons, hsplit] at h
    have hc : String.ofList l = c := by simpa using h
    rw [← hc, String.toList_ofList] at hlr
    simp at hlr
  · intro hc
    have hsplit := splitOn_append_left hc []
    rw [append_nil] at hsplit
    simp [segments_nameBytes, splitOn_dot, hsplit]

/-- Only a member of a conversation reads or writes it, exactly if its id is one segment. -/
theorem conversations_confidential (kind c : String) :
    (∀ (m : MembershipChecker) (anonymous : Bool) (p : Principal) (a : Action) (now : Int),
      p.anonymous = false → a = .read ∨ a = .write →
      (Policy.mk chatPolicyRules m anonymous).authorize p (nameBytes (conversationTopic kind c))
        a now = .ok () → m p.tenant p.userID (nameBytes c) = .ok true) ↔ '.' ∉ c.toList := by
  obtain ⟨shape, hseg, hshape, r, hr, hspeaks⟩ := segments_conversationTopic kind c
  rw [← segments_head_iff]
  generalize nameBytes (conversationTopic kind c) = topic at hseg hspeaks ⊢
  constructor
  · intro h
    -- whoever is a member of the first segment alone gets in
    obtain ⟨group, rest, hgroup⟩ := exists_cons_of_ne_nil (splitOn_ne_nil 46 (nameBytes c))
    replace hgroup : segments (nameBytes c) = group :: rest := hgroup
    rw [hgroup] at hseg ⊢
    let p : Principal := ⟨[], [], [], [], none, false⟩
    have hin := h (fun _ _ g => .ok (g = group)) false p .read 0 rfl (.inl rfl) ?_
    · simpa [eq_comm] using hin
    have hasks := fun r (hr : r ∈ chatPolicyRules) (hs : r.Speaks p topic .read) =>
      (chat_rule_cases hseg (.inl rfl) hr hs).resolve_left fun h => hshape h.1
    have hmember : ∀ r ∈ chatPolicyRules, r.Speaks p topic .read →
        r.member (fun _ _ g => .ok (g = group)) p topic = .ok true := by
      intro r hr hs
      obtain ⟨-, -, hreq, h2⟩ := hasks r hr hs
      simp [Rule.member, hreq, h2, hseg]
    rw [authorize_iff rfl, evaluate_iff]
    simp only [Rule.concerns_iff (show p.anonymous = false from rfl)]
    refine ⟨nofun, .inr ⟨r, hr, (hasks r hr (hspeaks p)).2.1, hspeaks p, hmember r hr (hspeaks p)⟩, ?_, ?_⟩
    · exact fun r hr he h => (hasks r hr h.1).2.1 he
    · exact fun r hr hs e hm => by simp [hmember r hr hs] at hm
  · intro hone m anonymous p a now hp ha h
    obtain ⟨-, hallow, -⟩ := ((authorize_iff hp).mp h).imp_right (evaluate_iff _).mp
    obtain ⟨r, hr, -, hcon, hmem⟩ := hallow.resolve_left nofun
    rcases chat_rule_cases hseg ha hr ((Rule.concerns_iff hp).mp hcon) with ⟨he, -⟩ | ⟨-, -, hreq, h2⟩
    · exact absurd he hshape
    obtain ⟨group, ⟨-, -, hg⟩, hok⟩ := Rule.member_iff.mp hmem hreq
    rw [hseg, h2] at hg
    rw [head?_eq_getElem?] at hone
    cases hone.symm.trans hg
    exact hok

/-- A member of the conversation writes to it. -/
theorem conversations_confidential_member :
    (Policy.mk chatPolicyRules (fun _ _ group => .ok (group = nameBytes "c")) false).authorize
      ⟨nameBytes "ann", [], [], [], none, false⟩ (nameBytes (conversationTopic "group" "c")) .write 0 =
        .ok () ∧
    (fun _ _ group => .ok (group = nameBytes "c") : MembershipChecker) [] (nameBytes "ann")
      (nameBytes "c") = .ok true :=
  have h : (Policy.mk chatPolicyRules (fun _ _ group => .ok (group = nameBytes "c")) false).authorize
      ⟨nameBytes "ann", [], [], [], none, false⟩ (nameBytes (conversationTopic "group" "c")) .write 0 =
        .ok () := by decide +kernel
  ⟨h, (conversations_confidential _ _).mpr (by decide) _ _ _ _ _ rfl (.inr rfl) h⟩

/-- A member of `c` writes to the conversation `c.d`, of which nobody is a member. -/
theorem conversations_leak :
    let m : MembershipChecker := fun _ _ group => .ok (group = nameBytes "c")
    (Policy.mk chatPolicyRules m false).authorize ⟨nameBytes "ann", [], [], [], none, false⟩
      (nameBytes (conversationTopic "group" "c.d")) .write 0 = .ok () ∧
    ∀ tenant user, m tenant user (nameBytes "c.d") = .ok false := by
  refine ⟨by decide +kernel, fun _ _ => by simp⟩

end Chat
end Boltq.Identity
