import Boltq.Stream.Topics

namespace Boltq.Identity
open Lib Boltq.Stream

structure Principal where
  userID : Bytes
  deviceID : Bytes := []
  tenant : Bytes := []
  scopes : List Bytes := []
  expiresAt : Option Int := none
  anonymous : Bool := false
  deriving DecidableEq

namespace Principal

def hasScope (p : Principal) (scope : Bytes) : Bool := p.anonymous || p.scopes.contains scope

def expired (p : Principal) (now : Int) : Bool :=
  if p.anonymous then false else p.expiresAt.any (fun at_ => at_ < now)

end Principal

inductive Action where
  | read
  | write
  | manage
  deriving DecidableEq

/-- The effect of a rule is a string: everything that is not `deny` allows. -/
inductive Effect where
  | allow
  | deny
  | other (name : String)
  deriving DecidableEq

structure Rule where
  pattern : Bytes
  exceptPattern : Bytes := []
  actions : List Action := []
  effect : Effect
  requireScope : List Bytes := []
  requireMembership : Bool := false
  membershipSegment : Int := 0
  deriving DecidableEq

namespace Rule

def covers (r : Rule) (a : Action) : Bool := r.actions = [] || r.actions.contains a

def scopeSatisfied (r : Rule) (p : Principal) : Bool :=
  r.requireScope = [] || r.requireScope.any p.hasScope

end Rule

abbrev MembershipChecker := Bytes → Bytes → Bytes → Except String Bool

def denyAllMembership : MembershipChecker := fun _ _ _ => .ok false

def substitute (olds : List (Bytes × Bytes)) : Nat → Bytes → Bytes
  | _, [] => []
  | skip+1, _ :: rest => substitute olds skip rest
  | 0, c :: rest =>
    match olds.find? (fun o => o.1.isPrefixOf (c :: rest)) with
    | some (old, new) => new ++ substitute olds (old.length - 1) rest
    | none => c :: substitute olds 0 rest

def expand (pattern : Bytes) (p : Principal) : Bytes :=
  if ¬ nameBytes "$\x7b" <:+: pattern then pattern
  else substitute [(nameBytes "${user}", p.userID), (nameBytes "${device}", p.deviceID),
    (nameBytes "${tenant}", p.tenant)] 0 pattern

def segments (topic : Bytes) : List Bytes := topic.splitOn 46

def matchSegments : List Bytes → List Bytes → Bool
  | t, [] => t = []
  | t, part :: parts =>
    if part = nameBytes "#" then
      parts = [] || t.tails.any (fun rest => matchSegments rest parts)
    else
      match t with
      | [] => false
      | word :: words => (part = nameBytes "*" || part = word) && matchSegments words parts

def topicMatch (topic pattern : Bytes) : Bool :=
  pattern = nameBytes "#" || matchSegments (segments topic) (segments pattern)

inductive AuthErr where
  | denied
  | tokenExpired
  | membership (e : String)
  deriving DecidableEq

structure Policy where
  rules : List Rule := []
  membership : MembershipChecker := denyAllMembership
  allowAnonymous : Bool := false

def Rule.concerns (r : Rule) (p : Principal) (topic : Bytes) (a : Action) : Bool :=
  r.covers a && topicMatch topic (expand r.pattern p) &&
    !(r.exceptPattern ≠ [] && topicMatch topic (expand r.exceptPattern p)) && r.scopeSatisfied p

def Rule.member (r : Rule) (m : MembershipChecker) (p : Principal) (topic : Bytes) :
    Except String Bool :=
  if r.requireMembership then
    if r.membershipSegment < 0 then .ok false
    else
      match (segments topic)[r.membershipSegment.toNat]? with
      | none => .ok false
      | some group => m p.tenant p.userID group
  else .ok true

def evaluate (m : MembershipChecker) (p : Principal) (topic : Bytes) (a : Action) :
    Bool → List Rule → Except AuthErr Unit
  | allowed, [] => if allowed then .ok () else .error .denied
  | allowed, r :: rest =>
    if r.concerns p topic a then
      match r.member m p topic with
      | .error e => .error (.membership e)
      | .ok false => evaluate m p topic a allowed rest
      | .ok true =>
        if r.effect = .deny then .error .denied else evaluate m p topic a true rest
    else evaluate m p topic a allowed rest

def Policy.authorize (pol : Policy) (p : Principal) (topic : Bytes) (a : Action) (now : Int) :
    Except AuthErr Unit :=
  if p.expired now then .error .tokenExpired
  else if p.anonymous then if pol.allowAnonymous then .ok () else .error .denied
  else evaluate pol.membership p topic a false pol.rules

def scopePresence : Bytes := nameBytes "presence"
def scopeAdmin : Bytes := nameBytes "admin"

def chatPolicyRules : List Rule :=
  [{ pattern := nameBytes "chat.inbox.${user}.#", effect := .allow, actions := [.read, .write] },
    { pattern := nameBytes "chat.inbox.#", exceptPattern := nameBytes "chat.inbox.${user}.#",
      effect := .deny },
    { pattern := nameBytes "chat.direct.*.#", effect := .allow, requireMembership := true,
      membershipSegment := 2, actions := [.read, .write] },
    { pattern := nameBytes "chat.group.*.#", effect := .allow, requireMembership := true,
      membershipSegment := 2, actions := [.read, .write] },
    { pattern := nameBytes "presence.${user}.#", effect := .allow, actions := [.write],
      requireScope := [scopePresence] },
    { pattern := nameBytes "presence.#", effect := .allow, actions := [.read] },
    { pattern := nameBytes "typing.*.#", effect := .allow, requireMembership := true,
      membershipSegment := 1, actions := [.read, .write] },
    { pattern := nameBytes "system.#", effect := .allow, actions := [.read] },
    { pattern := nameBytes "system.#", effect := .deny, actions := [.write, .manage] },
    { pattern := nameBytes "#", effect := .allow, actions := [.manage], requireScope := [scopeAdmin] }]

end Boltq.Identity
