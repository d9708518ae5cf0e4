import Boltq.Lib.Priority

namespace Boltq.QueuePlane

structure Message where
  id : String
  topic : String := ""
  payload : List UInt8 := []
  headers : List (String × String) := []
  timestamp : Int := 0
  retry : Int := 0
  maxRetry : Int := 5
  delay : Int := 0
  ttl : Int := 0
  deliverAt : Int := 0
  expiresAt : Int := 0
  priority : Int := 0
  exchange : String := ""
  routingKey : String := ""
  deriving DecidableEq

def Message.Expired (m : Message) (now : Int) : Prop := 0 < m.expiresAt ∧ m.expiresAt < now
  deriving Decidable

structure Held where
  ref : Nat
  msg : Message
  deriving DecidableEq

def numPriorityLevels : Nat := 10

def clampPriority (p : Int) : Nat :=
  if p < 0 then 0 else if numPriorityLevels ≤ p then numPriorityLevels - 1 else p.toNat

def nextPowerOfTwo (n : Int) : Nat :=
  if n ≤ 0 then 1
  else
    let n := n.toNat - 1
    let n := n ||| n >>> 1
    let n := n ||| n >>> 2
    let n := n ||| n >>> 4
    let n := n ||| n >>> 8
    let n := n ||| n >>> 16
    n + 1

inductive ExchangeType where
  | direct
  | fanout
  | topic
  | headers
  | other (name : String)
  deriving DecidableEq

def ExchangeType.name : ExchangeType → String
  | .direct => "direct"
  | .fanout => "fanout"
  | .topic => "topic"
  | .headers => "headers"
  | .other name => name

structure Binding where
  exchange : String
  queue : String
  bindingKey : String
  headers : List (String × String) := []
  matchAll : Bool := false
  deriving DecidableEq

structure Exchange where
  name : String
  type : ExchangeType
  durable : Bool
  bindings : List Binding := []
  deriving DecidableEq

def matchParts : List String → List String → Bool
  | words, [] => words = []
  | words, part :: parts =>
    if part = "#" then parts = [] || words.tails.any (fun rest => matchParts rest parts)
    else
      match words with
      | [] => false
      | word :: words => (part = "*" || part = word) && matchParts words parts

def topicMatch (routingKey pattern : String) : Bool :=
  matchParts (routingKey.splitOn ".") (pattern.splitOn ".")

def headersMatch (msgHeaders bindingHeaders : List (String × String)) (matchAll : Bool) : Bool :=
  if bindingHeaders = [] then true
  else if matchAll then bindingHeaders.all (fun h => (msgHeaders.lookup h.1).getD "" = h.2)
  else bindingHeaders.any (fun h => (msgHeaders.lookup h.1).getD "" = h.2)

namespace Exchange

def Matches (e : Exchange) (routingKey : String) (headers : List (String × String)) (b : Binding) :
    Bool :=
  match e.type with
  | .direct => b.bindingKey = routingKey
  | .fanout => true
  | .topic => topicMatch routingKey b.bindingKey
  | .headers => headersMatch headers b.headers b.matchAll
  | .other _ => false

def route (e : Exchange) (routingKey : String) (headers : List (String × String)) : List String :=
  e.bindings.foldl (fun queues b =>
    if b.queue ∈ queues then queues
    else if e.Matches routingKey headers b then queues ++ [b.queue]
    else queues) []

def unbind (e : Exchange) (queue bindingKey : String) : Exchange :=
  { e with
    bindings := e.bindings.eraseP (fun b => b.queue = queue ∧ b.bindingKey = bindingKey) }

end Exchange

inductive Metadata where
  | exchangeDeclare (e : Exchange)
  | exchangeDelete (name : String)
  | bindQueue (b : Binding)
  | unbindQueue (exchange queue bindingKey : String)
  deriving DecidableEq

inductive RecordType where
  | exchangeDeclare
  | exchangeDelete
  | bindQueue
  | unbindQueue
  deriving DecidableEq

def Metadata.type : Metadata → RecordType
  | .exchangeDeclare _ => .exchangeDeclare
  | .exchangeDelete _ => .exchangeDelete
  | .bindQueue _ => .bindQueue
  | .unbindQueue _ _ _ => .unbindQueue

inductive WALRecord where
  | publish (msg : Message)
  | ack (msgID : String)
  | metadata (type : RecordType) (data : Option Metadata)
  deriving DecidableEq

def WALRecord.wrapped : WALRecord → WALRecord
  | .publish msg => .publish msg
  | .ack msgID => .ack msgID
  | .metadata type _ => .metadata type none

end Boltq.QueuePlane
