import Boltq.Cluster.Snapshots
import Boltq.QueuePlane.Operations

namespace Boltq.QueuePlane
open Lib Std

inductive RaftCommand where
  | publish (topic : String) (m : Message)
  | publishTopic (topic : String) (m : Message)
  | consume (topic : String)
  | ack (id : String)
  | nack (id : String)
  | promote (id : String)
  | purge (topic : String)
  | purgeDeadLetters (topic : String)
  | subscribe (topic sub : String)
  | unsubscribe (topic sub : String)
  | exchangeDeclare (name : String) (type : ExchangeType) (durable : Bool)
  | exchangeDelete (name : String)
  | bindQueue (binding : Binding)
  | unbindQueue (exchange queue bindingKey : String)
  | publishExchange (exchange routingKey : String) (m : Message)
  | control (cmd : Cluster.RaftCommand)
  | unknown (type : Nat)

inductive FsmErr where
  | decode (e : String)
  | broker (e : BrokerErr)
  | unknownType (type : Nat)

structure ApplyResponse where
  error : Option FsmErr := none
  message : Option Message := none
  purgedCount : Nat := 0
  control : Option Cluster.ApplyResponse := none

structure BrokerFSM where
  broker : Broker
  metadata : Cluster.MetadataStore := .empty

namespace BrokerFSM

def call (f : BrokerFSM) (r : Broker × Option BrokerErr) : BrokerFSM × ApplyResponse :=
  ({ f with broker := r.1 }, { error := r.2.map .broker })

def purged (f : BrokerFSM) (r : Broker × Except BrokerErr Nat) : BrokerFSM × ApplyResponse :=
  match r.2 with
  | .ok count => ({ f with broker := r.1 }, { purgedCount := count })
  | .error e => ({ f with broker := r.1 }, { error := some (.broker e) })

def applyCommand (f : BrokerFSM) (e : Env) (ids : List String) :
    RaftCommand → BrokerFSM × ApplyResponse
  | .publish topic m =>
    if f.broker.hasMessage m.id then (f, {}) else f.call (f.broker.publish e topic m)
  | .publishTopic topic m => f.call (f.broker.publishTopic e topic m)
  | .consume topic =>
    let (b, got) := f.broker.tryConsume e topic
    ({ f with broker := b }, { message := got.map b.encode })
  | .ack id => f.call (f.broker.ack e id)
  | .nack id => f.call (f.broker.nack id)
  | .promote id =>
    if f.broker.hasDelayedMessage id then f.call (f.broker.promoteDelayed e id) else (f, {})
  | .purge topic => f.purged (f.broker.purgeQueue topic)
  | .purgeDeadLetters topic => f.purged (f.broker.purgeDeadLetters topic)
  | .subscribe topic sub => ({ f with broker := f.broker.registerDurableSub topic sub }, {})
  | .unsubscribe topic sub => ({ f with broker := f.broker.unregisterDurableSub topic sub }, {})
  | .exchangeDeclare name type durable => f.call (f.broker.exchangeDeclare e name type durable)
  | .exchangeDelete name => f.call (f.broker.exchangeDelete e name)
  | .bindQueue binding => f.call (f.broker.bindQueue e binding)
  | .unbindQueue exchange queue bindingKey =>
    f.call (f.broker.unbindQueue e exchange queue bindingKey)
  | .publishExchange exchange routingKey m =>
    f.call (f.broker.publishExchange e ids exchange routingKey m)
  | .control cmd =>
    let (metadata, response) := f.metadata.apply (some cmd)
    ({ f with metadata }, { control := some response })
  | .unknown type => (f, { error := some (.unknownType type) })

def apply (f : BrokerFSM) (e : Env) (ids : List String) :
    Except String RaftCommand → BrokerFSM × ApplyResponse
  | .error err => (f, { error := some (.decode err) })
  | .ok cmd => f.applyCommand e ids cmd

end BrokerFSM

structure Replica where
  fsm : BrokerFSM
  given : List (Option Message) := []

namespace Replica

inductive Event where
  | apply (e : Env) (ids : List String) (entry : Except String RaftCommand)
  | maintain (e : Env)

def needs (b : Broker) : Except String RaftCommand → Nat
  | .ok (.publishExchange exchange routingKey m) => (b.routed exchange routingKey m).length
  | _ => 0

def isConsume : Except String RaftCommand → Bool
  | .ok (.consume _) => true
  | _ => false

def step (r : Replica) : Event → Option Replica
  | .apply e ids entry =>
    if needs r.fsm.broker entry ≤ ids.length then
      let (fsm, response) := r.fsm.apply e ids entry
      some { fsm, given := if isConsume entry then r.given ++ [response.message] else r.given }
    else none
  | .maintain e =>
    some { r with fsm := { r.fsm with broker := r.fsm.broker.processAdvancedFeatures e } }

def Step (r : Replica) (ev : Event) (r' : Replica) : Prop := r.step ev = some r'

def entry : Event → Option (Except String RaftCommand)
  | .apply _ _ entry => some entry
  | .maintain _ => none

end Replica
end Boltq.QueuePlane
