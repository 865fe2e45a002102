import QuantumFs.Lib.Machine
import QuantumFs.Member.Mailbox

/-! Runs of a member, in which a prepared batch waits for its end marker while other
operations go on. -/
namespace QuantumFs.Member

open Lib Encoding Crypto Store Host

inductive ReplicaOp where
  | addMembers (env : MemberEnv) (members : OrdSet PeerId)
  | learnHistory (env : MemberEnv) (documents : List IdentityDocument)
  | reconcileMembers (env : MemberEnv) (members denied : OrdSet PeerId)
  | acceptPulled (env : MemberEnv) (responses : List ChunkBodyFrame) (trusted : Manifest)
  | evictFile (env : MemberEnv) (fileId : FileId)
  | storeLocalBodies (env : MemberEnv) (manifest : Manifest) (bodies : List Bytes)

inductive MemberOp where
  | other (op : ReplicaOp)
  | applyControl (env : MemberEnv) (packet : ControlPacket)
  | prepare (env : MemberEnv) (envelopes : List MailboxEnvelope)
      (history : List IdentityDocument) (bootstrapThrough : Option Nat) (session : PairSession)
  /-- One of the prepared batches is committed, and is gone then. -/
  | commit (env : MemberEnv) (index : Nat)
  | finishReceipts
  /-- The keystore after any exchange of keys. -/
  | rekey (keys : KeyStore)
  | restart (env : MemberEnv) (keys : KeyStore) (initialMembers : OrdSet PeerId)

structure Client where
  replica : MemberReplica
  prepared : List PreparedReplicaFlush

section

variable [Primitives]

def ReplicaOp.perform : ReplicaOp → Action Error MemberReplica Unit
  | .addMembers env members => Member.addMembers env members
  | .learnHistory env documents => Member.learnHistory env documents
  | .reconcileMembers env members denied => Member.reconcileMembers env members denied
  | .acceptPulled env responses trusted => do
      let _ ← Member.acceptPulled env responses trusted
  | .evictFile env fileId => do
      let _ ← Member.evictFile env fileId
  | .storeLocalBodies env manifest bodies => Member.storeLocalBodies env manifest bodies

def replicas : Machine MemberReplica ReplicaOp where
  exec := fun op replica => (op.perform replica).2

def reopened (env : MemberEnv) (keys : KeyStore) (initialMembers : OrdSet PeerId)
    (replica : MemberReplica) : Result MemberReplica := do
  ensure (keys.identity = replica.keys.identity) .keyUnavailable
  let disk ← okOr replica.disk (.state "no data directory")
  openDurable env keys disk replica.expectedRoot replica.hostId initialMembers

def MemberOp.exec : MemberOp → Client → Client
  | .other op, client => { client with replica := replicas.exec op client.replica }
  | .applyControl env packet, client =>
    { client with replica := (Member.applyControl env packet client.replica).2 }
  | .prepare env envelopes history bootstrapThrough session, client =>
    match prepareMailboxForSession env envelopes history bootstrapThrough session client.replica with
    | (.ok prepared, replica) => { replica, prepared := client.prepared ++ [prepared] }
    | (.error _, replica) => { client with replica }
  | .commit env index, client =>
    match client.prepared[index]? with
    | some prepared =>
      { replica := (commitPrepared env prepared client.replica).2
        prepared := client.prepared.eraseIdx index }
    | none => client
  | .finishReceipts, client =>
    { client with replica := (Member.finishReceipts client.replica).2 }
  | .rekey keys, client =>
    if keys.identity = client.replica.keys.identity then
      { client with replica := { client.replica with keys } }
    else client
  | .restart env keys initialMembers, client =>
    match reopened env keys initialMembers client.replica with
    | .ok replica => { replica, prepared := [] }
    | .error _ => client

def clients : Machine Client MemberOp where
  exec := MemberOp.exec

end

end QuantumFs.Member
