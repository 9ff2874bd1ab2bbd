import NewsChain.Net.MessageConnection

/-!
# The sending half of a peer

A `peer_connection` keeps the messages it is to send in a queue, and one task sends them. The task waits
at every write; between its turns other tasks queue messages, or close the connection. `Link` is the
task, the bytes on their way, and what has come to the other end.
-/

namespace NewsChain

/-- `GRAPHENE_NET_MAXIMUM_QUEUED_MESSAGES_IN_BYTES`. -/
def maximumQueuedMessagesInBytes : Nat := 1024 * 1024

/-- An `item_id`. -/
structure ItemId where
  itemType : UInt32
  itemHash : BlockId

/-- `sizeof(item_id)`. -/
def sizeOfItemId : Nat := 24

/-- The data of a message with the bytes from an offset on overwritten. -/
def Message.patched (m : Message) (offset : Nat) (bytes : List UInt8)
    (h : offset + bytes.length ≤ m.data.length) : Message where
  msgType := m.msgType
  data := m.data.take offset ++ bytes ++ m.data.drop (offset + bytes.length)
  data_lt := by
    have hlt := m.data_lt
    simp only [List.length_append, List.length_take, List.length_drop]
    omega

/-- A `queued_message`. The offset of a `real_queued_message` is that of eight bytes of its data. -/
inductive QueuedMessage
  | real (m : Message) (sendTimeFieldOffset : Option { o : Nat // o + 8 ≤ m.data.length })
  | virtual (itemToSend : ItemId)

namespace QueuedMessage

/-- `get_message`: the time goes into a message that has a field for it; a message for an item is asked
of the node, which may throw. -/
def getMessage (now : UInt64) (messageForItem : Option Message) : QueuedMessage → Option Message
  | .real m none => some m
  | .real m (some o) =>
    some (m.patched o.1 (leBytes 8 now.toNat) (by rw [length_leBytes]; exact o.2))
  | .virtual _ => messageForItem

/-- `get_size_in_queue`. -/
def sizeInQueue : QueuedMessage → Nat
  | .real m _ => m.data.length
  | .virtual _ => sizeOfItemId

end QueuedMessage

/-- Where `send_queued_messages_task` is: not started or at its end, at the head of its loop, or in the
write of a message with so many bytes left. -/
inductive SendTask
  | ready
  | next
  | sending (left : List UInt8)

/-- What a `peer_connection` sends with. -/
structure PeerSender where
  queuedMessages : List QueuedMessage := []
  totalQueuedMessagesSize : Nat := 0
  task : SendTask := .ready
  /-- `_send_queued_messages_done.valid()` -/
  valid : Bool := false
  /-- `_send_queued_messages_done.canceled()` -/
  canceled : Bool := false
  sock : StcpSocket := {}

namespace PeerSender

/-- `close_connection`. -/
def closeConnection (s : PeerSender) : PeerSender := { s with sock := s.sock.close }

/-- `destroy`, as far as it concerns what is sent. -/
def destroy (s : PeerSender) : PeerSender :=
  { s.closeConnection with task := .ready, canceled := s.valid }

/-- `send_queueable_message`. -/
def sendQueueableMessage (q : QueuedMessage) : EStateM LinkExc PeerSender Unit := do
  modify fun s => { s with
    totalQueuedMessagesSize := s.totalQueuedMessagesSize + q.sizeInQueue
    queuedMessages := s.queuedMessages ++ [q] }
  let s ← get
  if maximumQueuedMessagesInBytes < s.totalQueuedMessagesSize then modify closeConnection
  else do
    linkAssert (¬ (s.valid = true ∧ s.canceled = true))
      "Attempting to send a message on a connection that is being shut down"
    match s.task with
    | .ready => set { s with task := .next, valid := true }
    | _ => pure ()

variable [LinkCrypto]

/-- A turn of `send_queued_messages_task`: from the head of its loop to the write of a message, a piece
of such a write, or from its end to the head of the loop. A write that throws closes the connection. -/
def turn (now : UInt64) (messageForItem : Option Message) (s : PeerSender) : PeerSender :=
  match s.task with
  | .ready => s
  | .next =>
    match s.queuedMessages with
    | [] => { s with task := .ready }
    | front :: _ =>
      match front.getMessage now messageForItem with
      | none => { s with task := .ready }
      | some m => { s with task := .sending m.padded }
  | .sending [] =>
    match s.queuedMessages with
    | [] => s
    | front :: rest => { s with
        totalQueuedMessagesSize := s.totalQueuedMessagesSize - front.sizeInQueue
        queuedMessages := rest
        task := .next }
  | .sending (byte :: bytes) =>
    match (StcpSocket.writesome (byte :: bytes)).run s.sock with
    | .ok written sock => { s with sock := sock, task := .sending ((byte :: bytes).drop written) }
    | .error _ sock => ({ s with sock := sock, task := .ready } : PeerSender).closeConnection

/-- The connection breaks in a write, after `k` bytes of the cipher text of a piece. -/
def breakOff (k : Nat) (s : PeerSender) : PeerSender :=
  match s.task with
  | .sending left =>
    match (AesContext.encode (left.take stcpBufferLength)).run s.sock.sendAes with
    | .ok ciphertext aes =>
      if s.sock.sock.isOpen then
        ({ s with
          task := .ready
          sock := { s.sock with
            sendAes := aes
            sock := { s.sock.sock with
              outgoing := s.sock.sock.outgoing ++ ciphertext.take k } } } :
            PeerSender).closeConnection
      else s
    | .error _ _ => s
  | _ => s

end PeerSender

/-! ## The link -/

/-- One direction of a connection. -/
structure Link where
  sender : PeerSender
  /-- What has come to the other end, in the pieces it came in. -/
  arrived : List Arrival := []

/-- The bytes that have come to the other end. -/
def Link.arrivedBytes (l : Link) : List UInt8 := l.arrived.flatMap (·.1)

/-- What may happen next. -/
inductive LinkStep
  /-- A task queues a message. -/
  | send (q : QueuedMessage)
  /-- The send task has its turn, at a time, with what the node answers for an item. -/
  | turn (now : UInt64) (messageForItem : Option Message)
  | breakOff (k : Nat)
  | close
  | destroy
  /-- `k + 1` of the bytes on their way come to the other end at one time. -/
  | carry (k : Nat)

namespace Link

variable [LinkCrypto]

/-- The socket of an end with one key, after the exchange with an end with another. -/
def connectedSocket (privKey other : PrivateKey) : StcpSocket :=
  let theirs := leBytes 33 (LinkCrypto.publicKey other).toNat
  finalState ((StcpSocket.doKeyExchange privKey).run
    { sock := { incoming := [⟨theirs, List.ne_nil_of_length_pos (by simp [theirs])⟩] } })

def start (privKey other : PrivateKey) : Link where
  sender := { sock := connectedSocket privKey other }

def step (l : Link) : LinkStep → Link
  | .send q => { l with sender := finalState ((PeerSender.sendQueueableMessage q).run l.sender) }
  | .turn now messageForItem => { l with sender := l.sender.turn now messageForItem }
  | .breakOff k => { l with sender := l.sender.breakOff k }
  | .close => { l with sender := l.sender.closeConnection }
  | .destroy => { l with sender := l.sender.destroy }
  | .carry k =>
    let bytes := (l.sender.sock.sock.outgoing.drop l.arrivedBytes.length).take (k + 1)
    if h : bytes = [] then l else { l with arrived := l.arrived ++ [⟨bytes, h⟩] }

def run (privKey other : PrivateKey) (steps : List LinkStep) : Link :=
  steps.foldl step (start privKey other)

end Link

/-- The messages that were queued. -/
def queuedIn (steps : List LinkStep) : List QueuedMessage :=
  steps.filterMap fun
    | .send q => some q
    | _ => none

/-- The other end, where nothing was read. -/
def Link.receiver {δ : Type} (l : Link) (x : δ) : MessageConnection δ where
  sock := { sock := { incoming := l.arrived } }
  delegate := x

end NewsChain
