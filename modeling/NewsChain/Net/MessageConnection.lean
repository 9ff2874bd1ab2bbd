import NewsChain.Base.Raw
import NewsChain.Lib.BlockChaining
import NewsChain.Lib.ByteSource

/-!
# Messages over a connection

What lies under the messages of two peers: a TCP connection, a key exchange and a cipher over it
(`stcp_socket`), and messages cut out of the plain text (`message_oriented_connection`).

TCP gives the bytes of a connection in order and in pieces of any size. A call that waits for bytes is
not told from one that finds the connection closed by the peer: what has come in is all there is.
-/

namespace NewsChain

/-- The exceptions of the network code, as far as they are told apart. -/
inductive LinkExc
  | canceled
  | eof
  | fc (what : String)
  /-- `unhandled_exception`, with what was thrown first. -/
  | unhandled (e : LinkExc)
deriving DecidableEq

/-- `FC_ASSERT` in the network code. -/
def linkAssert {σ : Type} (c : Prop) [Decidable c] (what : String) : EStateM LinkExc σ Unit :=
  if c then pure () else throw (.fc what)

/-! ## The cipher -/

/-- A block of AES. -/
abbrev CipherBlock := BitVec (8 * 16)

abbrev SharedSecret := BitVec 512

/-- The cryptography under a connection. -/
class LinkCrypto where
  /-- `private_key::get_public_key`, serialized. -/
  publicKey : PrivateKey → PublicKey
  /-- `private_key::get_shared_secret`; it throws where the other key is none. -/
  sharedSecret : PrivateKey → PublicKey → Option SharedSecret
  /-- `fc::sha256::hash` of a shared secret. -/
  aesKey : SharedSecret → Digest
  /-- `fc::city_hash_crc_128` of a shared secret. -/
  aesInitValue : SharedSecret → CipherBlock
  /-- AES-256 on one block. -/
  encipher : Digest → CipherBlock → CipherBlock
  decipher : Digest → CipherBlock → CipherBlock

/-- What the two ends of a connection rely on. -/
class LawfulLinkCrypto [LinkCrypto] : Prop where
  /-- Each of two keys gives the same secret with the other. -/
  sharedSecret_comm (a b : PrivateKey) : ∃ secret,
    LinkCrypto.sharedSecret a (LinkCrypto.publicKey b) = some secret ∧
      LinkCrypto.sharedSecret b (LinkCrypto.publicKey a) = some secret
  decipher_encipher (key : Digest) (b : CipherBlock) :
    LinkCrypto.decipher key (LinkCrypto.encipher key b) = b

/-- `aes_encoder` and `aes_decoder`: a key, and the block that the next one is mixed with. -/
structure AesContext where
  key : Digest := 0
  chain : CipherBlock := 0

/-! ## TCP -/

/-- Bytes that come in at one time. -/
abbrev Arrival := { bytes : List UInt8 // bytes ≠ [] }

/-- A `tcp_socket`: what has come in and was not read, and all that was written. -/
structure TcpSocket where
  incoming : List Arrival := []
  outgoing : List UInt8 := []
  isOpen : Bool := true

/-- The bytes that have come in and were not read. -/
def TcpSocket.arrived (s : TcpSocket) : List UInt8 := s.incoming.flatMap (·.1)

/-- A call on a socket that was closed. -/
def badDescriptor : LinkExc := .fc "Bad file descriptor"

namespace TcpSocket

/-- `tcp_socket::readsome`: what has come in at one time, up to `len`. -/
def readsome (len : Nat) : EStateM LinkExc TcpSocket (List UInt8) := fun s =>
  if s.isOpen then
    match s.incoming with
    | [] => .error .eof s
    | arrival :: rest =>
      .ok (arrival.1.take len) { s with
        incoming := if h : arrival.1.drop len = [] then rest else ⟨arrival.1.drop len, h⟩ :: rest }
  else .error badDescriptor s

/-- `istream::read`. -/
def read (len : Nat) : EStateM LinkExc TcpSocket (List UInt8) := readFully readsome len

/-- `ostream::write`. -/
def write (bytes : List UInt8) : EStateM LinkExc TcpSocket Unit := fun s =>
  if s.isOpen then .ok () { s with outgoing := s.outgoing ++ bytes } else .error badDescriptor s

end TcpSocket

/-! ## The enciphered connection -/

/-- An `stcp_socket`. -/
structure StcpSocket where
  sock : TcpSocket := {}
  sharedSecret : SharedSecret := 0
  sendAes : AesContext := {}
  recvAes : AesContext := {}

/-- `read_buffer_length` and `write_buffer_length`. -/
def stcpBufferLength : Nat := 8192

section Stcp

variable [LinkCrypto]

/-- `aes_encoder::encode`. -/
def AesContext.encode (plaintext : List UInt8) : EStateM LinkExc AesContext (List UInt8) := do
  let context ← get
  let r := encipherBytes (LinkCrypto.encipher context.key) context.chain plaintext
  set { context with chain := r.2 }
  linkAssert (r.1.length = plaintext.length) "ciphertext_len == plaintext_len"
  pure r.1

/-- `aes_decoder::decode`. -/
def AesContext.decode (ciphertext : List UInt8) : EStateM LinkExc AesContext (List UInt8) := do
  let context ← get
  let r := decipherBytes (LinkCrypto.decipher context.key) context.chain ciphertext
  set { context with chain := r.2 }
  linkAssert (ciphertext.length = r.1.length) "ciphertxt_len == plaintext_len"
  pure r.1

namespace StcpSocket

def onSock {α : Type} : EStateM LinkExc TcpSocket α → EStateM LinkExc StcpSocket α :=
  onPart (·.sock) fun t s => { s with sock := t }

def onSendAes {α : Type} : EStateM LinkExc AesContext α → EStateM LinkExc StcpSocket α :=
  onPart (·.sendAes) fun t s => { s with sendAes := t }

def onRecvAes {α : Type} : EStateM LinkExc AesContext α → EStateM LinkExc StcpSocket α :=
  onPart (·.recvAes) fun t s => { s with recvAes := t }

/-- `do_key_exchange`, with the key that it generates. -/
def doKeyExchange (privKey : PrivateKey) : EStateM LinkExc StcpSocket Unit := do
  onSock (TcpSocket.write (leBytes 33 (LinkCrypto.publicKey privKey).toNat))
  let serializedKey ← onSock (TcpSocket.read 33)
  match LinkCrypto.sharedSecret privKey (.ofNat 264 (ofLeBytes serializedKey)) with
  | none => throw (.fc "secp256k1_ec_pubkey_tweak_mul")
  | some secret =>
    modify fun s => { s with
      sharedSecret := secret
      sendAes := ⟨LinkCrypto.aesKey secret, LinkCrypto.aesInitValue secret⟩
      recvAes := ⟨LinkCrypto.aesKey secret, LinkCrypto.aesInitValue secret⟩ }

/-- The reads of `readsome` on the connection below: what there is, and the rest of the last block. -/
def readBlocks (len : Nat) : EStateM LinkExc TcpSocket (List UInt8) := do
  let some ← TcpSocket.readsome len
  if some.length % 16 = 0 then pure some
  else do
    let rest ← TcpSocket.read (16 - some.length % 16)
    pure (some ++ rest)

/-- `stcp_socket::readsome`. -/
def readsome (len : Nat) : EStateM LinkExc StcpSocket (List UInt8) := do
  let ciphertext ← onSock (readBlocks (min stcpBufferLength len))
  onRecvAes (AesContext.decode ciphertext)

/-- `istream::read`. -/
def read (len : Nat) : EStateM LinkExc StcpSocket (List UInt8) := readFully readsome len

/-- `stcp_socket::writesome`: answers how much of the bytes was written. -/
def writesome (bytes : List UInt8) : EStateM LinkExc StcpSocket Nat := do
  let ciphertext ← onSendAes (AesContext.encode (bytes.take stcpBufferLength))
  onSock (TcpSocket.write ciphertext)
  pure ciphertext.length

/-- `close`. -/
def close (s : StcpSocket) : StcpSocket := { s with sock := { s.sock with isOpen := false } }

end StcpSocket

end Stcp

/-! ## Messages -/

/-- `MAX_MESSAGE_SIZE`. -/
def maxMessageSize : UInt32 := 1024 * 1024 * 2

/-- A `message`. Its `size` is that of its data. -/
structure Message where
  msgType : UInt32
  data : List UInt8
  data_lt : data.length < 2 ^ 32

namespace Message

/-- `message_header::size`. -/
def size (m : Message) : UInt32 := .ofNat m.data.length

/-- The memory of a `message_header`. -/
def header (m : Message) : List UInt8 := leBytes 4 m.size.toNat ++ leBytes 4 m.msgType.toNat

/-- What `send_message` writes: header and data, with zeros up to a multiple of 16 bytes. -/
def padded (m : Message) : List UInt8 :=
  let sizeOfMessageAndHeader := 8 + m.size.toNat
  let sizeWithPadding := 16 * ((sizeOfMessageAndHeader + 15) / 16)
  m.header ++ m.data ++ List.replicate (sizeWithPadding - sizeOfMessageAndHeader) 0

end Message

/-- The header that `read_loop` finds in its buffer. -/
def headerSize (buffer : List UInt8) : UInt32 := .ofNat (ofLeBytes (buffer.take 4))

def headerType (buffer : List UInt8) : UInt32 := .ofNat (ofLeBytes ((buffer.drop 4).take 4))

/-- The message in the buffer and the bytes after it, cut to its size. -/
def messageOf (buffer rest : List UInt8) : Message where
  msgType := headerType buffer
  data := (buffer.drop 8 ++ rest).take (headerSize buffer).toNat
  data_lt := Nat.lt_of_le_of_lt (List.length_take_le _ _) (headerSize buffer).toNat_lt

/-- `remaining_bytes_with_padding`, in 32 bits: the buffer held 8 bytes of the data. -/
def remainingBytesWithPadding (size : UInt32) : UInt32 := 16 * ((size - 8 + 15) / 16)

/-- A `message_oriented_connection_delegate`, on its own state: what it does with a message, what it
does when the connection is closed, and whether it has closed the connection itself. -/
structure ConnectionDelegate (δ : Type) where
  onMessage : Message → EStateM LinkExc δ Unit
  onConnectionClosed : EStateM LinkExc δ Unit
  hasClosed : δ → Bool := fun _ => false

/-- A `message_oriented_connection`, and the state of its delegate. -/
structure MessageConnection (δ : Type) where
  sock : StcpSocket := {}
  delegate : δ
  bytesReceived : Nat := 0

/-- The end of `read_loop`: what is thrown in its loop, and what the delegate is told. -/
def endReadLoop {σ : Type} (onConnectionClosed loop : EStateM LinkExc σ Unit) :
    EStateM LinkExc σ Unit :=
  tryCatch loop fun
    | .canceled => throw .canceled
    | .eof => onConnectionClosed
    | e => do
      onConnectionClosed
      throw (.unhandled e)

namespace MessageConnection

variable {δ : Type}

def onSock {α : Type} : EStateM LinkExc StcpSocket α → EStateM LinkExc (MessageConnection δ) α :=
  onPart (·.sock) fun t c => { c with sock := t }

def onDelegate {α : Type} : EStateM LinkExc δ α → EStateM LinkExc (MessageConnection δ) α :=
  onPart (·.delegate) fun t c => { c with delegate := t }

variable [LinkCrypto]

/-- `_sock.read`, and the count of what was read. -/
def readCounted (len : Nat) : EStateM LinkExc (MessageConnection δ) (List UInt8) := do
  let bytes ← onSock (StcpSocket.read len)
  modify fun c => { c with bytesReceived := c.bytesReceived + len }
  pure bytes

/-- The part of a message that was not in the buffer, where there is one. -/
def readRest (remaining : UInt32) : EStateM LinkExc (MessageConnection δ) (List UInt8) :=
  if remaining = 0 then pure [] else readCounted remaining.toNat

/-- A round of `read_loop`, up to the message. -/
def readMessage : EStateM LinkExc (MessageConnection δ) Message := do
  let buffer ← readCounted 16
  linkAssert (headerSize buffer ≤ maxMessageSize) "m.size <= MAX_MESSAGE_SIZE"
  let rest ← readRest (remainingBytesWithPadding (headerSize buffer))
  pure (messageOf buffer rest)

/-- The loop of `read_loop`. A round reads at least one block, so the bytes that are there bound the
rounds. -/
def readRounds (d : ConnectionDelegate δ) : Nat → EStateM LinkExc (MessageConnection δ) Unit
  | 0 => throw (.fc "read_loop does not end")
  | rounds + 1 => do
    let m ← readMessage
    onDelegate (d.onMessage m)
    modify fun c => if d.hasClosed c.delegate then { c with sock := c.sock.close } else c
    readRounds d rounds

/-- `read_loop`. -/
def readLoop (d : ConnectionDelegate δ) : EStateM LinkExc (MessageConnection δ) Unit := do
  let rounds := (← get).sock.sock.arrived.length / 16 + 2
  endReadLoop (onDelegate d.onConnectionClosed) (readRounds d rounds)

/-- `accept`, and `connect_to` where TCP has connected: a key exchange, then the read loop. -/
def accept (d : ConnectionDelegate δ) (privKey : PrivateKey) :
    EStateM LinkExc (MessageConnection δ) Unit := do
  onSock (StcpSocket.doKeyExchange privKey)
  readLoop d

end MessageConnection

end NewsChain
