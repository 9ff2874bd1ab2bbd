import NewsChain.Laws.MessageConnection
import NewsChain.Net.PeerLink

/-!
# What is queued is delivered

Whatever the order in which messages are queued, the send task has its turns, the network carries bytes
and the connection is closed or breaks, the other end is served with the first of the queued messages, in
the order in which they were queued (`linkRun_delivers`). The invariant is about the cipher text: it is
that of a part of the padded messages that the task took off the queue.
-/

namespace NewsChain

open LinkCrypto (encipher decipher)
open MessageConnection (Delegates plainText secretWith)
open StcpSocket (keyBytes initialAes)

variable {steps : List LinkStep}

/-- `m` is what went out for `q`: a queued message, with the time in it where it has a field for it, or
what the node answered for an item. -/
def SentFor (steps : List LinkStep) (q : QueuedMessage) (m : Message) : Prop :=
  ∃ now messageForItem, LinkStep.turn now messageForItem ∈ steps ∧
    q.getMessage now messageForItem = some m

theorem SentFor.mono {steps' : List LinkStep} {q : QueuedMessage} {m : Message}
    (h : SentFor steps q m) (hsub : steps ⊆ steps') : SentFor steps' q m := by
  obtain ⟨now, item, hturn, hm⟩ := h
  exact ⟨now, item, hsub hturn, hm⟩

/-- The bytes of the message in progress that were not written. -/
def SendTask.left : SendTask → List UInt8
  | .sending left => left
  | _ => []

/-- How many messages were taken off the queue's front and are still in it. -/
def SendTask.inProgress : SendTask → Nat
  | .sending _ => 1
  | _ => 0

section

variable [LinkCrypto]

/-- The padded messages, enciphered from the start of a connection. -/
def cipherText (secret : SharedSecret) (ms : List Message) : List UInt8 :=
  (encipherBytes (encipher (LinkCrypto.aesKey secret)) (LinkCrypto.aesInitValue secret)
    (paddedAll ms)).1

/-- Where the task is, while the connection is open: `written` went out of the messages that it took. -/
structure Writing (secret : SharedSecret) (queued : List QueuedMessage) (taken : List Message)
    (cipher : List UInt8) (s : PeerSender) : Prop where
  queue : s.queuedMessages = queued.drop (taken.length - s.task.inProgress)
  progress : s.task.inProgress ≤ taken.length
  key : s.sock.sendAes.key = LinkCrypto.aesKey secret
  written : ∃ written, 16 ∣ written.length ∧ paddedAll taken = written ++ s.task.left ∧
    encipherBytes (encipher (LinkCrypto.aesKey secret)) (LinkCrypto.aesInitValue secret) written =
      (cipher, s.sock.sendAes.chain)

/-- What a link carries: after the sender's key, cipher text of the first queued messages. -/
structure Carrying (privKey : PrivateKey) (secret : SharedSecret) (steps : List LinkStep)
    (taken : List Message) (cipher : List UInt8) (l : Link) : Prop where
  sent : List.Forall₂ (SentFor steps) ((queuedIn steps).take taken.length) taken
  outgoing : l.sender.sock.sock.outgoing = keyBytes privKey ++ cipher
  enciphered : cipher <+: cipherText secret taken
  arrived : l.arrivedBytes <+: l.sender.sock.sock.outgoing
  writing : l.sender.sock.sock.Open → Writing secret (queuedIn steps) taken cipher l.sender

omit [LinkCrypto] in
theorem queuedIn_append (steps : List LinkStep) (r : LinkStep) :
    queuedIn (steps ++ [r]) = queuedIn steps ++ queuedIn [r] := List.filterMap_append ..

omit [LinkCrypto] in
/-- A step that queues nothing. -/
theorem queuedIn_other {r : LinkStep} (hr : queuedIn [r] = []) :
    queuedIn (steps ++ [r]) = queuedIn steps := by
  rw [queuedIn_append, hr, List.append_nil]

/-! ## Steps that take nothing off the queue -/

namespace Carrying

variable {privKey : PrivateKey} {secret : SharedSecret} {taken : List Message}
  {cipher : List UInt8} {l l' : Link}

theorem length_taken_le (h : Carrying privKey secret steps taken cipher l) :
    taken.length ≤ (queuedIn steps).length := by
  have hlen := h.sent.length_eq
  rw [List.length_take] at hlen
  omega

/-- What was sent for the first queued messages is that for the first of more. -/
theorem sent_more (h : Carrying privKey secret steps taken cipher l) (r : LinkStep) :
    List.Forall₂ (SentFor (steps ++ [r])) ((queuedIn (steps ++ [r])).take taken.length) taken := by
  rw [queuedIn_append, List.take_append_of_le_length h.length_taken_le]
  exact h.sent.imp fun q m hsent => hsent.mono (List.subset_append_left _ _)

/-- A step after which the same was sent. -/
theorem still (h : Carrying privKey secret steps taken cipher l) (r : LinkStep)
    (hout : l'.sender.sock.sock.outgoing = l.sender.sock.sock.outgoing)
    (harrived : l'.arrivedBytes <+: l.sender.sock.sock.outgoing)
    (hwriting : l'.sender.sock.sock.Open →
      Writing secret (queuedIn (steps ++ [r])) taken cipher l'.sender) :
    Carrying privKey secret (steps ++ [r]) taken cipher l' where
  sent := h.sent_more r
  outgoing := hout.trans h.outgoing
  enciphered := h.enciphered
  arrived := by
    rw [hout]
    exact harrived
  writing := hwriting

/-- A connection that is closed carries what it did. -/
theorem closed (h : Carrying privKey secret steps taken cipher l) (r : LinkStep) {s : PeerSender}
    (hout : s.sock.sock.outgoing = l.sender.sock.sock.outgoing) (hclosed : s.sock.sock.isOpen = false) :
    Carrying privKey secret (steps ++ [r]) taken cipher { l with sender := s } := by
  refine h.still r hout h.arrived fun hopen => ?_
  rw [TcpSocket.Open, hclosed] at hopen
  cases hopen

/-- A step of the network. -/
theorem carry (h : Carrying privKey secret steps taken cipher l) (k : Nat) :
    Carrying privKey secret (steps ++ [.carry k]) taken cipher (l.step (.carry k)) := by
  have hwriting : l.sender.sock.sock.Open →
      Writing secret (queuedIn (steps ++ [.carry k])) taken cipher l.sender := by
    intro hopen
    rw [queuedIn_other rfl]
    exact h.writing hopen
  rw [Link.step]
  split
  · exact h.still _ rfl h.arrived hwriting
  · refine h.still _ rfl ?_ hwriting
    -- What has come, and the next bytes.
    obtain ⟨rest, hrest⟩ := h.arrived
    have hdrop : l.sender.sock.sock.outgoing.drop l.arrivedBytes.length = rest := by
      rw [← hrest, List.drop_left' rfl]
    rw [Link.arrivedBytes, List.flatMap_append, List.flatMap_singleton]
    show l.arrivedBytes ++ (l.sender.sock.sock.outgoing.drop l.arrivedBytes.length).take (k + 1) <+: _
    rw [hdrop, ← hrest]
    exact (List.prefix_append_right_inj _).mpr (List.take_prefix _ _)

end Carrying

/-! ## Queuing a message -/

/-- A sender with one more message in its queue. -/
def PeerSender.queued (q : QueuedMessage) (s : PeerSender) : PeerSender :=
  { s with
    totalQueuedMessagesSize := s.totalQueuedMessagesSize + q.sizeInQueue
    queuedMessages := s.queuedMessages ++ [q] }

omit [LinkCrypto] in
/-- What `send_queueable_message` does, whether or not it throws. -/
theorem sendQueueableMessage_cases (q : QueuedMessage) (s : PeerSender) :
    let s' := finalState ((PeerSender.sendQueueableMessage q).run s)
    (maximumQueuedMessagesInBytes < (s.queued q).totalQueuedMessagesSize ∧
        s' = (s.queued q).closeConnection) ∨
      ((s.queued q).totalQueuedMessagesSize ≤ maximumQueuedMessagesInBytes ∧
        ((s.valid = true ∧ s.canceled = true ∧ s' = s.queued q) ∨
          (s.task ≠ .ready ∧ s' = s.queued q) ∨
          (s.task = .ready ∧ s' = { s.queued q with task := .next, valid := true }))) := by
  intro s'
  have hrun : s' = finalState ((PeerSender.sendQueueableMessage q).run s) := rfl
  simp only [PeerSender.sendQueueableMessage, EStateM.run_bind, EStateM.run_modify,
    EStateM.run_get] at hrun
  split at hrun
  · rename_i hlarge
    exact .inl ⟨hlarge, hrun⟩
  · rename_i hsmall
    refine .inr ⟨Nat.not_lt.mp hsmall, ?_⟩
    by_cases hshut : s.valid = true ∧ s.canceled = true
    · refine .inl ⟨hshut.1, hshut.2, ?_⟩
      simp only [linkAssert, if_neg (not_not_intro hshut)] at hrun
      exact hrun
    · simp only [linkAssert, if_pos hshut] at hrun
      cases htask : s.task with
      | ready =>
        simp only [htask] at hrun
        exact .inr (.inr ⟨rfl, hrun⟩)
      | _ =>
        simp only [htask] at hrun
        refine .inr (.inl ⟨?_, ?_⟩)
        · intro hready
          cases hready
        · rw [hrun, PeerSender.queued, htask]
          rfl

namespace Carrying

variable {privKey : PrivateKey} {secret : SharedSecret} {taken : List Message}
  {cipher : List UInt8} {l : Link}

/-- A message more in the queue. -/
theorem writing_queued (h : Carrying privKey secret steps taken cipher l) (q : QueuedMessage)
    (hopen : l.sender.sock.sock.Open) {s : PeerSender}
    (hqueue : s.queuedMessages = l.sender.queuedMessages ++ [q]) (hsock : s.sock = l.sender.sock)
    (hleft : s.task.left = l.sender.task.left)
    (hprogress : s.task.inProgress = l.sender.task.inProgress) :
    Writing secret (queuedIn (steps ++ [.send q])) taken cipher s := by
  have hw := h.writing hopen
  have hle := h.length_taken_le
  refine ⟨?_, ?_, ?_, ?_⟩
  · rw [hqueue, hw.queue, hprogress, queuedIn_append,
      List.drop_append_of_le_length (Nat.le_trans (Nat.sub_le _ _) hle)]
    rfl
  · rw [hprogress]
    exact hw.progress
  · rw [hsock]
    exact hw.key
  · rw [hsock, hleft]
    exact hw.written

theorem send (h : Carrying privKey secret steps taken cipher l) (q : QueuedMessage) :
    Carrying privKey secret (steps ++ [.send q]) taken cipher (l.step (.send q)) := by
  rw [Link.step]
  rcases sendQueueableMessage_cases q l.sender with
    ⟨-, heq⟩ | ⟨-, ⟨-, -, heq⟩ | ⟨-, heq⟩ | ⟨hready, heq⟩⟩
  · rw [heq]
    exact h.closed _ rfl rfl
  · rw [heq]
    exact h.still _ rfl h.arrived fun hopen => h.writing_queued q hopen rfl rfl rfl rfl
  · rw [heq]
    exact h.still _ rfl h.arrived fun hopen => h.writing_queued q hopen rfl rfl rfl rfl
  · rw [heq]
    refine h.still _ rfl h.arrived fun hopen => h.writing_queued q hopen rfl rfl ?_ ?_
    · rw [hready]
      rfl
    · rw [hready]
      rfl

end Carrying

/-! ## Turns of the task -/

/-- A piece of a message is enciphered, in whole blocks. -/
theorem run_encode {context : AesContext} {plaintext : List UInt8} (h : 16 ∣ plaintext.length) :
    (AesContext.encode plaintext).run context =
      .ok (encipherBytes (encipher context.key) context.chain plaintext).1
        { context with
          chain := (encipherBytes (encipher context.key) context.chain plaintext).2 } := by
  have hlen : (encipherBytes (encipher context.key) context.chain plaintext).1.length =
      plaintext.length := by
    rw [length_encipherBytes, Nat.mul_div_cancel' h]
  simp only [AesContext.encode, linkAssert, EStateM.run_bind, EStateM.run_get, EStateM.run_set,
    if_pos hlen]
  rfl

/-- The piece of a message that one write takes. -/
def piece (left : List UInt8) : List UInt8 := left.take stcpBufferLength

omit [LinkCrypto] in
theorem dvd_piece {left : List UInt8} (h : 16 ∣ left.length) : 16 ∣ (piece left).length := by
  rw [piece, List.length_take, stcpBufferLength]
  omega

/-- A write of a piece, whose cipher text and last block are `r`. -/
theorem run_writesome {s : StcpSocket} {left : List UInt8} (h : 16 ∣ left.length)
    {r : List UInt8 × CipherBlock}
    (hr : encipherBytes (encipher s.sendAes.key) s.sendAes.chain (piece left) = r) :
    (StcpSocket.writesome left).run s =
      if s.sock.isOpen then .ok (piece left).length { s with
        sendAes := { s.sendAes with chain := r.2 }
        sock := { s.sock with outgoing := s.sock.outgoing ++ r.1 } }
      else .error badDescriptor { s with sendAes := { s.sendAes with chain := r.2 } } := by
  have hlen : r.1.length = (piece left).length := by
    rw [← hr, length_encipherBytes, Nat.mul_div_cancel' (dvd_piece h)]
  have hpiece := @run_encode _ s.sendAes _ (dvd_piece h)
  rw [hr] at hpiece
  have hencode : (StcpSocket.onSendAes (AesContext.encode (left.take stcpBufferLength))).run s =
      .ok r.1 { s with sendAes := { s.sendAes with chain := r.2 } } := run_onPart_ok hpiece
  rw [StcpSocket.writesome, EStateM.run_bind, hencode]
  cases hopen : s.sock.isOpen with
  | true =>
    have hwrite : (TcpSocket.write r.1).run s.sock =
        .ok () { s.sock with outgoing := s.sock.outgoing ++ r.1 } := by
      simp only [TcpSocket.write, EStateM.run, hopen, if_true]
    have hon : (StcpSocket.onSock (TcpSocket.write r.1)).run
        { s with sendAes := { s.sendAes with chain := r.2 } } =
        .ok () { s with
          sendAes := { s.sendAes with chain := r.2 }
          sock := { s.sock with outgoing := s.sock.outgoing ++ r.1 } } := run_onPart_ok hwrite
    simp only [EStateM.run_bind, hon, EStateM.run_pure, if_true, hlen]
  | false =>
    have hwrite : (TcpSocket.write r.1).run s.sock = .error badDescriptor s.sock := by
      simp only [TcpSocket.write, EStateM.run, hopen, Bool.false_eq_true, if_false]
    have hon : (StcpSocket.onSock (TcpSocket.write r.1)).run
        { s with sendAes := { s.sendAes with chain := r.2 } } =
        .error badDescriptor { s with sendAes := { s.sendAes with chain := r.2 } } :=
      run_onPart_error hwrite
    simp only [EStateM.run_bind, hon, Bool.false_eq_true, if_false]

namespace Writing

variable {secret : SharedSecret} {queued : List QueuedMessage} {taken : List Message}
  {cipher : List UInt8} {s : PeerSender}

theorem dvd_left (h : Writing secret queued taken cipher s) : 16 ∣ s.task.left.length := by
  obtain ⟨written, hdvd, hall, -⟩ := h.written
  have hlen := dvd_paddedAll taken
  rw [hall, List.length_append] at hlen
  exact (Nat.dvd_add_right hdvd).mp hlen

/-- What the next write puts out is cipher text of what was taken. -/
theorem next_piece (h : Writing secret queued taken cipher s) :
    cipher ++ (encipherBytes (encipher s.sock.sendAes.key) s.sock.sendAes.chain
      (piece s.task.left)).1 <+: cipherText secret taken := by
  obtain ⟨written, hdvd, hall, hcipher⟩ := h.written
  have hsplit : s.task.left = piece s.task.left ++ s.task.left.drop stcpBufferLength :=
    (List.take_append_drop _ _).symm
  have hrest := @encipherBytes_append 16 (encipher s.sock.sendAes.key) s.sock.sendAes.chain
    (by decide) _ (dvd_piece h.dvd_left) (s.task.left.drop stcpBufferLength)
  rw [← hsplit] at hrest
  rw [cipherText, hall, encipherBytes_append (by decide) hdvd, hcipher, ← h.key, hrest,
    ← List.append_assoc]
  exact List.prefix_append _ _

end Writing

/-- On a connection that is closed nothing is written. -/
theorem writesome_closed {s : StcpSocket} (hs : s.sock.isOpen = false) (bytes : List UInt8) :
    (finalState ((StcpSocket.writesome bytes).run s)).sock = s.sock := by
  have hencode : Keeps (fun s' : StcpSocket => s'.sock = s.sock)
      (StcpSocket.onSendAes (AesContext.encode (bytes.take stcpBufferLength))) := by
    intro s' hs'
    cases hrun : (AesContext.encode (bytes.take stcpBufferLength)).run s'.sendAes with
    | ok a t =>
      rw [StcpSocket.onSendAes, run_onPart_ok hrun]
      exact hs'
    | error e t =>
      rw [StcpSocket.onSendAes, run_onPart_error hrun]
      exact hs'
  have hwrite : ∀ ciphertext, Keeps (fun s' : StcpSocket => s'.sock = s.sock)
      (StcpSocket.onSock (TcpSocket.write ciphertext)) := by
    intro ciphertext s' hs'
    have hrun : (TcpSocket.write ciphertext).run s'.sock = .error badDescriptor s'.sock := by
      simp only [TcpSocket.write, EStateM.run, hs', hs, Bool.false_eq_true, if_false]
    rw [StcpSocket.onSock, run_onPart_error hrun]
    exact hs'
  exact (hencode.bind fun ciphertext => (hwrite ciphertext).bind fun _ => .pure _) s rfl

theorem turn_closed {s : PeerSender} (hs : s.sock.sock.isOpen = false) (now : UInt64)
    (item : Option Message) :
    (s.turn now item).sock.sock.outgoing = s.sock.sock.outgoing ∧
      (s.turn now item).sock.sock.isOpen = false := by
  rw [PeerSender.turn]
  split
  · exact ⟨rfl, hs⟩
  · split
    · exact ⟨rfl, hs⟩
    · split <;> exact ⟨rfl, hs⟩
  · split <;> exact ⟨rfl, hs⟩
  · rename_i byte bytes _
    have hsame := writesome_closed hs (byte :: bytes)
    split
    · rename_i hrun
      rw [hrun] at hsame
      rw [finalState_ok] at hsame
      exact ⟨congrArg TcpSocket.outgoing hsame, (congrArg TcpSocket.isOpen hsame).trans hs⟩
    · rename_i e sock hrun
      rw [hrun] at hsame
      rw [finalState_error] at hsame
      have hout : sock.sock.outgoing = s.sock.sock.outgoing := by rw [hsame]
      exact ⟨hout, rfl⟩

section Turns

variable {s : PeerSender} {now : UInt64} {item : Option Message} {front : QueuedMessage}
  {rest : List QueuedMessage}

/-- The task takes a message. -/
theorem turn_take (htask : s.task = .next) (hqueue : s.queuedMessages = front :: rest) {m : Message}
    (hm : front.getMessage now item = some m) :
    s.turn now item = { s with task := .sending m.padded } := by
  rw [PeerSender.turn, htask]
  simp only [hqueue, hm]

/-- The task is done with a message. -/
theorem turn_pop (htask : s.task = .sending []) (hqueue : s.queuedMessages = front :: rest) :
    s.turn now item = { s with
      totalQueuedMessagesSize := s.totalQueuedMessagesSize - front.sizeInQueue
      queuedMessages := rest
      task := .next } := by
  rw [PeerSender.turn, htask]
  simp only [hqueue]

/-- The task writes a piece. -/
theorem turn_write {byte : UInt8} {bytes : List UInt8} (htask : s.task = .sending (byte :: bytes))
    (hopen : s.sock.sock.Open) (hdvd : 16 ∣ (byte :: bytes).length) {out : List UInt8 × CipherBlock}
    (hout : encipherBytes (encipher s.sock.sendAes.key) s.sock.sendAes.chain (piece (byte :: bytes)) =
      out) :
    s.turn now item = { s with
      sock := { s.sock with
        sendAes := { s.sock.sendAes with chain := out.2 }
        sock := { s.sock.sock with outgoing := s.sock.sock.outgoing ++ out.1 } }
      task := .sending ((byte :: bytes).drop (piece (byte :: bytes)).length) } := by
  have hrun := run_writesome hdvd hout
  rw [if_pos (show s.sock.sock.isOpen = true from hopen)] at hrun
  rw [PeerSender.turn, htask]
  simp only [hrun]

end Turns

namespace Carrying

variable {privKey : PrivateKey} {secret : SharedSecret} {taken : List Message}
  {cipher : List UInt8} {l : Link}

/-- The task takes a message. -/
theorem take (h : Carrying privKey secret steps taken cipher l) (hopen : l.sender.sock.sock.Open)
    (htask : l.sender.task = .next) {front : QueuedMessage} {rest : List QueuedMessage}
    (hqueue : l.sender.queuedMessages = front :: rest) {now : UInt64} {item : Option Message}
    {m : Message} (hm : front.getMessage now item = some m) :
    Carrying privKey secret (steps ++ [.turn now item]) (taken ++ [m]) cipher
      { l with sender := { l.sender with task := .sending m.padded } } := by
  have hw := h.writing hopen
  have hdrop : front :: rest = (queuedIn steps).drop taken.length := by
    have hqueued := hw.queue
    rw [htask, hqueue] at hqueued
    exact hqueued
  have hcut : (queuedIn steps).take (taken.length + 1) =
      (queuedIn steps).take taken.length ++ [front] := by
    rw [List.take_add, ← hdrop]
    rfl
  have hall : paddedAll (taken ++ [m]) = paddedAll taken ++ m.padded := by
    rw [paddedAll, List.flatMap_append, List.flatMap_singleton]
    rfl
  refine ⟨?_, h.outgoing, ?_, h.arrived, fun _ => ⟨?_, ?_, hw.key, ?_⟩⟩
  · rw [queuedIn_other rfl, List.length_append, List.length_singleton, hcut]
    refine List.rel_append (h.sent.imp fun q m' hsent => hsent.mono (List.subset_append_left _ _)) ?_
    exact .cons ⟨now, item, List.mem_append_right _ List.mem_cons_self, hm⟩ .nil
  · rw [cipherText, hall, encipherBytes_append (by decide) (dvd_paddedAll taken)]
    exact h.enciphered.trans (List.prefix_append _ _)
  · rw [queuedIn_other rfl, List.length_append]
    exact hqueue.trans hdrop
  · rw [List.length_append]
    exact Nat.le_add_left _ _
  · obtain ⟨written, hdvd, hwritten, hcipher⟩ := hw.written
    rw [htask] at hwritten
    refine ⟨written, hdvd, ?_, hcipher⟩
    rw [hall, hwritten]
    show (written ++ []) ++ m.padded = written ++ m.padded
    rw [List.append_nil]

/-- The task has written a message. -/
theorem pop (h : Carrying privKey secret steps taken cipher l) (hopen : l.sender.sock.sock.Open)
    (htask : l.sender.task = .sending []) {front : QueuedMessage} {rest : List QueuedMessage}
    (hqueue : l.sender.queuedMessages = front :: rest) (r : LinkStep) (hr : queuedIn [r] = [])
    (size : Nat) :
    Carrying privKey secret (steps ++ [r]) taken cipher
      { l with sender := { l.sender with
        totalQueuedMessagesSize := size
        queuedMessages := rest
        task := .next } } := by
  have hw := h.writing hopen
  have hdrop := hw.queue
  have hprogress := hw.progress
  rw [htask] at hprogress
  rw [htask, hqueue] at hdrop
  refine h.still r rfl h.arrived fun _ => ⟨?_, Nat.zero_le _, hw.key, ?_⟩
  · obtain ⟨n, hn⟩ := Nat.exists_eq_add_of_le' hprogress
    have htail := congrArg List.tail hdrop
    rw [List.tail_cons, List.tail_drop, hn] at htail
    rw [queuedIn_other hr, hn]
    exact htail
  · obtain ⟨written, hdvd, hwritten, hcipher⟩ := hw.written
    rw [htask] at hwritten
    exact ⟨written, hdvd, hwritten, hcipher⟩

/-- The task writes a piece of a message. -/
theorem write (h : Carrying privKey secret steps taken cipher l) (hopen : l.sender.sock.sock.Open)
    {left : List UInt8} (htask : l.sender.task = .sending left) (r : LinkStep)
    (hr : queuedIn [r] = []) {out : List UInt8 × CipherBlock}
    (hout : encipherBytes (encipher l.sender.sock.sendAes.key) l.sender.sock.sendAes.chain
      (piece left) = out) :
    Carrying privKey secret (steps ++ [r]) taken (cipher ++ out.1)
      { l with sender := { l.sender with
        sock := { l.sender.sock with
          sendAes := { l.sender.sock.sendAes with chain := out.2 }
          sock := { l.sender.sock.sock with
            outgoing := l.sender.sock.sock.outgoing ++ out.1 } }
        task := .sending (left.drop (piece left).length) } } := by
  have hw := h.writing hopen
  have hnext := hw.next_piece
  have hleft := hw.dvd_left
  rw [htask] at hnext hleft
  have hnext' : cipher ++ out.1 <+: cipherText secret taken := hout ▸ hnext
  refine ⟨h.sent_more r, ?_, hnext', ?_, fun _ => ⟨?_, ?_, hw.key, ?_⟩⟩
  · show l.sender.sock.sock.outgoing ++ out.1 = _
    rw [h.outgoing, List.append_assoc]
  · exact h.arrived.trans (List.prefix_append _ _)
  · rw [queuedIn_other hr]
    have hqueue := hw.queue
    rw [htask] at hqueue
    exact hqueue
  · have hprogress := hw.progress
    rw [htask] at hprogress
    exact hprogress
  · obtain ⟨written, hdvd, hwritten, hcipher⟩ := hw.written
    rw [htask] at hwritten
    refine ⟨written ++ piece left, ?_, ?_, ?_⟩
    · rw [List.length_append]
      exact Nat.dvd_add hdvd (dvd_piece hleft)
    · have hpiece : piece left = left.take (piece left).length := by
        rw [piece, List.length_take, List.take_eq_take_min]
      rw [hwritten, List.append_assoc]
      show written ++ left = written ++ (piece left ++ left.drop (piece left).length)
      conv_rhs => rw [hpiece, List.length_take_of_le (by rw [piece]; exact List.length_take_le' _ _)]
      rw [List.take_append_drop]
    · rw [encipherBytes_append (by decide) hdvd, hcipher, ← hw.key, hout]

/-- A turn that changes only where the task is, and not what it has in hand. -/
theorem idle (h : Carrying privKey secret steps taken cipher l) (r : LinkStep)
    (hr : queuedIn [r] = []) {task : SendTask} (hleft : task.left = l.sender.task.left)
    (hprogress : task.inProgress = l.sender.task.inProgress) :
    Carrying privKey secret (steps ++ [r]) taken cipher
      { l with sender := { l.sender with task := task } } := by
  refine h.still r rfl h.arrived fun hopen => ?_
  have hw := h.writing hopen
  refine ⟨?_, ?_, hw.key, ?_⟩
  · rw [queuedIn_other hr]
    show l.sender.queuedMessages = _
    rw [hprogress]
    exact hw.queue
  · show task.inProgress ≤ taken.length
    rw [hprogress]
    exact hw.progress
  · show ∃ written, 16 ∣ written.length ∧ paddedAll taken = written ++ task.left ∧ _
    rw [hleft]
    exact hw.written

theorem turn (h : Carrying privKey secret steps taken cipher l) (now : UInt64)
    (item : Option Message) :
    ∃ taken' cipher', Carrying privKey secret (steps ++ [.turn now item]) taken' cipher'
      (l.step (.turn now item)) := by
  rw [Link.step]
  by_cases hopen : l.sender.sock.sock.Open
  · cases htask : l.sender.task with
    | ready =>
      refine ⟨taken, cipher, ?_⟩
      rw [PeerSender.turn, htask]
      exact h.idle _ rfl rfl rfl
    | next =>
      cases hqueue : l.sender.queuedMessages with
      | nil =>
        refine ⟨taken, cipher, ?_⟩
        simp only [PeerSender.turn, htask, hqueue]
        rw [← hqueue]
        exact h.idle _ rfl (by rw [htask]; rfl) (by rw [htask]; rfl)
      | cons front rest =>
        cases hm : front.getMessage now item with
        | none =>
          refine ⟨taken, cipher, ?_⟩
          simp only [PeerSender.turn, htask, hqueue, hm]
          rw [← hqueue]
          exact h.idle _ rfl (by rw [htask]; rfl) (by rw [htask]; rfl)
        | some m =>
          refine ⟨taken ++ [m], cipher, ?_⟩
          rw [turn_take htask hqueue hm]
          exact h.take hopen htask hqueue hm
    | sending left =>
      cases left with
      | nil =>
        refine ⟨taken, cipher, ?_⟩
        cases hqueue : l.sender.queuedMessages with
        | nil =>
          simp only [PeerSender.turn, htask, hqueue]
          exact h.idle _ rfl rfl rfl
        | cons front rest =>
          rw [turn_pop htask hqueue]
          exact h.pop hopen htask hqueue _ rfl _
      | cons byte bytes =>
        have hdvd : 16 ∣ (byte :: bytes).length := by
          have hleft := (h.writing hopen).dvd_left
          rwa [htask] at hleft
        obtain ⟨out, hout⟩ : ∃ out, encipherBytes (encipher l.sender.sock.sendAes.key)
            l.sender.sock.sendAes.chain (piece (byte :: bytes)) = out := ⟨_, rfl⟩
        refine ⟨taken, cipher ++ out.1, ?_⟩
        rw [turn_write htask hopen hdvd hout]
        exact h.write hopen htask _ rfl hout
  · have hclosed := turn_closed (Bool.eq_false_iff.mpr hopen) now item
    exact ⟨taken, cipher, h.closed _ hclosed.1 hclosed.2⟩

theorem breakOff (h : Carrying privKey secret steps taken cipher l) (k : Nat) :
    ∃ taken' cipher', Carrying privKey secret (steps ++ [.breakOff k]) taken' cipher'
      (l.step (.breakOff k)) := by
  have hsame : Carrying privKey secret (steps ++ [.breakOff k]) taken cipher l :=
    h.idle _ rfl rfl rfl
  rw [Link.step, PeerSender.breakOff]
  split
  · rename_i left htask
    split
    · rename_i ciphertext aes hrun
      by_cases hopen : l.sender.sock.sock.isOpen = true
      · rw [if_pos hopen]
        have hw := h.writing hopen
        have hdvd : 16 ∣ left.length := by
          have hleft := hw.dvd_left
          rwa [htask] at hleft
        have hnext := hw.next_piece
        rw [htask] at hnext
        have hpiece := @run_encode _ l.sender.sock.sendAes _ (dvd_piece hdvd)
        obtain ⟨out, hout⟩ : ∃ out, encipherBytes (encipher l.sender.sock.sendAes.key)
            l.sender.sock.sendAes.chain (piece left) = out := ⟨_, rfl⟩
        rw [hout] at hpiece
        rw [piece] at hpiece
        rw [hpiece] at hrun
        cases hrun
        have hnext' : cipher ++ out.1 <+: cipherText secret taken := hout ▸ hnext
        -- Of the piece only the first bytes went out.
        refine ⟨taken, cipher ++ out.1.take k, h.sent_more _, ?_, ?_, ?_, nofun⟩
        · show l.sender.sock.sock.outgoing ++ _ = _
          rw [h.outgoing, List.append_assoc]
        · exact ((List.prefix_append_right_inj _).mpr (List.take_prefix k _)).trans hnext'
        · exact h.arrived.trans (List.prefix_append _ _)
      · rw [if_neg hopen]
        exact ⟨taken, cipher, hsame⟩
    · exact ⟨taken, cipher, hsame⟩
  · exact ⟨taken, cipher, hsame⟩

end Carrying

/-- **What a step preserves.** -/
theorem carrying_step {privKey : PrivateKey} {secret : SharedSecret} {l : Link}
    (h : ∃ taken cipher, Carrying privKey secret steps taken cipher l) (r : LinkStep) :
    ∃ taken cipher, Carrying privKey secret (steps ++ [r]) taken cipher (l.step r) := by
  obtain ⟨taken, cipher, h⟩ := h
  cases r with
  | send q => exact ⟨taken, cipher, h.send q⟩
  | turn now item => exact h.turn now item
  | breakOff k => exact h.breakOff k
  | close => exact ⟨taken, cipher, h.closed _ rfl rfl⟩
  | destroy => exact ⟨taken, cipher, h.closed _ rfl rfl⟩
  | carry k => exact ⟨taken, cipher, h.carry k⟩

variable (a b : PrivateKey)

/-- The sender's socket after the key exchange. -/
theorem connectedSocket_spec {secret : SharedSecret}
    (hsecret : LinkCrypto.sharedSecret a (LinkCrypto.publicKey b) = some secret) :
    (Link.connectedSocket a b).sock.outgoing = keyBytes a ∧
      (Link.connectedSocket a b).sendAes = initialAes secret := by
  have hbytes : (keyBytes b).take 33 = keyBytes b :=
    List.take_of_length_le (Nat.le_of_eq (StcpSocket.length_keyBytes b))
  have harrived : LinkCrypto.sharedSecret a (.ofNat 264 (ofLeBytes ((TcpSocket.arrived
      { incoming := [⟨keyBytes b, List.ne_nil_of_length_pos (by simp [keyBytes])⟩] }).take 33))) =
        some secret := by
    simp only [TcpSocket.arrived, List.flatMap_cons, List.flatMap_nil, List.append_nil, hbytes,
      StcpSocket.keyBytes_read]
    exact hsecret
  obtain ⟨t, hrun, -, -, hout⟩ := StcpSocket.run_doKeyExchange
    (s := { sock := { incoming := [⟨keyBytes b, List.ne_nil_of_length_pos (by simp [keyBytes])⟩] } })
    rfl (by simp [TcpSocket.arrived, keyBytes]) harrived
  have hsocket : Link.connectedSocket a b = finalState ((StcpSocket.doKeyExchange a).run
      { sock := { incoming := [⟨keyBytes b, List.ne_nil_of_length_pos (by simp [keyBytes])⟩] } }) :=
    rfl
  rw [hsocket, hrun]
  exact ⟨hout, rfl⟩

theorem Link.run_concat (steps : List LinkStep) (r : LinkStep) :
    Link.run a b (steps ++ [r]) = (Link.run a b steps).step r := List.foldl_concat ..

theorem carrying_run {secret : SharedSecret}
    (hsecret : LinkCrypto.sharedSecret a (LinkCrypto.publicKey b) = some secret)
    (steps : List LinkStep) :
    ∃ taken cipher, Carrying a secret steps taken cipher (Link.run a b steps) := by
  have hstart : ∃ taken cipher, Carrying a secret [] taken cipher (Link.start a b) := by
    obtain ⟨hout, haes⟩ := connectedSocket_spec a b hsecret
    refine ⟨[], [], .nil, ?_, List.nil_prefix, List.nil_prefix, fun _ => ⟨rfl, Nat.le_refl _, ?_, ?_⟩⟩
    · rw [List.append_nil]
      exact hout
    · show (Link.connectedSocket a b).sendAes.key = _
      rw [haes]
      rfl
    · refine ⟨[], Nat.dvd_zero _, rfl, ?_⟩
      show _ = (_, (Link.connectedSocket a b).sendAes.chain)
      rw [haes, encipherBytes_nil]
      rfl
  induction steps using List.reverseRecOn with
  | nil => exact hstart
  | append_singleton steps r ih =>
    rw [Link.run_concat]
    exact carrying_step ih r

/-! ## What the other end is served with -/

/-- A step that brings no message that is too large. -/
def LinkStep.Fits : LinkStep → Prop
  | .send (.real m _) => m.size ≤ maxMessageSize
  | .turn _ (some m) => m.size ≤ maxMessageSize
  | _ => True

omit [LinkCrypto] in
theorem size_patched (m : Message) (offset : Nat) (bytes : List UInt8)
    (h : offset + bytes.length ≤ m.data.length) : (m.patched offset bytes h).size = m.size := by
  have hlen : (m.patched offset bytes h).data.length = m.data.length := by
    simp only [Message.patched, List.length_append, List.length_take, List.length_drop]
    omega
  rw [Message.size, Message.size, hlen]

omit [LinkCrypto] in
theorem SentFor.fits {q : QueuedMessage} {m : Message} (h : SentFor steps q m)
    (hq : q ∈ queuedIn steps) (hsteps : ∀ r ∈ steps, r.Fits) : m.size ≤ maxMessageSize := by
  obtain ⟨now, item, hturn, hm⟩ := h
  cases q with
  | real m' offset =>
    have hsend : LinkStep.send (.real m' offset) ∈ steps := by
      obtain ⟨r, hr, heq⟩ := List.mem_filterMap.mp hq
      cases r with
      | send q =>
        cases heq
        exact hr
      | turn | breakOff | close | destroy | carry => cases heq
    have hfits : m'.size ≤ maxMessageSize := hsteps _ hsend
    cases offset with
    | none =>
      cases hm
      exact hfits
    | some o =>
      cases hm
      rw [size_patched]
      exact hfits
  | virtual i =>
    have hitem : item = some m := hm
    subst hitem
    exact hsteps _ hturn

theorem Carrying.fits {privKey : PrivateKey} {secret : SharedSecret} {taken : List Message}
    {cipher : List UInt8} {l : Link} (h : Carrying privKey secret steps taken cipher l)
    (hsteps : ∀ r ∈ steps, r.Fits) : ∀ m ∈ taken, m.size ≤ maxMessageSize := by
  intro m hm
  obtain ⟨i, hi, rfl⟩ := List.getElem_of_mem hm
  have hlen := h.sent.length_eq
  have hsent := h.sent.get (i := i) (by omega) hi
  exact SentFor.fits hsent (List.mem_of_mem_take (List.get_mem _ _)) hsteps

/-- Everything that was queued on an open connection has been taken, where nothing is left in the queue;
and everything that was taken went out. -/
theorem Carrying.drained {privKey : PrivateKey} {secret : SharedSecret} {taken : List Message}
    {cipher : List UInt8} {l : Link} (h : Carrying privKey secret steps taken cipher l)
    (hopen : l.sender.sock.sock.Open) (hqueue : l.sender.queuedMessages = []) :
    taken.length = (queuedIn steps).length ∧ cipher = cipherText secret taken := by
  have hw := h.writing hopen
  have hle := h.length_taken_le
  have hprogress := hw.progress
  have hall : (queuedIn steps).length ≤ taken.length - l.sender.task.inProgress := by
    apply List.drop_eq_nil_iff.mp
    rw [← hw.queue, hqueue]
  refine ⟨by omega, ?_⟩
  obtain ⟨written, -, hwritten, hcipher⟩ := hw.written
  have hleft : l.sender.task.left = [] := by
    cases htask : l.sender.task with
    | ready => rfl
    | next => rfl
    | sending left =>
      -- The message in progress would still be in the queue.
      rw [htask] at hprogress hall
      change 1 ≤ taken.length at hprogress
      change (queuedIn steps).length ≤ taken.length - 1 at hall
      omega
  rw [hleft, List.append_nil] at hwritten
  rw [cipherText, hwritten, hcipher]

/-- **What is queued is delivered**, in the order in which it was queued and nothing twice, whatever
happens in between. The other end is served with messages that went out for the first of the queued
ones, and with nothing while the sender's key has not come. Where none is too large, those are all of
them once the queue of an open connection is empty and everything has come. -/
theorem linkRun_delivers [LawfulLinkCrypto] {δ : Type} (d : ConnectionDelegate δ) (x : δ)
    (steps : List LinkStep) :
    let l := Link.run a b steps
    ∃ ms e, List.Forall₂ (SentFor steps) ((queuedIn steps).take ms.length) ms ∧
      (33 ≤ l.arrivedBytes.length →
        Corresponds Delegates ((MessageConnection.accept d b).run (l.receiver x))
          ((d.attend ms e).run x)) ∧
      (l.arrivedBytes.length < 33 → ms = [] ∧
        ∃ c', (MessageConnection.accept d b).run (l.receiver x) = .error .eof c' ∧
          c'.delegate = x) ∧
      ((∀ r ∈ steps, r.Fits) → e = .eof ∧
        (l.sender.sock.sock.Open → l.sender.queuedMessages = [] →
          l.arrivedBytes = l.sender.sock.sock.outgoing → ms.length = (queuedIn steps).length)) := by
  intro l
  obtain ⟨secret, hsecret, hsecret'⟩ := LawfulLinkCrypto.sharedSecret_comm a b
  obtain ⟨taken, cipher, h⟩ := carrying_run a b hsecret steps
  change Carrying a secret steps taken cipher l at h
  by_cases hkey : 33 ≤ l.arrivedBytes.length
  · -- The sender's key has come, so the other end has the secret.
    have hout := h.outgoing
    have hbytes : l.arrivedBytes = keyBytes a ++ l.arrivedBytes.drop 33 := by
      have hprefix : keyBytes a <+: l.arrivedBytes := by
        apply List.prefix_of_prefix_length_le (hout ▸ List.prefix_append _ _) h.arrived
        rw [StcpSocket.length_keyBytes]
        exact hkey
      obtain ⟨rest, hrest⟩ := hprefix
      rw [← hrest, List.drop_left' (StcpSocket.length_keyBytes a)]
    have hwith : secretWith b l.arrivedBytes = some secret := by
      rw [secretWith, hbytes, List.take_left' (StcpSocket.length_keyBytes a),
        StcpSocket.keyBytes_read]
      exact hsecret'
    have hcome : l.arrivedBytes.drop 33 <+: cipher := by
      have harrived := h.arrived
      rw [hout, hbytes] at harrived
      exact (List.prefix_append_right_inj _).mp harrived
    have hplain : plainText secret l.arrivedBytes =
        (paddedAll taken).take (16 * ((l.arrivedBytes.drop 33).length / 16)) :=
      decipherBytes_prefix (by decide) (LawfulLinkCrypto.decipher_encipher _) (dvd_paddedAll taken)
        (hcome.trans h.enciphered)
    obtain ⟨n, hn, hms, hfit⟩ := messagesIn_of_prefix (hplain ▸ List.take_prefix _ _ :
      plainText secret l.arrivedBytes <+: paddedAll taken)
    have hlen : (messagesIn (plainText secret l.arrivedBytes)).1.length = n := by
      rw [hms, List.length_take_of_le hn]
    refine ⟨(messagesIn (plainText secret l.arrivedBytes)).1,
      (messagesIn (plainText secret l.arrivedBytes)).2, ?_, fun _ => ?_,
      fun hshort => absurd hshort (Nat.not_lt.mpr hkey), fun hsteps => ?_⟩
    · rw [hlen, hms]
      have hsent := List.forall₂_take n h.sent
      rwa [List.take_take, Nat.min_eq_left hn] at hsent
    · exact MessageConnection.accept_corresponds d (c := l.receiver x) rfl hkey hwith
    · obtain ⟨heof, hcomplete⟩ := hfit (h.fits hsteps)
      refine ⟨heof, fun hopen hqueue hall => ?_⟩
      obtain ⟨htaken, hcipher⟩ := h.drained hopen hqueue
      have hrest : l.arrivedBytes.drop 33 = cipherText secret taken := by
        rw [hall, hout, List.drop_left' (StcpSocket.length_keyBytes a), hcipher]
      rw [hlen, ← htaken]
      apply hcomplete
      rw [hplain, hrest, cipherText, length_encipherBytes, Nat.mul_div_cancel' (dvd_paddedAll taken),
        List.take_of_length_le]
      exact Nat.le_of_eq (Nat.mul_div_cancel' (dvd_paddedAll taken)).symm
  · refine ⟨[], .eof, .nil, fun h' => absurd h' hkey, fun hshort => ⟨rfl, ?_⟩,
      fun _ => ⟨rfl, fun _ _ hall => ?_⟩⟩
    · exact MessageConnection.accept_short d b (c := l.receiver x) rfl hshort
    rw [hall, h.outgoing, List.length_append, StcpSocket.length_keyBytes] at hkey
    omega

end

/-! Two ends with a cipher that adds its key. -/

@[reducible] def addingCrypto : LinkCrypto where
  publicKey k := k.setWidth 264
  sharedSecret a b := some ((a ^^^ b.setWidth 256).setWidth 512)
  aesKey secret := secret.setWidth 256
  aesInitValue secret := secret.setWidth 128
  encipher key b := b + key.setWidth 128
  decipher key b := b - key.setWidth 128

theorem addingCrypto_lawful : @LawfulLinkCrypto addingCrypto := by
  refine @LawfulLinkCrypto.mk addingCrypto ?_ ?_
  · intro a b
    have hback : ∀ k : PrivateKey, (k.setWidth 264).setWidth 256 = k := by
      intro k
      rw [BitVec.setWidth_setWidth_of_le _ (by decide), BitVec.setWidth_eq]
    refine ⟨(a ^^^ b).setWidth 512, ?_, ?_⟩
    · show some ((a ^^^ (b.setWidth 264).setWidth 256).setWidth 512) = _
      rw [hback]
    · show some ((b ^^^ (a.setWidth 264).setWidth 256).setWidth 512) = _
      rw [hback, BitVec.xor_comm]
  · intro key b
    exact BitVec.add_sub_cancel b _

/-- A message with three bytes of data. -/
def greeting : Message := ⟨5006, [1, 2, 3], by decide⟩

/-- It is queued, taken and written, and comes in two pieces. -/
def greetingSteps : List LinkStep :=
  [.send (.real greeting none), .turn 0 none, .turn 0 none, .turn 0 none, .carry 9, .carry 99]

/-- A delegate that keeps what it gets. -/
def keeping : ConnectionDelegate (List Message) where
  onMessage m := modify (· ++ [m])
  onConnectionClosed := pure ()

theorem linkRun_delivers_greeting :
    ∃ ms e, ms.length = 1 ∧
      Corresponds Delegates
        ((@MessageConnection.accept _ addingCrypto keeping 2).run
          ((@Link.run addingCrypto 1 2 greetingSteps).receiver []))
        ((keeping.attend ms e).run []) := by
  obtain ⟨ms, e, -, hserved, -, hall⟩ :=
    @linkRun_delivers addingCrypto 1 2 addingCrypto_lawful _ keeping [] greetingSteps
  have hfits : ∀ r ∈ greetingSteps, r.Fits := by
    intro r hr
    simp only [greetingSteps, List.mem_cons, List.not_mem_nil, or_false] at hr
    rcases hr with rfl | rfl | rfl | rfl | rfl | rfl
    · show greeting.size ≤ maxMessageSize
      decide
    all_goals trivial
  refine ⟨ms, e, ?_, hserved (by decide +kernel)⟩
  exact (hall hfits).2 (by unfold TcpSocket.Open; decide +kernel)
    (List.eq_nil_of_length_eq_zero (by decide +kernel)) (by decide +kernel)

section

variable [LinkCrypto] (a b : PrivateKey)

/-! ## The queue -/

omit [LinkCrypto] in
/-- Only for an item can there be no message. -/
theorem item_of_getMessage_none {q : QueuedMessage} {now : UInt64} {item : Option Message}
    (h : q.getMessage now item = none) : item = none := by
  cases q with
  | real m offset => cases offset <;> cases h
  | virtual i => exact h

/-- What the sender keeps of its queue. While the connection is open a queue that is not empty has its
task, unless the node once had no answer for an item. -/
structure Accounted (steps : List LinkStep) (s : PeerSender) : Prop where
  total : s.totalQueuedMessagesSize = (s.queuedMessages.map (·.sizeInQueue)).sum
  bounded : s.sock.sock.Open → s.totalQueuedMessagesSize ≤ maximumQueuedMessagesInBytes
  shut : s.canceled = true → ¬ s.sock.sock.Open
  live : s.sock.sock.Open → s.queuedMessages ≠ [] → s.task = .ready →
    ∃ now, LinkStep.turn now none ∈ steps

namespace Accounted

variable {s : PeerSender}

omit [LinkCrypto] in
/-- A step after which the connection is closed. -/
theorem closed {s' : PeerSender}
    (htotal : s'.totalQueuedMessagesSize = (s'.queuedMessages.map (·.sizeInQueue)).sum)
    (hclosed : s'.sock.sock.isOpen = false) : Accounted steps s' := by
  have hnot : ¬ s'.sock.sock.Open := by
    rw [TcpSocket.Open, hclosed]
    exact Bool.false_ne_true
  exact ⟨htotal, fun h => absurd h hnot, fun _ => hnot, fun h => absurd h hnot⟩

omit [LinkCrypto] in
theorem total_queued (h : Accounted steps s) (q : QueuedMessage) :
    (s.queued q).totalQueuedMessagesSize = ((s.queued q).queuedMessages.map (·.sizeInQueue)).sum := by
  show s.totalQueuedMessagesSize + q.sizeInQueue =
    ((s.queuedMessages ++ [q]).map (·.sizeInQueue)).sum
  rw [List.map_append, List.sum_append, h.total]
  rfl

omit [LinkCrypto] in
theorem send (h : Accounted steps s) (q : QueuedMessage) :
    Accounted steps (finalState ((PeerSender.sendQueueableMessage q).run s)) := by
  rcases sendQueueableMessage_cases q s with
    ⟨-, heq⟩ | ⟨hsmall, ⟨-, hcanceled, heq⟩ | ⟨htask, heq⟩ | ⟨-, heq⟩⟩
  · rw [heq]
    exact closed (h.total_queued q) rfl
  · rw [heq]
    exact ⟨h.total_queued q, fun _ => hsmall, h.shut, fun hopen => absurd hopen (h.shut hcanceled)⟩
  · rw [heq]
    exact ⟨h.total_queued q, fun _ => hsmall, h.shut, fun _ _ hready => absurd hready htask⟩
  · rw [heq]
    exact ⟨h.total_queued q, fun _ => hsmall, h.shut, nofun⟩

/-- A turn after which the connection is open began with an open one. -/
theorem open_of_turn {now : UInt64} {item : Option Message} (h : (s.turn now item).sock.sock.Open) :
    s.sock.sock.Open := by
  by_contra hclosed
  rw [TcpSocket.Open, (turn_closed (Bool.eq_false_iff.mpr hclosed) now item).2] at h
  cases h

theorem turn (h : Accounted steps s) (now : UInt64) (item : Option Message) :
    Accounted (steps ++ [.turn now item]) (s.turn now item) := by
  have hmore : ∀ {now' : UInt64}, LinkStep.turn now' none ∈ steps →
      ∃ now', LinkStep.turn now' none ∈ steps ++ [.turn now item] :=
    fun hturn => ⟨_, List.mem_append_left _ hturn⟩
  have hopen : (s.turn now item).sock.sock.Open → s.sock.sock.Open := open_of_turn
  revert hopen
  rw [PeerSender.turn]
  split
  · intro _
    refine ⟨h.total, h.bounded, h.shut, fun hopen hqueue hready => ?_⟩
    obtain ⟨now', hturn⟩ := h.live hopen hqueue hready
    exact hmore hturn
  · split
    · rename_i hqueue
      intro _
      exact ⟨h.total, h.bounded, h.shut, fun _ hne => absurd hqueue hne⟩
    · split
      · rename_i hnone
        intro _
        refine ⟨h.total, h.bounded, h.shut, fun _ _ _ => ⟨now, ?_⟩⟩
        rw [item_of_getMessage_none hnone]
        exact List.mem_append_right _ List.mem_cons_self
      · intro _
        exact ⟨h.total, h.bounded, h.shut, nofun⟩
  · rename_i htask
    split
    · intro _
      exact ⟨h.total, h.bounded, h.shut, fun _ _ hready => by rw [htask] at hready; cases hready⟩
    · rename_i front rest hqueue
      intro _
      have htotal := h.total
      rw [hqueue, List.map_cons, List.sum_cons] at htotal
      have hless : s.totalQueuedMessagesSize - front.sizeInQueue =
          (rest.map (·.sizeInQueue)).sum := by
        rw [htotal, Nat.add_sub_cancel_left]
      exact ⟨hless, fun hopen => Nat.le_trans (Nat.sub_le _ _) (h.bounded hopen), h.shut, nofun⟩
  · split
    · intro hopen
      exact ⟨h.total, fun h' => h.bounded (hopen h'), fun hc h' => h.shut hc (hopen h'), nofun⟩
    · intro _
      exact closed h.total rfl

theorem breakOff (h : Accounted steps s) (k : Nat) : Accounted steps (s.breakOff k) := by
  rw [PeerSender.breakOff]
  split
  · split
    · split
      · exact closed h.total rfl
      · exact h
    · exact h
  · exact h

omit [LinkCrypto] in
theorem mono (h : Accounted steps s) {steps' : List LinkStep} (hsub : steps ⊆ steps') :
    Accounted steps' s :=
  ⟨h.total, h.bounded, h.shut, fun hopen hqueue hready =>
    (h.live hopen hqueue hready).imp fun _ hturn => hsub hturn⟩

theorem step {l : Link} (h : Accounted steps l.sender) (r : LinkStep) :
    Accounted (steps ++ [r]) (l.step r).sender := by
  have hmore := h.mono (List.subset_append_left steps [r])
  cases r with
  | send q => exact hmore.send q
  | turn now item => exact h.turn now item
  | breakOff k => exact hmore.breakOff k
  | close => exact closed h.total rfl
  | destroy => exact closed h.total rfl
  | carry k =>
    rw [Link.step]
    split <;> exact hmore

end Accounted

theorem accounted_run (steps : List LinkStep) : Accounted steps (Link.run a b steps).sender := by
  induction steps using List.reverseRecOn with
  | nil => exact ⟨rfl, fun _ => Nat.zero_le _, nofun, fun _ h => absurd rfl h⟩
  | append_singleton steps r ih =>
    rw [Link.run_concat]
    exact ih.step r

/-! ## The queue is emptied -/

section Drain

variable {a b} [LawfulLinkCrypto] {now : UInt64} {m : Message}

/-- After some more turns of the task the sender is as `P` says. -/
def AfterTurns (a b : PrivateKey) (now : UInt64) (m : Message) (steps : List LinkStep)
    (P : PeerSender → Prop) : Prop :=
  ∃ k, P (Link.run a b (steps ++ List.replicate k (.turn now (some m)))).sender

omit [LawfulLinkCrypto] in
theorem AfterTurns.here {P : PeerSender → Prop} (h : P (Link.run a b steps).sender) :
    AfterTurns a b now m steps P := by
  refine ⟨0, ?_⟩
  rw [List.replicate_zero, List.append_nil]
  exact h

omit [LawfulLinkCrypto] in
theorem AfterTurns.later {P : PeerSender → Prop} {k : Nat}
    (h : AfterTurns a b now m (steps ++ List.replicate k (.turn now (some m))) P) :
    AfterTurns a b now m steps P := by
  obtain ⟨n, hn⟩ := h
  refine ⟨k + n, ?_⟩
  rwa [List.append_assoc, ← List.replicate_add] at hn

omit [LawfulLinkCrypto] in
/-- One turn. -/
theorem AfterTurns.turn {P : PeerSender → Prop}
    (h : AfterTurns a b now m (steps ++ [.turn now (some m)]) P) : AfterTurns a b now m steps P :=
  AfterTurns.later (k := 1) h

omit [LawfulLinkCrypto] in
theorem sender_turn (now : UInt64) (m : Message) {s : PeerSender}
    (h : (Link.run a b steps).sender.turn now (some m) = s) :
    (Link.run a b (steps ++ [.turn now (some m)])).sender = s := by
  rw [Link.run_concat]
  exact h

/-- A message in progress goes out. -/
theorem afterTurns_message (now : UInt64) (m : Message) {left : List UInt8} {front : QueuedMessage}
    {rest : List QueuedMessage} (hopen : (Link.run a b steps).sender.sock.sock.Open)
    (htask : (Link.run a b steps).sender.task = .sending left)
    (hqueue : (Link.run a b steps).sender.queuedMessages = front :: rest) :
    AfterTurns a b now m steps fun s =>
      s.queuedMessages = rest ∧ s.task = .next ∧ s.sock.sock.Open := by
  induction hlen : left.length using Nat.strong_induction_on generalizing steps left with
  | _ n ih =>
    apply AfterTurns.turn
    cases left with
    | nil =>
      apply AfterTurns.here
      rw [sender_turn now m (turn_pop htask hqueue)]
      exact ⟨rfl, rfl, hopen⟩
    | cons byte bytes =>
      -- A piece goes out, of at least one byte.
      have hdvd : 16 ∣ (byte :: bytes).length := by
        obtain ⟨secret, hsecret, -⟩ := LawfulLinkCrypto.sharedSecret_comm a b
        obtain ⟨taken, cipher, h⟩ := carrying_run a b hsecret steps
        have hleft := (h.writing hopen).dvd_left
        rwa [htask] at hleft
      have hsender := sender_turn now m (turn_write htask hopen hdvd rfl)
      refine ih ((byte :: bytes).drop (piece (byte :: bytes)).length).length ?_ ?_ ?_ ?_ rfl
      · rw [← hlen, List.length_drop, piece, List.length_take, stcpBufferLength, List.length_cons]
        omega
      · rw [hsender]
        exact hopen
      · rw [hsender]
      · rw [hsender]
        exact hqueue

/-- From the head of the task's loop the queue is emptied. -/
theorem afterTurns_queue {queue : List QueuedMessage}
    (hopen : (Link.run a b steps).sender.sock.sock.Open)
    (htask : (Link.run a b steps).sender.task = .next)
    (hqueue : (Link.run a b steps).sender.queuedMessages = queue) :
    AfterTurns a b now m steps fun s => s.queuedMessages = [] ∧ s.sock.sock.Open := by
  induction queue generalizing steps with
  | nil => exact .here ⟨hqueue, hopen⟩
  | cons front rest ih =>
    cases hm : front.getMessage now (some m) with
    | none => cases item_of_getMessage_none hm
    | some m' =>
      apply AfterTurns.turn
      have hsender := sender_turn now m (turn_take htask hqueue hm)
      have hfront : AfterTurns a b now m (steps ++ [.turn now (some m)]) fun s =>
          s.queuedMessages = rest ∧ s.task = .next ∧ s.sock.sock.Open := by
        apply afterTurns_message now m
        · rw [hsender]
          exact hopen
        · rw [hsender]
        · rw [hsender]
          exact hqueue
      obtain ⟨k, hrest, hnext, hopen'⟩ := hfront
      exact AfterTurns.later (ih hopen' hnext hrest)

end Drain

/-- **The queue is kept and emptied.** After any steps the count of the queued bytes is that of the
messages in the queue, and within the limit while the connection is open; and while it is, and the node
has had an answer for every item, so many turns of the task, with any answers, empty the queue. -/
theorem linkRun_drains [LawfulLinkCrypto] (steps : List LinkStep) :
    let s := (Link.run a b steps).sender
    s.totalQueuedMessagesSize = (s.queuedMessages.map (·.sizeInQueue)).sum ∧
      (s.sock.sock.Open → s.totalQueuedMessagesSize ≤ maximumQueuedMessagesInBytes) ∧
      (s.sock.sock.Open → (∀ now, LinkStep.turn now none ∉ steps) → ∀ now m, ∃ k,
        let s' := (Link.run a b (steps ++ List.replicate k (.turn now (some m)))).sender
        s'.queuedMessages = [] ∧ s'.totalQueuedMessagesSize = 0 ∧ s'.sock.sock.Open) := by
  intro s
  have h : Accounted steps s := accounted_run a b steps
  refine ⟨h.total, h.bounded, fun hopen hanswers now m => ?_⟩
  have hempty : AfterTurns a b now m steps fun s => s.queuedMessages = [] ∧ s.sock.sock.Open := by
    by_cases hqueue : s.queuedMessages = []
    · exact .here ⟨hqueue, hopen⟩
    cases htask : s.task with
    | ready =>
      obtain ⟨now', hturn⟩ := h.live hopen hqueue htask
      exact absurd hturn (hanswers now')
    | next => exact afterTurns_queue hopen htask rfl
    | sending left =>
      obtain ⟨front, rest, hcons⟩ := List.exists_cons_of_ne_nil hqueue
      obtain ⟨k, hrest, hnext, hopen'⟩ := afterTurns_message now m hopen htask hcons
      exact AfterTurns.later (afterTurns_queue hopen' hnext hrest)
  obtain ⟨k, hnil, hopen'⟩ := hempty
  refine ⟨k, hnil, ?_, hopen'⟩
  have htotal := (accounted_run a b (steps ++ List.replicate k (.turn now (some m)))).total
  rw [hnil] at htotal
  exact htotal

end

/-- A message is queued, and so many turns later the queue is empty. -/
theorem linkRun_drains_greeting :
    ∃ k, (@Link.run addingCrypto 1 2 ([.send (.real greeting none)] ++
      List.replicate k (.turn 0 (some greeting)))).sender.queuedMessages = [] := by
  obtain ⟨-, -, hdrain⟩ :=
    @linkRun_drains addingCrypto 1 2 addingCrypto_lawful [.send (.real greeting none)]
  obtain ⟨k, hk, -, -⟩ := hdrain (by unfold TcpSocket.Open; decide +kernel) (by simp) 0 greeting
  exact ⟨k, hk⟩

end NewsChain
