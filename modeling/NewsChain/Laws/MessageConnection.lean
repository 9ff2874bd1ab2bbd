import NewsChain.Lib.Scopes
import NewsChain.Net.MessageConnection

/-!
# Messages come out of the stream

What the read loop hands to its delegate depends on the bytes that came in, and on nothing else: not on
the pieces they came in, not on the calls that read and deciphered them. The reads are verified from
below (`SomeOf`, `AllOf`): TCP, the blocks on it, the plain text of the blocks. On the plain text a
round of the loop is `nextFrame`, and the loop is its delegate served with the messages found there.
-/

namespace NewsChain

open EStateM (Result)
open LinkCrypto (encipher decipher)

/-! ## Reading TCP -/

namespace TcpSocket

/-- The socket was not closed at this end. -/
def Open (s : TcpSocket) : Prop := s.isOpen = true

theorem readsome_took {s : TcpSocket} (hs : s.Open) (harrived : s.arrived ≠ []) {n : Nat}
    (hn : 0 < n) :
    ∃ got s', (readsome n).run s = .ok got s' ∧ s'.Open ∧ Took 1 n arrived s got s' := by
  cases hincoming : s.incoming with
  | nil => exact absurd (by rw [arrived, hincoming]; rfl) harrived
  | cons arrival rest =>
    have hview : s.arrived = arrival.1 ++ rest.flatMap (·.1) := by
      rw [arrived, hincoming]
      rfl
    have hpos : 0 < arrival.1.length := List.length_pos_iff.mpr arrival.2
    refine ⟨arrival.1.take n, { s with incoming :=
      (if h : arrival.1.drop n = [] then rest else ⟨arrival.1.drop n, h⟩ :: rest) }, ?_, hs, ?_⟩
    · simp only [readsome, EStateM.run, show s.isOpen = true from hs, if_true, hincoming]
    · refine ⟨?_, ?_, List.length_take_le _ _, Nat.one_dvd _⟩
      · -- What is left of the arrival stays in front.
        have hleft : (if h : arrival.1.drop n = [] then rest
            else ⟨arrival.1.drop n, h⟩ :: rest).flatMap (·.1) =
              arrival.1.drop n ++ rest.flatMap (·.1) := by
          split
          · rename_i hnil
            rw [hnil, List.nil_append]
          · rfl
        rw [hview, arrived, hleft, ← List.append_assoc, List.take_append_drop]
      · rw [List.length_take]
        omega

theorem readsome_eof {s : TcpSocket} (hs : s.Open) (harrived : s.arrived = []) (n : Nat) :
    (readsome n).run s = .error .eof s := by
  cases hincoming : s.incoming with
  | nil => simp only [readsome, EStateM.run, show s.isOpen = true from hs, if_true, hincoming]
  | cons arrival rest =>
    rw [arrived, hincoming, List.flatMap_cons, List.append_eq_nil_iff] at harrived
    exact absurd harrived.1 arrival.2

theorem readsome_someOf : SomeOf 1 Open arrived .eof readsome where
  enough := by
    intro s n hs hpos _ hn
    exact readsome_took hs (List.ne_nil_of_length_pos (by omega)) hpos
  short := by
    intro s n hs hpos _ _
    by_cases harrived : s.arrived = []
    · exact .inr ⟨s, readsome_eof hs harrived n⟩
    · exact .inl (readsome_took hs harrived hpos)

theorem read_allOf : AllOf 1 Open arrived .eof read := readsome_someOf.readFully

theorem readsome_closed {s : TcpSocket} (hs : ¬ s.Open) (n : Nat) :
    (readsome n).run s = .error badDescriptor s := by
  simp only [readsome, EStateM.run, show s.isOpen = false from Bool.eq_false_iff.mpr hs,
    Bool.false_eq_true, if_false]

end TcpSocket

/-! ## Reading blocks -/

namespace StcpSocket

open TcpSocket (Open arrived)

/-- Where a block is not read to its end, the rest of it is within what was asked for. -/
theorem blockEnd_le {a n : Nat} (ha : a ≤ n) (hn : 16 ∣ n) :
    a + (16 - a % 16) ≤ n ∨ a % 16 = 0 := by
  omega

/-- What `readBlocks` gives are whole blocks; it throws only where there is too little. -/
theorem readBlocks_cases {s : TcpSocket} (hs : s.Open) (harrived : s.arrived ≠ []) {n : Nat}
    (hpos : 0 < n) (hn : 16 ∣ n) :
    (∃ got s', (readBlocks n).run s = .ok got s' ∧ s'.Open ∧ Took 16 n arrived s got s') ∨
      (∃ s', (readBlocks n).run s = .error .eof s') ∧ s.arrived.length < n := by
  obtain ⟨got, s₁, hrun, hs₁, htook⟩ := TcpSocket.readsome_took hs harrived hpos
  have hrest : (readBlocks n).run s =
      (if got.length % 16 = 0 then pure got
        else do
          let rest ← TcpSocket.read (16 - got.length % 16)
          pure (got ++ rest) : EStateM LinkExc TcpSocket (List UInt8)).run s₁ := by
    rw [readBlocks, EStateM.run_bind, hrun]
  have hlen := congrArg List.length htook.split
  rw [List.length_append] at hlen
  have hle := htook.le
  have hgot := htook.pos
  by_cases hwhole : got.length % 16 = 0
  · refine .inl ⟨got, s₁, ?_, hs₁, htook.split, hgot, hle, Nat.dvd_of_mod_eq_zero hwhole⟩
    rw [hrest, if_pos hwhole]
    rfl
  · have hblock : got.length + (16 - got.length % 16) ≤ n := by
      rcases blockEnd_le hle hn with h | h
      · exact h
      · exact absurd h hwhole
    by_cases henough : 16 - got.length % 16 ≤ s₁.arrived.length
    · obtain ⟨s', hread, hs', hview⟩ := TcpSocket.read_allOf.enough hs₁ (Nat.one_dvd _) henough
      have hpart : (s₁.arrived.take (16 - got.length % 16)).length = 16 - got.length % 16 :=
        List.length_take_of_le henough
      refine .inl ⟨got ++ s₁.arrived.take (16 - got.length % 16), s', ?_, hs', ?_, ?_, ?_, ?_⟩
      · rw [hrest, if_neg hwhole, EStateM.run_bind, hread]
        rfl
      · rw [htook.split, hview, List.append_assoc, List.take_append_drop]
      · rw [List.length_append]
        omega
      · rw [List.length_append, hpart]
        exact hblock
      · rw [List.length_append, hpart]
        omega
    · obtain ⟨s', hread⟩ := TcpSocket.read_allOf.short hs₁ (Nat.one_dvd _) (Nat.not_le.mp henough)
      refine .inr ⟨⟨s', ?_⟩, by omega⟩
      rw [hrest, if_neg hwhole, EStateM.run_bind, hread]

theorem readBlocks_someOf : SomeOf 16 Open arrived .eof readBlocks where
  enough := by
    intro s n hs hpos hn hle
    rcases readBlocks_cases hs (List.ne_nil_of_length_pos (by omega)) hpos hn with h | ⟨-, hlt⟩
    · exact h
    · exact absurd hle (Nat.not_le.mpr hlt)
  short := by
    intro s n hs hpos hn hlt
    by_cases harrived : s.arrived = []
    · refine .inr ⟨s, ?_⟩
      rw [readBlocks, EStateM.run_bind, TcpSocket.readsome_eof hs harrived]
    · rcases readBlocks_cases hs harrived hpos hn with h | ⟨h, -⟩
      · exact .inl h
      · exact .inr h

/-! ## Reading the plain text -/

variable [LinkCrypto]

/-- The plain text of the whole blocks that have come in. -/
def plain (s : StcpSocket) : List UInt8 :=
  (decipherBytes (decipher s.recvAes.key) s.recvAes.chain s.sock.arrived).1

theorem length_plain (s : StcpSocket) : s.plain.length = 16 * (s.sock.arrived.length / 16) :=
  length_decipherBytes _

/-- Whole blocks are deciphered, and what follows them is left for later. -/
theorem run_decode {context : AesContext} {ciphertext : List UInt8} (h : 16 ∣ ciphertext.length) :
    (AesContext.decode ciphertext).run context =
      .ok (decipherBytes (decipher context.key) context.chain ciphertext).1
        { context with
          chain := (decipherBytes (decipher context.key) context.chain ciphertext).2 } := by
  have hlen : ciphertext.length =
      (decipherBytes (decipher context.key) context.chain ciphertext).1.length := by
    rw [length_decipherBytes, Nat.mul_div_cancel' h]
  show (AesContext.decode ciphertext).run context = _
  simp only [AesContext.decode, linkAssert, EStateM.run_bind, EStateM.run_get, EStateM.run_set,
    if_pos hlen]
  rfl

/-- A call on the blocks below, and its plain text. -/
theorem readsome_took {s : StcpSocket} {n : Nat} {ciphertext : List UInt8} {t : TcpSocket}
    (hrun : (readBlocks (min stcpBufferLength n)).run s.sock = .ok ciphertext t)
    (htook : Took 16 (min stcpBufferLength n) arrived s.sock ciphertext t) :
    ∃ got s', (readsome n).run s = .ok got s' ∧ s'.sock = t ∧ Took 16 n plain s got s' := by
  have happend := @decipherBytes_append 16 (decipher s.recvAes.key) s.recvAes.chain (by decide) _
    htook.dvd t.arrived
  have hlen : (decipherBytes (decipher s.recvAes.key) s.recvAes.chain ciphertext).1.length =
      ciphertext.length := by
    rw [length_decipherBytes, Nat.mul_div_cancel' htook.dvd]
  refine ⟨(decipherBytes (decipher s.recvAes.key) s.recvAes.chain ciphertext).1,
    { s with
      sock := t
      recvAes := { s.recvAes with
        chain := (decipherBytes (decipher s.recvAes.key) s.recvAes.chain ciphertext).2 } },
    ?_, rfl, ?_, ?_, ?_, ?_⟩
  · rw [readsome, EStateM.run_bind, onSock, run_onPart_ok hrun]
    exact run_onPart_ok (run_decode htook.dvd)
  · rw [plain, htook.split, happend]
    rfl
  · rw [hlen]
    exact htook.pos
  · rw [hlen]
    exact Nat.le_trans htook.le (Nat.min_le_right _ _)
  · rw [hlen]
    exact htook.dvd

theorem readsome_someOf : SomeOf 16 (fun s => s.sock.Open) plain .eof readsome where
  enough := by
    intro s n hs hpos hn hle
    rw [length_plain] at hle
    obtain ⟨ciphertext, t, hrun, ht, htook⟩ := readBlocks_someOf.enough
      (n := min stcpBufferLength n) hs (by rw [stcpBufferLength]; omega)
      (by rw [stcpBufferLength]; omega) (by omega)
    obtain ⟨got, s', hread, rfl, htook'⟩ := readsome_took hrun htook
    exact ⟨got, s', hread, ht, htook'⟩
  short := by
    intro s n hs hpos hn hlt
    rw [length_plain] at hlt
    have hmin : 0 < min stcpBufferLength n ∧ 16 ∣ min stcpBufferLength n := by
      rw [stcpBufferLength]
      omega
    have hcases : (∃ ciphertext t, (readBlocks (min stcpBufferLength n)).run s.sock =
          .ok ciphertext t ∧ t.Open ∧ Took 16 (min stcpBufferLength n) arrived s.sock ciphertext t) ∨
        ∃ t, (readBlocks (min stcpBufferLength n)).run s.sock = .error .eof t := by
      by_cases hle : min stcpBufferLength n ≤ s.sock.arrived.length
      · exact .inl (readBlocks_someOf.enough hs hmin.1 hmin.2 hle)
      · exact readBlocks_someOf.short hs hmin.1 hmin.2 (Nat.not_le.mp hle)
    rcases hcases with ⟨ciphertext, t, hrun, ht, htook⟩ | ⟨t, hrun⟩
    · obtain ⟨got, s', hread, rfl, htook'⟩ := readsome_took hrun htook
      exact .inl ⟨got, s', hread, ht, htook'⟩
    · refine .inr ⟨{ s with sock := t }, ?_⟩
      rw [readsome, EStateM.run_bind, onSock, run_onPart_error hrun]

theorem read_allOf : AllOf 16 (fun s => s.sock.Open) plain .eof read := readsome_someOf.readFully

end StcpSocket

/-! ## Messages in the plain text -/

/-- What is thrown at a message that is too large. -/
def tooLarge : LinkExc := .fc "m.size <= MAX_MESSAGE_SIZE"

/-- What comes next in some plain text: a message and the text after it, or an end. -/
inductive NextFrame
  | message (m : Message) (rest : List UInt8)
  | ended (e : LinkExc)

/-- The bytes that a message of a size takes. -/
def frameLength (size : UInt32) : Nat := 16 + (remainingBytesWithPadding size).toNat

def nextFrame (p : List UInt8) : NextFrame :=
  if p.length < 16 then .ended .eof
  else if ¬ headerSize (p.take 16) ≤ maxMessageSize then .ended tooLarge
  else if p.length < frameLength (headerSize (p.take 16)) then .ended .eof
  else .message
    (messageOf (p.take 16)
      ((p.drop 16).take (remainingBytesWithPadding (headerSize (p.take 16))).toNat))
    (p.drop (frameLength (headerSize (p.take 16))))

/-- The messages of the next rounds, and what ends them. -/
def framesIn : Nat → List UInt8 → List Message × LinkExc
  | 0, _ => ([], .eof)
  | rounds + 1, p =>
    match nextFrame p with
    | .message m rest => (m :: (framesIn rounds rest).1, (framesIn rounds rest).2)
    | .ended e => ([], e)

/-- The messages in some plain text, and what ends them. -/
def messagesIn (p : List UInt8) : List Message × LinkExc := framesIn (p.length / 16 + 1) p

theorem dvd_remaining (size : UInt32) : 16 ∣ (remainingBytesWithPadding size).toNat := by
  rw [remainingBytesWithPadding, UInt32.toNat_mul, show (16 : UInt32).toNat = 16 from rfl]
  omega

/-- A message takes at least a block. -/
theorem length_rest_of_nextFrame {p rest : List UInt8} {m : Message}
    (h : nextFrame p = .message m rest) : rest.length + 16 ≤ p.length := by
  rw [nextFrame] at h
  split at h
  · cases h
  · split at h
    · cases h
    · split at h
      · cases h
      · cases h
        rw [List.length_drop, frameLength]
        omega

/-- More rounds than blocks find nothing more. -/
theorem framesIn_eq_messagesIn {rounds : Nat} {p : List UInt8} (h : p.length / 16 < rounds) :
    framesIn rounds p = messagesIn p := by
  have hsame : ∀ {n n' : Nat} {p : List UInt8}, p.length / 16 < n → p.length / 16 < n' →
      framesIn n p = framesIn n' p := by
    intro n
    induction n with
    | zero =>
      intro n' p hn
      exact absurd hn (Nat.not_lt_zero _)
    | succ n ih =>
      intro n' p hn hn'
      obtain ⟨n', rfl⟩ := Nat.exists_eq_add_one_of_ne_zero (Nat.ne_of_gt (Nat.zero_lt_of_lt hn'))
      rw [framesIn, framesIn]
      cases hnext : nextFrame p with
      | ended e => rfl
      | message m rest =>
        have hlen := length_rest_of_nextFrame hnext
        have hrest : framesIn n rest = framesIn n' rest := ih (by omega) (by omega)
        simp only [hrest]
  exact hsame h (Nat.lt_succ_self _)

theorem messagesIn_message {p rest : List UInt8} {m : Message} (h : nextFrame p = .message m rest) :
    messagesIn p = (m :: (messagesIn rest).1, (messagesIn rest).2) := by
  have hlen := length_rest_of_nextFrame h
  have hrest : framesIn (p.length / 16) rest = messagesIn rest := framesIn_eq_messagesIn (by omega)
  rw [messagesIn, framesIn, h]
  simp only [hrest]

theorem messagesIn_ended {p : List UInt8} {e : LinkExc} (h : nextFrame p = .ended e) :
    messagesIn p = ([], e) := by
  rw [messagesIn, framesIn, h]

/-! ## A round of the loop -/

/-- What a delegate does with messages that come one after the other, until something ends them. -/
def ConnectionDelegate.serve {δ : Type} (d : ConnectionDelegate δ) :
    List Message → LinkExc → EStateM LinkExc δ Unit
  | [], e => throw e
  | m :: ms, e => do
    d.onMessage m
    if d.hasClosed (← get) then throw badDescriptor else d.serve ms e

/-- A delegate with some messages, and then the end of the connection. -/
def ConnectionDelegate.attend {δ : Type} (d : ConnectionDelegate δ) (ms : List Message)
    (e : LinkExc) : EStateM LinkExc δ Unit :=
  endReadLoop d.onConnectionClosed (d.serve ms e)

namespace MessageConnection

variable {δ : Type} {c : MessageConnection δ}

/-- The connection was not closed at this end. -/
def Open (c : MessageConnection δ) : Prop := c.sock.sock.Open

variable [LinkCrypto]

theorem readCounted_enough (hc : c.Open) {n : Nat} (hn : 16 ∣ n) (hle : n ≤ c.sock.plain.length) :
    ∃ c', (readCounted n).run c = .ok (c.sock.plain.take n) c' ∧ c'.Open ∧
      c'.delegate = c.delegate ∧ c'.sock.plain = c.sock.plain.drop n := by
  obtain ⟨s, hread, hs, hplain⟩ := StcpSocket.read_allOf.enough hc hn hle
  refine ⟨{ c with sock := s, bytesReceived := c.bytesReceived + n }, ?_, hs, rfl, hplain⟩
  rw [readCounted, EStateM.run_bind, onSock, run_onPart_ok hread]
  rfl

theorem readCounted_short (hc : c.Open) {n : Nat} (hn : 16 ∣ n) (hlt : c.sock.plain.length < n) :
    ∃ c', (readCounted n).run c = .error .eof c' ∧ c'.delegate = c.delegate := by
  obtain ⟨s, hread⟩ := StcpSocket.read_allOf.short hc hn hlt
  refine ⟨{ c with sock := s }, ?_, rfl⟩
  rw [readCounted, EStateM.run_bind, onSock, run_onPart_error hread]

theorem readRest_enough (hc : c.Open) {remaining : UInt32} (hn : 16 ∣ remaining.toNat)
    (hle : remaining.toNat ≤ c.sock.plain.length) :
    ∃ c', (readRest remaining).run c = .ok (c.sock.plain.take remaining.toNat) c' ∧ c'.Open ∧
      c'.delegate = c.delegate ∧ c'.sock.plain = c.sock.plain.drop remaining.toNat := by
  rw [readRest]
  split
  · rename_i hzero
    subst hzero
    exact ⟨c, rfl, hc, rfl, rfl⟩
  · exact readCounted_enough hc hn hle

theorem readRest_short (hc : c.Open) {remaining : UInt32} (hn : 16 ∣ remaining.toNat)
    (hlt : c.sock.plain.length < remaining.toNat) :
    ∃ c', (readRest remaining).run c = .error .eof c' ∧ c'.delegate = c.delegate := by
  rw [readRest]
  split
  · rename_i hzero
    subst hzero
    exact absurd hlt (Nat.not_lt_zero _)
  · exact readCounted_short hc hn hlt

/-- A round, once the first block is there. -/
theorem run_readMessage_buffered {c₁ : MessageConnection δ} {buffer : List UInt8}
    (h : (readCounted 16).run c = .ok buffer c₁) :
    readMessage.run c =
      if headerSize buffer ≤ maxMessageSize then
        (do
          let rest ← readRest (remainingBytesWithPadding (headerSize buffer))
          pure (messageOf buffer rest)).run c₁
      else .error tooLarge c₁ := by
  rw [readMessage, EStateM.run_bind, h]
  simp only [linkAssert]
  split <;> rfl

/-- **A round** reads what comes next in the plain text. -/
theorem readMessage_spec (hc : c.Open) :
    match nextFrame c.sock.plain with
    | .message m rest => ∃ c', readMessage.run c = .ok m c' ∧ c'.Open ∧ c'.delegate = c.delegate ∧
        c'.sock.plain = rest
    | .ended e => ∃ c', readMessage.run c = .error e c' ∧ c'.delegate = c.delegate := by
  by_cases hbuffer : c.sock.plain.length < 16
  · obtain ⟨c', hread, hdelegate⟩ := readCounted_short hc (Nat.dvd_refl 16) hbuffer
    rw [nextFrame, if_pos hbuffer]
    refine ⟨c', ?_, hdelegate⟩
    rw [readMessage, EStateM.run_bind, hread]
  obtain ⟨c₁, hread, hc₁, hdelegate, hplain⟩ :=
    readCounted_enough hc (Nat.dvd_refl 16) (Nat.not_lt.mp hbuffer)
  have hrun := run_readMessage_buffered hread
  rw [nextFrame, if_neg hbuffer]
  by_cases hsize : headerSize (c.sock.plain.take 16) ≤ maxMessageSize
  · rw [if_neg (not_not_intro hsize)]
    rw [if_pos hsize] at hrun
    have hdvd := dvd_remaining (headerSize (c.sock.plain.take 16))
    have hlen₁ : c₁.sock.plain.length = c.sock.plain.length - 16 := by
      rw [hplain, List.length_drop]
    by_cases hshort : c.sock.plain.length < frameLength (headerSize (c.sock.plain.take 16))
    · rw [if_pos hshort]
      rw [frameLength] at hshort
      obtain ⟨c', hrest, hdelegate'⟩ := readRest_short hc₁ hdvd (by omega)
      refine ⟨c', ?_, hdelegate'.trans hdelegate⟩
      rw [hrun, EStateM.run_bind, hrest]
    · rw [if_neg hshort]
      rw [frameLength] at hshort
      obtain ⟨c', hrest, hc', hdelegate', hplain'⟩ := readRest_enough hc₁ hdvd (by omega)
      refine ⟨c', ?_, hc', hdelegate'.trans hdelegate, ?_⟩
      · rw [hrun, EStateM.run_bind, hrest, hplain]
        rfl
      · rw [hplain', hplain, List.drop_drop, frameLength]
  · rw [if_pos hsize]
    rw [if_neg hsize] at hrun
    exact ⟨c₁, hrun, hdelegate⟩

/-- A round on a connection that was closed. -/
theorem readMessage_closed (hc : ¬ c.Open) :
    ∃ c', readMessage.run c = .error badDescriptor c' ∧ c'.delegate = c.delegate := by
  have hblocks : (StcpSocket.readBlocks (min stcpBufferLength 16)).run c.sock.sock =
      .error badDescriptor c.sock.sock := by
    rw [StcpSocket.readBlocks, EStateM.run_bind, TcpSocket.readsome_closed hc]
  have hsome : (StcpSocket.readsome 16).run c.sock = .error badDescriptor c.sock := by
    rw [StcpSocket.readsome, EStateM.run_bind, StcpSocket.onSock, run_onPart_error hblocks]
  have hread : (StcpSocket.read 16).run c.sock = .error badDescriptor c.sock :=
    run_readFullyFrom_error (by decide) hsome
  refine ⟨c, ?_, rfl⟩
  rw [readMessage, EStateM.run_bind, readCounted, EStateM.run_bind, onSock, run_onPart_error hread]

/-! ## The loop -/

/-- The states of a connection and of its delegate alone. -/
def Delegates (c : MessageConnection δ) (x : δ) : Prop := c.delegate = x

variable {d : ConnectionDelegate δ}

/-- What the loop does after a message. -/
theorem run_readRounds_message {c' : MessageConnection δ} {m : Message}
    (h : readMessage.run c = .ok m c') (rounds : Nat) :
    (readRounds d (rounds + 1)).run c =
      match (d.onMessage m).run c'.delegate with
      | .ok _ x => (readRounds d rounds).run
          (if d.hasClosed x then { c' with sock := c'.sock.close, delegate := x }
            else { c' with delegate := x })
      | .error e x => .error e { c' with delegate := x } := by
  rw [readRounds, EStateM.run_bind, h]
  cases hmessage : (d.onMessage m).run c'.delegate with
  | ok a x =>
    have hon : (onDelegate (d.onMessage m)).run c' = .ok a { c' with delegate := x } :=
      run_onPart_ok hmessage
    simp only [EStateM.run_bind, hon, EStateM.run_modify]
  | error e x =>
    have hon : (onDelegate (d.onMessage m)).run c' = .error e { c' with delegate := x } :=
      run_onPart_error hmessage
    simp only [EStateM.run_bind, hon]

omit [LinkCrypto] in
/-- What a delegate alone does with a message, and then others. -/
theorem run_serve_cons (m : Message) (ms : List Message) (e : LinkExc) (x : δ) :
    (d.serve (m :: ms) e).run x =
      match (d.onMessage m).run x with
      | .ok _ x' => if d.hasClosed x' then .error badDescriptor x' else (d.serve ms e).run x'
      | .error e' x' => .error e' x' := by
  rw [ConnectionDelegate.serve, EStateM.run_bind]
  cases (d.onMessage m).run x with
  | ok a x' =>
    simp only [EStateM.run_bind, EStateM.run_get]
    split <;> rfl
  | error e' x' => rfl

/-- **The loop serves its delegate** with the messages in the plain text. -/
theorem readRounds_corresponds {rounds : Nat} (hc : c.Open)
    (hrounds : c.sock.plain.length / 16 < rounds) :
    Corresponds Delegates ((readRounds d rounds).run c)
      ((d.serve (messagesIn c.sock.plain).1 (messagesIn c.sock.plain).2).run c.delegate) := by
  induction rounds generalizing c with
  | zero => exact absurd hrounds (Nat.not_lt_zero _)
  | succ rounds ih =>
    have hspec := readMessage_spec hc
    cases hnext : nextFrame c.sock.plain with
    | ended e =>
      rw [hnext] at hspec
      obtain ⟨c', hrun, hdelegate⟩ := hspec
      rw [messagesIn_ended hnext, readRounds, EStateM.run_bind, hrun]
      exact .error e hdelegate
    | message m rest =>
      rw [hnext] at hspec
      obtain ⟨c', hrun, hc', hdelegate, rfl⟩ := hspec
      have hlen := length_rest_of_nextFrame hnext
      rw [messagesIn_message hnext, run_readRounds_message hrun, run_serve_cons, hdelegate]
      cases hmessage : (d.onMessage m).run c.delegate with
      | error e x => exact .error e rfl
      | ok a x =>
        by_cases hclosed : d.hasClosed x = true
        · -- The next round finds the socket closed.
          simp only [hclosed, if_true]
          obtain ⟨rounds, rfl⟩ := Nat.exists_eq_add_one_of_ne_zero (n := rounds) (by omega)
          obtain ⟨c'', hend, hdelegate''⟩ := readMessage_closed
            (c := { c' with sock := c'.sock.close, delegate := x }) (by exact Bool.false_ne_true)
          rw [readRounds, EStateM.run_bind, hend]
          exact .error _ hdelegate''
        · simp only [hclosed]
          exact ih (c := { c' with delegate := x }) hc' (by
            show c'.sock.plain.length / 16 < rounds
            omega)

omit [LinkCrypto] in
/-- What is done at the end of the loop, where the loops end alike. -/
theorem corresponds_endReadLoop {x : δ} {loop : EStateM LinkExc (MessageConnection δ) Unit}
    {loop' : EStateM LinkExc δ Unit} (h : Corresponds Delegates (loop.run c) (loop'.run x)) :
    Corresponds Delegates ((endReadLoop (onDelegate d.onConnectionClosed) loop).run c)
      ((endReadLoop d.onConnectionClosed loop').run x) := by
  have hclosed : Simulates Delegates (onDelegate d.onConnectionClosed :
      EStateM LinkExc (MessageConnection δ) Unit) d.onConnectionClosed := by
    rintro c _ rfl
    cases hrun : d.onConnectionClosed.run c.delegate with
    | ok a x =>
      rw [onDelegate, run_onPart_ok hrun]
      exact .ok a rfl
    | error e x =>
      rw [onDelegate, run_onPart_error hrun]
      exact .error e rfl
  have hhandler : ∀ e : LinkExc, Simulates Delegates
      (do onDelegate d.onConnectionClosed; throw (.unhandled e) :
        EStateM LinkExc (MessageConnection δ) Unit)
      (do d.onConnectionClosed; throw (.unhandled e)) := by
    intro e
    exact hclosed.bind fun _ => .throw _
  rw [endReadLoop, endReadLoop, run_tryCatch, run_tryCatch]
  generalize loop.run c = r at h
  generalize loop'.run x = r' at h
  cases h with
  | ok a hend => exact .ok a hend
  | @error c' x' e hend =>
    cases e with
    | canceled => exact .error _ hend
    | eof => exact hclosed _ _ hend
    | fc what => exact hhandler _ _ _ hend
    | unhandled e => exact hhandler _ _ _ hend

theorem readLoop_corresponds (hc : c.Open) :
    Corresponds Delegates ((readLoop d).run c)
      ((d.attend (messagesIn c.sock.plain).1 (messagesIn c.sock.plain).2).run c.delegate) := by
  have hrounds : c.sock.plain.length / 16 < c.sock.sock.arrived.length / 16 + 2 := by
    rw [StcpSocket.length_plain]
    omega
  exact corresponds_endReadLoop (readRounds_corresponds hc hrounds)

end MessageConnection

/-! ## Frames -/

/-- The bytes of a message on the connection: its header and data, and something up to the end of the
last block. -/
structure Message.FrameOf (m : Message) (f : List UInt8) : Prop where
  length : f.length = frameLength m.size
  content : m.header ++ m.data <+: f

theorem toNat_maxMessageSize : maxMessageSize.toNat = 2097152 := rfl

theorem toNat_remaining {size : UInt32} (h : size ≤ maxMessageSize) :
    (remainingBytesWithPadding size).toNat = 16 * ((size.toNat + 7) / 16) := by
  have hle := UInt32.le_iff_toNat_le.mp h
  rw [toNat_maxMessageSize] at hle
  simp only [remainingBytesWithPadding, UInt32.toNat_mul, UInt32.toNat_div, UInt32.toNat_add,
    UInt32.toNat_sub, UInt32.reduceToNat]
  omega

namespace Message

theorem toNat_size (m : Message) : m.size.toNat = m.data.length := by
  rw [size, UInt32.toNat_ofNat', Nat.mod_eq_of_lt m.data_lt]

@[simp] theorem length_header (m : Message) : m.header.length = 8 := by
  simp [header]

@[ext] theorem ext {m m' : Message} (htype : m.msgType = m'.msgType) (hdata : m.data = m'.data) :
    m = m' := by
  cases m
  cases m'
  cases htype
  cases hdata
  rfl

/-- A header is read as it was written. -/
theorem headerSize_header (m : Message) (w : List UInt8) : headerSize (m.header ++ w) = m.size := by
  rw [headerSize, header, List.append_assoc, List.take_left' (length_leBytes 4 _),
    ofLeBytes_leBytes m.size.toNat_lt, UInt32.ofNat_toNat]

theorem headerType_header (m : Message) (w : List UInt8) :
    headerType (m.header ++ w) = m.msgType := by
  rw [headerType, header, List.append_assoc, List.drop_left' (length_leBytes 4 _),
    List.take_left' (length_leBytes 4 _), ofLeBytes_leBytes m.msgType.toNat_lt, UInt32.ofNat_toNat]

theorem take_header (m : Message) (w : List UInt8) :
    (m.header ++ w).take 16 = m.header ++ w.take 8 := by
  rw [List.take_append, List.take_of_length_le (by rw [length_header]; decide), length_header]

end Message

/-- The memory of a number that was read from four bytes. -/
theorem leBytes_ofNat {bs : List UInt8} (h : bs.length = 4) :
    leBytes 4 (UInt32.ofNat (ofLeBytes bs)).toNat = bs := by
  have hlt : ofLeBytes bs < 2 ^ 32 := by
    have hbound := ofLeBytes_lt bs
    rwa [h] at hbound
  have hback := leBytes_ofLeBytes bs
  rwa [UInt32.toNat_ofNat', Nat.mod_eq_of_lt hlt, ← h]

/-- The memory of a header that was read. -/
theorem leBytes_headerSize {buffer : List UInt8} (h : 8 ≤ buffer.length) :
    leBytes 4 (headerSize buffer).toNat ++ leBytes 4 (headerType buffer).toNat = buffer.take 8 := by
  have hsize : (buffer.take 4).length = 4 := List.length_take_of_le (by omega)
  have htype : ((buffer.drop 4).take 4).length = 4 :=
    List.length_take_of_le (by rw [List.length_drop]; omega)
  rw [headerSize, headerType, leBytes_ofNat hsize, leBytes_ofNat htype, ← List.take_add]

/-- **A frame is read back**, whatever comes after it. -/
theorem nextFrame_frame {m : Message} {f : List UInt8} (hf : m.FrameOf f)
    (hsize : m.size ≤ maxMessageSize) (w : List UInt8) : nextFrame (f ++ w) = .message m w := by
  obtain ⟨pad, hpad⟩ := hf.content
  have hlen := hf.length
  have hle : 16 ≤ f.length := by
    rw [hlen, frameLength]
    exact Nat.le_add_right _ _
  have hbuffer : (f ++ w).take 16 = m.header ++ (m.data ++ pad).take 8 := by
    rw [List.take_append_of_le_length hle, ← hpad, List.append_assoc, m.take_header]
  have hheader : headerSize ((f ++ w).take 16) = m.size := by
    rw [hbuffer, m.headerSize_header]
  have hremaining : (f.drop 16).length = (remainingBytesWithPadding m.size).toNat := by
    rw [List.length_drop, hlen, frameLength, Nat.add_sub_cancel_left]
  have hrest : ((f ++ w).drop 16).take (remainingBytesWithPadding m.size).toNat = f.drop 16 := by
    rw [List.drop_append_of_le_length hle, List.take_left' hremaining]
  have hnext : (f ++ w).drop (frameLength m.size) = w := List.drop_left' hlen
  rw [nextFrame, if_neg (by rw [List.length_append]; omega), hheader,
    if_neg (not_not_intro hsize), if_neg (by rw [List.length_append]; omega), hrest, hnext]
  congr 1
  have hdrop : ((f ++ w).take 16).drop 8 ++ f.drop 16 = m.data ++ pad := by
    have htail : f.drop 8 = m.data ++ pad := by
      rw [← hpad, List.append_assoc, List.drop_left' m.length_header]
    rw [List.take_append_of_le_length hle, List.drop_take, ← htail,
      show f.drop 16 = (f.drop 8).drop 8 by rw [List.drop_drop], List.take_append_drop]
  apply Message.ext
  · show headerType ((f ++ w).take 16) = m.msgType
    rw [hbuffer, m.headerType_header]
  · show (((f ++ w).take 16).drop 8 ++ f.drop 16).take (headerSize ((f ++ w).take 16)).toNat = m.data
    rw [hdrop, hheader, m.toNat_size, List.take_left' rfl]

/-- A message that is too large ends the connection at its first block. -/
theorem nextFrame_tooLarge {m : Message} (hsize : ¬ m.size ≤ maxMessageSize) {w : List UInt8}
    (hw : 8 ≤ w.length) : nextFrame (m.header ++ w) = .ended tooLarge := by
  have hheader : headerSize ((m.header ++ w).take 16) = m.size := by
    rw [m.take_header, m.headerSize_header]
  rw [nextFrame, if_neg (by rw [List.length_append, m.length_header]; omega), hheader, if_pos hsize]

/-- What a round reads was a frame. -/
theorem frameOf_of_nextFrame {p rest : List UInt8} {m : Message}
    (h : nextFrame p = .message m rest) :
    ∃ f, m.FrameOf f ∧ m.size ≤ maxMessageSize ∧ p = f ++ rest := by
  rw [nextFrame] at h
  split at h
  · cases h
  rename_i hbuffer
  split at h
  · cases h
  rename_i hle
  split at h
  · cases h
  rename_i hlen
  cases h
  have hsize := not_not.mp hle
  have htake : (p.take 16).length = 16 := List.length_take_of_le (by omega)
  generalize hremaining : (remainingBytesWithPadding (headerSize (p.take 16))).toNat = remaining
  have hbytes := toNat_remaining hsize
  rw [hremaining] at hbytes
  have hframe : frameLength (headerSize (p.take 16)) = 16 + remaining := by
    rw [frameLength, hremaining]
  rw [hframe] at hlen ⊢
  have hcut : p.take 16 ++ (p.drop 16).take remaining = p.take (16 + remaining) := by
    rw [← List.take_add]
  have hdata : (p.take 16).drop 8 ++ (p.drop 16).take remaining =
      (p.take (16 + remaining)).drop 8 := by
    rw [← hcut, List.drop_append_of_le_length (by omega)]
  have hlength : ((p.take (16 + remaining)).drop 8).length = 8 + remaining := by
    rw [List.length_drop, List.length_take_of_le (by omega)]
    omega
  have hsame : (messageOf (p.take 16) ((p.drop 16).take remaining)).size =
      headerSize (p.take 16) := by
    apply UInt32.toNat_inj.mp
    rw [Message.toNat_size]
    show (((p.take 16).drop 8 ++ (p.drop 16).take remaining).take _).length = _
    rw [hdata, List.length_take_of_le (by omega)]
  refine ⟨p.take (16 + remaining), ⟨?_, ?_⟩, ?_, (List.take_append_drop _ _).symm⟩
  · rw [hsame, hframe, List.length_take_of_le (by omega)]
  · have hheader : (messageOf (p.take 16) ((p.drop 16).take remaining)).header =
        (p.take (16 + remaining)).take 8 := by
      rw [Message.header, hsame]
      show leBytes 4 _ ++ leBytes 4 (headerType (p.take 16)).toNat = _
      rw [leBytes_headerSize (by omega), List.take_take, List.take_take]
      congr 1
      omega
    rw [hheader]
    show (p.take (16 + remaining)).take 8 ++
      ((p.take 16).drop 8 ++ (p.drop 16).take remaining).take _ <+: _
    rw [hdata]
    have hjoin := List.take_append_drop 8 (p.take (16 + remaining))
    exact ⟨_, by rw [List.append_assoc, List.take_append_drop, hjoin]⟩
  · rw [hsame]
    exact hsize

/-- The frames that make up some plain text, up to what ends them. -/
theorem frames_of_messagesIn (p : List UInt8) :
    ∃ fs rest, List.Forall₂ (fun m f => m.FrameOf f ∧ m.size ≤ maxMessageSize) (messagesIn p).1 fs ∧
      p = fs.flatten ++ rest ∧ nextFrame rest = .ended (messagesIn p).2 := by
  have hlen : ∀ n, p.length ≤ n → ∃ fs rest,
      List.Forall₂ (fun m f => m.FrameOf f ∧ m.size ≤ maxMessageSize) (messagesIn p).1 fs ∧
        p = fs.flatten ++ rest ∧ nextFrame rest = .ended (messagesIn p).2 := by
    intro n
    induction n generalizing p with
    | zero =>
      intro hn
      obtain rfl := List.eq_nil_of_length_eq_zero (Nat.le_zero.mp hn)
      exact ⟨[], [], .nil, rfl, rfl⟩
    | succ n ih =>
      intro hn
      cases hnext : nextFrame p with
      | ended e =>
        rw [messagesIn_ended hnext]
        exact ⟨[], p, .nil, rfl, hnext⟩
      | message m rest =>
        have hshort := length_rest_of_nextFrame hnext
        obtain ⟨f, hf, hsize, rfl⟩ := frameOf_of_nextFrame hnext
        obtain ⟨fs, rest', hall, hrest, hend⟩ := ih rest (by omega)
        rw [messagesIn_message hnext]
        refine ⟨f :: fs, rest', .cons ⟨hf, hsize⟩ hall, ?_, hend⟩
        rw [List.flatten_cons, List.append_assoc, ← hrest]
  exact hlen p.length (Nat.le_refl _)

/-! ## What an end sends -/

namespace Message

theorem length_padded (m : Message) :
    m.padded.length = 16 + 16 * ((m.data.length + 7) / 16) := by
  simp only [padded, List.length_append, length_header, List.length_replicate, toNat_size]
  omega

theorem dvd_padded (m : Message) : 16 ∣ m.padded.length := by
  rw [length_padded]
  omega

theorem frameOf_padded {m : Message} (h : m.size ≤ maxMessageSize) : m.FrameOf m.padded where
  length := by rw [length_padded, frameLength, toNat_remaining h, toNat_size]
  content := List.prefix_append _ _

end Message

/-- The plain text of some messages. -/
def paddedAll (ms : List Message) : List UInt8 := ms.flatMap Message.padded

theorem dvd_paddedAll (ms : List Message) : 16 ∣ (paddedAll ms).length := by
  induction ms with
  | nil => exact Nat.dvd_zero 16
  | cons m ms ih =>
    rw [paddedAll, List.flatMap_cons, List.length_append]
    exact Nat.dvd_add m.dvd_padded ih

/-- A message of which not all has come. -/
theorem nextFrame_short {m : Message} {f p : List UInt8} (hf : m.FrameOf f)
    (hsize : m.size ≤ maxMessageSize) (hp : p <+: f) (hlt : p.length < f.length) :
    nextFrame p = .ended .eof := by
  by_cases hbuffer : p.length < 16
  · rw [nextFrame, if_pos hbuffer]
  · have hheader : m.header <+: p := by
      apply List.prefix_of_prefix_length_le ((List.prefix_append _ _).trans hf.content) hp
      rw [m.length_header]
      omega
    obtain ⟨w, rfl⟩ := hheader
    have hread : headerSize ((m.header ++ w).take 16) = m.size := by
      rw [m.take_header, m.headerSize_header]
    rw [nextFrame, if_neg hbuffer, hread, if_neg (not_not_intro hsize), ← hf.length, if_pos hlt]

/-- **What is sent is received.** Of the plain text of some messages, as much as has come is read as
the first of them, and as all of them where all has come and none is too large. -/
theorem messagesIn_of_prefix {ms : List Message} {p : List UInt8} (hp : p <+: paddedAll ms) :
    ∃ n ≤ ms.length, (messagesIn p).1 = ms.take n ∧
      ((∀ m ∈ ms, m.size ≤ maxMessageSize) →
        (messagesIn p).2 = .eof ∧ (p = paddedAll ms → n = ms.length)) := by
  induction ms generalizing p with
  | nil =>
    obtain rfl := List.prefix_nil.mp hp
    exact ⟨0, Nat.le_refl _, rfl, fun _ => ⟨rfl, fun _ => rfl⟩⟩
  | cons m ms ih =>
    have hall : paddedAll (m :: ms) = m.padded ++ paddedAll ms := rfl
    by_cases hsize : m.size ≤ maxMessageSize
    · have hf := Message.frameOf_padded hsize
      by_cases hwhole : m.padded.length ≤ p.length
      · -- The first message is there.
        obtain ⟨p', rfl⟩ :=
          List.prefix_of_prefix_length_le (hall ▸ List.prefix_append _ _) hp hwhole
        rw [hall, List.prefix_append_right_inj] at hp
        obtain ⟨n, hn, hms, hfit⟩ := ih hp
        rw [messagesIn_message (nextFrame_frame hf hsize p')]
        refine ⟨n + 1, Nat.succ_le_succ hn, ?_, ?_⟩
        · rw [List.take_succ_cons, hms]
        · intro hfits
          obtain ⟨heof, hcomplete⟩ := hfit fun m' hm' => hfits m' (List.mem_cons_of_mem _ hm')
          refine ⟨heof, fun heq => ?_⟩
          rw [hcomplete (List.append_cancel_left heq)]
          rfl
      · have hshort : p <+: m.padded :=
          List.prefix_of_prefix_length_le hp (hall ▸ List.prefix_append _ _) (by omega)
        rw [messagesIn_ended (nextFrame_short hf hsize hshort (by omega))]
        refine ⟨0, Nat.zero_le _, rfl, fun _ => ⟨rfl, ?_⟩⟩
        rintro rfl
        rw [hall, List.length_append] at hwhole
        omega
    · -- The message is too large, whether or not that can be seen.
      have hfits : ¬ ∀ m' ∈ m :: ms, m'.size ≤ maxMessageSize :=
        fun h => hsize (h m List.mem_cons_self)
      by_cases hbuffer : p.length < 16
      · have hend : nextFrame p = .ended .eof := by rw [nextFrame, if_pos hbuffer]
        rw [messagesIn_ended hend]
        exact ⟨0, Nat.zero_le _, rfl, fun h => absurd h hfits⟩
      · have hheader : m.header <+: p := by
          refine List.prefix_of_prefix_length_le ?_ hp (by rw [m.length_header]; omega)
          rw [hall, Message.padded, List.append_assoc, List.append_assoc]
          exact List.prefix_append _ _
        obtain ⟨w, rfl⟩ := hheader
        rw [List.length_append, m.length_header] at hbuffer
        rw [messagesIn_ended (nextFrame_tooLarge hsize (by omega))]
        exact ⟨0, Nat.zero_le _, rfl, fun h => absurd h hfits⟩

/-! ## The key exchange -/

namespace StcpSocket

variable [LinkCrypto]

/-- A context at the start of a connection. -/
def initialAes (secret : SharedSecret) : AesContext :=
  ⟨LinkCrypto.aesKey secret, LinkCrypto.aesInitValue secret⟩

/-- The bytes of an end's key. -/
def keyBytes (privKey : PrivateKey) : List UInt8 := leBytes 33 (LinkCrypto.publicKey privKey).toNat

theorem length_keyBytes (privKey : PrivateKey) : (keyBytes privKey).length = 33 :=
  length_leBytes _ _

theorem keyBytes_read (privKey : PrivateKey) :
    (.ofNat 264 (ofLeBytes (keyBytes privKey)) : PublicKey) = LinkCrypto.publicKey privKey := by
  have hlt := toNat_lt_pow (k := 33) (LinkCrypto.publicKey privKey)
  rw [keyBytes, ofLeBytes_leBytes hlt, BitVec.ofNat_toNat, BitVec.setWidth_eq]

/-- The exchange, up to the other end's key. -/
theorem run_doKeyExchange_read (privKey : PrivateKey) {s : StcpSocket} (hs : s.sock.Open) :
    (doKeyExchange privKey).run s =
      match (TcpSocket.read 33).run { s.sock with outgoing := s.sock.outgoing ++ keyBytes privKey } with
      | .error e t => .error e { s with sock := t }
      | .ok serializedKey t =>
        match LinkCrypto.sharedSecret privKey (.ofNat 264 (ofLeBytes serializedKey)) with
        | none => .error (.fc "secp256k1_ec_pubkey_tweak_mul") { s with sock := t }
        | some secret => .ok () { s with
            sock := t
            sharedSecret := secret
            sendAes := initialAes secret
            recvAes := initialAes secret } := by
  have hwrite : (TcpSocket.write (keyBytes privKey)).run s.sock =
      .ok () { s.sock with outgoing := s.sock.outgoing ++ keyBytes privKey } := by
    simp only [TcpSocket.write, EStateM.run, show s.sock.isOpen = true from hs, if_true]
  rw [doKeyExchange, EStateM.run_bind, onSock, show leBytes 33 _ = keyBytes privKey from rfl,
    run_onPart_ok hwrite]
  simp only [EStateM.run_bind]
  cases hread : (TcpSocket.read 33).run
      { s.sock with outgoing := s.sock.outgoing ++ keyBytes privKey } with
  | error e t =>
    have hon : (onSock (TcpSocket.read 33)).run { s with sock :=
        { s.sock with outgoing := s.sock.outgoing ++ keyBytes privKey } } =
        .error e { s with sock := t } := run_onPart_error hread
    simp only [hon]
  | ok serializedKey t =>
    have hon : (onSock (TcpSocket.read 33)).run { s with sock :=
        { s.sock with outgoing := s.sock.outgoing ++ keyBytes privKey } } =
        .ok serializedKey { s with sock := t } := run_onPart_ok hread
    simp only [hon]
    cases LinkCrypto.sharedSecret privKey (.ofNat 264 (ofLeBytes serializedKey)) with
    | none => rfl
    | some secret => rfl

/-- The exchange, where the other end's key has come. -/
theorem run_doKeyExchange {privKey : PrivateKey} {s : StcpSocket} (hs : s.sock.Open)
    (hlen : 33 ≤ s.sock.arrived.length) {secret : SharedSecret}
    (hsecret : LinkCrypto.sharedSecret privKey
      (.ofNat 264 (ofLeBytes (s.sock.arrived.take 33))) = some secret) :
    ∃ t : TcpSocket, (doKeyExchange privKey).run s = .ok () { s with
        sock := t
        sharedSecret := secret
        sendAes := initialAes secret
        recvAes := initialAes secret } ∧
      t.Open ∧ t.arrived = s.sock.arrived.drop 33 ∧
      t.outgoing = s.sock.outgoing ++ keyBytes privKey := by
  have hkeeps : ∀ n, Keeps (fun t : TcpSocket => t.outgoing = s.sock.outgoing ++ keyBytes privKey)
      (TcpSocket.readsome n) := by
    intro n t ht
    simp only [TcpSocket.readsome, EStateM.run]
    split
    · split <;> exact ht
    · exact ht
  obtain ⟨t, hread, ht, hrest⟩ := TcpSocket.read_allOf.enough
    (s := { s.sock with outgoing := s.sock.outgoing ++ keyBytes privKey }) hs (Nat.one_dvd _) hlen
  refine ⟨t, ?_, ht, hrest, (keeps_readFully hkeeps 33).of_ok rfl hread⟩
  rw [run_doKeyExchange_read privKey hs, hread]
  have hkey : LinkCrypto.sharedSecret privKey (.ofNat 264 (ofLeBytes (TcpSocket.arrived
      { s.sock with outgoing := s.sock.outgoing ++ keyBytes privKey } |>.take 33))) = some secret :=
    hsecret
  simp only [hkey]

end StcpSocket

/-! ## A connection -/

theorem eq_of_ended {p : List UInt8} {e : LinkExc} (h : nextFrame p = .ended e) :
    e = .eof ∨ e = tooLarge := by
  rw [nextFrame] at h
  split at h
  · cases h
    exact .inl rfl
  · split at h
    · cases h
      exact .inr rfl
    · split at h
      · cases h
        exact .inl rfl
      · cases h

namespace MessageConnection

variable [LinkCrypto] {δ : Type} {c : MessageConnection δ}

/-- The plain text in the bytes of a connection, with a secret. -/
def plainText (secret : SharedSecret) (bytes : List UInt8) : List UInt8 :=
  (decipherBytes (decipher (LinkCrypto.aesKey secret)) (LinkCrypto.aesInitValue secret)
    (bytes.drop 33)).1

/-- The secret that an end makes of its key and what came first. -/
def secretWith (privKey : PrivateKey) (bytes : List UInt8) : Option SharedSecret :=
  LinkCrypto.sharedSecret privKey (.ofNat 264 (ofLeBytes (bytes.take 33)))

/-- A connection on which no key came. -/
theorem accept_short (d : ConnectionDelegate δ) (privKey : PrivateKey) (hc : c.Open)
    (hlt : c.sock.sock.arrived.length < 33) :
    ∃ c', (accept d privKey).run c = .error .eof c' ∧ c'.delegate = c.delegate := by
  obtain ⟨t, hread⟩ := TcpSocket.read_allOf.short
    (s := { c.sock.sock with outgoing := c.sock.sock.outgoing ++ StcpSocket.keyBytes privKey }) hc
    (Nat.one_dvd 33) hlt
  have hexchange := StcpSocket.run_doKeyExchange_read privKey (s := c.sock) hc
  rw [hread] at hexchange
  refine ⟨{ c with sock := { c.sock with sock := t } }, ?_, rfl⟩
  rw [accept, EStateM.run_bind, onSock, run_onPart_error hexchange]

/-- A connection on which something came that is no key. -/
theorem accept_noSecret (d : ConnectionDelegate δ) (privKey : PrivateKey) (hc : c.Open)
    (hlen : 33 ≤ c.sock.sock.arrived.length)
    (hsecret : secretWith privKey c.sock.sock.arrived = none) :
    ∃ c', (accept d privKey).run c = .error (.fc "secp256k1_ec_pubkey_tweak_mul") c' ∧
      c'.delegate = c.delegate := by
  obtain ⟨t, hread, -, -⟩ := TcpSocket.read_allOf.enough
    (s := { c.sock.sock with outgoing := c.sock.sock.outgoing ++ StcpSocket.keyBytes privKey }) hc
    (Nat.one_dvd 33) hlen
  have hexchange := StcpSocket.run_doKeyExchange_read privKey (s := c.sock) hc
  have hkey : LinkCrypto.sharedSecret privKey (.ofNat 264 (ofLeBytes (TcpSocket.arrived
      { c.sock.sock with outgoing := c.sock.sock.outgoing ++ StcpSocket.keyBytes privKey } |>.take
        33))) = none := hsecret
  rw [hread] at hexchange
  simp only [hkey] at hexchange
  refine ⟨{ c with sock := { c.sock with sock := t } }, ?_, rfl⟩
  rw [accept, EStateM.run_bind, onSock, run_onPart_error hexchange]

/-- A connection on which a key came. -/
theorem accept_corresponds (d : ConnectionDelegate δ) {privKey : PrivateKey} (hc : c.Open)
    (hlen : 33 ≤ c.sock.sock.arrived.length) {secret : SharedSecret}
    (hsecret : secretWith privKey c.sock.sock.arrived = some secret) :
    Corresponds Delegates ((accept d privKey).run c)
      ((d.attend (messagesIn (plainText secret c.sock.sock.arrived)).1
        (messagesIn (plainText secret c.sock.sock.arrived)).2).run c.delegate) := by
  obtain ⟨t, hexchange, ht, hrest, -⟩ := StcpSocket.run_doKeyExchange hc hlen hsecret
  rw [accept, EStateM.run_bind, onSock, run_onPart_ok hexchange]
  have hloop := readLoop_corresponds (d := d) (c := { c with sock := { c.sock with
    sock := t
    sharedSecret := secret
    sendAes := StcpSocket.initialAes secret
    recvAes := StcpSocket.initialAes secret } }) ht
  have hplain : StcpSocket.plain { c.sock with
      sock := t
      sharedSecret := secret
      sendAes := StcpSocket.initialAes secret
      recvAes := StcpSocket.initialAes secret } = plainText secret c.sock.sock.arrived := by
    rw [StcpSocket.plain, plainText, hrest]
    rfl
  rw [hplain] at hloop
  exact hloop

/-- **A connection delivers what is in its bytes**, whatever the other end put there and in whatever
pieces it came. Either no key came first, or none that makes a secret, and the delegate hears of
nothing. Or the delegate is served with exactly the messages that the plain text is made of, none
larger than `MAX_MESSAGE_SIZE`, up to where the text breaks off or announces one that is too large. -/
theorem accept_serves (d : ConnectionDelegate δ) (privKey : PrivateKey) (bytes : List UInt8) :
    ((bytes.length < 33 ∨ secretWith privKey bytes = none) ∧
      ∃ e, ∀ c : MessageConnection δ, c.Open → c.sock.sock.arrived = bytes →
        ∃ c', (accept d privKey).run c = .error e c' ∧ c'.delegate = c.delegate) ∨
    ∃ secret ms fs rest e, secretWith privKey bytes = some secret ∧
      List.Forall₂ (fun m f => m.FrameOf f ∧ m.data.length ≤ maxMessageSize.toNat) ms fs ∧
      plainText secret bytes = fs.flatten ++ rest ∧ nextFrame rest = .ended e ∧
      (e = .eof ∨ e = tooLarge) ∧
      ∀ c : MessageConnection δ, c.Open → c.sock.sock.arrived = bytes →
        Corresponds Delegates ((accept d privKey).run c) ((d.attend ms e).run c.delegate) := by
  by_cases hlen : bytes.length < 33
  · refine .inl ⟨.inl hlen, .eof, ?_⟩
    rintro c hc rfl
    exact accept_short d privKey hc hlen
  cases hsecret : secretWith privKey bytes with
  | none =>
    refine .inl ⟨.inr rfl, .fc "secp256k1_ec_pubkey_tweak_mul", ?_⟩
    rintro c hc rfl
    exact accept_noSecret d privKey hc (Nat.not_lt.mp hlen) hsecret
  | some secret =>
    obtain ⟨fs, rest, hall, hplain, hend⟩ := frames_of_messagesIn (plainText secret bytes)
    refine .inr ⟨secret, (messagesIn (plainText secret bytes)).1, fs, rest,
      (messagesIn (plainText secret bytes)).2, rfl, ?_, hplain, hend, eq_of_ended hend, ?_⟩
    · refine hall.imp fun m f hf => ⟨hf.1, ?_⟩
      rw [← m.toNat_size]
      exact UInt32.le_iff_toNat_le.mp hf.2
    · rintro c hc rfl
      exact accept_corresponds d hc (Nat.not_lt.mp hlen) hsecret

end MessageConnection

end NewsChain
