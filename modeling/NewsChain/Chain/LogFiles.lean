import NewsChain.Base.Raw

/-!
# The files of the block log

`block_log` as it works on its two files: the blocks, each followed by the position it starts at,
and the index of these positions. `BlockLog` is what the rest of the chain needs to know of it.

A stream is opened for appending or for reading and is opened again to change over. Its exceptions
are on, and nothing clears its state but that: a stream that has run off its file stays failed.
-/

namespace NewsChain

open Raw (pack unpack)

variable {α : Type}

/-! ## Streams -/

/-- A `std::fstream` with `exceptions( failbit | badbit )` and the bytes of its file. `write` is
the mode it was opened in last. -/
structure FileStream where
  bytes : List UInt8 := []
  write : Bool := true
  failed : Bool := false

abbrev StreamM := EStateM Exc FileStream

namespace FileStream

/-- `check_block_read` and `check_index_read`. Opening a stream clears its state. -/
def checkRead (f : FileStream) : FileStream :=
  if f.write then { bytes := f.bytes, write := false } else f

/-- `check_block_write` and `check_index_write`. -/
def checkWrite (f : FileStream) : FileStream :=
  if f.write then f else { bytes := f.bytes, write := true }

/-- `seekg( pos )`, a reader, and `tellg()`. A failed stream throws at once. -/
def readAt (pos : Nat) (m : Decoder Exc α) : StreamM (α × Nat) := fun f =>
  if f.failed then .error outOfBytes f
  else
    match m.run (f.bytes.drop pos) with
    | .ok a rest => .ok (a, f.bytes.length - rest.length) f
    | .error e _ => .error e { f with failed := e = outOfBytes }

/-- `write`, in append mode. -/
def append (data : List UInt8) (f : FileStream) : FileStream :=
  { f with bytes := f.bytes ++ data }

end FileStream

/-! ## The log -/

/-- `block_log_impl`. -/
structure LogFiles where
  head : Option SignedBlock := none
  block : FileStream := {}
  index : FileStream := {}

abbrev LogM := EStateM Exc LogFiles

/-- A call on `block_stream`. -/
def onBlock (m : StreamM α) : LogM α := fun s =>
  match m.run s.block with
  | .ok a f => .ok a { s with block := f }
  | .error e f => .error e { s with block := f }

/-- A call on `index_stream`. -/
def onIndex (m : StreamM α) : LogM α := fun s =>
  match m.run s.index with
  | .ok a f => .ok a { s with index := f }
  | .error e f => .error e { s with index := f }

namespace LogFiles

/-- `npos`. -/
def npos : Nat := 2 ^ 64 - 1

/-- A `uint64_t` of a file. -/
def readPos : Decoder Exc Nat := readLe outOfBytes 8

/-- `append`. The number before the block's is computed in 32 bits. -/
def append (b : SignedBlock) : LogM Nat := do
  modify fun s => { s with block := s.block.checkWrite, index := s.index.checkWrite }
  let pos := (← get).block.bytes.length
  fcAssert ((← get).index.bytes.length = 8 * ((b.blockNum + 2 ^ 32 - 1) % 2 ^ 32))
    "Append to index file occuring at wrong position."
  modify fun s =>
    { head := some b
      block := (s.block.append (pack b)).append (leBytes 8 pos)
      index := s.index.append (leBytes 8 pos) }
  pure pos

/-- `flush`: what is read is read through the same streams, so a buffer is never seen. -/
def flush : LogM Unit := pure ()

/-- `read_block_helper`: the block at a position, and the position of the next. -/
def readBlockHelper (pos : Nat) : LogM (SignedBlock × Nat) := do
  modify fun s => { s with block := s.block.checkRead }
  let r ← onBlock (FileStream.readAt pos unpack)
  pure (r.1, r.2 + 8)

/-- `read_block`. -/
def readBlock (pos : Nat) : LogM (SignedBlock × Nat) := readBlockHelper pos

variable [Env]

/-- `get_block_pos_helper`. -/
def getBlockPosHelper (blockNum : Nat) : LogM Nat := do
  modify fun s => { s with index := s.index.checkRead }
  match (← get).head with
  | none => pure npos
  | some head =>
    if blockNum ≤ numFromId head.id ∧ 0 < blockNum then do
      let r ← onIndex (FileStream.readAt (8 * (blockNum - 1)) readPos)
      pure r.1
    else pure npos

/-- `get_block_pos`. -/
def getBlockPos (blockNum : Nat) : LogM Nat := getBlockPosHelper blockNum

/-- `read_block_by_num`. -/
def readBlockByNum (blockNum : Nat) : LogM (Option SignedBlock) := do
  let pos ← getBlockPosHelper blockNum
  if pos = npos then pure none
  else do
    let r ← readBlockHelper pos
    fcAssert (r.1.blockNum = blockNum) "Wrong block was read from block log."
    pure (some r.1)

omit [Env] in
/-- `read_head`. A file without the eight bytes fails the stream. -/
def readHead : LogM SignedBlock := do
  modify fun s => { s with block := s.block.checkRead }
  let size := (← get).block.bytes.length
  let pos ← onBlock (FileStream.readAt (size - 8) readPos)
  let r ← readBlockHelper pos.1
  pure r.1

/-- The linear walk: `count` blocks, each read where the one before it says. -/
def walk : Nat → Nat → LogM (List SignedBlock)
  | 0, _ => pure []
  | count + 1, pos => do
    let r ← readBlock pos
    let rest ← walk count r.2
    pure (r.1 :: rest)

end LogFiles

end NewsChain
