import NewsChain.Chain.BlockLog
import NewsChain.Chain.LogFiles
import NewsChain.Laws.RawRoundTrip

/-!
# The block log answers as it was written

`LogHolds` says what the two files contain after some appends: the block file is its blocks, each
with its position behind it, and the index is these positions. Random access, access from the end
and the linear walk all find a block at the length of what was written before it
(`readBlock_at`).

Everything that is read goes through one stream, and a read that runs off the file leaves it failed
until the next append. `logRun_answers_iff` says that this is all that can go wrong, up to the last
block number there is.
-/

namespace NewsChain

open EStateM (Result)
open Raw (pack unpack)
open LogFiles

/-! ## The layout -/

/-- The block file after some appends. -/
def blockBytes (blocks : List SignedBlock) : List UInt8 :=
  blocks.foldl (fun bytes b => bytes ++ (pack b ++ leBytes 8 bytes.length)) []

/-- Where the `i`-th block starts. -/
def posOf (blocks : List SignedBlock) (i : Nat) : Nat := (blockBytes (blocks.take i)).length

/-- The index file. -/
def indexBytes (blocks : List SignedBlock) : List UInt8 :=
  (List.range blocks.length).flatMap fun i => leBytes 8 (posOf blocks i)

section Layout

variable {blocks : List SignedBlock} {b : SignedBlock} {i : Nat}

@[simp] theorem blockBytes_concat (blocks : List SignedBlock) (b : SignedBlock) :
    blockBytes (blocks ++ [b]) =
      blockBytes blocks ++ (pack b ++ leBytes 8 (blockBytes blocks).length) := by
  simp [blockBytes]

theorem blockBytes_prefix (blocks rest : List SignedBlock) :
    blockBytes blocks <+: blockBytes (blocks ++ rest) := by
  induction rest using List.reverseRecOn with
  | nil => simp
  | append_singleton rest b ih =>
    rw [← List.append_assoc, blockBytes_concat]
    exact ih.trans (List.prefix_append _ _)

theorem posOf_length (blocks : List SignedBlock) :
    posOf blocks blocks.length = (blockBytes blocks).length := by
  rw [posOf, List.take_length]

theorem posOf_concat (h : i ≤ blocks.length) : posOf (blocks ++ [b]) i = posOf blocks i := by
  rw [posOf, List.take_append_of_le_length h, posOf]

/-- The bytes of the `i`-th block, with its position, between what was written before and after. -/
theorem blockBytes_split (h : blocks[i]? = some b) :
    ∃ rest, blockBytes blocks =
      blockBytes (blocks.take i) ++ (pack b ++ (leBytes 8 (posOf blocks i) ++ rest)) := by
  obtain ⟨hi, rfl⟩ := List.getElem?_eq_some_iff.mp h
  obtain ⟨rest, hrest⟩ := blockBytes_prefix (blocks.take (i + 1)) (blocks.drop (i + 1))
  rw [List.take_append_drop, List.take_succ_eq_append_getElem hi, blockBytes_concat] at hrest
  refine ⟨rest, ?_⟩
  rw [← hrest, posOf]
  simp only [List.append_assoc]

theorem posOf_succ (h : blocks[i]? = some b) :
    posOf blocks (i + 1) = posOf blocks i + (pack b).length + 8 := by
  obtain ⟨hi, rfl⟩ := List.getElem?_eq_some_iff.mp h
  rw [posOf, List.take_succ_eq_append_getElem hi, blockBytes_concat, posOf]
  simp only [List.length_append, length_leBytes]
  omega

theorem posOf_le (blocks : List SignedBlock) (i : Nat) :
    posOf blocks i ≤ (blockBytes blocks).length := by
  have hprefix := blockBytes_prefix (blocks.take i) (blocks.drop i)
  rw [List.take_append_drop] at hprefix
  exact hprefix.length_le

@[simp] theorem indexBytes_length (blocks : List SignedBlock) :
    (indexBytes blocks).length = 8 * blocks.length := by
  simp [indexBytes, List.length_flatMap, Nat.mul_comm]

theorem indexBytes_concat (blocks : List SignedBlock) (b : SignedBlock) :
    indexBytes (blocks ++ [b]) = indexBytes blocks ++ leBytes 8 (blockBytes blocks).length := by
  have hold : (List.range blocks.length).flatMap (fun i => leBytes 8 (posOf (blocks ++ [b]) i)) =
      indexBytes blocks :=
    List.flatMap_congr fun i hi => by
      rw [posOf_concat (Nat.le_of_lt (List.mem_range.mp hi))]
  rw [indexBytes, List.length_append, List.length_singleton, List.range_succ, List.flatMap_append,
    hold, List.flatMap_singleton, posOf_concat (Nat.le_refl _), posOf_length]

/-- The index has the position of the `i`-th block at `8 * i`. -/
theorem indexBytes_drop (blocks : List SignedBlock) {i : Nat} (h : i < blocks.length) :
    ∃ rest, (indexBytes blocks).drop (8 * i) = leBytes 8 (posOf blocks i) ++ rest := by
  have hlen : i < (List.range blocks.length).length := by rwa [List.length_range]
  rw [indexBytes, drop_flatMap (k := 8) (fun _ _ => length_leBytes _ _),
    List.drop_eq_getElem_cons hlen, List.flatMap_cons, List.getElem_range]
  exact ⟨_, rfl⟩

/-- The block file ends with the position of the last block. -/
theorem blockBytes_last (h : blocks ≠ []) :
    ∃ front, blockBytes blocks = front ++ leBytes 8 (posOf blocks (blocks.length - 1)) := by
  obtain ⟨init, b, rfl⟩ := (List.eq_nil_or_concat' blocks).resolve_left h
  refine ⟨blockBytes init ++ pack b, ?_⟩
  rw [blockBytes_concat, List.length_append, List.length_singleton,
    Nat.add_sub_cancel, posOf_concat (Nat.le_refl _), posOf_length, List.append_assoc]

end Layout

/-! ## Streams -/

namespace FileStream

variable (f : FileStream)

@[simp] theorem checkRead_bytes : f.checkRead.bytes = f.bytes := by unfold checkRead; split <;> rfl
@[simp] theorem checkWrite_bytes : f.checkWrite.bytes = f.bytes := by
  unfold checkWrite; split <;> rfl

@[simp] theorem checkWrite_write : f.checkWrite.write = true := by
  unfold checkWrite
  split
  · assumption
  · rfl

@[simp] theorem checkRead_write : f.checkRead.write = false := by
  unfold checkRead
  split
  · rfl
  · simp_all

@[simp] theorem checkRead_checkRead : f.checkRead.checkRead = f.checkRead := by
  rw [checkRead, if_neg (by simp)]

/-- A stream that has not failed stays so; one that was appended to is opened anew. -/
theorem checkRead_failed (h : f.write = true → f.failed = false) :
    f.checkRead.failed = f.failed := by
  unfold checkRead
  split
  · exact (h ‹_›).symm
  · rfl

theorem checkWrite_failed (h : f.write = true → f.failed = false) : f.checkWrite.failed = false := by
  unfold checkWrite
  split
  · exact h ‹_›
  · rfl

/-- A reader that finds its bytes at a position answers, with the position behind them. -/
theorem run_readAt {α : Type} {m : Decoder Exc α} {bs rest : List UInt8} {a : α} {pos : Nat}
    {f : FileStream} (hm : Decodes bs m a) (hf : f.failed = false)
    (h : f.bytes.drop pos = bs ++ rest) (hpos : pos ≤ f.bytes.length) :
    (readAt pos m).run f = .ok (a, pos + bs.length) f := by
  have hlength := congrArg List.length h
  rw [List.length_drop, List.length_append] at hlength
  show readAt pos m f = _
  have hrun : m (bs ++ rest) = .ok a rest := hm rest
  simp only [readAt, hf, Bool.false_eq_true, if_false, h, EStateM.run, hrun]
  congr 2
  omega

/-- The position a file ends with. -/
theorem run_readEnd {front : List UInt8} {pos : Nat} {f : FileStream} (hf : f.failed = false)
    (h : f.bytes = front ++ leBytes 8 pos) (hpos : pos < 2 ^ 64) :
    (readAt (f.bytes.length - 8) readPos).run f = .ok (pos, f.bytes.length) f := by
  have hlength : f.bytes.length = front.length + 8 := by
    rw [h, List.length_append, length_leBytes]
  have hdrop : f.bytes.drop (f.bytes.length - 8) = leBytes 8 pos ++ [] := by
    rw [hlength, Nat.add_sub_cancel, h, List.drop_left, List.append_nil]
  have hread := run_readAt (decodes_readLe outOfBytes (by omega)) hf hdrop (by omega)
  rwa [length_leBytes, Nat.sub_add_cancel (by omega)] at hread

/-- A failed stream is read from by nothing. -/
theorem run_readAt_failed {α : Type} {m : Decoder Exc α} {pos : Nat} {f : FileStream}
    (hf : f.failed = true) : (readAt pos m).run f = .error outOfBytes f := by
  show readAt pos m f = _
  simp only [readAt, hf, if_true]

/-- No reader writes or changes over. -/
theorem readAt_keeps {α : Type} (m : Decoder Exc α) (pos : Nat) (bytes : List UInt8) (write : Bool) :
    Keeps (fun f => f.bytes = bytes ∧ f.write = write) (readAt pos m) := by
  intro f hf
  show (finalState (readAt pos m f)).bytes = bytes ∧ (finalState (readAt pos m f)).write = write
  unfold readAt
  split
  · exact hf
  · split
    · exact hf
    · exact hf

end FileStream

/-! ## What the files hold -/

/-- The blocks of a log: numbered from 1, each read back from its bytes, in a file whose positions
have 64 bits. -/
structure Loggable (blocks : List SignedBlock) : Prop where
  numbered : ∀ i b, blocks[i]? = some b → b.blockNum = i + 1
  lossless : ∀ b ∈ blocks, Decodes (pack b) unpack b
  offsets : (blockBytes blocks).length < 2 ^ 64

theorem Loggable.nil : Loggable [] :=
  ⟨fun _ _ h => by simp at h, fun _ h => by simp at h, by decide⟩

/-- A log goes on with the block of the next number. -/
theorem Loggable.concat {blocks : List SignedBlock} {b : SignedBlock} (h : Loggable blocks)
    (hnum : b.blockNum = blocks.length + 1) (hlossless : Decodes (pack b) unpack b)
    (hoffsets : (blockBytes (blocks ++ [b])).length < 2 ^ 64) : Loggable (blocks ++ [b]) where
  numbered i c hc := by
    rw [List.getElem?_append] at hc
    split at hc
    · exact h.numbered i c hc
    · obtain ⟨hi, rfl⟩ := List.getElem?_eq_some_iff.mp hc
      simp only [List.length_singleton] at hi
      simp only [List.getElem_singleton]
      omega
  lossless c hc := by
    rcases List.mem_append.mp hc with hc | hc
    · exact h.lossless c hc
    · exact List.mem_singleton.mp hc ▸ hlossless
  offsets := hoffsets

/-- The block file holds these blocks, whatever the index is. -/
structure BlockHolds (blocks : List SignedBlock) (s : LogFiles) : Prop where
  loggable : Loggable blocks
  block : s.block.bytes = blockBytes blocks
  writable : s.block.write = true → s.block.failed = false

/-- The files hold these blocks. A stream that is appended to, and that of the index, has not
failed. -/
structure LogHolds (blocks : List SignedBlock) (s : LogFiles) : Prop where
  loggable : Loggable blocks
  head : s.head = blocks.getLast?
  block : s.block.bytes = blockBytes blocks
  index : s.index.bytes = indexBytes blocks
  writable : s.block.write = true → s.block.failed = false
  indexed : s.index.failed = false

/-- The stream at the start of a read. -/
def LogHolds.reading (s : LogFiles) : LogFiles := { s with block := s.block.checkRead }

open LogHolds (reading)

theorem run_onBlock {α : Type} (m : StreamM α) (s : LogFiles) :
    (onBlock m).run s =
      match m.run s.block with
      | .ok a f => .ok a { s with block := f }
      | .error e f => .error e { s with block := f } := rfl

theorem run_onIndex {α : Type} (m : StreamM α) (s : LogFiles) :
    (onIndex m).run s =
      match m.run s.index with
      | .ok a f => .ok a { s with index := f }
      | .error e f => .error e { s with index := f } := rfl

namespace BlockHolds

variable {blocks : List SignedBlock} {s : LogFiles} {b : SignedBlock}

theorem read (h : BlockHolds blocks s) : BlockHolds blocks (reading s) where
  loggable := h.loggable
  block := s.block.checkRead_bytes.trans h.block
  writable hw := by simp [reading] at hw

theorem read_ok (h : BlockHolds blocks s) (hok : s.block.failed = false) :
    (reading s).block.failed = false :=
  (FileStream.checkRead_failed _ h.writable).trans hok

/-- The position of a block has 64 bits. -/
theorem posOf_lt (h : BlockHolds blocks s) (i : Nat) : posOf blocks i < 2 ^ 64 :=
  Nat.lt_of_le_of_lt (posOf_le blocks i) h.loggable.offsets

/-- **A block is read where it starts**, and the next starts where the read ends. -/
theorem run_readBlock (h : BlockHolds blocks s) (hok : s.block.failed = false) {i : Nat}
    (hb : blocks[i]? = some b) :
    (readBlock (posOf blocks i)).run s = .ok (b, posOf blocks (i + 1)) (reading s) := by
  obtain ⟨rest, hsplit⟩ := blockBytes_split hb
  have hbytes : (reading s).block.bytes = blockBytes blocks := h.read.block
  have hread : (FileStream.readAt (posOf blocks i) (unpack : Decoder Exc SignedBlock)).run
      (reading s).block = .ok (b, posOf blocks i + (pack b).length) (reading s).block := by
    have hdrop : (reading s).block.bytes.drop (posOf blocks i) =
        pack b ++ (leBytes 8 (posOf blocks i) ++ rest) := by
      rw [hbytes, hsplit, posOf, List.drop_left]
    exact FileStream.run_readAt (h.loggable.lossless b (List.mem_of_getElem? hb)) (h.read_ok hok)
      hdrop (hbytes ▸ posOf_le _ _)
  have hfirst : (modify fun s : LogFiles => { s with block := s.block.checkRead } : LogM Unit).run s =
      .ok () (reading s) := rfl
  simp only [readBlock, readBlockHelper, EStateM.run_bind, hfirst, run_onBlock, hread,
    EStateM.run_pure, posOf_succ hb]

/-- The last eight bytes are the position of the last block. -/
theorem run_readLast (h : BlockHolds blocks s) (hok : s.block.failed = false) (hne : blocks ≠ []) :
    (FileStream.readAt (s.block.bytes.length - 8) readPos).run s.block =
      .ok (posOf blocks (blocks.length - 1), s.block.bytes.length) s.block := by
  obtain ⟨front, hfront⟩ := blockBytes_last hne
  exact FileStream.run_readEnd hok (h.block.trans hfront) (h.posOf_lt _)

/-- `read_head`, where the block stream has not failed. -/
theorem run_readHead (h : BlockHolds blocks s) (hok : s.block.failed = false)
    (hb : blocks.getLast? = some b) : readHead.run s = .ok b (reading s) := by
  have hne : blocks ≠ [] := by
    rintro rfl
    simp at hb
  have hlast := h.read.run_readLast (h.read_ok hok) hne
  rw [List.getLast?_eq_getElem?] at hb
  have hblock := h.read.run_readBlock (h.read_ok hok) hb
  have hfirst : (modify fun s : LogFiles => { s with block := s.block.checkRead } : LogM Unit).run s =
      .ok () (reading s) := rfl
  have htwice : reading (reading s) = reading s := by
    simp only [reading, FileStream.checkRead_checkRead]
  simp only [readBlock] at hblock
  simp only [readHead, EStateM.run_bind, hfirst, EStateM.run_get, run_onBlock, hlast]
  rw [show ({ reading s with block := (reading s).block } : LogFiles) = reading s from rfl, hblock,
    htwice]
  rfl

end BlockHolds

namespace LogHolds

variable {blocks : List SignedBlock} {s : LogFiles} {b : SignedBlock}

/-- Nothing is written yet. -/
theorem empty : LogHolds [] {} where
  loggable := .nil
  head := rfl
  block := rfl
  index := rfl
  writable := fun _ => rfl
  indexed := rfl

/-- The streams may be opened again, and the block stream may fail while it is read. -/
theorem reopened (h : LogHolds blocks s) {f g : FileStream} (hf : f.bytes = s.block.bytes)
    (hfw : f.write = true → f.failed = false) (hg : g.bytes = s.index.bytes)
    (hgf : g.failed = false) : LogHolds blocks { s with block := f, index := g } where
  loggable := h.loggable
  head := h.head
  block := hf.trans h.block
  index := hg.trans h.index
  writable := hfw
  indexed := hgf

theorem blockNum_head (h : LogHolds blocks s) {b : SignedBlock} (hb : s.head = some b) :
    b.blockNum = blocks.length := by
  rw [h.head, List.getLast?_eq_getElem?] at hb
  have hpos := (List.getElem?_eq_some_iff.mp hb).1
  rw [h.loggable.numbered _ _ hb]
  omega

/-- There are no more blocks than numbers. -/
theorem length_lt (h : LogHolds blocks s) : blocks.length < 2 ^ 32 := by
  cases hb : s.head with
  | none =>
    rw [h.head, List.getLast?_eq_none_iff] at hb
    simp [hb]
  | some b => exact h.blockNum_head hb ▸ b.blockNum_lt

/-! ## Reading a position -/

theorem read (h : LogHolds blocks s) : LogHolds blocks (reading s) :=
  h.reopened s.block.checkRead_bytes (fun hw => by simp at hw) rfl h.indexed

theorem blockHolds (h : LogHolds blocks s) : BlockHolds blocks s :=
  ⟨h.loggable, h.block, h.writable⟩

/-- **A block is read where it starts**, and the next starts where the read ends. -/
theorem run_readBlock (h : LogHolds blocks s) (hok : s.block.failed = false) {i : Nat}
    (hb : blocks[i]? = some b) :
    (readBlock (posOf blocks i)).run s = .ok (b, posOf blocks (i + 1)) (reading s) :=
  h.blockHolds.run_readBlock hok hb

/-- The files hold the blocks, and the block stream is open for reading. -/
def Reading (blocks : List SignedBlock) (s : LogFiles) : Prop :=
  LogHolds blocks s ∧ s.block.write = false

theorem reading_read (h : LogHolds blocks s) : Reading blocks (reading s) :=
  ⟨h.read, FileStream.checkRead_write _⟩

theorem onBlock_keeps_reading {α : Type} (m : Decoder Exc α) (pos : Nat) :
    Keeps (Reading blocks) (onBlock (FileStream.readAt pos m)) := by
  intro s ⟨h, hmode⟩
  have hread := FileStream.readAt_keeps m pos s.block.bytes false s.block ⟨rfl, hmode⟩
  have hreopened : ∀ f : FileStream, f.bytes = s.block.bytes ∧ f.write = false →
      Reading blocks { s with block := f } := fun f hf =>
    ⟨h.reopened hf.1 (fun hw => by rw [hf.2] at hw; cases hw) rfl h.indexed, hf.2⟩
  rw [run_onBlock]
  cases hrun : (FileStream.readAt pos m).run s.block with
  | ok r f =>
    rw [hrun] at hread
    exact hreopened f hread
  | error e f =>
    rw [hrun] at hread
    exact hreopened f hread

theorem readBlock_keeps_reading (pos : Nat) : Keeps (Reading blocks) (readBlock pos) :=
  (Keeps.modify fun _ h => h.1.reading_read).bind fun _ =>
    (onBlock_keeps_reading _ _).bind fun _ => .pure _

/-- What first opens the block stream for reading keeps the files. -/
theorem keeps_of_reading {α : Type} {m : Unit → LogM α} (hm : Keeps (Reading blocks) (m ())) :
    Keeps (LogHolds blocks)
      ((modify fun s => { s with block := s.block.checkRead }) >>= m) := fun s h =>
  (hm (reading s) h.reading_read).1

theorem readBlock_keeps (pos : Nat) : Keeps (LogHolds blocks) (readBlock pos) :=
  keeps_of_reading ((onBlock_keeps_reading _ _).bind fun _ => .pure _)

theorem readHead_keeps : Keeps (LogHolds blocks) readHead :=
  keeps_of_reading (Keeps.get.bind fun _ => (onBlock_keeps_reading _ _).bind fun r =>
    (readBlock_keeps_reading r.1).bind fun _ => .pure _)

/-! ## Reading a number -/

variable [Env]

/-- `get_block_pos` cannot throw. -/
theorem run_getBlockPos (h : LogHolds blocks s) (num : Nat) :
    (getBlockPos num).run s =
      .ok (if 0 < num ∧ num ≤ blocks.length then posOf blocks (num - 1) else npos)
        { s with index := s.index.checkRead } := by
  have hfirst : (modify fun s : LogFiles => { s with index := s.index.checkRead } : LogM Unit).run s =
      .ok () { s with index := s.index.checkRead } := rfl
  simp only [getBlockPos, getBlockPosHelper, EStateM.run_bind, hfirst, EStateM.run_get]
  cases hhead : s.head with
  | none =>
    have hnil : blocks = [] := by
      rw [h.head, List.getLast?_eq_none_iff] at hhead
      exact hhead
    rw [if_neg (by simp [hnil]; omega)]
    rfl
  | some b =>
    have hnum : numFromId b.id = blocks.length := by
      rw [numFromId_id]
      exact h.blockNum_head hhead
    by_cases hin : 0 < num ∧ num ≤ blocks.length
    · obtain ⟨rest, hdrop⟩ := indexBytes_drop blocks (i := num - 1) (by omega)
      have hpos := posOf_le blocks (num - 1)
      have hoffsets := h.loggable.offsets
      have hread : (FileStream.readAt (8 * (num - 1)) readPos).run s.index.checkRead =
          .ok (posOf blocks (num - 1), 8 * (num - 1) + 8) s.index.checkRead := by
        have hbytes : s.index.checkRead.bytes = indexBytes blocks := by
          rw [FileStream.checkRead_bytes, h.index]
        refine FileStream.run_readAt (decodes_readLe outOfBytes (by omega))
          ((FileStream.checkRead_failed _ fun _ => h.indexed).trans h.indexed) (by rw [hbytes, hdrop])
          ?_
        rw [hbytes, indexBytes_length]
        omega
      simp only [hnum, if_pos hin, if_pos hin.symm, EStateM.run_bind, run_onIndex, hread]
      rfl
    · simp only [hnum, if_neg hin, if_neg fun hswap => hin (And.symm hswap)]
      rfl

/-- `read_block_by_num`, where the block stream has not failed. -/
theorem run_readBlockByNum (h : LogHolds blocks s) (hok : s.block.failed = false) (num : Nat) :
    ∃ s', (readBlockByNum num).run s = .ok (if num = 0 then none else blocks[num - 1]?) s' := by
  have hindexed := h.reopened (f := s.block) (g := s.index.checkRead) rfl h.writable
    s.index.checkRead_bytes ((FileStream.checkRead_failed _ fun _ => h.indexed).trans h.indexed)
  have hfirst := h.run_getBlockPos num
  simp only [getBlockPos] at hfirst
  simp only [readBlockByNum, EStateM.run_bind, hfirst]
  by_cases hin : 0 < num ∧ num ≤ blocks.length
  · have hi : num - 1 < blocks.length := by omega
    have hb : blocks[num - 1]? = some blocks[num - 1] := List.getElem?_eq_getElem hi
    have hnpos : posOf blocks (num - 1) ≠ npos := by
      have hlt := posOf_succ hb
      have hle := posOf_le blocks (num - 1 + 1)
      have hoffsets := h.loggable.offsets
      simp only [npos]
      omega
    have hread := hindexed.run_readBlock hok hb
    simp only [readBlock] at hread
    have hnum : blocks[num - 1].blockNum = num := by
      rw [h.loggable.numbered _ _ hb]
      omega
    simp only [if_pos hin, if_neg hnpos, EStateM.run_bind, hread, run_fcAssert, hnum, if_true,
      EStateM.run_pure, if_neg (show num ≠ 0 by omega), hb]
    exact ⟨_, rfl⟩
  · have hnone : (if num = 0 then none else blocks[num - 1]?) = none := by
      split
      · rfl
      · exact List.getElem?_eq_none (by omega)
    rw [if_neg hin, hnone]
    exact ⟨_, rfl⟩

theorem getBlockPos_keeps (num : Nat) : Keeps (LogHolds blocks) (getBlockPos num) := by
  intro s h
  rw [h.run_getBlockPos]
  exact h.reopened rfl h.writable s.index.checkRead_bytes
    ((FileStream.checkRead_failed _ fun _ => h.indexed).trans h.indexed)

theorem readBlockByNum_keeps (num : Nat) : Keeps (LogHolds blocks) (readBlockByNum num) :=
  (getBlockPos_keeps num).bind fun _ => Keeps.ite (.pure _)
    ((readBlock_keeps _).bind fun _ => Keeps.fcAssert.bind fun _ => .pure _)

/-! ## The head and the walk -/

omit [Env] in
/-- `read_head`, where the block stream has not failed. -/
theorem run_readHead (h : LogHolds blocks s) (hok : s.block.failed = false)
    (hb : blocks.getLast? = some b) : readHead.run s = .ok b (reading s) :=
  h.blockHolds.run_readHead hok hb

omit [Env] in
/-- `walk`, where the block stream has not failed. -/
theorem run_walk (h : LogHolds blocks s) (hok : s.block.failed = false) :
    ∃ s', (walk blocks.length 0).run s = .ok blocks s' := by
  have hwalk : ∀ (count i : Nat) (s : LogFiles), LogHolds blocks s → s.block.failed = false →
      i + count = blocks.length →
      ∃ s', (walk count (posOf blocks i)).run s = .ok (blocks.drop i) s' := by
    intro count
    induction count with
    | zero =>
      intro i s _ _ hi
      exact ⟨s, by rw [List.drop_eq_nil_of_le (by omega)]; rfl⟩
    | succ count ih =>
      intro i s h hok hi
      have hlt : i < blocks.length := by omega
      have hread := h.run_readBlock hok (List.getElem?_eq_getElem hlt)
      obtain ⟨s', hrest⟩ := ih (i + 1) (reading s) h.read
        ((FileStream.checkRead_failed _ h.writable).trans hok) (by omega)
      refine ⟨s', ?_⟩
      simp only [walk, EStateM.run_bind, hread, hrest, EStateM.run_pure]
      rw [List.drop_eq_getElem_cons hlt]
  exact hwalk blocks.length 0 s h hok (Nat.zero_add _)

/-! ## Appending -/

/-- The streams at the start of an append. -/
def writing (s : LogFiles) : LogFiles :=
  { s with block := s.block.checkWrite, index := s.index.checkWrite }

omit [Env] in
/-- A block is appended where the index has as many entries as the 32-bit number before its own. -/
theorem run_append (h : LogHolds blocks s) (b : SignedBlock) :
    (append b).run s =
      if blocks.length = (b.blockNum + 2 ^ 32 - 1) % 2 ^ 32 then
        .ok (blockBytes blocks).length
          { head := some b
            block := ((writing s).block.append (pack b)).append
              (leBytes 8 (blockBytes blocks).length)
            index := (writing s).index.append (leBytes 8 (blockBytes blocks).length) }
      else .error (.assertion "Append to index file occuring at wrong position.") (writing s) := by
  have hfirst : (modify fun s : LogFiles =>
      { s with block := s.block.checkWrite, index := s.index.checkWrite } : LogM Unit).run s =
        .ok () (writing s) := rfl
  have hblock : (writing s).block.bytes = blockBytes blocks :=
    s.block.checkWrite_bytes.trans h.block
  have hindex : (writing s).index.bytes.length = 8 * blocks.length := by
    rw [← indexBytes_length, ← h.index]
    exact congrArg List.length s.index.checkWrite_bytes
  have hlength : (8 * blocks.length = 8 * ((b.blockNum + 2 ^ 32 - 1) % 2 ^ 32)) ↔
      blocks.length = (b.blockNum + 2 ^ 32 - 1) % 2 ^ 32 := by omega
  simp only [append, EStateM.run_bind, hfirst, EStateM.run_get, run_fcAssert, hindex, hblock, hlength]
  by_cases hpos : blocks.length = (b.blockNum + 2 ^ 32 - 1) % 2 ^ 32
  · simp only [if_pos hpos]
    rfl
  · simp only [if_neg hpos]

omit [Env] in
/-- The block of the next number is appended to both files. -/
theorem append (h : LogHolds blocks s) (hnum : b.blockNum = blocks.length + 1)
    (hlossless : Decodes (pack b) unpack b)
    (hoffsets : (blockBytes (blocks ++ [b])).length < 2 ^ 64) {pos : Nat} {s' : LogFiles}
    (hrun : (LogFiles.append b).run s = .ok pos s') : LogHolds (blocks ++ [b]) s' := by
  have hlt := b.blockNum_lt
  rw [h.run_append, if_pos (by omega)] at hrun
  cases hrun
  have hblock : (writing s).block.bytes = blockBytes blocks :=
    s.block.checkWrite_bytes.trans h.block
  have hindex : (writing s).index.bytes = indexBytes blocks :=
    s.index.checkWrite_bytes.trans h.index
  refine ⟨h.loggable.concat hnum hlossless hoffsets, ?_, ?_, ?_, ?_, ?_⟩
  · simp
  · simp only [FileStream.append, hblock, blockBytes_concat, List.append_assoc]
  · simp only [FileStream.append, hindex, indexBytes_concat]
  · exact fun _ => s.block.checkWrite_failed h.writable
  · exact s.index.checkWrite_failed fun _ => h.indexed

omit [Env] in
theorem writing_holds (h : LogHolds blocks s) : LogHolds blocks (writing s) :=
  h.reopened s.block.checkWrite_bytes (fun _ => s.block.checkWrite_failed h.writable)
    s.index.checkWrite_bytes (s.index.checkWrite_failed fun _ => h.indexed)

end LogHolds

/-! ## Runs -/

section Runs

variable [Env] {blocks : List SignedBlock} {s : LogFiles}

/-- The logs reached from the empty one by appending blocks numbered 1, 2 and so on, by appends that
are refused, and by reads of any kind that return or throw. An appended block is read back from its
bytes, and the file stays within the positions there are. -/
inductive LogRun : List SignedBlock → LogFiles → Prop
  | empty : LogRun [] {}
  | append {blocks : List SignedBlock} {s s' : LogFiles} {b : SignedBlock} {pos : Nat} :
      LogRun blocks s → b.blockNum = blocks.length + 1 → Decodes (pack b) unpack b →
      (blockBytes (blocks ++ [b])).length < 2 ^ 64 → (append b).run s = .ok pos s' →
      LogRun (blocks ++ [b]) s'
  | refused {blocks : List SignedBlock} {s s' : LogFiles} {b : SignedBlock} {e : Exc} :
      LogRun blocks s → (append b).run s = .error e s' → LogRun blocks s'
  | readBlockByNum {blocks : List SignedBlock} {s : LogFiles} (num : Nat) :
      LogRun blocks s → LogRun blocks (finalState ((readBlockByNum num).run s))
  | readBlock {blocks : List SignedBlock} {s : LogFiles} (pos : Nat) :
      LogRun blocks s → LogRun blocks (finalState ((readBlock pos).run s))
  | getBlockPos {blocks : List SignedBlock} {s : LogFiles} (num : Nat) :
      LogRun blocks s → LogRun blocks (finalState ((getBlockPos num).run s))
  | readHead {blocks : List SignedBlock} {s : LogFiles} :
      LogRun blocks s → LogRun blocks (finalState (readHead.run s))
  | flush {blocks : List SignedBlock} {s : LogFiles} :
      LogRun blocks s → LogRun blocks (finalState (flush.run s))

/-- Whatever is read, the files hold what was appended. -/
theorem LogRun.holds (h : LogRun blocks s) : LogHolds blocks s := by
  induction h with
  | empty => exact .empty
  | append _ hnum hlossless hoffsets hrun ih => exact ih.append hnum hlossless hoffsets hrun
  | @refused blocks s s' b e _ hrun ih =>
    rw [ih.run_append] at hrun
    split at hrun
    · cases hrun
    · cases hrun
      exact ih.writing_holds
  | readBlockByNum num _ ih => exact LogHolds.readBlockByNum_keeps num _ ih
  | readBlock pos _ ih => exact LogHolds.readBlock_keeps pos _ ih
  | getBlockPos num _ ih => exact LogHolds.getBlockPos_keeps num _ ih
  | readHead _ ih => exact LogHolds.readHead_keeps _ ih
  | flush _ ih => exact ih

/-- What a log of these blocks answers. -/
structure LogAnswers (blocks : List SignedBlock) (s : LogFiles) : Prop where
  byNum : ∀ num, ∃ s', (readBlockByNum num).run s =
    .ok (if num = 0 then none else blocks[num - 1]?) s'
  readHead : ∀ b, blocks.getLast? = some b → ∃ s', readHead.run s = .ok b s'
  head : s.head = blocks.getLast?
  walk : ∃ s', (walk blocks.length 0).run s = .ok blocks s'
  refuses : ∀ b : SignedBlock, b.blockNum ≠ blocks.length + 1 → ∃ e s',
    (append b).run s = .error e s' ∧ s'.block.bytes = s.block.bytes ∧ s'.index.bytes = s.index.bytes

/-- The number before the last one there is. -/
def lastLogged : Nat := 2 ^ 32 - 1

omit [Env] in
/-- A block whose number wraps around to 0 is refused by every log but one. -/
theorem refuses_iff (h : LogHolds blocks s) :
    (∀ b : SignedBlock, b.blockNum ≠ blocks.length + 1 → ∃ e s', (append b).run s = .error e s' ∧
      s'.block.bytes = s.block.bytes ∧ s'.index.bytes = s.index.bytes) ↔
      blocks.length ≠ lastLogged := by
  have hlength := h.length_lt
  simp only [lastLogged]
  constructor
  · rintro hrefuses hlast
    -- The previous id of the last block there is has the number 2^32 - 1.
    let b : SignedBlock :=
      { timestamp := 0, producer := 0, transactionMerkleRoot := 0
        previous := ⟨0xFFFFFFFF, 0, 0, 0, 0⟩, version := 0, producerSignature := 0
        transactions := [] }
    have hzero : b.blockNum = 0 := by decide
    obtain ⟨e, s', hrun, -⟩ := hrefuses b (by omega)
    rw [h.run_append, if_pos (by omega)] at hrun
    cases hrun
  · intro hlast b hb
    have hlt := b.blockNum_lt
    refine ⟨_, _, by rw [h.run_append, if_neg (by omega)], ?_, ?_⟩
    · exact s.block.checkWrite_bytes
    · exact s.index.checkWrite_bytes

omit [Env] in
/-- A failed block stream is not read from. -/
theorem run_readHead_failed (h : LogHolds blocks s) (hfailed : s.block.failed = true) :
    ∃ e s', readHead.run s = .error e s' := by
  have hstill : (LogHolds.reading s).block.failed = true :=
    (FileStream.checkRead_failed _ h.writable).trans hfailed
  have hfirst : (modify fun s : LogFiles => { s with block := s.block.checkRead } : LogM Unit).run s =
      .ok () (LogHolds.reading s) := rfl
  simp only [readHead, EStateM.run_bind, hfirst, EStateM.run_get, run_onBlock,
    FileStream.run_readAt_failed hstill]
  exact ⟨_, _, rfl⟩

/-- Nothing is read from a log without blocks. -/
theorem answers_empty (h : LogHolds [] s) : LogAnswers [] s where
  byNum num := by
    have hfirst := h.run_getBlockPos num
    simp only [getBlockPos] at hfirst
    have hnone : ¬ (0 < num ∧ num ≤ ([] : List SignedBlock).length) := by simp; omega
    simp only [readBlockByNum, EStateM.run_bind, hfirst, if_neg hnone, if_true]
    exact ⟨_, by simp; rfl⟩
  readHead b hb := by simp at hb
  head := h.head
  walk := ⟨s, rfl⟩
  refuses := (refuses_iff h).mpr (by simp [lastLogged])

/-- **The block log.** A log answers as it was written exactly where its block stream has not failed,
and refuses every other number exactly where there is one left. -/
theorem logRun_answers_iff (h : LogRun blocks s) :
    LogAnswers blocks s ↔
      (blocks ≠ [] → s.block.failed = false) ∧ blocks.length ≠ lastLogged := by
  have hholds := h.holds
  constructor
  · intro hanswers
    refine ⟨fun hne => ?_, (refuses_iff hholds).mp hanswers.refuses⟩
    obtain ⟨b, hb⟩ :=
      Option.ne_none_iff_exists'.mp fun hnone => hne (List.getLast?_eq_none_iff.mp hnone)
    obtain ⟨s', hrun⟩ := hanswers.readHead b hb
    rw [Bool.eq_false_iff]
    intro hfailed
    obtain ⟨e, s'', herror⟩ := run_readHead_failed hholds hfailed
    rw [herror] at hrun
    cases hrun
  · rintro ⟨hfailed, hlast⟩
    by_cases hnil : blocks = []
    · subst hnil
      exact answers_empty hholds
    · have hok := hfailed hnil
      exact
        { byNum := hholds.run_readBlockByNum hok
          readHead := fun b hb => ⟨_, hholds.run_readHead hok hb⟩
          head := hholds.head
          walk := hholds.run_walk hok
          refuses := (refuses_iff hholds).mpr hlast }

end Runs

/-- The log of one block. -/
theorem logRun_first :
    @LogRun smallNode.toEnv [@blockOn smallNode .null genesisTime []]
      (finalState ((append (@blockOn smallNode .null genesisTime [])).run {})) := by
  let _ : Node := smallNode
  have hreturned : Returned ((append (blockOn .null genesisTime [])).run {}) := by decide +kernel
  obtain ⟨_, hrun⟩ := eq_ok_of_returned hreturned
  exact LogRun.append .empty (by decide +kernel)
    (decodes_signedBlock (by decide +kernel)) (by decide +kernel) hrun

/-- A log of three blocks answers, after a lookup and an append that was refused. -/
theorem logRun_answers_three :
    let _ : Node := smallNode
    ∃ (s : LogFiles) (blocks : List SignedBlock), blocks.length = 3 ∧ LogAnswers blocks s := by
  intro node
  let x : SignedBlock := blockOn .null genesisTime []
  let y : SignedBlock := blockOn x.id (genesisTime + 3) [unitTransfer 10]
  let z : SignedBlock := blockOn y.id (genesisTime + 6) []
  let s₁ := finalState ((append x).run {})
  let s₂ := finalState ((append y).run s₁)
  let s₃ := finalState ((append x).run (finalState ((readBlockByNum 1).run s₂)))
  let s := finalState ((append z).run s₃)
  have hx : Returned ((append x).run {}) := by decide +kernel
  have hy : Returned ((append y).run s₁) := by decide +kernel
  have hagain : ¬ Returned ((append x).run (finalState ((readBlockByNum 1).run s₂))) := by
    decide +kernel
  have hz : Returned ((append z).run s₃) := by decide +kernel
  obtain ⟨_, hrun₁⟩ := eq_ok_of_returned hx
  obtain ⟨_, hrun₂⟩ := eq_ok_of_returned hy
  obtain ⟨_, hrefused⟩ := eq_error_of_not_returned hagain
  obtain ⟨_, hrun⟩ := eq_ok_of_returned hz
  have hfirst : LogRun [x] s₁ := .append .empty (by decide +kernel)
    (decodes_signedBlock (by decide +kernel)) (by decide +kernel) hrun₁
  have hsecond : LogRun [x, y] s₂ := .append hfirst (by decide +kernel)
    (decodes_signedBlock (by decide +kernel)) (by decide +kernel) hrun₂
  have hsame : LogRun [x, y] s₃ := .refused (.readBlockByNum 1 hsecond) hrefused
  have hlog : LogRun [x, y, z] s := .append hsame (by decide +kernel)
    (decodes_signedBlock (by decide +kernel)) (by decide +kernel) hrun
  exact ⟨s, _, rfl, (logRun_answers_iff hlog).mpr ⟨fun _ => by decide +kernel, by decide⟩⟩

/-- A read behind the last block leaves a log that does not find its first. -/
theorem logRun_readBlock_fails :
    ¬ ∀ blocks s, @LogRun smallNode.toEnv blocks s → @LogAnswers smallNode.toEnv blocks s := by
  let _ : Node := smallNode
  intro h
  let s := finalState ((append (blockOn .null genesisTime [])).run {})
  have hrun := LogRun.readBlock s.block.bytes.length logRun_first
  obtain ⟨s', hread⟩ := (h _ _ hrun).byNum 1
  have hthrows : ¬ Returned ((readBlockByNum 1).run
      (finalState ((readBlock s.block.bytes.length).run s))) := by decide +kernel
  exact hthrows (by rw [hread]; exact returned_ok _ _)

/-! ## The log of the blocks -/

section Refinement

variable {blocks : List SignedBlock} {s : LogFiles}

/-- The log as the database sees it. -/
def LogHolds.log (h : LogHolds blocks s) : BlockLog where
  blocks
  numbered := h.loggable.numbered

/-- The files append a block where the log does. -/
theorem LogHolds.append_refines (h : LogHolds blocks s) (hlast : blocks.length ≠ lastLogged)
    (b : SignedBlock) : Returned ((LogFiles.append b).run s) ↔
      ∃ log, h.log.append b = .ok log := by
  have hlt := b.blockNum_lt
  have hlength := h.length_lt
  have hlast' : blocks.length ≠ 2 ^ 32 - 1 := hlast
  have hblocks : h.log.blocks.length = blocks.length := rfl
  rw [h.run_append, BlockLog.append]
  by_cases hnum : b.blockNum = h.log.blocks.length + 1
  · rw [if_pos (by omega), dif_pos hnum]
    exact ⟨fun _ => ⟨_, rfl⟩, fun _ => returned_ok _ _⟩
  · rw [if_neg (by omega), dif_neg hnum]
    exact ⟨fun hreturned => (not_returned_error _ _ hreturned).elim,
      fun ⟨_, hcontra⟩ => by cases hcontra⟩

/-- The files read on as the log does, whose positions count blocks. -/
theorem LogHolds.readBlock_refines (h : LogHolds blocks s) (hok : s.block.failed = false)
    {i : Nat} {b : SignedBlock} (hb : h.log.readBlock i = .ok (b, i + 1)) :
    ∃ s', (readBlock (posOf blocks i)).run s = .ok (b, posOf blocks (i + 1)) s' := by
  unfold BlockLog.readBlock at hb
  split at hb
  · rename_i c hc
    cases hb
    exact ⟨_, h.run_readBlock hok hc⟩
  · cases hb

/-- The files answer by number as the log does. -/
theorem LogHolds.readBlockByNum_refines [Env] (h : LogHolds blocks s)
    (hok : s.block.failed = false) (num : Nat) :
    ∃ s', (readBlockByNum num).run s = .ok (h.log.readBlockByNum num) s' := by
  obtain ⟨s', hrun⟩ := h.run_readBlockByNum hok num
  have hanswer : h.log.readBlockByNum num = if num = 0 then none else blocks[num - 1]? := by
    unfold BlockLog.readBlockByNum
    cases hhead : h.log.head with
    | none =>
      have hnil : blocks = [] := List.getLast?_eq_none_iff.mp hhead
      simp [hnil]
    | some b =>
      have hnum : numFromId b.id = blocks.length := by
        rw [numFromId_id]
        exact h.blockNum_head (h.head.trans hhead)
      simp only [hnum]
      by_cases hin : num ≤ blocks.length ∧ 0 < num
      · rw [if_pos hin, if_neg (by omega)]
        rfl
      · rw [if_neg hin]
        split
        · rfl
        · exact (List.getElem?_eq_none (by omega)).symm
  exact ⟨s', hanswer ▸ hrun⟩

end Refinement

end NewsChain
