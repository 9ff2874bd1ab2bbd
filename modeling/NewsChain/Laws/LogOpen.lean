import NewsChain.Chain.LogOpen
import NewsChain.Laws.LogFiles

/-!
# What opening makes of the index

The rebuilding loop copies the position behind each block until it has copied the last. It looks at
the position before it reads, and the position of the first block is 0, which is also where it
starts: a log of one block gets no index.

`openFiles_restores_iff` says that this is the only log whose index is not restored.
-/

namespace NewsChain

open EStateM (Result)
open Raw (pack unpack)
open LogFiles
open LogHolds (reading)

/-! ## Positions -/

section Layout

variable {blocks : List SignedBlock} {i j : Nat}

@[simp] theorem posOf_zero (blocks : List SignedBlock) : posOf blocks 0 = 0 := rfl

/-- A block starts behind the blocks before it. -/
theorem posOf_lt_posOf (hij : i < j) (hj : j ≤ blocks.length) : posOf blocks i < posOf blocks j := by
  induction j with
  | zero => exact absurd hij (Nat.not_lt_zero i)
  | succ j ih =>
    have hnext := posOf_succ (List.getElem?_eq_getElem (show j < blocks.length from hj))
    rcases Nat.lt_succ_iff_lt_or_eq.mp hij with hlt | rfl
    · have hbefore := ih hlt (by omega)
      omega
    · omega

/-- The index up to a block, and its position. -/
theorem indexBytes_take_succ (h : i < blocks.length) :
    indexBytes (blocks.take (i + 1)) = indexBytes (blocks.take i) ++ leBytes 8 (posOf blocks i) := by
  rw [List.take_succ_eq_append_getElem h, indexBytes_concat, posOf]

end Layout

/-! ## Rebuilding -/

namespace BlockHolds

variable {blocks : List SignedBlock} {s : LogFiles}

/-- A round reads a block and the position behind it. -/
theorem run_readEntry (h : BlockHolds blocks s) (hok : s.block.failed = false) {i : Nat}
    (hi : i < blocks.length) :
    (FileStream.readAt (posOf blocks i) readEntry).run s.block =
      .ok (posOf blocks i, posOf blocks (i + 1)) s.block := by
  have hb := List.getElem?_eq_getElem hi
  obtain ⟨rest, hsplit⟩ := blockBytes_split hb
  have hentry : Decodes (pack blocks[i] ++ leBytes 8 (posOf blocks i)) readEntry (posOf blocks i) :=
    (h.loggable.lossless _ (List.getElem_mem hi)).bind
      (decodes_readLe outOfBytes (h.posOf_lt i))
  have hdrop : s.block.bytes.drop (posOf blocks i) =
      (pack blocks[i] ++ leBytes 8 (posOf blocks i)) ++ rest := by
    rw [h.block, hsplit, posOf, List.drop_left]
    simp only [List.append_assoc]
  have hread := FileStream.run_readAt hentry hok hdrop (h.block ▸ posOf_le blocks i)
  rw [List.length_append, length_leBytes, ← Nat.add_assoc, ← posOf_succ hb] at hread
  exact hread

theorem indexLoop_done {endPos pos : Nat} (h : endPos ≤ pos) (rounds at_ : Nat) :
    indexLoop endPos rounds at_ pos = pure () := by
  cases rounds with
  | zero => rw [indexLoop, if_neg (by omega)]
  | succ rounds => rw [indexLoop, if_neg (by omega)]

/-- The index is written anew. -/
def rebuilt (s : LogFiles) (index : List UInt8) : LogFiles :=
  { s with index := { s.index with bytes := index } }

/-- **The loop**, from the `i`-th block on. It has last read the position before it. -/
theorem run_indexLoop (hsize : 2 ≤ blocks.length) (rounds : Nat) :
    ∀ (i : Nat) (s : LogFiles), BlockHolds blocks s → s.block.failed = false →
      i ≤ blocks.length → blocks.length ≤ i + rounds → s.index.bytes = indexBytes (blocks.take i) →
      (indexLoop (posOf blocks (blocks.length - 1)) rounds (posOf blocks i)
        (posOf blocks (i - 1))).run s = .ok () (rebuilt s (indexBytes blocks)) := by
  -- Once all blocks are read, the position is the last.
  have hend : ∀ (rounds : Nat) (s : LogFiles), s.index.bytes = indexBytes blocks →
      (indexLoop (posOf blocks (blocks.length - 1)) rounds (posOf blocks blocks.length)
        (posOf blocks (blocks.length - 1))).run s = .ok () (rebuilt s (indexBytes blocks)) := by
    intro rounds s hindex
    rw [indexLoop_done (Nat.le_refl _), rebuilt, ← hindex]
    rfl
  induction rounds with
  | zero =>
    intro i s _ _ hle hrounds hindex
    obtain rfl : i = blocks.length := by omega
    rw [List.take_length] at hindex
    exact hend 0 s hindex
  | succ rounds ih =>
    intro i s h hok hle hrounds hindex
    by_cases hlast : i = blocks.length
    · subst hlast
      rw [List.take_length] at hindex
      exact hend (rounds + 1) s hindex
    · have hi : i < blocks.length := by omega
      have hmore : posOf blocks (i - 1) < posOf blocks (blocks.length - 1) :=
        posOf_lt_posOf (by omega) (by omega)
      let next : LogFiles := { s with index := s.index.append (leBytes 8 (posOf blocks i)) }
      have hnext : BlockHolds blocks next := ⟨h.loggable, h.block, h.writable⟩
      have hwritten : next.index.bytes = indexBytes (blocks.take (i + 1)) := by
        rw [indexBytes_take_succ hi, ← hindex]
        rfl
      have hmodify : (modify fun t : LogFiles =>
          { t with index := t.index.append (leBytes 8 (posOf blocks i)) } : LogM Unit).run s =
            .ok () next := rfl
      rw [indexLoop, if_pos hmore]
      simp only [EStateM.run_bind, run_onBlock, h.run_readEntry hok hi, hmodify]
      exact ih (i + 1) next hnext hok hi (by omega) hwritten

/-- What `construct_index` makes of a log. -/
def indexOf (blocks : List SignedBlock) : List UInt8 :=
  if 2 ≤ blocks.length then indexBytes blocks else []

/-- `construct_index`, where the block stream has not failed. -/
theorem run_constructIndex (h : BlockHolds blocks s) (hok : s.block.failed = false)
    (hne : blocks ≠ []) :
    constructIndex.run s = .ok () { reading s with index := { bytes := indexOf blocks } } := by
  let start : LogFiles := { reading s with index := {} }
  have hstart : BlockHolds blocks start := ⟨h.loggable, h.read.block, h.read.writable⟩
  have hfirst : (modify fun s : LogFiles => { s with block := s.block.checkRead, index := {} } :
      LogM Unit).run s = .ok () start := rfl
  have hlast := hstart.run_readLast (h.read_ok hok) hne
  have hrounds : blocks.length ≤ start.block.bytes.length := by
    have hlength : ∀ i ≤ blocks.length, i ≤ posOf blocks i := by
      intro i
      induction i with
      | zero => intro _; exact Nat.zero_le _
      | succ i ih =>
        intro hi
        have hbefore := ih (by omega)
        have hstep : posOf blocks i < posOf blocks (i + 1) := posOf_lt_posOf (by omega) hi
        omega
    rw [hstart.block, ← posOf_length]
    exact hlength _ (Nat.le_refl _)
  simp only [constructIndex, EStateM.run_bind, hfirst, EStateM.run_get, run_onBlock, hlast]
  by_cases hsize : 2 ≤ blocks.length
  · have hloop := run_indexLoop hsize start.block.bytes.length 0 start hstart (h.read_ok hok)
      (Nat.zero_le _) (by omega) rfl
    rw [indexOf, if_pos hsize]
    exact hloop
  · -- The last position is that of the first block.
    have hone : blocks.length - 1 = 0 := by omega
    rw [indexOf, if_neg hsize, hone, posOf_zero, indexLoop_done (Nat.le_refl 0)]
    rfl

end BlockHolds

/-! ## Opening -/

/-- An index that does not belong to the log: it lacks the last positions, or all of them, or it
goes on with positions behind the log. -/
inductive Stale (blocks : List SignedBlock) : List UInt8 → Prop
  | short {count : Nat} : count < blocks.length → Stale blocks (indexBytes (blocks.take count))
  | long {more : List Nat} : more ≠ [] →
      (∀ pos ∈ more, (blockBytes blocks).length ≤ pos ∧ pos < 2 ^ 64) →
      Stale blocks (indexBytes blocks ++ more.flatMap (leBytes 8))

theorem Stale.empty {blocks : List SignedBlock} (h : blocks ≠ []) : Stale blocks [] :=
  @Stale.short blocks 0 (List.length_pos_iff.mpr h)

/-- An index with anything in it ends with a position, which is not that of the last block. -/
theorem Stale.end_ne {blocks : List SignedBlock} {index : List UInt8} (h : Stale blocks index)
    (hlog : Loggable blocks) (hblocks : blocks ≠ []) (hne : index ≠ []) :
    ∃ front pos, index = front ++ leBytes 8 pos ∧ pos < 2 ^ 64 ∧
      pos ≠ posOf blocks (blocks.length - 1) := by
  have hoffsets := hlog.offsets
  have hlength := List.length_pos_iff.mpr hblocks
  cases h with
  | @short count hcount =>
    cases count with
    | zero => exact absurd rfl hne
    | succ count =>
      have hle := posOf_le blocks count
      have hlt : posOf blocks count < posOf blocks (blocks.length - 1) :=
        posOf_lt_posOf (by omega) (by omega)
      exact ⟨_, _, indexBytes_take_succ (by omega), by omega, by omega⟩
  | @long more hmore hbehind =>
    obtain ⟨init, pos, rfl⟩ := (List.eq_nil_or_concat' more).resolve_left hmore
    obtain ⟨hle, hlt⟩ := hbehind pos (by simp)
    have hlast : posOf blocks (blocks.length - 1) < (blockBytes blocks).length := by
      rw [← posOf_length]
      exact posOf_lt_posOf (by omega) (Nat.le_refl _)
    refine ⟨indexBytes blocks ++ init.flatMap (leBytes 8), pos, ?_, hlt, by omega⟩
    rw [List.flatMap_append, List.flatMap_singleton, List.append_assoc]

theorem run_readIndexEnd {s : LogFiles} {front : List UInt8} {pos : Nat}
    (hok : s.index.failed = false) (h : s.index.bytes = front ++ leBytes 8 pos)
    (hpos : pos < 2 ^ 64) : readIndexEnd.run s = .ok pos s := by
  have hread := FileStream.run_readEnd hok h hpos
  simp only [readIndexEnd, EStateM.run_bind, EStateM.run_get, run_onIndex, hread]
  rfl

section Opening

variable {blocks : List SignedBlock} {s : LogFiles}

/-- The log after it is opened. -/
def opened (blocks : List SignedBlock) : LogFiles where
  head := blocks.getLast?
  block := { bytes := blockBytes blocks, write := false }
  index := { bytes := BlockHolds.indexOf blocks }

/-- **`open` with an index that does not belong to the log** rebuilds it. -/
theorem run_openFiles (hlog : Loggable blocks) (hne : blocks ≠ [])
    (hblock : s.block.bytes = blockBytes blocks) (hstale : Stale blocks s.index.bytes) :
    openFiles.run s = .ok () (opened blocks) := by
  obtain ⟨b, hb⟩ := Option.ne_none_iff_exists'.mp (mt List.getLast?_eq_none_iff.mp hne)
  let start : LogFiles :=
    { head := s.head, block := { bytes := s.block.bytes }, index := { bytes := s.index.bytes } }
  let read : LogFiles := { reading start with head := some b }
  have hstart : BlockHolds blocks start := ⟨hlog, hblock, fun _ => rfl⟩
  have hread : BlockHolds blocks read := ⟨hlog, hblock, hstart.read.writable⟩
  have hfirst : (modify fun s : LogFiles =>
      { s with block := { bytes := s.block.bytes }, index := { bytes := s.index.bytes } } :
        LogM Unit).run s = .ok () start := rfl
  have hhead : (modify fun s : LogFiles => { s with head := some b } : LogM Unit).run
      (reading start) = .ok () read := rfl
  have hrebuild : constructIndex.run read = .ok () (opened blocks) := by
    rw [hread.run_constructIndex rfl hne, opened, hb, ← hblock]
    rfl
  have hsome : start.block.bytes ≠ [] := by
    obtain ⟨front, hfront⟩ := blockBytes_last hne
    rw [show start.block.bytes = _ from hblock.trans hfront]
    simp [leBytes]
  simp only [openFiles, EStateM.run_bind, hfirst, EStateM.run_get, if_pos hsome,
    hstart.run_readHead rfl hb, hhead]
  by_cases hempty : start.index.bytes = []
  · rw [if_neg (not_not_intro hempty)]
    exact hrebuild
  · obtain ⟨front, pos, hindex, hpos, hdiffers⟩ := hstale.end_ne hlog hne hempty
    let both : LogFiles := { read with block := read.block.checkRead, index := read.index.checkRead }
    have hboth : BlockHolds blocks both := ⟨hlog, hblock, hread.read.writable⟩
    have hmodify : (modify fun s : LogFiles =>
        { s with block := s.block.checkRead, index := s.index.checkRead } : LogM Unit).run read =
          .ok () both := rfl
    have hrebuild : constructIndex.run both = .ok () (opened blocks) := by
      rw [hboth.run_constructIndex rfl hne, opened, hb, ← hblock]
      rfl
    have hlast : (FileStream.readAt (start.block.bytes.length - 8) readPos).run both.block =
        .ok (posOf blocks (blocks.length - 1), both.block.bytes.length) both.block :=
      hboth.run_readLast rfl hne
    have hend : readIndexEnd.run both = .ok pos both := run_readIndexEnd rfl hindex hpos
    rw [if_pos hempty]
    simp only [EStateM.run_bind, hmodify, run_onBlock, hlast, hend]
    by_cases hlt : posOf blocks (blocks.length - 1) < pos
    · rw [if_pos hlt]
      exact hrebuild
    · rw [if_neg hlt, if_pos (by omega)]
      exact hrebuild

/-- The files of an opened log are those of a log that was written, if it has two blocks. -/
theorem opened_holds (hlog : Loggable blocks) (hsize : 2 ≤ blocks.length) :
    LogHolds blocks (opened blocks) where
  loggable := hlog
  head := rfl
  block := rfl
  index := by rw [opened, BlockHolds.indexOf, if_pos hsize]
  writable hw := by cases hw
  indexed := rfl

variable [Env]

/-- The index is right again: every block is found by its number, and the next is appended. -/
structure Restored (blocks : List SignedBlock) (s : LogFiles) : Prop where
  index : s.index.bytes = indexBytes blocks
  byNum : ∀ num, 0 < num → num ≤ blocks.length →
    ∃ b s', blocks[num - 1]? = some b ∧ (readBlockByNum num).run s = .ok (some b) s'
  append : ∀ b : SignedBlock, b.blockNum = blocks.length + 1 → Returned ((append b).run s)

/-- **`open` restores a stale index** where the log has at least two blocks, and leaves that of one
block empty. -/
theorem openFiles_restores_iff (hlog : Loggable blocks) (hne : blocks ≠ [])
    (hblock : s.block.bytes = blockBytes blocks) (hstale : Stale blocks s.index.bytes) :
    (∃ s', openFiles.run s = .ok () s' ∧ Restored blocks s') ↔ 2 ≤ blocks.length := by
  rw [run_openFiles hlog hne hblock hstale]
  constructor
  · rintro ⟨s', hrun, hrestored⟩
    cases hrun
    by_contra hsize
    have hindex := congrArg List.length hrestored.index
    have hlength := List.length_pos_iff.mpr hne
    rw [opened, BlockHolds.indexOf, if_neg hsize, indexBytes_length, List.length_nil] at hindex
    omega
  · intro hsize
    have hholds := opened_holds hlog hsize
    refine ⟨_, rfl, hholds.index, fun num hpos hle => ?_, fun b hb => ?_⟩
    · obtain ⟨s', hrun⟩ := hholds.run_readBlockByNum rfl num
      have hi : num - 1 < blocks.length := by omega
      have hget := List.getElem?_eq_getElem hi
      rw [if_neg (by omega), hget] at hrun
      exact ⟨_, s', hget, hrun⟩
    · have hlt := b.blockNum_lt
      rw [hholds.run_append, if_pos (by omega)]
      exact returned_ok _ _

end Opening

/-! ## The shortest logs -/

section Shortest

/-- A block without transactions, and one on it. -/
def bareBlocks : SignedBlock × SignedBlock :=
  let _ : Node := smallNode
  let first := blockOn .null genesisTime []
  (first, blockOn first.id genesisTime [])

theorem loggable_first : Loggable [bareBlocks.1] :=
  Loggable.nil.concat (by decide +kernel) (decodes_signedBlock (by decide +kernel))
    (by decide +kernel)

theorem loggable_both : Loggable [bareBlocks.1, bareBlocks.2] :=
  loggable_first.concat (by decide +kernel) (decodes_signedBlock (by decide +kernel))
    (by decide +kernel)

/-- Files without an index. -/
def unindexed (blocks : List SignedBlock) : LogFiles := { block := { bytes := blockBytes blocks } }

/-- An index of two blocks is restored from nothing. -/
theorem openFiles_restores_both :
    ∃ s', openFiles.run (unindexed [bareBlocks.1, bareBlocks.2]) = .ok () s' ∧
      @Restored smallNode.toEnv [bareBlocks.1, bareBlocks.2] s' := by
  let _ : Node := smallNode
  exact (openFiles_restores_iff loggable_both (by simp) rfl (.empty (by simp))).mpr (by decide)

/-- An index of one block is not. -/
theorem openFiles_first_unrestored :
    ¬ ∀ (blocks : List SignedBlock) (s : LogFiles), Loggable blocks → blocks ≠ [] →
      s.block.bytes = blockBytes blocks → Stale blocks s.index.bytes →
        ∃ s', openFiles.run s = .ok () s' ∧ @Restored smallNode.toEnv blocks s' := by
  let _ : Node := smallNode
  intro h
  obtain ⟨s', hrun, hrestored⟩ := h [bareBlocks.1] (unindexed [bareBlocks.1]) loggable_first
    (by simp) rfl (.empty (by simp))
  have hindex : (finalState (openFiles.run (unindexed [bareBlocks.1]))).index.bytes = [] := by
    decide +kernel
  rw [hrun, finalState_ok, hrestored.index] at hindex
  exact absurd (congrArg List.length hindex) (by rw [indexBytes_length]; decide)

end Shortest

end NewsChain
