import NewsChain.Chain.LogFiles

/-!
# Opening the block log

`block_log::open` compares the last eight bytes of the two files, which are both the position of a
last block, and rebuilds the index where they differ. The block file is never changed.
-/

namespace NewsChain

open Raw (unpack)

namespace LogFiles

/-- A block and the position behind it. -/
def readEntry : Decoder Exc Nat := do
  let _ ← (unpack : Decoder Exc SignedBlock)
  readPos

/-- The loop of `construct_index`, from where the stream stands. Each round reads at least eight
bytes, so `rounds` never runs out where it starts at the length of the file. -/
def indexLoop (endPos : Nat) : Nat → Nat → Nat → LogM Unit
  | 0, _, pos =>
    if pos < endPos then throw (.undefinedBehavior "construct_index does not end") else pure ()
  | rounds + 1, at_, pos =>
    if pos < endPos then do
      let r ← onBlock (FileStream.readAt at_ readEntry)
      modify fun s => { s with index := s.index.append (leBytes 8 r.1) }
      indexLoop endPos rounds r.2 r.1
    else pure ()

/-- `construct_index`. The index is removed and created anew. -/
def constructIndex : LogM Unit := do
  modify fun s => { s with block := s.block.checkRead, index := {} }
  let size := (← get).block.bytes.length
  let endPos ← onBlock (FileStream.readAt (size - 8) readPos)
  indexLoop endPos.1 size 0 0

/-- The last position of the index. A file without the eight bytes fails the stream. -/
def readIndexEnd : LogM Nat := do
  let size := (← get).index.bytes.length
  let r ← onIndex (FileStream.readAt (size - 8) readPos)
  pure r.1

/-- `open`, on the files as they are. -/
def openFiles : LogM Unit := do
  modify fun s => { s with block := { bytes := s.block.bytes }, index := { bytes := s.index.bytes } }
  let s ← get
  if s.block.bytes ≠ [] then do
    let head ← readHead
    modify fun s => { s with head := some head }
    if s.index.bytes ≠ [] then do
      modify fun s => { s with block := s.block.checkRead, index := s.index.checkRead }
      let blockPos ← onBlock (FileStream.readAt (s.block.bytes.length - 8) readPos)
      let indexPos ← readIndexEnd
      if blockPos.1 < indexPos then constructIndex
      else if indexPos < blockPos.1 then constructIndex
      else pure ()
    else constructIndex
  else
    modify fun t => if s.index.bytes ≠ [] then { t with index := {} } else t

end LogFiles

end NewsChain
