import NewsChain.Base.Exception
import NewsChain.Base.Types

/-!
# The block log

The append-only file of irreversible blocks. `append` checks that the index file has one entry for
each number below the block's own, so the `i`-th block of a log has number `i + 1`: that is a field
of the type.
-/

namespace NewsChain

structure BlockLog where
  blocks : List SignedBlock := []
  numbered : ∀ i b, blocks[i]? = some b → b.blockNum = i + 1 := by intro _ _ h; simp at h

namespace BlockLog

/-- `head`. -/
def head (log : BlockLog) : Option SignedBlock := log.blocks.getLast?

/-- The number of the head, 0 for an empty log. -/
def headNum (log : BlockLog) : Nat := (log.head.map (·.blockNum)).getD 0

/-- `append`. -/
def append (log : BlockLog) (b : SignedBlock) : Except Exc BlockLog :=
  if h : b.blockNum = log.blocks.length + 1 then
    .ok
      { blocks := log.blocks ++ [b]
        numbered := by
          intro i c hc
          rw [List.getElem?_append] at hc
          split at hc
          · exact log.numbered i c hc
          · rename_i hi
            obtain ⟨hlt, rfl⟩ := List.getElem?_eq_some_iff.mp hc
            simp only [List.length_singleton] at hlt
            simp only [List.getElem_singleton]
            omega }
  else .error (.assertion "Append to index file occuring at wrong position.")

/-- `read_block_by_num`. -/
def readBlockByNum [Env] (log : BlockLog) (num : Nat) : Option SignedBlock :=
  match log.head with
  | none => none
  | some h => if num ≤ numFromId h.id ∧ 0 < num then log.blocks[num - 1]? else none

/-- `read_block`, with positions counted in blocks: the block, and the position of the next. -/
def readBlock (log : BlockLog) (pos : Nat) : Except Exc (SignedBlock × Nat) :=
  match log.blocks[pos]? with
  | some b => .ok (b, pos + 1)
  | none => .error outOfBytes

/-- `read_head`. -/
def readHead (log : BlockLog) : Except Exc SignedBlock :=
  match log.head with
  | some b => .ok b
  | none => .error outOfBytes

/-- The log's head has the number of blocks in the log. -/
theorem headNum_eq (log : BlockLog) : log.headNum = log.blocks.length := by
  unfold headNum head
  cases h : log.blocks.getLast? with
  | none => simp [List.getLast?_eq_none_iff.mp h]
  | some b =>
    rw [List.getLast?_eq_getElem?] at h
    have hnum := log.numbered _ _ h
    obtain ⟨hlt, -⟩ := List.getElem?_eq_some_iff.mp h
    simp only [Option.map_some, Option.getD_some]
    omega

theorem append_eq_ok {log log' : BlockLog} {b : SignedBlock} (h : log.append b = .ok log') :
    b.blockNum = log.blocks.length + 1 ∧ log'.blocks = log.blocks ++ [b] := by
  unfold append at h
  split at h
  · rename_i hnum
    cases h
    exact ⟨hnum, rfl⟩
  · cases h

/-- The `n`-th block is read by the number `n`. -/
theorem readBlockByNum_eq [Env] (log : BlockLog) (n : Nat) :
    log.readBlockByNum n = if 0 < n then log.blocks[n - 1]? else none := by
  have hnum := log.headNum_eq
  unfold readBlockByNum
  unfold headNum at hnum
  cases hhead : log.head with
  | none =>
    rw [List.getLast?_eq_none_iff.mp hhead]
    simp
  | some h =>
    rw [hhead, Option.map_some, Option.getD_some] at hnum
    have hid : numFromId h.id = log.blocks.length := (numFromId_id _).trans hnum
    simp only [hid]
    by_cases hn : 0 < n
    · by_cases hle : n ≤ log.blocks.length
      · rw [if_pos ⟨hle, hn⟩, if_pos hn]
      · rw [if_neg fun h => hle h.1, if_pos hn, List.getElem?_eq_none (by omega)]
    · rw [if_neg fun h => hn h.2, if_neg hn]

/-- A block that is read by a number has it. -/
theorem blockNum_of_readBlockByNum [Env] (log : BlockLog) {num : Nat} {b : SignedBlock}
    (h : log.readBlockByNum num = some b) : 0 < num ∧ b.blockNum = num := by
  unfold readBlockByNum at h
  split at h
  · cases h
  · split at h
    · rename_i hnum
      refine ⟨hnum.2, ?_⟩
      rw [log.numbered _ _ h]
      omega
    · cases h

end BlockLog

end NewsChain
