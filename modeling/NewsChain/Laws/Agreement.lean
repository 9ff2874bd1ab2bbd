import NewsChain.Laws.ReturnedRun

/-!
# Nodes that agree

Two nodes reach their states by pushing different blocks, or the same ones in another order, and keep
different pending transactions. Where no block is mistaken for another, the head settles the rest:
two nodes with one head have one store, undo states included, and one log (`returnedRun_agree`). And
what a node ends up with depends only on the blocks it was given, not on their order, wherever one of
them is higher than all the others (`returnedRun_converge`).
-/

namespace NewsChain

section Chains

variable [Node] {pushed pushed' chain chain' : List SignedBlock} {d d' : Database}

/-- No block of the one list is another block of the other list with the same id. -/
def Unmistakable (blocks blocks' : List SignedBlock) : Prop :=
  ∀ b ∈ blocks, ∀ c ∈ blocks', b.id = c.id → b = c

instance (blocks blocks' : List SignedBlock) : Decidable (Unmistakable blocks blocks') :=
  inferInstanceAs (Decidable (∀ b ∈ blocks, ∀ c ∈ blocks', b.id = c.id → b = c))

/-- Two databases are the same, up to what is pending and what the fork database holds. -/
structure Agree (d d' : Database) : Prop where
  headBlockId : d.headBlockId = d'.headBlockId
  store : d.settled.store = d'.settled.store
  blockLog : d.blockLog = d'.blockLog

/-- A head id goes with one linked chain of a length. -/
theorem LinkedChain.eq_of_headIdOf (h : LinkedChain chain) (h' : LinkedChain chain')
    (hids : Unmistakable chain chain') (hlength : chain.length = chain'.length)
    (hhead : headIdOf chain = headIdOf chain') : chain = chain' := by
  induction chain generalizing chain' with
  | nil => exact (List.length_eq_zero_iff.mp hlength.symm).symm
  | cons b rest ih =>
    cases chain' with
    | nil => cases hlength
    | cons c rest' =>
      obtain rfl : b = c := hids b List.mem_cons_self c List.mem_cons_self hhead
      have hrest : rest = rest' := by
        apply ih h.2 h'.2
        · intro x hx y hy
          exact hids x (List.mem_cons_of_mem _ hx) y (List.mem_cons_of_mem _ hy)
        · exact Nat.succ.inj hlength
        · rw [← h.1, ← h'.1]
      rw [hrest]

/-- The number of the head says how long its chain is. -/
theorem Kept.length_eq (h : Kept pushed chain d) (h' : Kept pushed' chain' d')
    (hhead : headIdOf chain = headIdOf chain') : chain.length = chain'.length := by
  have hlt := h.main.onChain.length_lt
  have hlt' := h'.main.onChain.length_lt
  have hnum := h.main.onChain.linked.numFromId_headIdOf
  have hnum' := h'.main.onChain.linked.numFromId_headIdOf
  rw [hhead, hnum', Nat.mod_eq_of_lt hlt, Nat.mod_eq_of_lt hlt'] at hnum
  exact hnum.symm

omit [Node] in
theorem Logged.blocks_eq {log : BlockLog} (h : Logged chain log) :
    log.blocks = chain.reverse.take log.blocks.length := List.prefix_iff_eq_take.mp h

omit [Node] in
theorem BlockLog.eq_of_blocks {log log' : BlockLog} (h : log.blocks = log'.blocks) : log = log' := by
  cases log
  cases log'
  cases h
  rfl

/-- One chain leaves one store and one log. -/
theorem Kept.agree (h : Kept pushed chain d) (h' : Kept pushed' chain d') :
    d.store = d'.store ∧ d.blockLog = d'.blockLog := by
  have hlength : d.blockLog.blocks.length = d'.blockLog.blocks.length := by
    rw [h.logs, h'.logs]
  have hblocks : d.blockLog.blocks = d'.blockLog.blocks := by
    rw [h.main.logged.blocks_eq, h'.main.logged.blocks_eq, hlength]
  exact ⟨h.main.onChain.store_eq h'.main.onChain hlength, BlockLog.eq_of_blocks hblocks⟩

/-- Two nodes on one chain agree, whatever is pending. -/
theorem Agree.of_kept (hd : Pending d) (hd' : Pending d') (h : Kept pushed chain d.settled)
    (h' : Kept pushed' chain d'.settled) : Agree d d' := by
  obtain ⟨hstore, hlog⟩ := h.agree h'
  refine ⟨?_, hstore, hlog⟩
  rw [(h.mainChain hd).headBlockId, (h'.mainChain hd').headBlockId]

variable {P Q : Database → SignedBlock → Prop}

/-- **The head settles the state.** Two nodes reached by pushes that returned, each with its own
blocks in its own order, have the same main chain, objects, undo states and log as soon as they have
the same head. -/
theorem returnedRun_agree (h : ReturnedRun P pushed d) (h' : ReturnedRun Q pushed' d')
    (hids : Unmistakable pushed pushed') (hhead : d.headBlockId = d'.headBlockId) :
    Agree d d' ∧ ∃ chain, MainChain pushed chain d ∧ MainChain pushed' chain d' := by
  obtain ⟨hpending, chain, hkept⟩ := h.kept
  obtain ⟨hpending', chain', hkept'⟩ := h'.kept
  have hmain := hkept.mainChain hpending
  have hmain' := hkept'.mainChain hpending'
  have hsame : headIdOf chain = headIdOf chain' := by
    rw [← hmain.headBlockId, ← hmain'.headBlockId, hhead]
  obtain rfl : chain = chain' := by
    apply hmain.linked.eq_of_headIdOf hmain'.linked
    · intro b hb c hc
      exact hids b (hmain.known b hb) c (hmain'.known c hc)
    · exact hkept.length_eq hkept' hsame
    · exact hsame
  exact ⟨.of_kept hpending hpending' hkept hkept', chain, hmain, hmain'⟩

/-! ## The order of the blocks -/

/-- The highest of the pushed blocks, where there is one, is the head. -/
theorem Chosen.headIdOf_eq (h : Chosen pushed chain) (hlinked : LinkedChain chain) {top : SignedBlock}
    (htop : top ∈ pushed) (hhighest : ∀ b ∈ pushed, b ≠ top → b.blockNum < top.blockNum) :
    headIdOf chain = if top.blockNum = 0 then .null else top.id := by
  have hlength : chain.length = top.blockNum := by
    obtain ⟨b, hb, hnum⟩ := h.reached (List.ne_nil_of_mem htop)
    have hle := h.highest top htop
    by_cases hne : b = top
    · rw [← hnum, hne]
    · have hlt := hhighest b hb hne
      omega
  cases chain with
  | nil =>
    rw [← hlength, List.length_nil, if_pos rfl]
    rfl
  | cons c rest =>
    have hearliest := h.earliest (List.cons_ne_nil _ _)
    have hmem := List.mem_of_find?_eq_some (hearliest.symm.trans rfl)
    have hcnum := List.find?_some (hearliest.symm.trans rfl)
    rw [beq_iff_eq, hlength] at hcnum
    obtain rfl : c = top := by
      by_contra hne
      have hlt := hhighest c hmem hne
      omega
    rw [← hlength, List.length_cons, if_neg (Nat.succ_ne_zero _)]
    rfl

/-- **The order does not count.** Two nodes that were given the same blocks, in any order and any
number of times, agree wherever one of the blocks is higher than all the others. -/
theorem returnedRun_converge (h : ReturnedRun P pushed d) (h' : ReturnedRun Q pushed' d')
    (hids : Unmistakable pushed pushed) (hsame : ∀ b, b ∈ pushed ↔ b ∈ pushed') (top : SignedBlock)
    (htop : top ∈ pushed) (hhighest : ∀ b ∈ pushed, b ≠ top → b.blockNum < top.blockNum) :
    Agree d d' := by
  obtain ⟨chain, hkept, hchosen⟩ := h.chosen
  obtain ⟨chain', hkept', hchosen'⟩ := h'.chosen
  have hpending := h.kept.1
  have hpending' := h'.kept.1
  have hmain := hkept.mainChain hpending
  have hmain' := hkept'.mainChain hpending'
  have hhead : headIdOf chain = headIdOf chain' := by
    rw [hchosen.headIdOf_eq hmain.linked htop hhighest,
      hchosen'.headIdOf_eq hmain'.linked ((hsame top).mp htop)
        fun b hb hne => hhighest b ((hsame b).mpr hb) hne]
  obtain rfl : chain = chain' := by
    apply hmain.linked.eq_of_headIdOf hmain'.linked
    · intro b hb c hc
      exact hids b (hmain.known b hb) c ((hsame c).mpr (hmain'.known c hc))
    · exact hkept.length_eq hkept' hhead
    · exact hhead
  exact .of_kept hpending hpending' hkept hkept'

end Chains

/-- A node that took in a sibling of the first block agrees with one that never saw it. -/
theorem returnedRun_agree_sibling :
    ∃ d d' : @Database smallNode, @Agree smallNode d d' ∧
      (@ForkDatabase.index smallNode.toEnv (@Database.forkDb smallNode d)).length = 3 ∧
      (@ForkDatabase.index smallNode.toEnv (@Database.forkDb smallNode d')).length = 2 := by
  let _ : Node := smallNode
  let x : SignedBlock := blockOn .null genesisTime []
  let y : SignedBlock := blockOn .null (genesisTime + 3) []
  let z : SignedBlock := blockOn x.id (genesisTime + 6) []
  have hrun := ReturnedRun.genesis.pushBlocks [y, x, z] (by decide +kernel)
  have hrun' := ReturnedRun.genesis.pushBlocks [x, z] (by decide +kernel)
  obtain ⟨hagree, -⟩ := returnedRun_agree hrun hrun' (by decide +kernel) (by decide +kernel)
  exact ⟨_, _, hagree, by decide +kernel, by decide +kernel⟩

/-- Two siblings and a block on one of them, in two orders. -/
theorem returnedRun_converge_siblings :
    ∃ d d' : @Database smallNode, @Agree smallNode d d' ∧ @Database.headBlockNum smallNode d = 2 := by
  let _ : Node := smallNode
  let x : SignedBlock := blockOn .null genesisTime []
  let y : SignedBlock := blockOn .null (genesisTime + 3) []
  let z : SignedBlock := blockOn x.id (genesisTime + 6) []
  have hrun := ReturnedRun.genesis.pushBlocks [x, y, z] (by decide +kernel)
  have hrun' := ReturnedRun.genesis.pushBlocks [y, x, z] (by decide +kernel)
  have hsame : ∀ b, b ∈ [x, y, z] ↔ b ∈ [y, x, z] := fun b => (List.Perm.swap y x [z]).mem_iff
  have hagree := returnedRun_converge hrun hrun' (by decide +kernel) hsame z (by simp)
    (by decide +kernel)
  exact ⟨_, _, hagree, by decide +kernel⟩

end NewsChain
