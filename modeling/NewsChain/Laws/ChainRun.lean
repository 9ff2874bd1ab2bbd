import NewsChain.Laws.ApplyBlock

/-!
# Runs of linked blocks

A run applies blocks, each to the block it builds on, and undoes the newest. What each block keeps
from the state it meets holds of every state of the run, and of every state the run can go back to:
`ChainRun.tracks` is that rule.
-/

namespace NewsChain

variable [Node]

/-- What a list of blocks does to the objects, each with the block before it applied. -/
def Objects.applyBlocks (skip : SkipFlags) (blocks : List SignedBlock) : ObjM Unit :=
  forM blocks (Objects.applyBlock skip)

/-- The id of the newest block of a chain, newest first. -/
def headIdOf : List SignedBlock → BlockId
  | [] => .null
  | b :: _ => b.id

/-- The objects have the chain's newest block as their head. -/
structure AtHead (chain : List SignedBlock) (o : Objects) : Prop where
  headBlockId : o.gpo.headBlockId = headIdOf chain
  headBlockNum : o.gpo.headBlockNum = numFromId (headIdOf chain)
  hardfork : HardforkOk o

theorem atHead_genesis : AtHead [] genesis := by
  refine ⟨?_, ?_, hardforkOk_genesis⟩ <;> rw [blank_genesis.1]
  · rfl
  · exact numFromId_null.symm

/-- A block that is applied becomes the head. -/
theorem AtHead.applyBlock {chain : List SignedBlock} {o o' : Objects} {skip : SkipFlags}
    {b : SignedBlock} (h : AtHead chain o) (hrun : (Objects.applyBlock skip b).run o = .ok () o') :
    AtHead (b :: chain) o' := by
  obtain ⟨hgpo, hfork⟩ := gpo_applyBlock h.hardfork hrun
  refine ⟨?_, ?_, hfork⟩
  · simp [hgpo, DynamicGlobalProperty.entered, headIdOf]
  · simp [hgpo, DynamicGlobalProperty.entered, headIdOf]

/-- The chains and stores reached from genesis by applying blocks in sessions, each to the block
it builds on, and by undoing the newest block. `P` is asked of each block and the objects it meets;
everything outside the store may change freely. -/
inductive ChainRun (P : Objects → SignedBlock → Prop) :
    List SignedBlock → Snapshots Objects → Prop
  | genesis : ChainRun P [] Database.genesis.store
  | apply {chain : List SignedBlock} {skip : SkipFlags} {b : SignedBlock} {d d' : Database} :
      ChainRun P chain d.store → b.previous = d.headBlockId → P d.store.content b →
        (applyInSession skip b).run d = .ok () d' → ChainRun P (b :: chain) d'.store
  | undo {chain : List SignedBlock} {b : SignedBlock} {s : Snapshots Objects} :
      ChainRun P (b :: chain) s → s.frames ≠ [] → ChainRun P chain s.undo

namespace ChainRun

variable {P : Objects → SignedBlock → Prop} {I : List SignedBlock → Objects → Prop}
  {chain : List SignedBlock} {s : Snapshots Objects}

/-- **The rule.** What holds at genesis and is kept by every block holds of every content the store
can go back to, of the chain it goes back to. -/
theorem tracks (h : ChainRun P chain s) (hgenesis : I [] NewsChain.genesis)
    (hstep : ∀ chain o o' skip b, AtHead chain o → I chain o → b.previous = o.gpo.headBlockId →
      P o b → (Objects.applyBlock skip b).run o = .ok () o' → I (b :: chain) o') :
    s.Tracks (fun chain o => AtHead chain o ∧ I chain o) chain := by
  induction h with
  | genesis => exact .initial ⟨atHead_genesis, hgenesis⟩
  | apply _ hprev hb happly ih =>
    obtain ⟨r, o, hrun, hstore⟩ := applyInSession_eq_ok happly
    obtain ⟨hhead, hi⟩ := ih.content
    rw [hstore]
    exact (ih.put_start ⟨hhead.applyBlock hrun, hstep _ _ _ _ _ hhead hi hprev hb hrun⟩).commit r
  | undo _ hframes ih => exact ih.undo hframes

end ChainRun

/-- The chains and stores reached from genesis by applying blocks in sessions, whatever they build on
and are skipped for, and by undoing the newest. -/
inductive AppliedRun : List SignedBlock → Snapshots Objects → Prop
  | genesis : AppliedRun [] Database.genesis.store
  | apply {chain : List SignedBlock} {skip : SkipFlags} {b : SignedBlock} {d d' : Database} :
      AppliedRun chain d.store → (applyInSession skip b).run d = .ok () d' →
        AppliedRun (b :: chain) d'.store
  | undo {chain : List SignedBlock} {b : SignedBlock} {s : Snapshots Objects} :
      AppliedRun (b :: chain) s → s.frames ≠ [] → AppliedRun chain s.undo

/-- **The rule**, where a block may be applied to any other. -/
theorem AppliedRun.tracks {I : List SignedBlock → Objects → Prop} {chain : List SignedBlock}
    {s : Snapshots Objects} (h : AppliedRun chain s) (hgenesis : I [] NewsChain.genesis)
    (hstep : ∀ chain o o' skip b, I chain o → (Objects.applyBlock skip b).run o = .ok () o' →
      I (b :: chain) o') : s.Tracks I chain := by
  induction h with
  | genesis => exact .initial hgenesis
  | apply _ happly ih =>
    obtain ⟨r, o, hrun, hstore⟩ := applyInSession_eq_ok happly
    rw [hstore]
    exact (ih.put_start (hstep _ _ _ _ _ ih.content hrun)).commit r
  | undo _ hframes ih => exact ih.undo hframes

end NewsChain
