import NewsChain.Chain.Database
import NewsChain.Laws.BlockObjects

/-!
# What applying a block in a session does

`applyInSession` ends in one of three ways: the block is refused and the store is as before; the
block is applied; or the block is applied, a block for the log is missing, and the objects go back
although the commit stays. `SessionOutcome` says what each leaves behind.

The commit runs inside the session. The session can only be undone where its own snapshot outlives
that commit, which is a matter of revisions.
-/

namespace NewsChain

open EStateM (Result)

/-! ## Sessions and commits -/

namespace Snapshots

variable {σ : Type} {s : Snapshots σ} {r : Int} {c : σ}

/-- A commit below the newest snapshot is a commit of those under it. -/
theorem commit_put_start (h : r ≤ s.revision) :
    (s.start.put c).commit r = (s.commit r).start.put c := by
  have hkeep : decide (s.revision + 1 ≤ r) = false := by simp; omega
  simp only [commit, start, put, rdropWhile_cons, hkeep, Bool.false_eq_true, if_false]
  split
  · rename_i hall
    rw [hall]
  · rfl

end Snapshots

/-! ## The log loop as a program over the log -/

section Logging

variable [Env]

/-- `appendBlocks` for a fixed fork database. -/
def appendToLog (fdb : ForkDatabase) : Nat → Nat → EStateM Exc BlockLog Unit
  | 0, _ => pure ()
  | count + 1, logHeadNum => do
    match fdb.fetchBlockOnMainBranchByNumber (logHeadNum + 1) with
    | none => throw (.assertion
        "Current fork in the fork database does not contain the last_irreversible_block")
    | some item =>
      match (← get).append item.data with
      | .error e => throw e
      | .ok log => set log
      appendToLog fdb count (logHeadNum + 1)

/-- The part of `update_last_irreversible_block` that writes the log. -/
def logUpTo (skip : SkipFlags) (fdb : ForkDatabase) (lastIrreversible : Nat) :
    EStateM Exc BlockLog Unit :=
  onlyIf (!skip.has skipBlockLog) do
    let logHeadNum := (← get).headNum
    appendToLog fdb (lastIrreversible - logHeadNum) logHeadNum

end Logging

variable [Node] {α : Type}

/-- A run over the log, with the database around it. -/
def withLog (d : Database) : Result Exc BlockLog α → Result Exc Database α
  | .ok a log => .ok a { d with blockLog := log }
  | .error e log => .error e { d with blockLog := log }

/-- A run over the objects, with the database around it. -/
def withObjects (d : Database) : Result Exc Objects α → Result Exc Database α
  | .ok a o => .ok a { d with store := d.store.put o }
  | .error e o => .error e { d with store := d.store.put o }

theorem run_objects (m : ObjM α) (d : Database) :
    (objects m).run d = withObjects d (m.run d.store.content) := by
  show objects m d = _
  unfold objects
  split <;> rename_i h <;> rw [h] <;> rfl

/-- What throws in a session is undone, whatever it did. -/
theorem run_withSession (m : DbM α) (d : Database) :
    (withSession m).run d =
      match m.run { d with store := d.store.start } with
      | .ok a d' => .ok a d'
      | .error e d' => .error e { d' with store := d'.store.undo } := by
  have hstart : (modifyStore .start).run d = .ok () { d with store := d.store.start } := rfl
  simp only [withSession, EStateM.run_bind, hstart, run_tryCatch]
  cases m.run { d with store := d.store.start } <;> rfl

theorem run_appendBlocks (count logHeadNum : Nat) (d : Database) :
    (appendBlocks count logHeadNum).run d =
      withLog d ((appendToLog d.forkDb count logHeadNum).run d.blockLog) := by
  induction count generalizing logHeadNum d with
  | zero => rfl
  | succ count ih =>
    simp only [appendBlocks, appendToLog, EStateM.run_bind, EStateM.run_get]
    cases d.forkDb.fetchBlockOnMainBranchByNumber (logHeadNum + 1) with
    | none => rfl
    | some item =>
      simp only [EStateM.run_bind, EStateM.run_get]
      cases d.blockLog.append item.data with
      | error e => rfl
      | ok log => exact ih (logHeadNum + 1) { d with blockLog := log }

/-! ## The parts of `_apply_block` -/

/-- The database at the start of an application. -/
def Database.noting (d : Database) (b : SignedBlock) : Database :=
  { d with
    applied := ⟨b, d.headBlockId, d.headBlockNum⟩ :: d.applied
    currentBlockNum := b.blockNum }

/-- The size `update_last_irreversible_block` gives the fork database. -/
def forkWindow (gpo : DynamicGlobalProperty) : Nat :=
  (gpo.headBlockNum + 2 ^ 32 - gpo.lastIrreversibleBlockNum + 1) % 2 ^ 32

theorem run_updateLastIrreversibleBlock (skip : SkipFlags) (d : Database) :
    (updateLastIrreversibleBlock skip).run d =
      let o := d.store.content.raised
      let lib := o.gpo.lastIrreversibleBlockNum
      let d' := { d with store := (d.store.put o).commit lib }
      match (logUpTo skip d.forkDb lib).run d.blockLog with
      | .ok _ log =>
        .ok () { d' with blockLog := log, forkDb := d.forkDb.setMaxSize (forkWindow o.gpo) }
      | .error e log => .error e { d' with blockLog := log } := by
  have hraise : (objects raiseLastIrreversible).run d =
      .ok () { d with store := d.store.put d.store.content.raised } := rfl
  simp only [updateLastIrreversibleBlock, EStateM.run_bind, hraise, EStateM.run_get, modifyStore,
    EStateM.run_modify, run_onlyIf, run_appendBlocks, logUpTo, Database.gpo, Snapshots.put_content]
  by_cases hskip : (!skip.has skipBlockLog) = true
  · simp only [hskip, if_true]
    cases hlog : (appendToLog d.forkDb (d.store.content.raised.gpo.lastIrreversibleBlockNum -
      d.blockLog.headNum) d.blockLog.headNum).run d.blockLog with
    | ok _ log =>
      simp only [withLog]
      rfl
    | error e log => rfl
  · simp only [if_neg hskip]
    rfl

/-- How the application of a block in a session ends, and in which database. `o` and `o'` are the
objects after the two parts of the block. -/
inductive SessionOutcome (skip : SkipFlags) (b : SignedBlock) (d : Database) :
    Result Exc Database Unit → Prop
  | refused {e : Exc} {o : Objects} :
      (Objects.enterBlock skip b).run d.store.content = .error e o →
      SessionOutcome skip b d (.error e (d.noting b))
  | applied {o o' : Objects} {log : BlockLog} :
      (Objects.enterBlock skip b).run d.store.content = .ok () o →
      (logUpTo skip d.forkDb o.raised.gpo.lastIrreversibleBlockNum).run d.blockLog = .ok () log →
      (Objects.leaveBlock b).run o.raised = .ok () o' →
      SessionOutcome skip b d (.ok ()
        { d.noting b with
          store := (d.store.commit o.raised.gpo.lastIrreversibleBlockNum).start.put o'
          blockLog := log
          forkDb := d.forkDb.setMaxSize (forkWindow o.raised.gpo) })
  | unlogged {e : Exc} {o : Objects} {log : BlockLog} :
      (Objects.enterBlock skip b).run d.store.content = .ok () o →
      (logUpTo skip d.forkDb o.raised.gpo.lastIrreversibleBlockNum).run d.blockLog = .error e log →
      SessionOutcome skip b d (.error e
        { d.noting b with
          store := d.store.commit o.raised.gpo.lastIrreversibleBlockNum
          blockLog := log })

/-- The outcomes are all there is, where the session outlives the commit inside. -/
theorem applyInSession_cases {skip : SkipFlags} {b : SignedBlock} {d : Database}
    (hfork : HardforkOk d.store.content)
    (hcommit : ∀ o, (Objects.enterBlock skip b).run d.store.content = .ok () o →
      (o.raised.gpo.lastIrreversibleBlockNum : Int) ≤ d.store.revision) :
    SessionOutcome skip b d ((applyInSession skip b).run d) := by
  simp only [applyInSession, run_withSession, applyBlock, applyBlockImpl, EStateM.run_bind,
    EStateM.run_modify, run_objects, run_updateLastIrreversibleBlock]
  have hcontent : d.store.start.content = d.store.content := rfl
  simp only [hcontent]
  cases henter : (Objects.enterBlock skip b).run d.store.content with
  | error e o =>
    simp only [withObjects, Snapshots.undo_put_start]
    exact .refused henter
  | ok _ o =>
    have hok : HardforkOk o := (enterBlock_keeps_hardforkOk skip b).of_ok hfork henter
    obtain ⟨o', hleave, -⟩ := run_leaveBlock (o := o.raised) hok b
    simp only [withObjects, Snapshots.put_content, Snapshots.put_put,
      Snapshots.commit_put_start (hcommit o henter)]
    cases hlog : (logUpTo skip d.forkDb o.raised.gpo.lastIrreversibleBlockNum).run d.blockLog with
    | error e log =>
      simp only [Snapshots.undo_put_start]
      exact .unlogged henter hlog
    | ok _ log =>
      simp only [Snapshots.put_content, hleave, Snapshots.put_put]
      exact .applied henter hlog hleave

/-- An application that returned made of the objects what the block makes of them, over the
snapshots its commit left. -/
theorem applyInSession_eq_ok {skip : SkipFlags} {b : SignedBlock} {d d' : Database}
    (h : (applyInSession skip b).run d = .ok () d') :
    ∃ r o, (Objects.applyBlock skip b).run d.store.content = .ok () o ∧
      d'.store = (d.store.start.commit r).put o := by
  have hcontent : d.store.start.content = d.store.content := rfl
  simp only [applyInSession, run_withSession, applyBlock, applyBlockImpl, EStateM.run_bind,
    EStateM.run_modify, run_objects, run_updateLastIrreversibleBlock, hcontent] at h
  simp only [Objects.applyBlock, EStateM.run_bind]
  cases henter : (Objects.enterBlock skip b).run d.store.content with
  | error e o => simp [henter, withObjects] at h
  | ok _ o =>
    have hraise : raiseLastIrreversible.run o = .ok () o.raised := rfl
    simp only [henter, withObjects, Snapshots.put_content, Snapshots.put_put] at h
    simp only [hraise]
    cases hlog : (logUpTo skip d.forkDb o.raised.gpo.lastIrreversibleBlockNum).run d.blockLog with
    | error e log => simp [hlog] at h
    | ok _ log =>
      simp only [hlog, Snapshots.commit_content, Snapshots.put_content] at h
      cases hleave : (Objects.leaveBlock b).run o.raised with
      | error e o' => simp [hleave] at h
      | ok _ o' =>
        simp only [hleave, Result.ok.injEq, true_and] at h
        refine ⟨o.raised.gpo.lastIrreversibleBlockNum, o', rfl, ?_⟩
        rw [← h]
        rfl

end NewsChain
