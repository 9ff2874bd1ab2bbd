import NewsChain.Chain.Objects
import NewsChain.Chainbase.Sessions
import NewsChain.Laws.UndoStore

/-!
# The undo stacks of a database move together

`Joined x s`: each index of the database is what one stack of snapshots, of the contents of all indexes,
has for it. Every call on every index keeps this (`Joined.each`), so a program may be read on that one
stack (`sessionCalls_refine`), and one that keeps its sessions in scopes without any stack
(`sessionScope_allOrNothing`).
-/

namespace NewsChain

open EStateM (Result)

section Sessions

variable {ι : Type} {V : ι → Type} [∀ i, Indexed (V i)] {l : IndexList ι} {x : ChainbaseStore V}
  {s : Snapshots (Contents V)}

/-- Each index is what the stack has for it. -/
def Joined (x : ChainbaseStore V) (s : Snapshots (Contents V)) : Prop :=
  ∀ i, Refines (x.index i) (s.map fun c => c i)

namespace Joined

theorem empty : Joined ({} : ChainbaseStore V) { content := fun _ => .empty } := fun _ =>
  ⟨rfl, rfl, rfl, Content.below_empty⟩

theorem contents (h : Joined x s) : x.contents = s.content := by
  funext i
  exact Content.ext (h i).indices (h i).nextId

theorem depth (h : Joined x s) (i : ι) : (x.index i).stack.length = s.frames.length := by
  rw [(h i).length_eq, Snapshots.length_map_frames]

end Joined

/-- The sessions of a database session: all to be ended, or none. -/
def Session.Live (l : IndexList ι) (session : Session ι) : Bool → Prop
  | true => session.indexSessions = l.list.map fun i => { index := i, apply := true }
  | false => ∀ i ∈ session.indexSessions, i.apply = false

theorem Session.live_cleared (session : Session ι) :
    Session.Live l { session with indexSessions := [] } false := nofun

variable [DecidableEq ι]

/-! ## Two lists side by side -/

theorem forall₂_set {α β : Type} {R : α → β → Prop} {as : List α} {bs : List β} {a : α} {b : β}
    (h : List.Forall₂ R as bs) (hab : R a b) (k : Nat) :
    List.Forall₂ R (as.set k a) (bs.set k b) := by
  induction h generalizing k with
  | nil => exact .nil
  | cons hfirst hrest ih =>
    cases k with
    | zero => exact .cons hab hrest
    | succ k => exact .cons hfirst (ih k)

theorem forall₂_eraseIdx {α β : Type} {R : α → β → Prop} {as : List α} {bs : List β}
    (h : List.Forall₂ R as bs) (k : Nat) : List.Forall₂ R (as.eraseIdx k) (bs.eraseIdx k) := by
  induction h generalizing k with
  | nil => exact .nil
  | cons hfirst hrest ih =>
    cases k with
    | zero => exact hrest
    | succ k => exact .cons hfirst (ih k)

/-! ## Calls on every index -/

theorem run_callIndex (i : ι) (f : GenericIndex (V i) → Except Exc (GenericIndex (V i))) :
    (callIndex i f).run x =
      match f (x.index i) with
      | .ok g => .ok () { x with index := Function.update x.index i g }
      | .error e => .error e x := by
  rw [callIndex, EStateM.run_bind]
  change EStateM.run (match f (x.index i) with
    | .ok g => set { x with index := Function.update x.index i g }
    | .error e => throw e) x = _
  cases f (x.index i) with
  | ok g => rfl
  | error e => rfl

/-- A call that no index refuses is made on all of them. -/
theorem run_callEach {f : (i : ι) → GenericIndex (V i) → Except Exc (GenericIndex (V i))}
    {g : (i : ι) → GenericIndex (V i)} (h : ∀ i, f i (x.index i) = .ok (g i)) :
    (callEach l f).run x = .ok () { x with index := g } := by
  have hlist : ∀ (is : List ι), is.Nodup → ∀ y : ChainbaseStore V,
      (∀ i ∈ is, y.index i = x.index i) →
      (forM is fun i => callIndex i (f i)).run y =
        .ok () { y with index := fun i => if i ∈ is then g i else y.index i } := by
    intro is
    induction is with
    | nil =>
      intro _ y _
      rfl
    | cons i is ih =>
      intro hnodup y hsame
      obtain ⟨hnew, hrest⟩ := List.nodup_cons.mp hnodup
      rw [List.forM_cons, EStateM.run_bind, run_callIndex, hsame i List.mem_cons_self, h i]
      dsimp only
      rw [ih hrest _ fun j hj => ?_]
      · congr 2
        funext j
        by_cases hji : j = i
        · subst hji
          dsimp only
          rw [if_neg hnew, if_pos List.mem_cons_self, Function.update_self]
        · simp only [Function.update_of_ne hji, List.mem_cons, hji, false_or]
      · have hji : j ≠ i := by
          rintro rfl
          exact hnew hj
        dsimp only
        rw [Function.update_of_ne hji, hsame j (List.mem_cons_of_mem _ hj)]
  rw [callEach, hlist l.list l.nodup x fun _ _ => rfl]
  congr 2
  funext i
  rw [if_pos (l.all i)]

namespace Joined

/-- **A call** that the index takes everywhere. -/
theorem each {s' : Snapshots (Contents V)}
    {f : (i : ι) → GenericIndex (V i) → Except Exc (GenericIndex (V i))}
    (h : ∀ i, ∃ g, f i (x.index i) = .ok g ∧ Refines g (s'.map fun c => c i)) :
    ∃ x', (callEach l f).run x = .ok () x' ∧ x'.undoSessionCount = x.undoSessionCount ∧
      Joined x' s' := by
  choose g hg hjoined using h
  exact ⟨{ x with index := g }, run_callEach hg, rfl, hjoined⟩

theorem undo (h : Joined x s) :
    ∃ x', (undoLast l).run x = .ok () x' ∧ x'.undoSessionCount = x.undoSessionCount ∧
      Joined x' s.undo := by
  apply each
  intro i
  rw [← Snapshots.map_undo]
  exact (h i).undo

theorem squash (h : Joined x s) :
    ∃ x', (squashLast l).run x = .ok () x' ∧ x'.undoSessionCount = x.undoSessionCount ∧
      Joined x' s.squash := by
  apply each
  intro i
  rw [← Snapshots.map_squash]
  exact ⟨_, rfl, (h i).squash⟩

theorem commit (h : Joined x s) (r : Int) :
    ∃ x', (commitTo l r).run x = .ok () x' ∧ x'.undoSessionCount = x.undoSessionCount ∧
      Joined x' (s.commit r) := by
  apply each
  intro i
  rw [← Snapshots.map_commit]
  exact ⟨_, rfl, (h i).commit r⟩

theorem undoAll (h : Joined x s) :
    ∃ x', (undoAllOf l).run x = .ok () x' ∧ x'.undoSessionCount = x.undoSessionCount ∧
      Joined x' s.undoAll := by
  apply each
  intro i
  rw [← Snapshots.map_undoAll]
  exact (h i).undoAll

theorem setRevision (h : Joined x s) (hnone : s.frames = []) (r : Int) :
    ∃ x', (setRevisionOf l r).run x = .ok () x' ∧ x'.undoSessionCount = x.undoSessionCount ∧
      Joined x' (s.setRevision r) := by
  apply each
  intro i
  have hdepth := h.depth i
  rw [hnone, List.length_nil] at hdepth
  have hi := h i
  exact ⟨_, if_neg (not_not.mpr hdepth), hi.indices, hi.nextId, rfl, hi.records⟩

/-- Where there is an undo state the revision is not set. -/
theorem run_setRevision_refused (h : Joined x s) (hsome : s.frames ≠ []) (r : Int) :
    finalState ((setRevisionOf l r).run x) = x := by
  have hlist : ∀ is : List ι,
      finalState ((forM is fun i => callIndex i fun g => g.setRevision r).run x) = x := by
    intro is
    cases is with
    | nil => rfl
    | cons i is =>
      have hdepth : (x.index i).stack.length ≠ 0 := by
        rw [h.depth i]
        exact fun hzero => hsome (List.length_eq_zero_iff.mp hzero)
      rw [List.forM_cons, EStateM.run_bind, run_callIndex, GenericIndex.setRevision, if_pos hdepth]
      rfl
  exact hlist l.list

end Joined

/-! ## Sessions -/

theorem run_once_ended {is : List (IndexSession ι)} (h : ∀ i ∈ is, i.apply = false)
    (f : (i : ι) → GenericIndex (V i) → Except Exc (GenericIndex (V i))) :
    (forM is fun i : IndexSession ι => i.once (f i.index)).run x = .ok () x := by
  induction is with
  | nil => rfl
  | cons i is ih =>
    rw [List.forM_cons, EStateM.run_bind, IndexSession.once, h i List.mem_cons_self]
    exact ih fun j hj => h j (List.mem_cons_of_mem _ hj)

theorem run_once_live (f : (i : ι) → GenericIndex (V i) → Except Exc (GenericIndex (V i))) :
    (forM (l.list.map fun i => ({ index := i, apply := true } : IndexSession ι)) fun i =>
      i.once (f i.index)) = callEach l f := by
  rw [callEach, List.forM_map]
  rfl

/-- What is done at the end of a session is done on every index, or on none. -/
theorem Session.Live.run {session : Session ι} {live : Bool} (h : session.Live l live)
    (f : (i : ι) → GenericIndex (V i) → Except Exc (GenericIndex (V i))) :
    (forM session.indexSessions fun i : IndexSession ι => i.once (f i.index)).run x =
      if live then (callEach l f).run x else .ok () x := by
  cases live with
  | false => exact run_once_ended h f
  | true =>
    rw [Session.Live] at h
    rw [h, run_once_live]
    rfl

/-! ## One call -/

theorem Joined.update (h : Joined x s) {i : ι} {g : GenericIndex (V i)} {c : Content (V i)}
    (hg : Refines g ((s.map fun c => c i).put c)) :
    Joined { x with index := Function.update x.index i g } (s.put (Function.update s.content i c)) := by
  intro j
  by_cases hji : j = i
  · subst hji
    have hput : (s.put (Function.update s.content j c)).map (fun c => c j) =
        (s.map fun c => c j).put c := by
      rw [Snapshots.map, Snapshots.put_content, Function.update_self]
      rfl
    rw [hput]
    dsimp only
    rwa [Function.update_self]
  · have hput : (s.put (Function.update s.content i c)).map (fun c => c j) =
        s.map fun c => c j := by
      rw [Snapshots.map, Snapshots.put_content, Function.update_of_ne hji]
      rfl
    rw [hput]
    dsimp only
    rw [Function.update_of_ne hji]
    exact h j

/-- A call on one index, and the same on the contents. -/
theorem Joined.simulates {i : ι} {f : GenericIndex (V i) → Except Exc (GenericIndex (V i))}
    {m : EStateM Exc (Contents V) Unit}
    (hcases : ∀ (g : GenericIndex (V i)) (t : Snapshots (Contents V)), Refines g (t.map fun c => c i) →
      (∃ e, f g = .error e ∧ m.run t.content = .error e t.content) ∨
      ∃ g' c, f g = .ok g' ∧ m.run t.content = .ok () (Function.update t.content i c) ∧
        Refines g' ((t.map fun c => c i).put c)) :
    Simulates Joined (callIndex i f) (Snapshots.onContent m) := by
  intro x t h
  rw [run_callIndex, Lifts.run_onContent]
  rcases hcases _ t (h i) with ⟨e, hf, hm⟩ | ⟨g', c, hf, hm, hg'⟩
  · rw [hf, hm]
    exact .error e h
  · rw [hf, hm]
    exact .ok () (h.update hg')

theorem Joined.create (i : ι) (v : V i) :
    Simulates Joined (callIndex i (·.emplace v)) (Snapshots.onContent (createIn i v)) := by
  apply Joined.simulates
  intro g t h
  have hafter := h.emplace v
  simp only [GenericIndex.after, GenericIndex.step, Snapshots.step, Snapshots.map_content] at hafter
  have hemplace : g.indices.emplace g.nextId v =
      (t.content i).table.emplace (t.content i).nextId v := by rw [h.indices, h.nextId]; rfl
  cases hc : (t.content i).emplace v with
  | none =>
    have hnone : (t.content i).table.emplace (t.content i).nextId v = none := by
      simpa [Content.emplace] using hc
    left
    refine ⟨.logicError
      "could not insert object, most likely a uniqueness constraint was violated", ?_, ?_⟩
    · rw [GenericIndex.emplace, hemplace, hnone]
    · simp only [createIn, EStateM.run, hc]
  | some c =>
    obtain ⟨u, hu, -⟩ : ∃ u, (t.content i).table.emplace (t.content i).nextId v = some u ∧
        (⟨u, (t.content i).nextId + 1⟩ : Content (V i)) = c := by
      simpa [Content.emplace] using hc
    right
    have hok : ∃ g', g.emplace v = .ok g' := by
      rw [GenericIndex.emplace, hemplace, hu]
      exact ⟨_, rfl⟩
    obtain ⟨g', hg'⟩ := hok
    rw [hg', hc] at hafter
    exact ⟨g', c, hg', by simp only [createIn, EStateM.run, hc], hafter⟩

theorem Joined.modify (i : ι) (id : Nat) (m : Modifier (V i)) :
    Simulates Joined (callIndex i (·.modify id m)) (Snapshots.onContent (modifyIn i id m)) := by
  apply Joined.simulates
  intro g t h
  have hafter := h.modify id m
  simp only [GenericIndex.after, GenericIndex.step, Snapshots.step, Snapshots.map_content] at hafter
  have hget : g.indices.get? id = (t.content i).table.get? id := by rw [h.indices]; rfl
  cases hv : (t.content i).table.get? id with
  | none =>
    left
    refine ⟨.undefinedBehavior "_indices.iterator_to( obj )", ?_, ?_⟩
    · rw [GenericIndex.modify, hget, hv]
    · simp only [modifyIn, EStateM.run, hv]
  | some v =>
    right
    have hok : ∃ g', g.modify id m = .ok g' := by
      rw [GenericIndex.modify, hget, hv]
      exact ⟨_, rfl⟩
    obtain ⟨g', hg'⟩ := hok
    rw [hg'] at hafter
    exact ⟨g', _, hg', by simp only [modifyIn, EStateM.run, hv], hafter⟩

theorem Joined.remove (i : ι) (id : Nat) :
    Simulates Joined (callIndex i (·.remove id)) (Snapshots.onContent (removeIn (V := V) i id)) := by
  apply Joined.simulates
  intro g t h
  have hafter := h.remove id
  simp only [GenericIndex.after, GenericIndex.step, Snapshots.step, Snapshots.map_content] at hafter
  have hget : g.indices.get? id = (t.content i).table.get? id := by rw [h.indices]; rfl
  cases hv : (t.content i).table.get? id with
  | none =>
    left
    refine ⟨.undefinedBehavior "_indices.iterator_to( obj )", ?_, ?_⟩
    · rw [GenericIndex.remove, hget, hv]
    · simp only [removeIn, EStateM.run, hv]
  | some v =>
    right
    have hok : ∃ g', g.remove id = .ok g' := by
      rw [GenericIndex.remove, hget, hv]
      exact ⟨_, rfl⟩
    obtain ⟨g', hg'⟩ := hok
    rw [hg'] at hafter
    exact ⟨g', _, hg', by simp only [removeIn, EStateM.run, hv], hafter⟩

/-! ## A session -/

/-- A session on an index; it is to be ended unless its revision is the one that stands for none. -/
theorem Joined.run_startIndexSession (h : Joined x s) {y : ChainbaseStore V} {i : ι}
    (hsame : y.index i = x.index i) : (startIndexSession (V := V) i).run y =
      .ok { index := i, apply := s.revision + 1 ≠ -1 }
        { y with index := Function.update y.index i (x.index i).startUndoSession } := by
  have hrevision : (x.index i).startUndoSession.revision = s.revision + 1 := (h i).start.revision
  rw [startIndexSession, EStateM.run_bind, run_callIndex, hsame]
  dsimp only
  rw [← hrevision]
  change Result.ok ({
    index := i
    apply := decide ((Function.update y.index i (x.index i).startUndoSession i).revision ≠ -1) } :
      IndexSession ι) _ = _
  rw [Function.update_self]

theorem Joined.run_startIndexSessions (h : Joined x s) {is : List ι} (hnodup : is.Nodup)
    {y : ChainbaseStore V} (hsame : ∀ i ∈ is, y.index i = x.index i) :
    (is.mapM (startIndexSession (V := V))).run y =
      .ok (is.map fun i => { index := i, apply := s.revision + 1 ≠ -1 })
        { y with index := fun i => if i ∈ is then (x.index i).startUndoSession else y.index i } := by
  induction is generalizing y with
  | nil => rfl
  | cons i is ih =>
    obtain ⟨hnew, hrest⟩ := List.nodup_cons.mp hnodup
    rw [List.mapM_cons, EStateM.run_bind, h.run_startIndexSession (hsame i List.mem_cons_self)]
    dsimp only
    rw [EStateM.run_bind, ih hrest fun j hj => ?_]
    · refine congrArg₂ Result.ok rfl ?_
      congr 1
      funext j
      by_cases hji : j = i
      · subst hji
        dsimp only
        rw [if_neg hnew, if_pos List.mem_cons_self, Function.update_self]
      · simp only [Function.update_of_ne hji, List.mem_cons, hji, false_or]
    · have hji : j ≠ i := by
        rintro rfl
        exact hnew hj
      dsimp only
      rw [Function.update_of_ne hji, hsame j (List.mem_cons_of_mem _ hj)]

/-- **A session** is started on every index. -/
theorem Joined.start (h : Joined x s) :
    ∃ session x', (startUndoSession l).run x = .ok session x' ∧
      session.Live l (s.revision + 1 ≠ -1) ∧ x'.undoSessionCount = x.undoSessionCount + 1 ∧
      Joined x' s.start := by
  have hmap := h.run_startIndexSessions l.nodup (y := x) fun _ _ => rfl
  generalize hsessions : (l.list.map fun i =>
    ({ index := i, apply := s.revision + 1 ≠ -1 } : IndexSession ι)) = sessions at hmap
  refine ⟨⟨sessions, (sessions.head?.map (·.revision)).getD (-1)⟩,
    { index := fun i => (x.index i).startUndoSession, undoSessionCount := x.undoSessionCount + 1 },
    ?_, ?_, rfl, fun i => (h i).start⟩
  · have hall : (fun i => if i ∈ l.list then (x.index i).startUndoSession else x.index i) =
        fun i => (x.index i).startUndoSession := by
      funext i
      rw [if_pos (l.all i)]
    rw [hall] at hmap
    rw [startUndoSession, EStateM.run_bind, hmap]
    rfl
  · subst hsessions
    by_cases hrevision : s.revision + 1 = -1
    · simp only [hrevision, ne_eq, not_true_eq_false, decide_false]
      intro i hi
      obtain ⟨j, -, rfl⟩ := List.mem_map.mp hi
      rfl
    · simp only [hrevision, ne_eq, not_false_eq_true, decide_true]
      rfl

/-- A session of the database and what is known of it. -/
theorem Joined.ends {session : Session ι} {live : Bool} (h : Joined x s)
    (hlive : session.Live l live)
    {f : (i : ι) → GenericIndex (V i) → Except Exc (GenericIndex (V i))}
    {s' : Snapshots (Contents V)}
    (hf : ∃ x', (callEach l f).run x = .ok () x' ∧ x'.undoSessionCount = x.undoSessionCount ∧
      Joined x' s') :
    ∃ x', (forM session.indexSessions fun i : IndexSession ι => i.once (f i.index)).run x = .ok () x' ∧
      x'.undoSessionCount = x.undoSessionCount ∧ Joined x' (if live then s' else s) := by
  rw [hlive.run]
  cases live with
  | false => exact ⟨x, rfl, rfl, h⟩
  | true => exact hf

theorem Session.Live.squashes {session : Session ι} {live : Bool} (hlive : session.Live l live)
    (h : Joined x s) :
    ∃ x', session.squash.run x = .ok { session with indexSessions := [] } x' ∧
      x'.undoSessionCount = x.undoSessionCount ∧ Joined x' (if live then s.squash else s) := by
  obtain ⟨x', hrun, hcount, hx'⟩ := h.ends hlive h.squash
  refine ⟨x', ?_, hcount, hx'⟩
  have hforM : (forM session.indexSessions fun i : IndexSession ι => i.squash (V := V)).run x =
      .ok () x' := hrun
  rw [Session.squash, EStateM.run_bind, hforM]
  rfl

theorem Session.Live.undoes {session : Session ι} {live : Bool} (hlive : session.Live l live)
    (h : Joined x s) :
    ∃ x', session.undo.run x = .ok { session with indexSessions := [] } x' ∧
      x'.undoSessionCount = x.undoSessionCount ∧ Joined x' (if live then s.undo else s) := by
  obtain ⟨x', hrun, hcount, hx'⟩ := h.ends hlive h.undo
  refine ⟨x', ?_, hcount, hx'⟩
  have hforM : (forM session.indexSessions fun i : IndexSession ι => i.undo (V := V)).run x =
      .ok () x' := hrun
  rw [Session.undo, EStateM.run_bind, hforM]
  rfl

/-- A session object goes: it is undone if it has had no end. -/
theorem Session.Live.destroyed {session : Session ι} {live : Bool} (hlive : session.Live l live)
    (h : Joined x s) :
    ∃ x', session.destroy.run x = .ok () x' ∧ x'.undoSessionCount = x.undoSessionCount - 1 ∧
      Joined x' (if live then s.undo else s) := by
  obtain ⟨x', hrun, hcount, hx'⟩ := hlive.undoes h
  refine ⟨{ x' with undoSessionCount := x'.undoSessionCount - 1 }, ?_, by rw [hcount], hx'⟩
  rw [Session.destroy, EStateM.run_bind, hrun]
  rfl

/-! ## Runs -/

/-- The sessions that are held are those of the one stack, and counted. -/
structure Held (l : IndexList ι) (w : Workspace V) (a : Holding (Contents V)) : Prop where
  joined : Joined w.store a.snapshots
  sessions : List.Forall₂ (Session.Live l) w.sessions a.live
  count : w.store.undoSessionCount = w.sessions.length

namespace Held

variable {w : Workspace V} {a : Holding (Contents V)}

omit [DecidableEq ι] in
theorem call {m : StoreM V Unit} {s' : Snapshots (Contents V)} (h : Held l w a)
    (hm : ∃ x', m.run w.store = .ok () x' ∧ x'.undoSessionCount = w.store.undoSessionCount ∧
      Joined x' s') : Held l (w.call m) { a with snapshots := s' } := by
  obtain ⟨x', hrun, hcount, hx'⟩ := hm
  rw [Workspace.call, hrun]
  exact ⟨hx', h.sessions, hcount.trans h.count⟩

/-- A call on the objects of one index. -/
theorem put {i : ι} {f : GenericIndex (V i) → Except Exc (GenericIndex (V i))}
    {m : EStateM Exc (Contents V) Unit} (h : Held l w a)
    (hm : Simulates Joined (callIndex i f) (Snapshots.onContent m)) :
    Held l (w.call (callIndex i f)) (a.put m) := by
  refine ⟨(hm _ _ h.joined).finalState, h.sessions, ?_⟩
  refine Eq.trans ?_ h.count
  rw [Workspace.call, run_callIndex]
  cases f (w.store.index i) with
  | ok g => rfl
  | error e => rfl

omit [DecidableEq ι] in
/-- A place of the sessions. -/
theorem lookup (h : Held l w a) (k : Nat) :
    (w.sessions[k]? = none ∧ a.live[k]? = none) ∨
      ∃ session live, w.sessions[k]? = some session ∧ a.live[k]? = some live ∧
        session.Live l live := by
  have hlength := h.sessions.length_eq
  by_cases hlt : k < w.sessions.length
  · have hlt' : k < a.live.length := by rwa [← hlength]
    exact .inr ⟨_, _, List.getElem?_eq_getElem hlt, List.getElem?_eq_getElem hlt',
      h.sessions.get hlt hlt'⟩
  · left
    rw [List.getElem?_eq_none_iff, List.getElem?_eq_none_iff]
    omega

omit [DecidableEq ι] in
/-- What is done with a session that is held. -/
theorem ending (h : Held l w a) (k : Nat) {m : Session ι → StoreM V (Session ι)}
    {f : Snapshots (Contents V) → Snapshots (Contents V)}
    (hm : ∀ {session : Session ι} {live : Bool}, session.Live l live →
      ∃ x', (m session).run w.store = .ok { session with indexSessions := [] } x' ∧
        x'.undoSessionCount = w.store.undoSessionCount ∧
        Joined x' (if live then f a.snapshots else a.snapshots)) :
    Held l (w.onSession k m) (a.ending k f) := by
  rcases h.lookup k with ⟨hnone, hnone'⟩ | ⟨session, live, hsession, hlive, hsame⟩
  · have hset : a.live.set k false = a.live :=
      List.set_eq_of_length_le (List.getElem?_eq_none_iff.mp hnone')
    rw [Workspace.onSession, hnone, Holding.ending, hnone', hset]
    exact h
  · obtain ⟨x', hrun, hcount, hx'⟩ := hm hsame
    rw [Workspace.onSession, hsession]
    dsimp only
    rw [hrun]
    refine ⟨?_, forall₂_set h.sessions session.live_cleared k, ?_⟩
    · rw [Holding.ending, hlive]
      cases live with
      | false => exact hx'
      | true => exact hx'
    · rw [List.length_set]
      exact hcount.trans h.count

/-- A session object goes. -/
theorem destroy (h : Held l w a) (k : Nat) :
    Held l (w.step l (.destroy k)) (a.step (.destroy k)) := by
  rw [Workspace.step, Holding.step]
  rcases h.lookup k with ⟨hnone, hnone'⟩ | ⟨session, live, hsession, hlive, hsame⟩
  · have hkeep : a.live.eraseIdx k = a.live :=
      List.eraseIdx_of_length_le (List.getElem?_eq_none_iff.mp hnone')
    rw [hnone, Holding.ending, hnone', hkeep]
    exact h
  · obtain ⟨x', hrun, hcount, hx'⟩ := hsame.destroyed h.joined
    obtain ⟨hlt, -⟩ := List.getElem?_eq_some_iff.mp hsession
    rw [hsession]
    dsimp only
    rw [hrun]
    refine ⟨?_, forall₂_eraseIdx h.sessions k, ?_⟩
    · rw [Holding.ending, hlive]
      cases live with
      | false => exact hx'
      | true => exact hx'
    · rw [finalState_ok, hcount, h.count, List.length_eraseIdx_of_lt hlt]
      omega

/-- **One call** of any kind. -/
theorem step (h : Held l w a) (c : SessionCall V) : Held l (w.step l c) (a.step c) := by
  cases c with
  | create i v => exact h.put (Joined.create i v)
  | modify i id m => exact h.put (Joined.modify i id m)
  | remove i id => exact h.put (Joined.remove i id)
  | start =>
    obtain ⟨session, x', hrun, hlive, hcount, hx'⟩ := h.joined.start (l := l)
    rw [Workspace.step, hrun]
    refine ⟨hx', .cons hlive h.sessions, ?_⟩
    dsimp only
    rw [hcount, h.count, List.length_cons]
    rfl
  | push k =>
    refine h.ending k (m := (·.push)) (f := id) fun {session live} _ => ⟨w.store, rfl, rfl, ?_⟩
    rw [id, ite_self]
    exact h.joined
  | squash k => exact h.ending k (m := (·.squash)) (f := (·.squash)) fun hlive => hlive.squashes h.joined
  | undo k => exact h.ending k (m := (·.undo)) (f := (·.undo)) fun hlive => hlive.undoes h.joined
  | destroy k => exact h.destroy k
  | undoLast => exact h.call h.joined.undo
  | squashLast => exact h.call h.joined.squash
  | commit r => exact h.call (h.joined.commit r)
  | undoAll => exact h.call h.joined.undoAll
  | setRevision r =>
    rw [Workspace.step, Holding.step]
    by_cases hnone : a.snapshots.frames = []
    · rw [if_pos hnone]
      exact h.call (h.joined.setRevision hnone r)
    · rw [if_neg hnone, Workspace.call, h.joined.run_setRevision_refused hnone]
      exact h

end Held

theorem held_run (l : IndexList ι) (calls : List (SessionCall V)) :
    Held l (Workspace.run l calls) (Holding.run calls) := by
  have hsteps : ∀ (calls : List (SessionCall V)) (w : Workspace V) (a : Holding (Contents V)),
      Held l w a → Held l (calls.foldl (fun w c => w.step l c) w) (calls.foldl Holding.step a) := by
    intro calls
    induction calls with
    | nil =>
      intro w a h
      exact h
    | cons c calls ih =>
      intro w a h
      exact ih _ _ (h.step c)
  exact hsteps calls _ _ ⟨Joined.empty, .nil, rfl⟩

/-- **The undo stacks move together.** After any calls on the objects, on the database and on the
sessions that a program holds, whatever the order in which it ends them:

* each index holds the objects that one stack of snapshots of the whole database has for it, with the
  stack's revision and as many undo states as it has snapshots;
* the sessions that exist are counted;
* neither the end of a session nor an undo throws. -/
theorem sessionCalls_refine (l : IndexList ι) (calls : List (SessionCall V)) :
    let w := Workspace.run l calls
    let s := (Holding.run calls).snapshots
    (∀ i, (w.store.index i).indices = (s.content i).table ∧
      (w.store.index i).nextId = (s.content i).nextId ∧ (w.store.index i).revision = s.revision ∧
      (w.store.index i).stack.length = s.frames.length) ∧
    w.store.undoSessionCount = w.sessions.length ∧
    (∀ session ∈ w.sessions, Returned ((session.destroy (V := V)).run w.store)) ∧
    Returned ((undoLast l).run w.store) ∧ Returned ((undoAllOf l).run w.store) := by
  intro w s
  have h : Held l w (Holding.run calls) := held_run l calls
  refine ⟨fun i => ?_, h.count, fun session hsession => ?_, ?_, ?_⟩
  · have hi := h.joined i
    exact ⟨hi.indices, hi.nextId, hi.revision, h.joined.depth i⟩
  · obtain ⟨k, hk⟩ := List.mem_iff_getElem?.mp hsession
    rcases h.lookup k with ⟨hnone, -⟩ | ⟨session', live, hsession', -, hlive⟩
    · rw [hk] at hnone
      cases hnone
    · rw [hk] at hsession'
      cases hsession'
      obtain ⟨x', hrun, -⟩ := hlive.destroyed h.joined
      exact ⟨_, _, hrun⟩
  · obtain ⟨x', hrun, -⟩ := h.joined.undo (l := l)
    exact ⟨_, _, hrun⟩
  · obtain ⟨x', hrun, -⟩ := h.joined.undoAll (l := l)
    exact ⟨_, _, hrun⟩

/-! ## Programs -/

/-- The revision counts the snapshots, at least. -/
def Snapshots.Numbered {σ : Type} (s : Snapshots σ) : Prop := (s.frames.length : Int) ≤ s.revision

namespace Snapshots.Numbered

variable {σ : Type} {t : Snapshots σ}

theorem start (h : t.Numbered) : t.start.Numbered := by
  simp only [Numbered, Snapshots.start, List.length_cons] at h ⊢
  omega

theorem undo (h : t.Numbered) : t.undo.Numbered := by
  obtain ⟨content, frames, revision⟩ := t
  cases frames with
  | nil => exact h
  | cons f fs =>
    simp only [Numbered, Snapshots.undo, List.length_cons] at h ⊢
    omega

theorem squash (h : t.Numbered) : t.squash.Numbered := by
  obtain ⟨content, frames, revision⟩ := t
  match frames with
  | [] => exact h
  | [f] =>
    simp only [Numbered, Snapshots.squash, List.length_cons, List.length_nil] at h ⊢
    omega
  | f :: f' :: fs =>
    simp only [Numbered, Snapshots.squash, List.length_cons] at h ⊢
    omega

theorem finish (h : t.Numbered) (f : Finish) : (t.finish f).Numbered := by
  cases f with
  | push => exact h
  | squash => exact h.squash
  | undo => exact h.undo

theorem commit (h : t.Numbered) (r : Int) : (t.commit r).Numbered := by
  have hle := (List.rdropWhile_prefix (fun f => decide (f.revision ≤ r)) t.frames).length_le
  simp only [Numbered, Snapshots.commit] at h ⊢
  omega

theorem undoAll (h : t.Numbered) : t.undoAll.Numbered := by
  rw [Snapshots.undoAll]
  induction t.frames.length generalizing t with
  | zero => exact h
  | succ n ih => exact ih h.undo

end Snapshots.Numbered

/-- The one stack, with a revision that no session is mistaken for none by. -/
def Sound (x : ChainbaseStore V) (s : Snapshots (Contents V)) : Prop := Joined x s ∧ s.Numbered

theorem Simulates.sound {i : ι} {f : GenericIndex (V i) → Except Exc (GenericIndex (V i))}
    {m : EStateM Exc (Contents V) Unit}
    (h : Simulates Joined (callIndex i f) (Snapshots.onContent m)) :
    Simulates Sound (callIndex i f) (Snapshots.onContent m) := by
  rintro x s ⟨hx, hs⟩
  have hends := h x s hx
  rw [Lifts.run_onContent] at hends ⊢
  generalize (callIndex i f).run x = r at hends
  cases hm : m.run s.content with
  | ok a c =>
    rw [hm] at hends
    cases hends with
    | ok _ hx' => exact .ok a ⟨hx', hs⟩
  | error e c =>
    rw [hm] at hends
    cases hends with
    | error _ hx' => exact .error e ⟨hx', hs⟩

/-- **A scope** on the undo logs is one on the stack. -/
theorem simulates_sessionScope {α : Type} {m : StoreM V α} {M : EStateM Exc (Snapshots (Contents V)) α}
    (hm : Simulates Sound m M) (f : Finish) :
    Simulates Sound (sessionScope l f m) (Snapshots.scope f M) := by
  rintro x s ⟨hx, hs⟩
  obtain ⟨session, x₁, hstart, hlive, -, hx₁⟩ := hx.start (l := l)
  have hnotNone : s.revision + 1 ≠ -1 := by
    have hlength : (s.frames.length : Int) ≤ s.revision := hs
    omega
  rw [decide_eq_true hnotNone] at hlive
  have hcaught : ∀ e : Exc, Simulates Sound
      (do session.destroy; throw e : StoreM V α)
      (do modify Snapshots.undo; throw e : EStateM Exc (Snapshots (Contents V)) α) := by
    rintro e y t ⟨hy, ht⟩
    obtain ⟨y', hrun, -, hy'⟩ := hlive.destroyed hy
    rw [EStateM.run_bind, hrun]
    exact .error e ⟨hy', ht.undo⟩
  have hended : ∀ a : α, Simulates Sound
      (do let ended ← session.finish f; ended.destroy; pure a : StoreM V α)
      (do modify (Snapshots.finish f); pure a : EStateM Exc (Snapshots (Contents V)) α) := by
    rintro a y t ⟨hy, ht⟩
    have hfinish : ∃ y', (session.finish f).run y = .ok { session with indexSessions := [] } y' ∧
        Joined y' (t.finish f) := by
      cases f with
      | push => exact ⟨y, rfl, hy⟩
      | squash =>
        obtain ⟨y', hrun, -, hy'⟩ := hlive.squashes hy
        exact ⟨y', hrun, hy'⟩
      | undo =>
        obtain ⟨y', hrun, -, hy'⟩ := hlive.undoes hy
        exact ⟨y', hrun, hy'⟩
    obtain ⟨y', hrun, hy'⟩ := hfinish
    obtain ⟨y'', hdestroy, -, hy''⟩ := (session.live_cleared (l := l)).destroyed hy'
    rw [EStateM.run_bind, hrun]
    dsimp only
    rw [EStateM.run_bind, hdestroy]
    exact .ok a ⟨hy'', ht.finish f⟩
  have hrest := ((hm.tryCatch hcaught).bind hended) x₁ s.start ⟨hx₁, hs.start⟩
  rw [sessionScope, EStateM.run_bind, hstart]
  exact hrest

/-- A program on the undo logs is the program on one stack. -/
theorem Prog.simulates (p : Prog V) : Simulates Sound (p.exec l) p.onSnapshots := by
  induction p with
  | pass => exact .pure ()
  | create i v => exact (Joined.create i v).sound
  | modify i id m => exact (Joined.modify i id m).sound
  | remove i id => exact (Joined.remove i id).sound
  | throw e => exact .throw e
  | read next ih =>
    rintro x s ⟨hx, hs⟩
    change Corresponds Sound (((next x.contents).exec l).run x) ((next s.content).onSnapshots.run s)
    rw [hx.contents]
    exact ih s.content x s ⟨hx, hs⟩
  | seq p q ihp ihq => exact ihp.bind fun _ => ihq
  | tryCatch p handler ihp ihh => exact ihp.tryCatch ihh
  | scope f p ih => exact simulates_sessionScope ih f

/-- Without pushes it needs no stack. -/
theorem Prog.lifts {p : Prog V} (hp : p.Closed) : Lifts p.meaning p.onSnapshots := by
  induction p with
  | pass => exact .pure ()
  | create i v => exact .onContent _
  | modify i id m => exact .onContent _
  | remove i id => exact .onContent _
  | throw e => exact .throw e
  | read next ih => exact .read fun c => ih c (hp c)
  | seq p q ihp ihq => exact (ihp hp.1).bind fun _ => ihq hp.2
  | tryCatch p handler ihp ihh => exact (ihp hp.1).tryCatch fun e => ihh e (hp.2 e)
  | scope f p ih => exact (ih hp.2).scope hp.1

theorem Holding.numbered_step {a : Holding (Contents V)} {c : SessionCall V}
    (h : a.snapshots.Numbered) (hc : ∀ r, c = .setRevision r → 0 ≤ r) :
    (a.step c).snapshots.Numbered := by
  have hending : ∀ (k : Nat) (f : Snapshots (Contents V) → Snapshots (Contents V)),
      (f a.snapshots).Numbered → (a.ending k f).snapshots.Numbered := by
    intro k f hf
    rw [Holding.ending]
    split
    · exact hf
    · exact h
  have hput : ∀ m : EStateM Exc (Contents V) Unit, (a.put m).snapshots.Numbered := by
    intro m
    rw [Holding.put, Lifts.run_onContent]
    cases m.run a.snapshots.content with
    | ok _ c => exact h
    | error _ c => exact h
  cases c with
  | create i v => exact hput _
  | modify i id m => exact hput _
  | remove i id => exact hput _
  | start => exact h.start
  | push k => exact hending k id h
  | squash k => exact hending k (·.squash) h.squash
  | undo k => exact hending k (·.undo) h.undo
  | destroy k => exact hending k (·.undo) h.undo
  | undoLast => exact h.undo
  | squashLast => exact h.squash
  | commit r => exact h.commit r
  | undoAll => exact h.undoAll
  | setRevision r =>
    rw [Holding.step]
    split
    · rename_i hnone
      have hr := hc r rfl
      simp only [Snapshots.Numbered, Snapshots.setRevision, hnone, List.length_nil]
      exact hr
    · exact h

theorem Holding.numbered_run {calls : List (SessionCall V)}
    (hcalls : ∀ r, SessionCall.setRevision r ∈ calls → 0 ≤ r) :
    (Holding.run calls).snapshots.Numbered := by
  have hsteps : ∀ a : Holding (Contents V), a.snapshots.Numbered →
      (calls.foldl Holding.step a).snapshots.Numbered := by
    induction calls with
    | nil =>
      intro a h
      exact h
    | cons c calls ih =>
      intro a h
      apply ih
      · intro r hr
        exact hcalls r (List.mem_cons_of_mem _ hr)
      · apply numbered_step h
        rintro r rfl
        exact hcalls r List.mem_cons_self
  exact hsteps _ (Int.le_refl _)

/-- **A scope is all or nothing.** A program that ends its sessions in scopes and pushes none of them is
run in a scope, on a database after any calls: it does what it means without any undo state, or, where
it throws or its session is undone, nothing. There is one undo state more if the session is pushed, and
an undo then goes back to what there was. -/
theorem sessionScope_allOrNothing (l : IndexList ι) (calls : List (SessionCall V))
    (hcalls : ∀ r, SessionCall.setRevision r ∈ calls → 0 ≤ r) (p : Prog V) (hp : p.Closed)
    (f : Finish) :
    let x := (Workspace.run l calls).store
    match p.meaning.run x.contents with
    | .ok _ c => ∃ x', (sessionScope l f (p.exec l)).run x = .ok () x' ∧
        x'.contents = (if f = .undo then x.contents else c) ∧
        (∀ i, (x'.index i).stack.length = (x.index i).stack.length + if f = .push then 1 else 0) ∧
        (f = .push → ∃ x'', (undoLast l).run x' = .ok () x'' ∧ x''.contents = x.contents)
    | .error e _ => ∃ x', (sessionScope l f (p.exec l)).run x = .error e x' ∧
        x'.contents = x.contents ∧ ∀ i, (x'.index i).stack.length = (x.index i).stack.length := by
  intro x
  have hx : Joined x (Holding.run calls).snapshots := (held_run l calls).joined
  have hs := Holding.numbered_run hcalls
  generalize (Holding.run calls).snapshots = s at hx hs
  have hprog : Simulates Sound (p.exec l) p.onSnapshots := p.simulates
  have hends := simulates_sessionScope (l := l) hprog f x s ⟨hx, hs⟩
  rw [Snapshots.run_scope (Prog.lifts hp)] at hends
  rw [hx.contents]
  generalize (sessionScope l f (p.exec l)).run x = r at hends
  cases hmeaning : p.meaning.run s.content with
  | error e c =>
    rw [hmeaning] at hends
    cases hends with
    | error _ hx' =>
      refine ⟨_, rfl, hx'.1.contents, fun i => ?_⟩
      rw [hx'.1.depth, hx.depth]
  | ok u c =>
    rw [hmeaning] at hends
    cases hends with
    | ok _ hx' =>
      refine ⟨_, rfl, ?_, fun i => ?_, ?_⟩
      · rw [hx'.1.contents]
        cases f with
        | push => rfl
        | squash =>
          obtain ⟨content, frames, revision⟩ := s
          cases frames with
          | nil => rfl
          | cons g gs => rfl
        | undo => rfl
      · rw [hx'.1.depth, hx.depth]
        cases f with
        | push => rfl
        | squash =>
          obtain ⟨content, frames, revision⟩ := s
          cases frames with
          | nil => rfl
          | cons g gs => rfl
        | undo => rfl
      · rintro rfl
        obtain ⟨x'', hrun, -, hx''⟩ := hx'.1.undo (l := l)
        refine ⟨x'', hrun, ?_⟩
        rw [hx''.contents]
        exact congrArg Snapshots.content (s.undo_put_start c)

end Sessions

/-- Two indexes: what is created in a scope that throws is gone, the rest is there until it is undone. -/
theorem sessionScope_allOrNothing_pair :
    ∃ (l : IndexList Bool) (p : Prog fun _ : Bool => AccountObject)
      (x' x'' : ChainbaseStore fun _ : Bool => AccountObject),
      (sessionScope l .push (p.exec l)).run {} = .ok () x' ∧ (x'.contents true).nextId = 1 ∧
      (x'.contents false).nextId = 0 ∧ (undoLast l).run x' = .ok () x'' ∧
      (x''.contents true).nextId = 0 := by
  let l : IndexList Bool := ⟨[true, false], by decide, by decide⟩
  let p : Prog fun _ : Bool => AccountObject :=
    .seq (.create true { name := 1 })
      (.tryCatch (.scope .squash (.seq (.create false { name := 2 }) (.throw (.assertion ""))))
        fun _ => .pass)
  have hends := sessionScope_allOrNothing l [] (fun _ hr => absurd hr List.not_mem_nil) p
    ⟨trivial, ⟨nofun, trivial, trivial⟩, fun _ => trivial⟩ .push
  have hmeaning : p.meaning.run (Workspace.run l []).store.contents =
      .ok () (finalState (p.meaning.run (Workspace.run l []).store.contents)) := rfl
  dsimp only at hends
  rw [hmeaning] at hends
  obtain ⟨x', hrun, hcontents, -, hundo⟩ := hends
  obtain ⟨x'', hundone, hback⟩ := hundo rfl
  refine ⟨l, p, x', x'', hrun, ?_, ?_, hundone, ?_⟩
  · rw [hcontents]
    decide +kernel
  · rw [hcontents]
    decide +kernel
  · rw [hback]
    rfl

end NewsChain
