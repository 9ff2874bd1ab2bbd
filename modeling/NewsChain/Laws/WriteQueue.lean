import NewsChain.Chain.WriteQueue

/-!
# The write queue serves every request once

A step of the thread is one of four: it pops a request, it executes the one in hand, it sets its
promise, or it does none of these (`threadStep_cases`). What a run has seen therefore falls into line:
what was popped are the executed and the one in hand, what was executed are the promised and the one
whose promise comes next, and the executions are those of a loop that runs the requests one after
another (`serve`).
-/

namespace NewsChain

/-! ## What a run has seen -/

section Log

variable (log : List WriteEvent)

/-- The contexts that clients have put into a queue. -/
def enqueued : List (Nat × WriteContext) :=
  log.filterMap fun | .enqueued i c => some (i, c) | _ => none

/-- What the thread has taken out, and of which queue. -/
def popped : List (QueueName × Nat) :=
  log.filterMap fun | .popped q i => some (q, i) | _ => none

/-- The requests that were run, with what came of them. -/
def executions : List (Nat × WriteContext × WriteResult) :=
  log.filterMap fun | .executed i c r => some (i, c, r) | _ => none

/-- The promises that were set. -/
def promised : List Nat := log.filterMap fun | .promised i => some i | _ => none

/-- The contexts as their clients have read them. -/
def answered : List (Nat × WriteContext) :=
  log.filterMap fun | .answered i c => some (i, c) | _ => none

/-- The requests of one queue, in the order in which they were put in. -/
def enqueuedIn (q : QueueName) : List Nat :=
  ((enqueued log).filter (·.2.req.queue = q)).map (·.1)

/-- The requests taken out of one queue, in the order in which they were taken out. -/
def poppedFrom (q : QueueName) : List Nat := ((popped log).filter (·.1 = q)).map (·.2)

/-- The executions of one queue's requests. -/
def executedFrom (q : QueueName) : List Nat :=
  ((executions log).filter (·.2.1.req.queue = q)).map (·.1)

end Log

/-- Something a client does. -/
def WriteEvent.ofClient : WriteEvent → Bool
  | .enqueued _ _ | .answered _ _ => true
  | _ => false

/-- The thread has just found that no block request is waiting, and what happened since is the
clients' doing. -/
def FreshChoice (log : List WriteEvent) : Prop :=
  ∃ before since, log = before ++ .noBlock :: since ∧ (∀ e ∈ since, e.ofClient = true) ∧
    enqueuedIn before .writeBlockQueue = poppedFrom before .writeBlockQueue

section Append

variable (log es : List WriteEvent)

theorem enqueued_append : enqueued (log ++ es) = enqueued log ++ enqueued es :=
  List.filterMap_append

theorem popped_append : popped (log ++ es) = popped log ++ popped es := List.filterMap_append

theorem executions_append : executions (log ++ es) = executions log ++ executions es :=
  List.filterMap_append

theorem promised_append : promised (log ++ es) = promised log ++ promised es :=
  List.filterMap_append

theorem answered_append : answered (log ++ es) = answered log ++ answered es :=
  List.filterMap_append

theorem enqueuedIn_append (q : QueueName) :
    enqueuedIn (log ++ es) q = enqueuedIn log q ++ enqueuedIn es q := by
  rw [enqueuedIn, enqueued_append, List.filter_append, List.map_append]
  rfl

theorem poppedFrom_append (q : QueueName) :
    poppedFrom (log ++ es) q = poppedFrom log q ++ poppedFrom es q := by
  rw [poppedFrom, popped_append, List.filter_append, List.map_append]
  rfl

end Append

/-- The clients do not make a choice stale. -/
theorem FreshChoice.append {log es : List WriteEvent} (h : FreshChoice log)
    (hes : ∀ e ∈ es, e.ofClient = true) : FreshChoice (log ++ es) := by
  obtain ⟨before, since, rfl, hsince, hnone⟩ := h
  refine ⟨before, since ++ es, by rw [List.append_assoc, List.cons_append], fun e he => ?_, hnone⟩
  exact (List.mem_append.mp he).elim (hsince e) (hes e)

variable [Node]

/-! ## Where the thread is -/

/-- A popped context is in hand, not yet executed. -/
def WritePc.holding : WritePc → Bool
  | .lock | .prepare | .visit => true
  | _ => false

/-- No block request was found. -/
def WritePc.chosen : WritePc → Bool
  | .firstTrx | .nextTrx => true
  | _ => false

namespace WriteProcessing

variable {s s' : WriteProcessing}

/-- Requests, contexts and the database are as they were. -/
structure SameWork (s s' : WriteProcessing) : Prop where
  db : s'.db = s.db
  queue : ∀ q, s'.queue q = s.queue q
  contexts : s'.contexts = s.contexts
  nextContext : s'.nextContext = s.nextContext
  cxt : s'.cxt = s.cxt

/-- The visitor is set up for what `cxt` points at. -/
def VisitorSet (s : WriteProcessing) : Prop :=
  ∃ i c, s.current = some (i, c) ∧ s.visitorSkip = c.skip ∧ s.visitorExcept = some i

/-- A step that neither pops nor executes nor sets a promise. -/
structure Quiet (s : WriteProcessing) (es : List WriteEvent) (s' : WriteProcessing) : Prop where
  same : SameWork s s'
  events : es = [] ∨ es = [.noBlock] ∧ s.writeBlockQueue = []
  holding : s'.pc.holding = s.pc.holding
  finishing : s'.pc ≠ .setPromise ∧ s.pc ≠ .setPromise
  visit : s'.pc = .visit → s'.VisitorSet
  chosen : s'.pc.chosen = true → es = [.noBlock]

/-- A step that pops. -/
structure Pops (s : WriteProcessing) (es : List WriteEvent) (s' : WriteProcessing) (q : QueueName)
    (i : Nat) (rest : List Nat) : Prop where
  events : es = [.popped q i]
  front : s.queue q = i :: rest
  free : s.pc.holding = false ∧ s.pc ≠ .setPromise
  chosen : q = .writeQueue → s.pc.chosen = true
  queue : s'.queue q = rest
  others : ∀ q', q' ≠ q → s'.queue q' = s.queue q'
  same : s'.db = s.db ∧ s'.contexts = s.contexts ∧ s'.nextContext = s.nextContext
  cxt : s'.cxt = some i
  pc : s'.pc = .lock ∨ s'.pc = .prepare

/-- A step that executes. -/
structure Executes (s : WriteProcessing) (es : List WriteEvent) (s' : WriteProcessing) (i : Nat)
    (c c' : WriteContext) (contexts : IdMap WriteContext) : Prop where
  pc : s.pc = .visit
  current : s.current = some (i, c)
  stored : s.storeExcept (writeRequestVisitor s.visitorSkip c.req s.db).1.except = some contexts
  found : contexts.get? i = some c'
  events : es = [.executed i c (writeRequestVisitor s.visitorSkip c.req s.db).1]
  next : s' = { s with
    db := (writeRequestVisitor s.visitorSkip c.req s.db).2
    contexts := contexts.insert i
      { c' with
        success := (writeRequestVisitor s.visitorSkip c.req s.db).1.success
        block := (writeRequestVisitor s.visitorSkip c.req s.db).1.block }
    pc := .setPromise }

/-- A step that sets a promise. -/
structure SetsPromise (s : WriteProcessing) (es : List WriteEvent) (s' : WriteProcessing) (i : Nat)
    (c : WriteContext) : Prop where
  pc : s.pc = .setPromise
  current : s.current = some (i, c)
  events : es = [.promised i]
  next : s' = { s with contexts := s.contexts.insert i { c with promised := true }, pc := .breaks }

/-- Where the thread is, its clock and its visitor are not work. -/
theorem sameWork (s : WriteProcessing) (pc : WritePc) (start : TimePointSec) (isSyncing : Bool)
    (skip : SkipFlags) (except : Option Nat) :
    SameWork s
      { s with pc, start, isSyncing, visitorSkip := skip, visitorExcept := except } :=
  ⟨rfl, fun q => by cases q <;> rfl, rfl, rfl, rfl⟩

/-- The thread goes on without a context in hand. -/
theorem quiet_idle {es : List WriteEvent} (hsame : SameWork s s')
    (hpc : s.pc.holding = false ∧ s.pc ≠ .setPromise)
    (hpc' : s'.pc.holding = false ∧ s'.pc ≠ .setPromise)
    (hevents : es = [] ∧ s'.pc.chosen = false ∨ es = [.noBlock] ∧ s.writeBlockQueue = []) :
    Quiet s es s' where
  same := hsame
  events := hevents.imp (·.1) id
  holding := hpc'.1.trans hpc.1.symm
  finishing := ⟨hpc'.2, hpc.2⟩
  visit hvisit := by
    rw [hvisit] at hpc'
    exact absurd hpc'.1 (by decide)
  chosen hchosen := by
    rcases hevents with ⟨-, hnot⟩ | ⟨hes, -⟩
    · rw [hchosen] at hnot
      cases hnot
    · exact hes

/-- A `pop` that finds a context. -/
theorem pops_front {q : QueueName} {i : Nat} {rest : List Nat} {pc : WritePc}
    (hfront : s.queue q = i :: rest) (hfree : s.pc.holding = false ∧ s.pc ≠ .setPromise)
    (hchosen : q = .writeQueue → s.pc.chosen = true) (hpc : pc = .lock ∨ pc = .prepare) :
    Pops s [.popped q i] { s.setQueue q rest with cxt := some i, pc } q i rest where
  events := rfl
  front := hfront
  free := hfree
  chosen := hchosen
  queue := by cases q <;> rfl
  others q' hq' := by
    cases q <;> cases q'
    · exact absurd rfl hq'
    · rfl
    · rfl
    · exact absurd rfl hq'
  same := by cases q <;> exact ⟨rfl, rfl, rfl⟩
  cxt := rfl
  pc := hpc

theorem get?_of_current {i : Nat} {c : WriteContext} (h : s.current = some (i, c)) :
    s.cxt = some i ∧ s.contexts.get? i = some c := by
  unfold current at h
  cases hcxt : s.cxt with
  | none =>
    rw [hcxt] at h
    cases h
  | some j =>
    simp only [hcxt] at h
    obtain ⟨c', hget, heq⟩ := Option.map_eq_some_iff.mp h
    cases heq
    exact ⟨rfl, hget⟩

/-- What was thrown is stored in the context the visitor points at, and in no other. -/
theorem storeExcept_eq {i : Nat} {c c' : WriteContext} {e : Option Exc}
    {contexts : IdMap WriteContext} (hexcept : s.visitorExcept = some i)
    (hget : s.contexts.get? i = some c) (hnone : c.except = none)
    (hstored : s.storeExcept e = some contexts) (hfound : contexts.get? i = some c') :
    c' = { c with except := e } ∧ ∀ j, j ≠ i → contexts.get? j = s.contexts.get? j := by
  unfold storeExcept at hstored
  cases e with
  | none =>
    cases hstored
    rw [hget] at hfound
    cases hfound
    exact ⟨by rw [← hnone], fun _ _ => rfl⟩
  | some e =>
    simp only [hexcept, hget, Option.map_some, Option.some.injEq] at hstored
    subst hstored
    rw [IdMap.get?_insert_self] at hfound
    cases hfound
    exact ⟨rfl, fun j hj => by rw [IdMap.get?_insert, if_neg hj]⟩

/-- **What a step of the thread is.** -/
theorem threadStep_cases {now : Int} {es : List WriteEvent}
    (h : s.threadStep now = some (es, s')) :
    Quiet s es s' ∨ (∃ q i rest, Pops s es s' q i rest) ∨
      (∃ i c c' contexts, Executes s es s' i c c' contexts) ∨ ∃ i c, SetsPromise s es s' i c := by
  have hblock : ∀ i rest, s.writeBlockQueue = i :: rest →
      s.queue .writeBlockQueue = i :: rest := fun _ _ h => h
  have htrx : ∀ i rest, s.writeQueue = i :: rest → s.queue .writeQueue = i :: rest :=
    fun _ _ h => h
  unfold threadStep at h
  cases hpc : s.pc <;> simp only [hpc] at h
  case loop =>
    left
    split at h <;> cases h <;>
      exact quiet_idle (sameWork ..) (by simp [hpc, WritePc.holding]) (by simp [WritePc.holding])
        (.inl ⟨rfl, rfl⟩)
  case firstBlock =>
    split at h <;> cases h
    · rename_i i rest hq
      exact .inr (.inl ⟨_, i, rest, pops_front (hblock i rest hq) (by simp [hpc, WritePc.holding])
        nofun (.inl rfl)⟩)
    · rename_i hq
      exact .inl (quiet_idle (sameWork ..) (by simp [hpc, WritePc.holding])
        (by simp [WritePc.holding]) (.inr ⟨rfl, hq⟩))
  case firstTrx =>
    split at h <;> cases h
    · rename_i i rest hq
      exact .inr (.inl ⟨_, i, rest, pops_front (htrx i rest hq) (by simp [hpc, WritePc.holding])
        (fun _ => by rw [hpc]; rfl) (.inl rfl)⟩)
    · exact .inl (quiet_idle (sameWork ..) (by simp [hpc, WritePc.holding])
        (by simp [WritePc.holding]) (.inl ⟨rfl, rfl⟩))
  case lock =>
    cases h
    exact .inl ⟨sameWork .., .inl rfl, by rw [hpc]; rfl, by simp [hpc], nofun, nofun⟩
  case prepare =>
    split at h <;> cases h
    rename_i i c hcurrent
    exact .inl ⟨sameWork .., .inl rfl, by rw [hpc]; rfl, by simp [hpc],
      fun _ => ⟨i, c, hcurrent, rfl, rfl⟩, nofun⟩
  case visit =>
    split at h
    · cases h
    · rename_i i c hcurrent
      split at h
      · cases h
      · rename_i contexts hstored
        obtain ⟨c', hfound, heq⟩ := Option.map_eq_some_iff.mp h
        cases heq
        exact .inr (.inr (.inl ⟨i, c, c', contexts, hpc, hcurrent, hstored, hfound, rfl, rfl⟩))
  case setPromise =>
    split at h
    · cases h
    · rename_i i c hcurrent
      split at h <;> cases h
      exact .inr (.inr (.inr ⟨i, c, hpc, hcurrent, rfl, rfl⟩))
  case breaks =>
    left
    split at h
    · cases h
      exact quiet_idle (sameWork ..) (by simp [hpc, WritePc.holding]) (by simp [WritePc.holding])
        (.inl ⟨rfl, rfl⟩)
    · split at h <;> cases h <;>
        exact quiet_idle (sameWork ..) (by simp [hpc, WritePc.holding])
          (by simp [WritePc.holding]) (.inl ⟨rfl, rfl⟩)
  case nextBlock =>
    split at h <;> cases h
    · rename_i i rest hq
      exact .inr (.inl ⟨_, i, rest, pops_front (hblock i rest hq) (by simp [hpc, WritePc.holding])
        nofun (.inr rfl)⟩)
    · rename_i hq
      exact .inl (quiet_idle (sameWork ..) (by simp [hpc, WritePc.holding])
        (by simp [WritePc.holding]) (.inr ⟨rfl, hq⟩))
  case nextTrx =>
    split at h <;> cases h
    · rename_i i rest hq
      exact .inr (.inl ⟨_, i, rest, pops_front (htrx i rest hq) (by simp [hpc, WritePc.holding])
        (fun _ => by rw [hpc]; rfl) (.inr rfl)⟩)
    · exact .inl (quiet_idle (sameWork ..) (by simp [hpc, WritePc.holding])
        (by simp [WritePc.holding]) (.inl ⟨rfl, rfl⟩))
  case sleep =>
    cases h
    exact .inl (quiet_idle (sameWork ..) (by simp [hpc, WritePc.holding])
      (by simp [WritePc.holding]) (.inl ⟨rfl, rfl⟩))
  case stopped =>
    cases h
    exact .inl (quiet_idle (sameWork ..) (by simp [hpc, WritePc.holding])
      (by simp [hpc, WritePc.holding]) (.inl ⟨rfl, by rw [hpc]; rfl⟩))

end WriteProcessing

/-! ## The invariant -/

/-- The requests of contexts, run one after another. -/
def serve : Database → List WriteContext → List WriteResult × Database
  | d, [] => ([], d)
  | d, c :: cs =>
    let first := writeRequestVisitor c.skip c.req d
    let rest := serve first.2 cs
    (first.1 :: rest.1, rest.2)

theorem serve_concat (d : Database) (cs : List WriteContext) (c : WriteContext) :
    serve d (cs ++ [c]) =
      ((serve d cs).1 ++ [(writeRequestVisitor c.skip c.req (serve d cs).2).1],
        (writeRequestVisitor c.skip c.req (serve d cs).2).2) := by
  induction cs generalizing d with
  | nil => rfl
  | cons c' cs ih => rw [List.cons_append, serve, ih, serve]; rfl

/-- A context as its client has made it. -/
structure WriteContext.Fresh (c : WriteContext) : Prop where
  success : c.success = true
  except : c.except = none
  block : c.block = none
  promised : c.promised = false

/-- A context with the result of its request. -/
def WriteContext.filled (c : WriteContext) (r : WriteResult) : WriteContext :=
  { c with success := r.success, except := r.except, block := r.block }

/-- What was seen and what the plugin holds fit together. -/
structure WriteOrder (d : Database) (log : List WriteEvent) (s : WriteProcessing) : Prop where
  ids : (enqueued log).map (·.1) = List.range s.nextContext
  fresh : ∀ e ∈ enqueued log, e.2.Fresh
  fifo : ∀ q, enqueuedIn log q = poppedFrom log q ++ s.queue q
  all : ((popped log).map (·.2) ++ (s.writeBlockQueue ++ s.writeQueue)).Perm
    (List.range s.nextContext)
  holding : s.pc.holding = true → ∃ i c, s.cxt = some i ∧ (i, c) ∈ enqueued log ∧
    popped log = (executions log).map (fun e => (e.2.1.req.queue, e.1)) ++ [(c.req.queue, i)]
  free : s.pc.holding = false →
    popped log = (executions log).map fun e => (e.2.1.req.queue, e.1)
  finishing : s.pc = .setPromise → ∃ i, s.cxt = some i ∧
    (executions log).map (·.1) = promised log ++ [i]
  finished : s.pc ≠ .setPromise → (executions log).map (·.1) = promised log
  asEnqueued : ∀ e ∈ executions log, (e.1, e.2.1) ∈ enqueued log
  sequential : serve d ((executions log).map (·.2.1)) = ((executions log).map (·.2.2), s.db)
  waiting : ∀ i c, (i, c) ∈ enqueued log → i ∉ (executions log).map (·.1) →
    s.contexts.get? i = some c
  executed : ∀ i c r, (i, c, r) ∈ executions log → i ∉ promised log →
    s.contexts.get? i = some (c.filled r)
  kept : ∀ i c r c', (i, c, r) ∈ executions log → i ∈ promised log →
    s.contexts.get? i = some c' → c' = { c.filled r with promised := true }
  bound : ∀ i c, s.contexts.get? i = some c → i < s.nextContext
  answers : ∀ i c', (i, c') ∈ answered log →
    ∃ c r, (i, c, r) ∈ executions log ∧ i ∈ promised log ∧
      c' = { c.filled r with promised := true }
  visit : s.pc = .visit → s.VisitorSet
  chosen : s.pc.chosen = true → FreshChoice log

namespace WriteOrder

variable {d : Database} {log es : List WriteEvent} {s s' : WriteProcessing}

theorem start (d : Database) (start : TimePointSec) : WriteOrder d [] { db := d, start } where
  ids := rfl
  fresh _ he := absurd he List.not_mem_nil
  fifo q := by cases q <;> rfl
  all := .nil
  holding := nofun
  free _ := rfl
  finishing := nofun
  finished _ := rfl
  asEnqueued _ he := absurd he List.not_mem_nil
  sequential := rfl
  waiting _ _ he := absurd he List.not_mem_nil
  executed _ _ _ he := absurd he List.not_mem_nil
  kept _ _ _ _ he := absurd he List.not_mem_nil
  bound _ _ he := by cases he
  answers _ _ he := absurd he List.not_mem_nil
  visit := nofun
  chosen := nofun

/-- A step that is no work, and is seen to be none. -/
theorem of_sameWork (h : WriteOrder d log s) (hsame : s.SameWork s')
    (hnone : enqueued es = [] ∧ popped es = [] ∧ executions es = [] ∧ promised es = [] ∧
      answered es = []) (hholding : s'.pc.holding = s.pc.holding)
    (hfinishing : s'.pc = .setPromise ↔ s.pc = .setPromise) (hvisit : s'.pc = .visit → s'.VisitorSet)
    (hchosen : s'.pc.chosen = true → FreshChoice (log ++ es)) : WriteOrder d (log ++ es) s' := by
  obtain ⟨henqueued, hpopped, hexecutions, hpromised, hanswered⟩ := hnone
  have henqueued : enqueued (log ++ es) = enqueued log := by
    rw [enqueued_append, henqueued, List.append_nil]
  have hpopped : popped (log ++ es) = popped log := by
    rw [popped_append, hpopped, List.append_nil]
  have hexecutions : executions (log ++ es) = executions log := by
    rw [executions_append, hexecutions, List.append_nil]
  have hpromised : promised (log ++ es) = promised log := by
    rw [promised_append, hpromised, List.append_nil]
  have hanswered : answered (log ++ es) = answered log := by
    rw [answered_append, hanswered, List.append_nil]
  have hblock : s'.writeBlockQueue = s.writeBlockQueue := hsame.queue .writeBlockQueue
  have htrx : s'.writeQueue = s.writeQueue := hsame.queue .writeQueue
  refine ⟨?_, ?_, fun q => ?_, ?_, ?_, ?_, ?_, ?_, ?_, ?_, ?_, ?_, ?_, ?_, ?_, hvisit, hchosen⟩
  · rw [henqueued, hsame.nextContext]
    exact h.ids
  · rw [henqueued]
    exact h.fresh
  · rw [enqueuedIn, henqueued, poppedFrom, hpopped, hsame.queue]
    exact h.fifo q
  · rw [hpopped, hblock, htrx, hsame.nextContext]
    exact h.all
  · rw [hholding, hsame.cxt, henqueued, hpopped, hexecutions]
    exact h.holding
  · rw [hholding, hpopped, hexecutions]
    exact h.free
  · rw [hfinishing, hsame.cxt, hexecutions, hpromised]
    exact h.finishing
  · rw [ne_eq, hfinishing, hexecutions, hpromised]
    exact h.finished
  · rw [hexecutions, henqueued]
    exact h.asEnqueued
  · rw [hexecutions, hsame.db]
    exact h.sequential
  · rw [henqueued, hexecutions, hsame.contexts]
    exact h.waiting
  · rw [hexecutions, hpromised, hsame.contexts]
    exact h.executed
  · rw [hexecutions, hpromised, hsame.contexts]
    exact h.kept
  · rw [hsame.contexts, hsame.nextContext]
    exact h.bound
  · rw [hanswered, hexecutions, hpromised]
    exact h.answers

/-- The thread goes on. -/
theorem quiet (h : WriteOrder d log s) (hstep : s.Quiet es s') : WriteOrder d (log ++ es) s' := by
  refine h.of_sameWork hstep.same ?_ hstep.holding ⟨fun hpc => absurd hpc hstep.finishing.1,
    fun hpc => absurd hpc hstep.finishing.2⟩ hstep.visit fun hchosen => ?_
  · rcases hstep.events with rfl | ⟨rfl, -⟩ <;> exact ⟨rfl, rfl, rfl, rfl, rfl⟩
  · have hes := hstep.chosen hchosen
    have hempty : s.queue .writeBlockQueue = [] := by
      rcases hstep.events with hnone | ⟨-, hempty⟩
      · rw [hes] at hnone
        cases hnone
      · exact hempty
    have hfifo := h.fifo .writeBlockQueue
    rw [hempty, List.append_nil] at hfifo
    exact ⟨log, [], by rw [hes], fun e he => absurd he List.not_mem_nil, hfifo⟩

/-- Nothing is in two places. -/
theorem nodup (h : WriteOrder d log s) :
    ((popped log).map (·.2) ++ (s.writeBlockQueue ++ s.writeQueue)).Nodup :=
  h.all.nodup_iff.mpr List.nodup_range

/-- What waits in a queue was put there by a client. -/
theorem of_mem_queue (h : WriteOrder d log s) {q : QueueName} {i : Nat} (hi : i ∈ s.queue q) :
    ∃ c, (i, c) ∈ enqueued log ∧ c.req.queue = q := by
  have hmem : i ∈ enqueuedIn log q := h.fifo q ▸ List.mem_append_right _ hi
  obtain ⟨e, he, rfl⟩ := List.mem_map.mp hmem
  obtain ⟨he, hqueue⟩ := List.mem_filter.mp he
  exact ⟨e.2, he, of_decide_eq_true hqueue⟩

/-- The thread takes out the front of a queue. -/
theorem pops (h : WriteOrder d log s) {q : QueueName} {i : Nat} {rest : List Nat}
    (hstep : s.Pops es s' q i rest) : WriteOrder d (log ++ es) s' := by
  obtain rfl := hstep.events
  have henqueued : enqueued (log ++ [.popped q i]) = enqueued log := by
    rw [enqueued_append]
    exact List.append_nil _
  have hpopped : popped (log ++ [.popped q i]) = popped log ++ [(q, i)] := by
    rw [popped_append]
    rfl
  have hexecutions : executions (log ++ [.popped q i]) = executions log := by
    rw [executions_append]
    exact List.append_nil _
  have hpromised : promised (log ++ [.popped q i]) = promised log := by
    rw [promised_append]
    exact List.append_nil _
  have hanswered : answered (log ++ [.popped q i]) = answered log := by
    rw [answered_append]
    exact List.append_nil _
  have hheld : s'.pc.holding = true ∧ s'.pc ≠ .setPromise ∧ s'.pc ≠ .visit ∧
      s'.pc.chosen = false := by
    rcases hstep.pc with hpc | hpc <;> rw [hpc] <;> exact ⟨rfl, nofun, nofun, rfl⟩
  obtain ⟨hdb, hcontexts, hnextContext⟩ := hstep.same
  refine ⟨?_, ?_, fun q' => ?_, ?_, fun _ => ?_, fun hfree => ?_, fun hpc => absurd hpc hheld.2.1,
    fun _ => ?_, ?_, ?_, ?_, ?_, ?_, ?_, ?_, fun hpc => absurd hpc hheld.2.2.1, fun hchosen => ?_⟩
  · rw [henqueued, hnextContext]
    exact h.ids
  · rw [henqueued]
    exact h.fresh
  · rw [enqueuedIn_append, poppedFrom_append, h.fifo q']
    show (_ ++ []) = _
    rw [List.append_nil]
    by_cases hq : q' = q
    · subst hq
      rw [hstep.front, hstep.queue]
      simp [poppedFrom, popped]
    · rw [hstep.others q' hq]
      simp [poppedFrom, popped, Ne.symm hq]
  · rw [hpopped, List.map_append, hnextContext]
    refine List.Perm.trans ?_ h.all
    rw [List.append_assoc]
    refine List.Perm.append_left _ ?_
    cases q with
    | writeBlockQueue =>
      have hfront : s.writeBlockQueue = i :: rest := hstep.front
      have hrest : s'.writeBlockQueue = rest := hstep.queue
      have hsame : s'.writeQueue = s.writeQueue := hstep.others .writeQueue nofun
      rw [hfront, hrest, hsame]
      exact List.Perm.refl _
    | writeQueue =>
      have hfront : s.writeQueue = i :: rest := hstep.front
      have hrest : s'.writeQueue = rest := hstep.queue
      have hsame : s'.writeBlockQueue = s.writeBlockQueue := hstep.others .writeBlockQueue nofun
      rw [hfront, hrest, hsame]
      show (i :: (s.writeBlockQueue ++ rest)).Perm _
      exact List.perm_middle.symm
  · obtain ⟨c, hc, hqueue⟩ := h.of_mem_queue (hstep.front ▸ List.mem_cons_self : i ∈ s.queue q)
    refine ⟨i, c, hstep.cxt, by rw [henqueued]; exact hc, ?_⟩
    rw [hpopped, hexecutions, h.free hstep.free.1, hqueue]
  · rw [hheld.1] at hfree
    cases hfree
  · rw [hexecutions, hpromised]
    exact h.finished hstep.free.2
  · rw [hexecutions, henqueued]
    exact h.asEnqueued
  · rw [hexecutions, hdb]
    exact h.sequential
  · rw [henqueued, hexecutions, hcontexts]
    exact h.waiting
  · rw [hexecutions, hpromised, hcontexts]
    exact h.executed
  · rw [hexecutions, hpromised, hcontexts]
    exact h.kept
  · rw [hcontexts, hnextContext]
    exact h.bound
  · rw [hanswered, hexecutions, hpromised]
    exact h.answers
  · rw [hheld.2.2.2] at hchosen
    cases hchosen

/-- What is in hand is as its client has made it, and not yet executed. -/
theorem inHand (h : WriteOrder d log s) (hholding : s.pc.holding = true) :
    ∃ i c, s.current = some (i, c) ∧ (i, c) ∈ enqueued log ∧
      i ∉ (executions log).map (·.1) ∧
      popped log = (executions log).map (fun e => (e.2.1.req.queue, e.1)) ++ [(c.req.queue, i)] := by
  obtain ⟨i, c, hcxt, hc, hpopped⟩ := h.holding hholding
  have hnew : i ∉ (executions log).map (·.1) := by
    have hnodup := (List.nodup_append.mp h.nodup).1
    rw [hpopped, List.map_append, List.map_map] at hnodup
    intro hi
    exact (List.nodup_append.mp hnodup).2.2 i hi i (List.mem_singleton_self i) rfl
  refine ⟨i, c, ?_, hc, hnew, hpopped⟩
  rw [WriteProcessing.current, hcxt]
  simp only [h.waiting i c hc hnew, Option.map_some]

/-- The thread runs the request in hand. -/
theorem executes (h : WriteOrder d log s) {i : Nat} {c c' : WriteContext}
    {contexts : IdMap WriteContext} (hstep : s.Executes es s' i c c' contexts) :
    WriteOrder d (log ++ es) s' := by
  obtain ⟨i₀, c₀, hcurrent, hc, hnew, hpopped⟩ := h.inHand (by rw [hstep.pc]; rfl)
  obtain ⟨i₁, c₁, hcurrent₁, hskip, hexcept⟩ := h.visit hstep.pc
  rw [hstep.current] at hcurrent hcurrent₁
  cases hcurrent
  cases hcurrent₁
  obtain ⟨hcxt, hget⟩ := WriteProcessing.get?_of_current hstep.current
  obtain ⟨rfl, hothers⟩ := WriteProcessing.storeExcept_eq hexcept hget (h.fresh _ hc).except
    hstep.stored hstep.found
  obtain ⟨hpc, -, -, -, rfl, rfl⟩ := hstep
  have hpromised : (executions log).map (·.1) = promised log :=
    h.finished (by rw [hpc]; nofun)
  -- The context at hand is filled in, the others are left.
  generalize hresult : writeRequestVisitor s.visitorSkip c.req s.db = result
  rw [hskip] at hresult
  have henqueued : enqueued (log ++ [.executed i c result.1]) = enqueued log := by
    rw [enqueued_append]
    exact List.append_nil _
  have hpopped' : popped (log ++ [.executed i c result.1]) = popped log := by
    rw [popped_append]
    exact List.append_nil _
  have hexecutions : executions (log ++ [.executed i c result.1]) =
      executions log ++ [(i, c, result.1)] := by
    rw [executions_append]
    rfl
  have hpromised' : promised (log ++ [.executed i c result.1]) = promised log := by
    rw [promised_append]
    exact List.append_nil _
  have hanswered : answered (log ++ [.executed i c result.1]) = answered log := by
    rw [answered_append]
    exact List.append_nil _
  have hearlier : ∀ {j : Nat} {x : WriteContext × WriteResult}, (j, x) ∈ executions log → j ≠ i :=
    fun hj heq => hnew (heq ▸ List.mem_map.mpr ⟨_, hj, rfl⟩)
  have hcontexts : ∀ j, j ≠ i → (contexts.insert i (c.filled result.1)).get? j =
      s.contexts.get? j := fun j hj => by rw [IdMap.get?_insert, if_neg hj, hothers j hj]
  refine ⟨?_, ?_, fun q => ?_, ?_, nofun, fun _ => ?_, fun _ => ⟨i, hcxt, ?_⟩,
    fun hne => absurd rfl hne, fun e he => ?_, ?_, fun j x hx hj => ?_, fun j x r hx hj => ?_,
    fun j x r x' hx hj hx' => ?_, fun j x hx => ?_, fun j x hx => ?_, nofun, nofun⟩
  · rw [henqueued]
    exact h.ids
  · rw [henqueued]
    exact h.fresh
  · rw [enqueuedIn, henqueued, poppedFrom, hpopped']
    exact h.fifo q
  · rw [hpopped']
    exact h.all
  · rw [hpopped', hexecutions, List.map_append, hpopped]
    rfl
  · rw [hexecutions, List.map_append, hpromised', hpromised]
    rfl
  · rw [hexecutions] at he
    rw [henqueued]
    rcases List.mem_append.mp he with he | he
    · exact h.asEnqueued e he
    · rw [List.mem_singleton.mp he]
      exact hc
  · rw [hexecutions, List.map_append, List.map_append]
    show serve d (_ ++ [c]) = _
    rw [serve_concat, h.sequential]
    simp only [hresult]
    rfl
  · rw [henqueued] at hx
    rw [hexecutions, List.map_append, List.mem_append, not_or] at hj
    have hne : j ≠ i := fun heq => hj.2 (List.mem_singleton.mpr heq)
    exact (hcontexts j hne).trans (h.waiting j x hx hj.1)
  · rw [hexecutions] at hx
    rw [hpromised'] at hj
    rcases List.mem_append.mp hx with hx | hx
    · exact (hcontexts j (hearlier hx)).trans (h.executed j x r hx hj)
    · cases List.mem_singleton.mp hx
      exact IdMap.get?_insert_self _ _ _
  · rw [hexecutions] at hx
    rw [hpromised'] at hj
    rcases List.mem_append.mp hx with hx | hx
    · exact h.kept j x r x' hx hj ((hcontexts j (hearlier hx)).symm.trans hx')
    · cases List.mem_singleton.mp hx
      rw [← hpromised] at hj
      exact absurd hj hnew
  · by_cases hj : j = i
    · subst hj
      exact h.bound j c hget
    · exact h.bound j x ((hcontexts j hj).symm.trans hx)
  · rw [hanswered] at hx
    rw [hexecutions, hpromised']
    obtain ⟨c₂, r, hr, hmem, heq⟩ := h.answers j x hx
    exact ⟨c₂, r, List.mem_append_left _ hr, hmem, heq⟩

/-- The context whose promise comes next is the one executed last. -/
theorem atPromise (h : WriteOrder d log s) (hpc : s.pc = .setPromise) :
    ∃ i c r, s.current = some (i, c.filled r) ∧ (i, c, r) ∈ executions log ∧ c.promised = false ∧
      (executions log).map (·.1) = promised log ++ [i] ∧ i ∉ promised log := by
  obtain ⟨i, hcxt, hlast⟩ := h.finishing hpc
  have hmem : i ∈ (executions log).map (·.1) := hlast ▸ List.mem_append_right _ List.mem_cons_self
  obtain ⟨⟨i', c, r⟩, he, rfl⟩ := List.mem_map.mp hmem
  have hnew : i' ∉ promised log := by
    have hfree := h.free (by rw [hpc]; rfl)
    have hnodup := (List.nodup_append.mp h.nodup).1
    rw [hfree, List.map_map] at hnodup
    have hids : ((executions log).map (·.1)).Nodup := hnodup
    rw [hlast] at hids
    exact fun hi => (List.nodup_append.mp hids).2.2 _ hi _ (List.mem_singleton_self _) rfl
  refine ⟨i', c, r, ?_, he, (h.fresh _ (h.asEnqueued _ he)).promised, hlast, hnew⟩
  rw [WriteProcessing.current, hcxt]
  simp only [h.executed i' c r he hnew, Option.map_some]

/-- The thread sets the promise of what it has executed. -/
theorem setsPromise (h : WriteOrder d log s) {i : Nat} {c : WriteContext}
    (hstep : s.SetsPromise es s' i c) : WriteOrder d (log ++ es) s' := by
  obtain ⟨i₀, c₀, r, hcurrent, he, -, hlast, hnew⟩ := h.atPromise hstep.pc
  rw [hstep.current] at hcurrent
  cases hcurrent
  obtain ⟨hpc, -, rfl, rfl⟩ := hstep
  have henqueued : enqueued (log ++ [.promised i]) = enqueued log := by
    rw [enqueued_append]
    exact List.append_nil _
  have hpopped : popped (log ++ [.promised i]) = popped log := by
    rw [popped_append]
    exact List.append_nil _
  have hexecutions : executions (log ++ [.promised i]) = executions log := by
    rw [executions_append]
    exact List.append_nil _
  have hpromised : promised (log ++ [.promised i]) = promised log ++ [i] := by
    rw [promised_append]
    rfl
  have hanswered : answered (log ++ [.promised i]) = answered log := by
    rw [answered_append]
    exact List.append_nil _
  have hcontexts : ∀ j, j ≠ i →
      (s.contexts.insert i { c₀.filled r with promised := true }).get? j = s.contexts.get? j :=
    fun j hj => by rw [IdMap.get?_insert, if_neg hj]
  have hget : s.contexts.get? i = some (c₀.filled r) := h.executed i c₀ r he hnew
  have hsingle : ∀ {j : Nat} {P : Prop}, (j ≠ i → P) → j ∉ promised log ++ [i] → P :=
    fun hP hj => hP fun heq => hj (heq ▸ List.mem_append_right _ (List.mem_singleton_self _))
  refine ⟨?_, ?_, fun q => ?_, ?_, nofun, fun _ => ?_, nofun, fun _ => ?_, ?_, ?_,
    fun j x hx hj => ?_, fun j x r' hx hj => ?_, fun j x r' x' hx hj hx' => ?_, fun j x hx => ?_,
    fun j x hx => ?_, nofun, nofun⟩
  · rw [henqueued]
    exact h.ids
  · rw [henqueued]
    exact h.fresh
  · rw [enqueuedIn, henqueued, poppedFrom, hpopped]
    exact h.fifo q
  · rw [hpopped]
    exact h.all
  · rw [hpopped, hexecutions]
    exact h.free (by rw [hpc]; rfl)
  · rw [hexecutions, hpromised]
    exact hlast
  · rw [hexecutions, henqueued]
    exact h.asEnqueued
  · rw [hexecutions]
    exact h.sequential
  · rw [henqueued] at hx
    rw [hexecutions, hlast] at hj
    have hne : j ≠ i := fun heq => hj (heq ▸ List.mem_append_right _ (List.mem_singleton_self _))
    exact (hcontexts j hne).trans (h.waiting j x hx (hlast ▸ hj))
  · rw [hexecutions] at hx
    rw [hpromised] at hj
    have hne : j ≠ i := fun heq => hj (heq ▸ List.mem_append_right _ (List.mem_singleton_self _))
    exact (hcontexts j hne).trans
      (h.executed j x r' hx fun hmem => hj (List.mem_append_left _ hmem))
  · rw [hexecutions] at hx
    rw [hpromised] at hj
    by_cases hji : j = i
    · subst hji
      have hfilled := h.executed j x r' hx hnew
      rw [hget] at hfilled
      have hx'' : some { c₀.filled r with promised := true } = some x' :=
        (IdMap.get?_insert_self _ _ _).symm.trans hx'
      rw [← Option.some.inj hx'', Option.some.inj hfilled]
    · have hmem : j ∈ promised log :=
        (List.mem_append.mp hj).resolve_right fun hmem => hji (List.mem_singleton.mp hmem)
      exact h.kept j x r' x' hx hmem ((hcontexts j hji).symm.trans hx')
  · by_cases hj : j = i
    · subst hj
      exact h.bound j _ hget
    · exact h.bound j x ((hcontexts j hj).symm.trans hx)
  · rw [hanswered] at hx
    rw [hexecutions, hpromised]
    obtain ⟨c₂, r₂, hr, hmem, heq⟩ := h.answers j x hx
    exact ⟨c₂, r₂, hr, List.mem_append_left _ hmem, heq⟩

/-- A client puts a fresh context into a queue. -/
theorem push (h : WriteOrder d log s) {c : WriteContext} (hc : c.Fresh) :
    WriteOrder d (log ++ [.enqueued s.nextContext c]) (s.push c) := by
  have henqueued : enqueued (log ++ [.enqueued s.nextContext c]) =
      enqueued log ++ [(s.nextContext, c)] := by
    rw [enqueued_append]
    rfl
  have hpopped : popped (log ++ [.enqueued s.nextContext c]) = popped log := by
    rw [popped_append]
    exact List.append_nil _
  have hexecutions : executions (log ++ [.enqueued s.nextContext c]) = executions log := by
    rw [executions_append]
    exact List.append_nil _
  have hpromised : promised (log ++ [.enqueued s.nextContext c]) = promised log := by
    rw [promised_append]
    exact List.append_nil _
  have hanswered : answered (log ++ [.enqueued s.nextContext c]) = answered log := by
    rw [answered_append]
    exact List.append_nil _
  have hbelow : ∀ {j : Nat}, j ∈ (enqueued log).map (·.1) → j ≠ s.nextContext := fun hj =>
    Nat.ne_of_lt (List.mem_range.mp (h.ids ▸ hj))
  have hexecutedBelow : ∀ {j : Nat} {x : WriteContext × WriteResult},
      (j, x) ∈ executions log → j ≠ s.nextContext := fun hj =>
    hbelow (List.mem_map.mpr ⟨_, h.asEnqueued _ hj, rfl⟩)
  have hcontexts : ∀ j, (s.push c).contexts.get? j =
      if j = s.nextContext then some c else s.contexts.get? j := fun j => IdMap.get?_insert _ _ _ _
  have hqueue : ∀ q, (s.push c).queue q =
      s.queue q ++ if c.req.queue = q then [s.nextContext] else [] := by
    intro q
    unfold WriteProcessing.push
    cases hreq : c.req.queue <;> cases q <;>
      simp [WriteProcessing.setQueue, WriteProcessing.queue]
  have hcxt : (s.push c).cxt = s.cxt ∧ (s.push c).pc = s.pc ∧ (s.push c).db = s.db ∧
      (s.push c).visitorSkip = s.visitorSkip ∧ (s.push c).visitorExcept = s.visitorExcept := by
    unfold WriteProcessing.push
    cases c.req.queue <;> exact ⟨rfl, rfl, rfl, rfl, rfl⟩
  obtain ⟨hcxt, hpc, hdb, hskip, hexcept⟩ := hcxt
  have hnext : (s.push c).nextContext = s.nextContext + 1 := rfl
  refine ⟨?_, fun e he => ?_, fun q => ?_, ?_, fun hholding => ?_, ?_, ?_, ?_, fun e he => ?_, ?_,
    fun j x hx hj => ?_, fun j x r hx hj => ?_, fun j x r x' hx hj hx' => ?_, fun j x hx => ?_, ?_,
    fun hvisit => ?_, fun hchosen => ?_⟩
  · rw [henqueued, List.map_append, h.ids, hnext, List.range_succ]
    rfl
  · rw [henqueued] at he
    rcases List.mem_append.mp he with he | he
    · exact h.fresh e he
    · rw [List.mem_singleton.mp he]
      exact hc
  · rw [enqueuedIn_append, poppedFrom_append, h.fifo q, hqueue, List.append_assoc]
    show _ = _ ++ [] ++ _
    rw [List.append_nil]
    by_cases hq : c.req.queue = q <;> simp [enqueuedIn, enqueued, hq]
  · have hblock : (s.push c).writeBlockQueue = _ := hqueue .writeBlockQueue
    have htrx : (s.push c).writeQueue = _ := hqueue .writeQueue
    rw [hpopped, hblock, htrx, hnext, List.range_succ]
    refine List.Perm.trans ((List.Perm.append_left _ ?_).trans
      (List.Perm.of_eq (List.append_assoc _ _ _).symm)) (h.all.append_right [s.nextContext])
    cases c.req.queue with
    | writeBlockQueue =>
      rw [if_pos rfl, if_neg nofun, List.append_nil]
      show (s.writeBlockQueue ++ [s.nextContext] ++ s.writeQueue).Perm _
      rw [List.append_assoc, List.append_assoc]
      exact List.Perm.append_left _ List.perm_append_comm
    | writeQueue =>
      rw [if_neg nofun, if_pos rfl, List.append_nil]
      exact List.Perm.of_eq (List.append_assoc _ _ _).symm
  · rw [hpc] at hholding
    obtain ⟨i, x, hi, hx, heq⟩ := h.holding hholding
    rw [hcxt, henqueued, hpopped, hexecutions]
    exact ⟨i, x, hi, List.mem_append_left _ hx, heq⟩
  · rw [hpc, hpopped, hexecutions]
    exact h.free
  · rw [hpc, hcxt, hexecutions, hpromised]
    exact h.finishing
  · rw [hpc, hexecutions, hpromised]
    exact h.finished
  · rw [hexecutions] at he
    rw [henqueued]
    exact List.mem_append_left _ (h.asEnqueued e he)
  · rw [hexecutions, hdb]
    exact h.sequential
  · rw [henqueued] at hx
    rw [hexecutions] at hj
    rw [hcontexts]
    rcases List.mem_append.mp hx with hx | hx
    · rw [if_neg (hbelow (List.mem_map.mpr ⟨_, hx, rfl⟩))]
      exact h.waiting j x hx hj
    · cases List.mem_singleton.mp hx
      rw [if_pos rfl]
  · rw [hexecutions] at hx
    rw [hpromised] at hj
    rw [hcontexts, if_neg (hexecutedBelow hx)]
    exact h.executed j x r hx hj
  · rw [hexecutions] at hx
    rw [hpromised] at hj
    rw [hcontexts, if_neg (hexecutedBelow hx)] at hx'
    exact h.kept j x r x' hx hj hx'
  · rw [hcontexts] at hx
    rw [hnext]
    split at hx
    · rename_i hj
      omega
    · exact Nat.lt_succ_of_lt (h.bound j x hx)
  · rw [hanswered, hexecutions, hpromised]
    exact h.answers
  · rw [hpc] at hvisit
    obtain ⟨i, x, hcurrent, hxskip, hxexcept⟩ := h.visit hvisit
    obtain ⟨hi, hx⟩ := WriteProcessing.get?_of_current hcurrent
    refine ⟨i, x, ?_, hskip.trans hxskip, hexcept.trans hxexcept⟩
    rw [WriteProcessing.current, hcxt, hi]
    simp only [hcontexts, if_neg (Nat.ne_of_lt (h.bound i x hx)), hx, Option.map_some]
  · rw [hpc] at hchosen
    refine (h.chosen hchosen).append fun e he => ?_
    rw [List.mem_singleton.mp he]
    rfl

/-- A client whose promise is set reads its context and returns. -/
theorem answered (h : WriteOrder d log s) {i : Nat} {c : WriteContext}
    (hget : s.contexts.get? i = some c) (hset : c.promised = true) :
    WriteOrder d (log ++ [.answered i c]) { s with contexts := s.contexts.erase i } := by
  have henqueued : enqueued (log ++ [.answered i c]) = enqueued log := by
    rw [enqueued_append]
    exact List.append_nil _
  have hpopped : popped (log ++ [.answered i c]) = popped log := by
    rw [popped_append]
    exact List.append_nil _
  have hexecutions : executions (log ++ [.answered i c]) = executions log := by
    rw [executions_append]
    exact List.append_nil _
  have hpromised : promised (log ++ [.answered i c]) = promised log := by
    rw [promised_append]
    exact List.append_nil _
  have hanswered : NewsChain.answered (log ++ [.answered i c]) =
      NewsChain.answered log ++ [(i, c)] := by
    rw [answered_append]
    rfl
  -- The promise is set, so the context was executed and its promise was seen to be set.
  obtain ⟨x, r, hx, hmem⟩ : ∃ x r, (i, x, r) ∈ executions log ∧ i ∈ promised log := by
    have hi : i ∈ (enqueued log).map (·.1) := h.ids ▸ List.mem_range.mpr (h.bound i c hget)
    obtain ⟨⟨j, x⟩, hx, rfl⟩ := List.mem_map.mp hi
    by_cases hdone : j ∈ (executions log).map (·.1)
    · obtain ⟨⟨k, y, r⟩, hy, rfl⟩ := List.mem_map.mp hdone
      refine ⟨y, r, hy, ?_⟩
      by_contra hnot
      have hfilled := h.executed k y r hy hnot
      rw [hget] at hfilled
      rw [Option.some.inj hfilled] at hset
      have hfresh : y.promised = false := (h.fresh _ (h.asEnqueued _ hy)).promised
      exact Bool.false_ne_true (hfresh.symm.trans hset)
    · have hwaiting := h.waiting j x hx hdone
      rw [hget] at hwaiting
      rw [Option.some.inj hwaiting] at hset
      exact absurd ((h.fresh _ hx).promised.symm.trans hset) Bool.false_ne_true
  have hcontexts : ∀ j, j ≠ i → (s.contexts.erase i).get? j = s.contexts.get? j := fun j hj => by
    rw [IdMap.get?_erase, if_neg hj]
  have hsub : ∀ {j : Nat} {y : WriteContext}, (s.contexts.erase i).get? j = some y →
      s.contexts.get? j = some y := fun {j y} hy => by
    rw [IdMap.get?_erase] at hy
    split at hy
    · cases hy
    · exact hy
  refine ⟨?_, ?_, fun q => ?_, ?_, ?_, ?_, ?_, ?_, ?_, ?_, fun j y hy hj => ?_,
    fun j y r' hy hj => ?_, fun j y r' y' hy hj hy' => ?_, fun j y hy => h.bound j y (hsub hy),
    fun j y hy => ?_, fun hvisit => ?_, fun hchosen => ?_⟩
  · rw [henqueued]
    exact h.ids
  · rw [henqueued]
    exact h.fresh
  · rw [enqueuedIn, henqueued, poppedFrom, hpopped]
    exact h.fifo q
  · rw [hpopped]
    exact h.all
  · rw [henqueued, hpopped, hexecutions]
    exact h.holding
  · rw [hpopped, hexecutions]
    exact h.free
  · rw [hexecutions, hpromised]
    exact h.finishing
  · rw [hexecutions, hpromised]
    exact h.finished
  · rw [hexecutions, henqueued]
    exact h.asEnqueued
  · rw [hexecutions]
    exact h.sequential
  · rw [henqueued] at hy
    rw [hexecutions] at hj
    have hne : j ≠ i := fun heq => hj (heq ▸ List.mem_map.mpr ⟨_, hx, rfl⟩)
    exact (hcontexts j hne).trans (h.waiting j y hy hj)
  · rw [hexecutions] at hy
    rw [hpromised] at hj
    have hne : j ≠ i := fun heq => hj (heq ▸ hmem)
    exact (hcontexts j hne).trans (h.executed j y r' hy hj)
  · rw [hexecutions] at hy
    rw [hpromised] at hj
    exact h.kept j y r' y' hy hj (hsub hy')
  · rw [hanswered] at hy
    rw [hexecutions, hpromised]
    rcases List.mem_append.mp hy with hy | hy
    · exact h.answers j y hy
    · cases List.mem_singleton.mp hy
      exact ⟨x, r, hx, hmem, h.kept i x r c hx hmem hget⟩
  · obtain ⟨j, y, hcurrent, hskip, hexcept⟩ := h.visit hvisit
    have hvisit : s.pc = .visit := hvisit
    obtain ⟨j', y', hcurrent', -, hnew, -⟩ := h.inHand (by rw [hvisit]; rfl)
    rw [hcurrent] at hcurrent'
    cases hcurrent'
    obtain ⟨hcxt, hy⟩ := WriteProcessing.get?_of_current hcurrent
    have hne : j ≠ i := fun heq => hnew (heq ▸ List.mem_map.mpr ⟨_, hx, rfl⟩)
    refine ⟨j, y, ?_, hskip, hexcept⟩
    rw [WriteProcessing.current, hcxt]
    simp only [hcontexts j hne, hy, Option.map_some]
  · refine (h.chosen hchosen).append fun e he => ?_
    rw [List.mem_singleton.mp he]
    rfl

/-- The plugin is told to stop. -/
theorem stop (h : WriteOrder d log s) : WriteOrder d (log ++ []) { s with running := false } := by
  refine h.of_sameWork ⟨rfl, fun q => by cases q <;> rfl, rfl, rfl, rfl⟩
    ⟨rfl, rfl, rfl, rfl, rfl⟩ rfl Iff.rfl (fun hvisit => h.visit hvisit) fun hchosen => ?_
  exact (h.chosen hchosen).append fun e he => absurd he List.not_mem_nil

/-- Every step keeps order. -/
theorem step (h : WriteOrder d log s) (hstep : WriteStep s es s') : WriteOrder d (log ++ es) s' := by
  cases hstep with
  | thread now hthread =>
    rcases WriteProcessing.threadStep_cases hthread with hquiet | ⟨q, i, rest, hpops⟩ |
      ⟨i, c, c', contexts, hexecutes⟩ | ⟨i, c, hsets⟩
    · exact h.quiet hquiet
    · exact h.pops hpops
    · exact h.executes hexecutes
    · exact h.setsPromise hsets
  | acceptBlock block skip => exact h.push ⟨rfl, rfl, rfl, rfl⟩
  | acceptTransaction trx => exact h.push ⟨rfl, rfl, rfl, rfl⟩
  | generateBlock req => exact h.push ⟨rfl, rfl, rfl, rfl⟩
  | answered hget hset => exact h.answered hget hset
  | stop => exact h.stop

/-- The thread has a next step: it never follows a pointer to a context that is gone, and sets no
promise twice. -/
theorem threadStep_isSome (h : WriteOrder d log s) (now : Int) : (s.threadStep now).isSome := by
  unfold WriteProcessing.threadStep
  cases hpc : s.pc <;> simp only []
  case prepare =>
    obtain ⟨i, c, hcurrent, -⟩ := h.inHand (by rw [hpc]; rfl)
    rw [hcurrent]
    rfl
  case visit =>
    obtain ⟨i, c, hcurrent, hskip, hexcept⟩ := h.visit hpc
    obtain ⟨-, hget⟩ := WriteProcessing.get?_of_current hcurrent
    rw [hcurrent]
    simp only [WriteProcessing.storeExcept]
    cases (writeRequestVisitor s.visitorSkip c.req s.db).1.except with
    | none =>
      simp only [hget]
      rfl
    | some e =>
      simp only [hexcept, hget, Option.map_some, IdMap.get?_insert_self]
      rfl
  case setPromise =>
    obtain ⟨i, c, r, hcurrent, -, hunset, -⟩ := h.atPromise hpc
    rw [hcurrent]
    have hunset : (c.filled r).promised = false := hunset
    simp [hunset]
  all_goals first
    | rfl
    | split
      · rfl
      · first
        | rfl
        | split <;> rfl

end WriteOrder

theorem WriteRun.writeOrder {d : Database} {log : List WriteEvent} {s : WriteProcessing}
    (h : WriteRun d log s) : WriteOrder d log s := by
  induction h with
  | start start => exact .start _ start
  | step _ hstep ih => exact ih.step hstep

/-- What was seen was seen in a step: a run can be cut before every event. -/
theorem WriteRun.cut {d : Database} {log before after : List WriteEvent} {e : WriteEvent}
    {s : WriteProcessing} (h : WriteRun d log s) (hlog : log = before ++ e :: after) :
    ∃ s₀ s₁, WriteRun d before s₀ ∧ WriteStep s₀ [e] s₁ := by
  induction h generalizing after with
  | start => exact absurd hlog.symm (by simp)
  | @step log es s s' hrun hstep ih =>
    have hes : es = [] ∨ ∃ x, es = [x] := by
      cases hstep with
      | thread now hthread =>
        rcases WriteProcessing.threadStep_cases hthread with hquiet | ⟨q, i, rest, hpops⟩ |
          ⟨i, c, c', contexts, hexecutes⟩ | ⟨i, c, hsets⟩
        · exact hquiet.events.imp id fun h => ⟨_, h.1⟩
        · exact .inr ⟨_, hpops.events⟩
        · exact .inr ⟨_, hexecutes.events⟩
        · exact .inr ⟨_, hsets.events⟩
      | stop => exact .inl rfl
      | _ => exact .inr ⟨_, rfl⟩
    rcases hes with rfl | ⟨x, rfl⟩
    · rw [List.append_nil] at hlog
      exact ih hlog
    · rcases List.eq_nil_or_concat after with rfl | ⟨after, y, rfl⟩
      · obtain ⟨rfl, hx⟩ := List.append_inj' hlog rfl
        cases hx
        exact ⟨s, s', hrun, hstep⟩
      · rw [List.concat_eq_append, ← List.cons_append, ← List.append_assoc] at hlog
        exact ih (List.append_inj' hlog rfl).1

/-! ## The queue -/

/-- The context that was popped and is not executed yet. -/
def WriteProcessing.inHand (s : WriteProcessing) : List Nat :=
  if s.pc.holding then s.cxt.toList else []

/-- The requests are served. None is lost: what was put into a queue was taken out of it in this
order or still waits there, and what was taken out, each once, was executed or is in hand. Executions
are those of the contexts as they were put in, one after another from the database the run began
with, and each comes before its promise. What a client reads is the result of its own. A transaction
is taken out only where no block request was waiting when one was looked for. And the thread never
follows a pointer to a context that is gone. -/
structure Served (d : Database) (log : List WriteEvent) (s : WriteProcessing) : Prop where
  waiting : ∀ q, enqueuedIn log q = poppedFrom log q ++ s.queue q
  once : (popped log).map (·.2) = (executions log).map (·.1) ++ s.inHand
  distinct : ((popped log).map (·.2)).Nodup
  inOrder : ∀ q, executedFrom log q <+: enqueuedIn log q
  asEnqueued : ∀ e ∈ executions log, (e.1, e.2.1) ∈ enqueued log
  sequential : serve d ((executions log).map (·.2.1)) = ((executions log).map (·.2.2), s.db)
  executedFirst : ∀ before i after, log = before ++ .promised i :: after →
    i ∈ (executions before).map (·.1) ∧ i ∉ promised before
  fields : ∀ i c r, (i, c, r) ∈ executions log → ∀ c', s.contexts.get? i = some c' →
    c'.success = r.success ∧ c'.except = r.except ∧ c'.block = r.block
  answers : ∀ i c', (i, c') ∈ answered log → ∃ c r, (i, c, r) ∈ executions log ∧
    c'.success = r.success ∧ c'.except = r.except ∧ c'.block = r.block
  choice : ∀ before i after, log = before ++ .popped .writeQueue i :: after → FreshChoice before
  defined : ∀ now, (s.threadStep now).isSome

theorem WriteOrder.once {d : Database} {log : List WriteEvent} {s : WriteProcessing}
    (h : WriteOrder d log s) : (popped log).map (·.2) = (executions log).map (·.1) ++ s.inHand := by
  unfold WriteProcessing.inHand
  cases hholding : s.pc.holding with
  | false =>
    rw [h.free hholding, List.map_map, if_neg Bool.false_ne_true, List.append_nil]
    rfl
  | true =>
    obtain ⟨i, c, hcxt, -, hpopped⟩ := h.holding hholding
    rw [hpopped, List.map_append, List.map_map, if_pos rfl, hcxt]
    rfl

/-- Of one queue, what is executed was put in before what is not. -/
theorem WriteOrder.inOrder {d : Database} {log : List WriteEvent} {s : WriteProcessing}
    (h : WriteOrder d log s) (q : QueueName) : executedFrom log q <+: enqueuedIn log q := by
  obtain ⟨more, hmore⟩ : ∃ more, popped log =
      (executions log).map (fun e => (e.2.1.req.queue, e.1)) ++ more := by
    cases hholding : s.pc.holding with
    | false => exact ⟨[], by rw [h.free hholding, List.append_nil]⟩
    | true =>
      obtain ⟨i, c, -, -, heq⟩ := h.holding hholding
      exact ⟨_, heq⟩
  have hpopped : poppedFrom log q =
      executedFrom log q ++ (more.filter (·.1 = q)).map (·.2) := by
    rw [poppedFrom, hmore, List.filter_append, List.map_append, List.filter_map, List.map_map]
    rfl
  rw [h.fifo q, hpopped, List.append_assoc]
  exact List.prefix_append _ _

/-- The thread makes so many steps at one time, with what is seen. -/
def threadSteps (now : Int) : Nat → List WriteEvent × WriteProcessing → List WriteEvent × WriteProcessing
  | 0, r => r
  | n + 1, (log, s) =>
    let next := (s.threadStep now).getD ([], s)
    threadSteps now n (log ++ next.1, next.2)

theorem WriteRun.threadSteps {d : Database} {log : List WriteEvent} {s : WriteProcessing}
    (h : WriteRun d log s) (now : Int) (n : Nat) :
    WriteRun d (threadSteps now n (log, s)).1 (threadSteps now n (log, s)).2 := by
  induction n generalizing log s with
  | zero => exact h
  | succ n ih =>
    obtain ⟨next, hnext⟩ := Option.isSome_iff_exists.mp (h.writeOrder.threadStep_isSome now)
    have hstep := ih (h.step (.thread now hnext))
    rw [NewsChain.threadSteps, hnext]
    exact hstep

end NewsChain
