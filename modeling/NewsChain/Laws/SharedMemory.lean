import NewsChain.Chain.SharedMemory
import NewsChain.Laws.Pending
import NewsChain.Laws.Registry

/-!
# Resizing the shared memory

No call takes a type back from `_index_types`, so what `resize` will register is what every
`initialize_indexes` so far has registered. The first one registers the eight object types. From the
second on a type is there twice (`Initialized`), and `resize` throws, for good, once it comes to that
type again (`resize_iff`).

`check_free_memory` resizes after a block was applied, so a push fails there although its block is
in the chain (`pushBlockChecked_error`).
-/

namespace NewsChain

open Chainbase

variable {Stored : Type} {fresh : Stored} {c : Chainbase Stored}

/-! ## What the calls make of the registered types -/

/-- `initialize_indexes` is called: the shared memory file and the block log were opened. -/
def initializes (args : OpenDbArgs) (blockLog : Except Exc Unit) : Nat :=
  match blockLog with
  | .ok () => if args.sharedMemDir = "" then 0 else 1
  | .error _ => 0

def MemoryCall.initializations : MemoryCall Stored → Nat
  | .open args blockLog _ => initializes args blockLog
  | .reindex args blockLog _ _ _ => initializes args blockLog
  | _ => 0

/-- The types that so many calls of `initialize_indexes` leave registered. -/
def TypesAfter : Nat → List IndexType → Prop
  | 0, types => types = []
  | 1, types => types = objectTypes
  | _, types => ¬ (types.map IndexType.typeId).Nodup

/-- What holds after so many calls of `initialize_indexes`. -/
structure Initialized (n : Nat) (c : Chainbase Stored) : Prop where
  segment : c.segment.map (·.dir) = if c.dataDir = "" then none else some c.dataDir
  types : TypesAfter n c.indexTypes
  empty : n = 0 → c.indexMap = []

namespace Initialized

variable {n : Nat}

theorem dir_eq (h : Initialized n c) {s : Segment} (hs : c.segment = some s) : s.dir = c.dataDir := by
  have := h.segment
  rw [hs] at this
  split at this
  · cases this
  · exact Option.some.inj this

theorem exists_segment (h : Initialized n c) (hopen : c.dataDir ≠ "") : ∃ s, c.segment = some s := by
  have := h.segment
  rw [if_neg hopen] at this
  obtain ⟨s, hs, -⟩ := Option.map_eq_some_iff.mp this
  exact ⟨s, hs⟩

/-- Once there are types, the file, the map and the list are free to change. -/
theorem addIndexHelper (hn : n ≠ 0) (t : IndexType) : Keeps (Initialized n) (addIndexHelper fresh t) :=
  addIndexHelper_keeps t fun _ _ _ _ h => ⟨h.segment, h.types, fun h0 => absurd h0 hn⟩

theorem addIndexes (types : List IndexType) (h : Initialized n c) (htypes : n = 0 → types = []) :
    Initialized n (finalState ((forM types (NewsChain.addIndexHelper fresh)).run c)) := by
  by_cases hn : n = 0
  · rw [htypes hn]
    exact h
  · exact Keeps.forM (fun t _ => addIndexHelper hn t) c h

theorem resize (size : UInt64) : Keeps (Initialized n) (resize fresh size) := by
  intro c h
  by_cases hbusy : c.undoSessionCount ≠ 0
  · rw [run_resize_busy hbusy]
    exact h
  have hidle : c.undoSessionCount = 0 := not_not.mp hbusy
  by_cases hopen : c.dataDir = ""
  · rw [run_resize_closed hidle hopen]
    exact ⟨(if_pos hopen).symm, h.types, h.empty⟩
  · rw [run_resize hidle hopen]
    refine addIndexes c.indexTypes ⟨(if_neg hopen).symm, h.types, fun _ => rfl⟩ fun h0 => ?_
    subst h0
    exact h.types

/-! ## `initialize_indexes` -/

end Initialized

/-- Of what `add_index` leaves alone, only `_index_types` is written besides. -/
theorem addIndex_keeps {I : Chainbase Stored → Prop} (t : IndexType)
    (htypes : ∀ c, I c → I { c with indexTypes := c.indexTypes ++ [t] })
    (h : ∀ c files indexMap indexList, I c → I { c with files, indexMap, indexList }) :
    Keeps I (addIndex fresh t) :=
  (Keeps.modify htypes).bind fun _ => addIndexHelper_keeps t h

theorem addIndex_registers (t : IndexType) (c : Chainbase Stored) :
    (finalState ((addIndex fresh t).run c)).indexTypes = c.indexTypes ++ [t] := by
  have hkeeps : Keeps (fun c' : Chainbase Stored => c'.indexTypes = c.indexTypes ++ [t])
      (addIndexHelper fresh t) := addIndexHelper_keeps t fun _ _ _ _ h => h
  exact hkeeps _ rfl

/-- Whether or not all of them are registered, the first one is. -/
theorem addIndex_first (fresh : Stored) (t : IndexType) (types : List IndexType)
    (c : Chainbase Stored) :
    c.indexTypes ++ [t] <+:
      (finalState ((forM (t :: types) (addIndex fresh)).run c)).indexTypes := by
  have hgrows : ∀ u, Keeps (fun c' : Chainbase Stored => c.indexTypes ++ [t] <+: c'.indexTypes)
      (addIndex fresh u) := fun u =>
    addIndex_keeps u (fun _ h => h.trans (List.prefix_append _ _)) fun _ _ _ _ h => h
  have hfirst : c.indexTypes ++ [t] <+: (finalState ((addIndex fresh t).run c)).indexTypes := by
    rw [addIndex_registers]
  rw [List.forM_cons]
  exact Keeps.after hfirst fun _ => Keeps.forM fun u _ => hgrows u

theorem indexTypes_initializeIndexes (fresh : Stored) (c : Chainbase Stored) :
    ∃ t ∈ objectTypes, c.indexTypes ++ [t] <+:
      (finalState ((initializeIndexes fresh).run c)).indexTypes := by
  obtain ⟨t, types, htypes⟩ : ∃ t types, objectTypes = t :: types := ⟨_, _, rfl⟩
  rw [initializeIndexes, htypes]
  exact ⟨t, List.mem_cons_self, addIndex_first fresh t types c⟩

theorem run_addIndex (t : IndexType) {s : Segment} (hsegment : c.segment = some s)
    (hfree : c.indexAt t.typeId = none) :
    (addIndex fresh t).run c =
      .ok () { c.register fresh s t with indexTypes := c.indexTypes ++ [t] } := by
  have hhelper : ∀ c' : Chainbase Stored, c'.segment = some s → c'.indexAt t.typeId = none →
      (addIndexHelper fresh t).run c' = .ok () (c'.register fresh s t) := fun c' hs hf =>
    (run_addIndexHelper t hs).trans (if_neg (Option.not_isSome_iff_eq_none.mpr hf))
  exact hhelper _ hsegment hfree

/-- With free ids it returns, and has registered all of them. -/
theorem addIndex_each (fresh : Stored) {types : List IndexType} {s : Segment} (hsegment : c.segment = some s)
    (h : Registrable types c) :
    ∃ c', (forM types (addIndex fresh)).run c = .ok () c' ∧
      c'.indexTypes = c.indexTypes ++ types := by
  induction types generalizing c with
  | nil => exact ⟨c, rfl, (List.append_nil _).symm⟩
  | cons t types ih =>
    obtain ⟨hfree, hrest⟩ := (registrable_cons fresh s).mp h
    obtain ⟨c', hrun, htypes⟩ :=
      ih (c := { c.register fresh s t with indexTypes := c.indexTypes ++ [t] }) hsegment
        ⟨hrest.nodup, hrest.free⟩
    refine ⟨c', ?_, by rw [htypes, List.append_assoc, List.singleton_append]⟩
    rw [List.forM_cons, EStateM.run_bind, run_addIndex t hsegment hfree]
    exact hrun

namespace Initialized

variable {n : Nat}

/-- **`initialize_indexes` counts**, whether or not it returns. -/
theorem initializeIndexes (fresh : Stored) (h : Initialized n c) (hopen : c.dataDir ≠ "") :
    Initialized (n + 1) (finalState ((initializeIndexes fresh).run c)) := by
  obtain ⟨s, hs⟩ := h.exists_segment hopen
  refine ⟨?_, ?_, nofun⟩
  · have hsame : Keeps (fun c' : Chainbase Stored => c'.segment.map (·.dir) =
        if c'.dataDir = "" then none else some c'.dataDir) (NewsChain.initializeIndexes fresh) :=
      Keeps.forM fun t _ => addIndex_keeps t (fun _ h => h) fun _ _ _ _ h => h
    exact hsame c h.segment
  · match n, h with
    | 0, h =>
      have hfree : Registrable objectTypes c :=
        ⟨by decide, fun t _ => by rw [indexAt, h.empty rfl]; rfl⟩
      obtain ⟨c', hrun, htypes⟩ := addIndex_each fresh hs hfree
      rw [NewsChain.initializeIndexes, hrun]
      rw [h.types, List.nil_append] at htypes
      exact htypes
    | 1, h =>
      obtain ⟨t, ht, hgrown⟩ := indexTypes_initializeIndexes fresh c
      rw [h.types] at hgrown
      intro hnodup
      have := hnodup.sublist (hgrown.sublist.map _)
      rw [List.map_append, List.nodup_append] at this
      exact this.2.2 _ (List.mem_map_of_mem ht) _ (List.mem_singleton_self _) rfl
    | n + 2, h =>
      obtain ⟨t, -, hgrown⟩ := indexTypes_initializeIndexes fresh c
      exact fun hnodup => h.types
        (hnodup.sublist (((List.prefix_append _ _).trans hgrown).sublist.map _))

/-! ## Every call -/

theorem outcome (r : Except Exc Unit) : Keeps (Initialized n) (outcome r : ChainbaseM Stored Unit) := by
  cases r with
  | ok _ => exact .pure _
  | error e => exact .throw e

theorem objectCode (code : ObjectCode Stored) : Keeps (Initialized n) code.run := by
  refine (Keeps.modify fun c h => ?_).bind fun _ => outcome _
  unfold writeObjects
  split
  · exact h
  · exact ⟨h.segment, h.types, h.empty⟩

theorem closeSegment : Keeps (Initialized n) (closeSegment : ChainbaseM Stored Unit) :=
  Keeps.modify fun _ h => ⟨rfl, h.types, h.empty⟩

theorem checkFreeMemory (freeMem : UInt64) :
    Keeps (Initialized n) (checkFreeMemory fresh freeMem) :=
  Keeps.get.bind fun _ => (Keeps.onlyIf fun _ => .throw _).bind fun _ => Keeps.onlyIf fun _ =>
    (Keeps.fcAssert.bind fun _ => .pure _).bind fun _ => Keeps.onlyIf fun _ => resize _

theorem wipeDatabase (dir : String) : Keeps (Initialized n) (wipeDatabase dir : ChainbaseM Stored Unit) :=
  fun _ h => ⟨rfl, h.types, fun _ => rfl⟩

theorem openDatabase (fresh : Stored) (h : Initialized n c) (args : OpenDbArgs)
    (blockLog : Except Exc Unit) (start : ObjectCode Stored) :
    Initialized (n + initializes args blockLog)
      (finalState ((openDatabase fresh args blockLog start).run c)) := by
  unfold NewsChain.openDatabase initializes
  by_cases hdir : args.sharedMemDir = ""
  · rw [EStateM.run_bind, hdir, run_openSegment_empty]
    cases blockLog <;> exact h
  · rw [EStateM.run_bind, run_openSegment hdir]
    have hopened : Initialized n
        ({ c with dataDir := args.sharedMemDir }.mapFile args.sharedMemDir args.sharedMemSize) :=
      ⟨(if_neg hdir).symm, h.types, h.empty⟩
    cases blockLog with
    | error e => exact hopened
    | ok _ =>
      simp only [if_neg hdir]
      have hrest : Keeps (Initialized (n + 1)) (do
          start.run
          modify fun c =>
            { c with
              sharedFileFullThreshold := args.sharedFileFullThreshold
              sharedFileScaleRate := args.sharedFileScaleRate }) :=
        (objectCode start).bind fun _ => Keeps.modify fun _ h => ⟨h.segment, h.types, h.empty⟩
      have hafter := Keeps.after (hopened.initializeIndexes fresh hdir) fun _ => hrest
      exact hafter

theorem replayBlock (block : ObjectCode Stored × UInt64) :
    Keeps (Initialized n) (do
      block.1.run
      NewsChain.checkFreeMemory fresh block.2) :=
  (objectCode block.1).bind fun _ => checkFreeMemory block.2

theorem reindexDatabase (fresh : Stored) (h : Initialized n c) (args : OpenDbArgs)
    (blockLog : Except Exc Unit) (start : ObjectCode Stored)
    (replayed : List (ObjectCode Stored × UInt64)) (last : ObjectCode Stored) :
    Initialized (n + initializes args blockLog)
      (finalState ((reindexDatabase fresh args blockLog start replayed last).run c)) := by
  have hwiped : Initialized n
      (finalState ((NewsChain.wipeDatabase args.sharedMemDir : ChainbaseM Stored Unit).run c)) :=
    wipeDatabase args.sharedMemDir c h
  have hreplayed : Keeps (Initialized (n + initializes args blockLog))
      (forM replayed fun block => do
        block.1.run
        NewsChain.checkFreeMemory fresh block.2) := Keeps.forM fun block _ => replayBlock block
  have hafter := Keeps.after (hwiped.openDatabase fresh args blockLog start) fun _ =>
    hreplayed.bind fun _ => objectCode last
  exact hafter

/-- **A call** adds its calls of `initialize_indexes`. -/
theorem run (h : Initialized n c) (call : MemoryCall Stored) :
    Initialized (n + call.initializations) (finalState ((call.run fresh).run c)) := by
  cases call with
  | «open» args blockLog start => exact h.openDatabase fresh args blockLog start
  | wipe dir => exact wipeDatabase dir c h
  | reindex args blockLog start replayed last =>
    exact h.reindexDatabase fresh args blockLog start replayed last
  | resize size => exact resize size c h
  | checkFreeMemory freeMem => exact checkFreeMemory freeMem c h
  | close => exact closeSegment c h
  | code objects => exact objectCode objects c h
  | sessions count => exact ⟨h.segment, h.types, h.empty⟩

/-- **A run** has as many as its calls have. -/
theorem runMemoryCalls (fresh : Stored) (h : Initialized n c) (calls : List (MemoryCall Stored)) :
    Initialized (n + (calls.map MemoryCall.initializations).sum)
      (runMemoryCalls fresh c calls) := by
  induction calls generalizing c n with
  | nil => exact h
  | cons call calls ih =>
    rw [List.map_cons, List.sum_cons, ← Nat.add_assoc]
    exact ih (h.run call)

/-- The registered types have ids of their own until the second call. -/
theorem nodup_iff (h : Initialized n c) : (c.indexTypes.map IndexType.typeId).Nodup ↔ n ≤ 1 := by
  match n, h with
  | 0, h =>
    rw [h.types]
    exact iff_of_true List.nodup_nil (by decide)
  | 1, h =>
    rw [h.types]
    exact iff_of_true (by decide) (by decide)
  | n + 2, h => exact iff_of_false h.types (by omega)

end Initialized

/-! ## The check of free memory -/

/-- The mark is a number of 64 bits, if the threshold is a share. -/
theorem fullMark_lt (threshold : UInt16) (maxMem : UInt64) :
    (fullMark threshold maxMem).toNat < 2 ^ 64 ↔
      threshold.toNat ≤ hundredPercent ∨ maxMem = 0 := by
  have hmem : maxMem.toNat < 2 ^ 64 := maxMem.toNat_lt
  have hthreshold : threshold.toNat < 2 ^ 16 := threshold.toNat_lt
  have hmark : (fullMark threshold maxMem).toNat =
      (((hundredPercent : Int) - threshold.toNat) % (2 ^ 128 : Nat)).toNat * maxMem.toNat %
        2 ^ 128 / hundredPercent := by
    rw [fullMark, BitVec.toNat_udiv, BitVec.toNat_mul, BitVec.toNat_ofInt, BitVec.toNat_ofNat,
      BitVec.toNat_ofNat, Nat.mod_eq_of_lt (Nat.lt_trans hmem (by decide))]
    rfl
  rw [hmark, hundredPercent]
  by_cases hshare : threshold.toNat ≤ 10000
  · have hfactor : (((10000 : Nat) : Int) - threshold.toNat) % (2 ^ 128 : Nat) =
        (10000 - threshold.toNat : Nat) := by omega
    have hle : (10000 - threshold.toNat) * maxMem.toNat ≤ 10000 * maxMem.toNat :=
      Nat.mul_le_mul_right _ (Nat.sub_le _ _)
    rw [hfactor, Int.toNat_natCast]
    exact iff_of_true (by omega) (.inl hshare)
  · obtain ⟨k, hk⟩ : ∃ k, threshold.toNat = 10000 + k := ⟨_, (Nat.add_sub_cancel' (by omega)).symm⟩
    have hfactor : ((((10000 : Nat) : Int) - threshold.toNat) % (2 ^ 128 : Nat)).toNat =
        2 ^ 128 - k := by omega
    rw [hfactor]
    by_cases hzero : maxMem = 0
    · exact iff_of_true (by simp [hzero]) (.inr hzero)
    · have hpos : 0 < maxMem.toNat := Nat.pos_of_ne_zero fun h => hzero (UInt64.toNat_inj.mp h)
      have hsmall : k * maxMem.toNat < 2 ^ 16 * 2 ^ 64 := Nat.mul_lt_mul'' (by omega) hmem
      -- The factor is negative, and what is left of it modulo 2 ^ 128 has high bits.
      have hwrap : (2 ^ 128 - k) * maxMem.toNat % 2 ^ 128 = 2 ^ 128 - k * maxMem.toNat := by
        have hsplit : (2 ^ 128 - k) * maxMem.toNat =
            2 ^ 128 * (maxMem.toNat - 1) + (2 ^ 128 - k * maxMem.toNat) := by
          rw [Nat.sub_mul]
          omega
        have hk0 : 0 < k * maxMem.toNat := Nat.mul_pos (by omega) hpos
        rw [hsplit, Nat.mul_add_mod, Nat.mod_eq_of_lt (by omega)]
      rw [hwrap]
      refine iff_of_false (by omega) ?_
      rintro (h | h)
      · exact hshare h
      · exact hzero h

/-- The check asks `to_uint64` for no more than 64 bits. -/
def MarkFits (c : Chainbase Stored) : Prop :=
  c.sharedFileFullThreshold.toNat ≤ hundredPercent ∨ c.sharedFileScaleRate = 0 ∨ c.fileSize = 0

theorem run_checkFreeMemory {s : Segment} (hsegment : c.segment = some s) (freeMem : UInt64) :
    (checkFreeMemory fresh freeMem).run c =
      if c.sharedFileFullThreshold ≠ 0 ∧ c.sharedFileScaleRate ≠ 0 then
        if (fullMark c.sharedFileFullThreshold c.fileSize).toNat < 2 ^ 64 then
          if freeMem < UInt64.ofNat (fullMark c.sharedFileFullThreshold c.fileSize).toNat then
            (resize fresh (scaledUp c.fileSize c.sharedFileScaleRate)).run c
          else .ok () c
        else .error (.assertion "hi == 0") c
      else .ok () c := by
  have hmapped : ¬ c.segment.isNone = true := by rw [hsegment]; nofun
  simp only [checkFreeMemory, EStateM.run_bind, EStateM.run_get, run_onlyIf, if_neg hmapped,
    toUInt64, run_fcAssert]
  by_cases hset : c.sharedFileFullThreshold ≠ 0 ∧ c.sharedFileScaleRate ≠ 0
  · simp only [if_pos hset]
    by_cases hmark : (fullMark c.sharedFileFullThreshold c.fileSize).toNat < 2 ^ 64
    · simp only [if_pos hmark]
      rfl
    · simp only [if_neg hmark]
  · simp only [if_neg hset]

/-- Where every resize returns, so does every check, if its mark fits. -/
theorem returned_checkFreeMemory {s : Segment} (hsegment : c.segment = some s)
    (hresize : ∀ size, Returned ((resize fresh size).run c)) :
    (∀ freeMem, Returned ((checkFreeMemory fresh freeMem).run c)) ↔ MarkFits c := by
  simp only [run_checkFreeMemory hsegment, MarkFits]
  by_cases hset : c.sharedFileFullThreshold ≠ 0 ∧ c.sharedFileScaleRate ≠ 0
  · simp only [if_pos hset]
    have hrate : (c.sharedFileFullThreshold.toNat ≤ hundredPercent ∨
        c.sharedFileScaleRate = 0 ∨ c.fileSize = 0) ↔
        c.sharedFileFullThreshold.toNat ≤ hundredPercent ∨ c.fileSize = 0 := by
      rw [or_iff_right (a := c.sharedFileScaleRate = 0) hset.2]
    rw [hrate, ← fullMark_lt]
    constructor
    · intro h
      by_contra hlong
      have := h 0
      rw [if_neg hlong] at this
      exact not_returned_error _ _ this
    · intro h freeMem
      rw [if_pos h]
      split
      · exact hresize _
      · exact returned_ok _ _
  · simp only [if_neg hset]
    refine iff_of_true (fun _ => returned_ok _ _) ?_
    by_cases hzero : c.sharedFileFullThreshold = 0
    · exact .inl (by rw [hzero]; decide)
    · exact .inr (.inl (not_not.mp fun hrate => hset ⟨hzero, hrate⟩))

/-- A file is mapped, and no type would be registered twice. -/
structure Resizable (c : Chainbase Stored) : Prop where
  opened : c.dataDir ≠ ""
  nodup : (c.indexTypes.map IndexType.typeId).Nodup

instance (c : Chainbase Stored) : Decidable (Resizable c) :=
  decidable_of_iff (_ ∧ _) ⟨fun ⟨hopened, hnodup⟩ => ⟨hopened, hnodup⟩, fun h => ⟨h.opened, h.nodup⟩⟩

theorem run_resize_ok (hidle : c.undoSessionCount = 0) (h : Resizable c) (size : UInt64) :
    (resize fresh size).run c =
      .ok () (registerAll fresh ⟨c.mappings, c.dataDir⟩ c.indexTypes (c.remapped size)) :=
  (run_resize hidle h.opened size).trans
    (run_addIndexes (segment_remapped size c) ((registrable_remapped size).mpr h.nodup))

theorem returned_resize (fresh : Stored) (hidle : c.undoSessionCount = 0) (size : UInt64) :
    Returned ((resize fresh size).run c) ↔ Resizable c := by
  constructor
  · intro h
    by_cases hopen : c.dataDir = ""
    · rw [run_resize_closed hidle hopen] at h
      exact absurd h (not_returned_error _ _)
    · rw [run_resize hidle hopen] at h
      have hregistrable := registrable_of_returned (segment_remapped size c) h
      exact ⟨hopen, (registrable_remapped size).mp hregistrable⟩
  · intro h
    rw [run_resize_ok hidle h]
    exact returned_ok _ _

/-- `check_free_memory` returns where so much memory is free: a file is mapped, and no resize is due,
or it goes through. -/
structure CheckPasses (c : Chainbase Stored) (freeMem : UInt64) : Prop where
  mapped : c.segment.isSome
  passes : c.sharedFileFullThreshold = 0 ∨ c.sharedFileScaleRate = 0 ∨
    (fullMark c.sharedFileFullThreshold c.fileSize).toNat < 2 ^ 64 ∧
      ((fullMark c.sharedFileFullThreshold c.fileSize).toNat ≤ freeMem.toNat ∨ Resizable c)

instance (c : Chainbase Stored) (freeMem : UInt64) : Decidable (CheckPasses c freeMem) :=
  decidable_of_iff (_ ∧ _) ⟨fun ⟨hmapped, hpasses⟩ => ⟨hmapped, hpasses⟩, fun h => ⟨h.mapped, h.passes⟩⟩

/-- **What a check depends on**, outside of every session. -/
theorem returned_checkFreeMemory_iff (hidle : c.undoSessionCount = 0) (freeMem : UInt64) :
    Returned ((checkFreeMemory fresh freeMem).run c) ↔ CheckPasses c freeMem := by
  cases hsegment : c.segment with
  | none =>
    refine iff_of_false ?_ fun h => ?_
    · simp only [checkFreeMemory, EStateM.run_bind, EStateM.run_get, run_onlyIf, hsegment,
        Option.isNone_none, if_true]
      exact not_returned_error _ _
    · have := h.mapped
      rw [hsegment] at this
      cases this
  | some s =>
    have hmapped : c.segment.isSome := Option.isSome_of_eq_some hsegment
    rw [run_checkFreeMemory hsegment]
    by_cases hset : c.sharedFileFullThreshold ≠ 0 ∧ c.sharedFileScaleRate ≠ 0
    · rw [if_pos hset]
      obtain ⟨hthreshold, hrate⟩ := hset
      by_cases hmark : (fullMark c.sharedFileFullThreshold c.fileSize).toNat < 2 ^ 64
      · rw [if_pos hmark]
        have hlt : freeMem < UInt64.ofNat (fullMark c.sharedFileFullThreshold c.fileSize).toNat ↔
            freeMem.toNat < (fullMark c.sharedFileFullThreshold c.fileSize).toNat := by
          rw [UInt64.lt_iff_toNat_lt, UInt64.toNat_ofNat_of_lt' hmark]
        by_cases hfull : freeMem.toNat < (fullMark c.sharedFileFullThreshold c.fileSize).toNat
        · rw [if_pos (hlt.mpr hfull), returned_resize fresh hidle]
          constructor
          · intro h
            exact ⟨hmapped, .inr (.inr ⟨hmark, .inr h⟩)⟩
          · rintro ⟨-, hzero | hzero | ⟨-, hroom | hresizable⟩⟩
            · exact absurd hzero hthreshold
            · exact absurd hzero hrate
            · exact absurd hfull (Nat.not_lt.mpr hroom)
            · exact hresizable
        · rw [if_neg fun h => hfull (hlt.mp h)]
          exact iff_of_true (returned_ok _ _)
            ⟨hmapped, .inr (.inr ⟨hmark, .inl (Nat.not_lt.mp hfull)⟩)⟩
      · rw [if_neg hmark]
        refine iff_of_false (not_returned_error _ _) fun h => ?_
        rcases h.passes with hzero | hzero | ⟨hfits, -⟩
        · exact hthreshold hzero
        · exact hrate hzero
        · exact hmark hfits
    · rw [if_neg hset]
      refine iff_of_true (returned_ok _ _) ⟨hmapped, ?_⟩
      by_cases hthreshold : c.sharedFileFullThreshold = 0
      · exact .inl hthreshold
      · exact .inr (.inl (not_not.mp fun hrate => hset ⟨hthreshold, hrate⟩))

/-! ## Pushing a block under the check -/

section Push

variable [Node] {skip : SkipFlags} {b : SignedBlock} {d d' : Database} {r : Bool}

theorem pushBlockChecked_ok (skip : SkipFlags) (b : SignedBlock) :
    pushBlockChecked (.ok ()) skip b = pushBlock skip b := by
  unfold pushBlockChecked pushBlock
  rw [bind_pure]

/-- **A check that throws** throws out of a push whose block is applied. -/
theorem pushBlockChecked_error (h : (pushBlock skip b).run d = .ok r d') (e : Exc) :
    (pushBlockChecked (.error e) skip b).run d = .error e d' := by
  rw [run_pushBlock_flags] at h
  rw [pushBlockChecked, run_withoutPendingTransactions, EStateM.run_bind]
  cases hrun : (releaseItems (pushBlockImpl skip b)).run d.settled with
  | ok a c =>
    rw [hrun] at h
    cases h
    rfl
  | error e' c =>
    rw [hrun] at h
    cases h

end Push

/-! ## The memory while blocks are replayed -/

/-- The memory outside of every session. -/
def Chainbase.idle (c : Chainbase Stored) : Chainbase Stored := { c with undoSessionCount := 0 }

/-- The memory in the loop of `reindex`: open, under the thresholds of the call, and as large as it was
opened unless it can grow. -/
structure Replaying (args : OpenDbArgs) (types : List IndexType) (c : Chainbase Stored) : Prop where
  mapped : c.segment.isSome
  opened : c.dataDir ≠ ""
  threshold : c.sharedFileFullThreshold = args.sharedFileFullThreshold
  rate : c.sharedFileScaleRate = args.sharedFileScaleRate
  indexTypes : c.indexTypes = types
  size : args.sharedFileFullThreshold.toNat ≤ hundredPercent ∧ (types.map IndexType.typeId).Nodup ∨
    c.fileSize = args.sharedMemSize

/-- The check after a replayed block passes where so much memory is free. -/
def RoundPasses (args : OpenDbArgs) (types : List IndexType) (freeMem : UInt64) : Prop :=
  args.sharedFileFullThreshold = 0 ∨ args.sharedFileScaleRate = 0 ∨
    (args.sharedFileFullThreshold.toNat ≤ hundredPercent ∨ args.sharedMemSize = 0) ∧
      ((types.map IndexType.typeId).Nodup ∨
        (fullMark args.sharedFileFullThreshold args.sharedMemSize).toNat ≤ freeMem.toNat)

theorem Replaying.checkPasses_iff {args : OpenDbArgs} {types : List IndexType}
    (h : Replaying args types c) (freeMem : UInt64) :
    CheckPasses c freeMem ↔ RoundPasses args types freeMem := by
  have hresizable : Resizable c ↔ (types.map IndexType.typeId).Nodup :=
    ⟨fun hr => h.indexTypes ▸ hr.nodup, fun hnodup => ⟨h.opened, h.indexTypes ▸ hnodup⟩⟩
  have hpasses : CheckPasses c freeMem ↔ args.sharedFileFullThreshold = 0 ∨
      args.sharedFileScaleRate = 0 ∨
      (args.sharedFileFullThreshold.toNat ≤ hundredPercent ∨ c.fileSize = 0) ∧
        ((types.map IndexType.typeId).Nodup ∨
          (fullMark args.sharedFileFullThreshold c.fileSize).toNat ≤ freeMem.toNat) := by
    rw [← fullMark_lt, ← h.threshold, ← h.rate, ← hresizable, or_comm (a := Resizable c)]
    exact ⟨fun hc => hc.passes, fun hc => ⟨h.mapped, hc⟩⟩
  rw [hpasses, RoundPasses]
  rcases h.size with ⟨hshare, hnodup⟩ | hsize
  · -- It can grow whenever it is to.
    have hgrows : ∀ {p q : Prop}, ((args.sharedFileFullThreshold.toNat ≤ hundredPercent ∨ p) ∧
        ((types.map IndexType.typeId).Nodup ∨ q)) := ⟨.inl hshare, .inl hnodup⟩
    exact iff_of_true (.inr (.inr hgrows)) (.inr (.inr hgrows))
  · rw [hsize]

/-- **The check after a replayed block.** -/
theorem Replaying.check (fresh : Stored) {args : OpenDbArgs} {types : List IndexType}
    (h : Replaying args types c) (freeMem : UInt64) :
    (Returned ((checkFreeMemory fresh freeMem).run c.idle) ↔ RoundPasses args types freeMem) ∧
      ∀ c', (checkFreeMemory fresh freeMem).run c.idle = .ok () c' → Replaying args types c' := by
  have hidle : Replaying args types c.idle :=
    ⟨h.mapped, h.opened, h.threshold, h.rate, h.indexTypes, h.size⟩
  refine ⟨(returned_checkFreeMemory_iff rfl freeMem).trans (hidle.checkPasses_iff freeMem), ?_⟩
  intro c' hrun
  obtain ⟨s, hs⟩ := Option.isSome_iff_exists.mp hidle.mapped
  rw [run_checkFreeMemory hs] at hrun
  split at hrun
  · split at hrun
    · rename_i hfits
      split at hrun
      · rename_i hfull
        have hresizable : Resizable c.idle := (returned_resize fresh rfl _).mp ⟨_, _, hrun⟩
        rw [run_resize_ok rfl hresizable] at hrun
        cases hrun
        obtain ⟨files, indexMap, hframe⟩ := registerAll_frame fresh ⟨c.idle.mappings, c.idle.dataDir⟩
          c.idle.indexTypes (c.idle.remapped (scaledUp c.idle.fileSize c.idle.sharedFileScaleRate))
        rw [hframe]
        refine ⟨rfl, h.opened, h.threshold, h.rate, h.indexTypes, .inl ⟨?_, h.indexTypes ▸ hresizable.nodup⟩⟩
        -- No file is too full for a mark of 0.
        rw [fullMark_lt] at hfits
        rcases hfits with hshare | hzero
        · exact hidle.threshold ▸ hshare
        · exfalso
          rw [hzero] at hfull
          simp [fullMark] at hfull
      · cases hrun
        exact hidle
    · cases hrun
  · cases hrun
    exact hidle

/-- The eight types are registered besides those there are, and the loop starts. -/
theorem run_openIndexes (fresh : Stored) {args : OpenDbArgs} (hdir : args.sharedMemDir ≠ "")
    (c : Chainbase Stored) :
    ∃ c₁ c₂, (wipeDatabase args.sharedMemDir : ChainbaseM Stored Unit).run c = .ok () c₁ ∧
      (do
        openSegment args.sharedMemDir args.sharedMemSize
        initializeIndexes fresh).run c₁ = .ok () c₂ ∧
      Replaying args (c.indexTypes ++ objectTypes)
        { c₂ with
          sharedFileFullThreshold := args.sharedFileFullThreshold
          sharedFileScaleRate := args.sharedFileScaleRate } := by
  obtain ⟨c₁, hc₁⟩ : ∃ c₁ : Chainbase Stored, finalState
      ((wipeDatabase args.sharedMemDir : ChainbaseM Stored Unit).run c) = c₁ := ⟨_, rfl⟩
  have hwiped : (wipeDatabase args.sharedMemDir : ChainbaseM Stored Unit).run c = .ok () c₁ := by
    rw [← hc₁]
    rfl
  obtain ⟨m, hm⟩ : ∃ m : Chainbase Stored,
      { c₁ with dataDir := args.sharedMemDir }.mapFile args.sharedMemDir args.sharedMemSize = m :=
    ⟨_, rfl⟩
  have hsegment : m.segment = some ⟨c₁.mappings, args.sharedMemDir⟩ := by rw [← hm]; rfl
  have hfree : Registrable objectTypes m := by
    refine ⟨by decide, fun t _ => ?_⟩
    rw [← hm, ← hc₁]
    rfl
  obtain ⟨c₂, hrun, htypes⟩ := addIndex_each fresh hsegment hfree
  -- Nothing else of the mapping changes.
  have hsame : Keeps (fun c' : Chainbase Stored => c'.segment = m.segment ∧ c'.dataDir = m.dataDir ∧
      c'.fileSize = m.fileSize) (initializeIndexes fresh) :=
    Keeps.forM fun t _ => addIndex_keeps t (fun _ h => h) fun _ _ _ _ h => h
  obtain ⟨hsegment', hdir', hsize'⟩ := hsame.of_ok ⟨rfl, rfl, rfl⟩ hrun
  refine ⟨c₁, c₂, hwiped, ?_, ?_⟩
  · rw [EStateM.run_bind, run_openSegment hdir, hm]
    exact hrun
  · have hgone : c₁.files args.sharedMemDir = none := by
      rw [← hc₁]
      exact if_pos rfl
    have hsize : m.fileSize = args.sharedMemSize := by
      rw [← hm]
      simp only [mapFile, hgone]
    have hregistered : m.indexTypes = c.indexTypes := by rw [← hm, ← hc₁]; rfl
    refine ⟨?_, ?_, rfl, rfl, htypes.trans (by rw [hregistered]), .inr (hsize'.trans hsize)⟩
    · exact Option.isSome_of_eq_some (hsegment'.trans hsegment)
    · have hopen : m.dataDir = args.sharedMemDir := by rw [← hm]; rfl
      exact (hdir'.trans hopen).symm ▸ hdir

/-- Only an object that was never initialized can grow in `reindex`. -/
theorem Initialized.nodup_append (h : Initialized n c) :
    ((c.indexTypes ++ objectTypes).map IndexType.typeId).Nodup ↔ n = 0 := by
  match n, h with
  | 0, h =>
    rw [h.types]
    exact iff_of_true (by decide) rfl
  | 1, h =>
    rw [h.types]
    exact iff_of_false (by decide) (by decide)
  | n + 2, h =>
    refine iff_of_false (fun hnodup => h.types ?_) (by omega)
    exact hnodup.sublist ((List.sublist_append_left _ _).map _)

/-! ## The objects and the memory together -/

section Mapped

variable [Node] {s : MappedDatabase Stored} {skip : SkipFlags} {b : SignedBlock}
  {freeMem : UInt64}

theorem run_onDatabase {α : Type} (m : DbM α) (s : MappedDatabase Stored) :
    (onDatabase m).run s = mapState (⟨·, s.memory⟩) (m.run s.database) := by
  rw [onDatabase, run_onPart]

theorem run_onMemory {α : Type} (m : ChainbaseM Stored α) (s : MappedDatabase Stored) :
    (onMemory m).run s = mapState (⟨s.database, ·⟩) (m.run s.memory) := by
  rw [onMemory, run_onPart]

theorem run_checkMemory (fresh : Stored) (freeMem : UInt64) {s : MappedDatabase Stored}
    (hsettled : s.database.pendingSession = false) :
    (checkMemory fresh freeMem).run s =
      mapState (⟨s.database, ·⟩) ((checkFreeMemory fresh freeMem).run s.memory.idle) := by
  simp only [checkMemory, EStateM.run_bind, EStateM.run_get, run_onMemory, EStateM.run_modify,
    hsettled, Bool.false_eq_true, if_false]
  rfl

/-- `push_block` is `_push_block` on the settled database, the check, and what was pending again. -/
theorem run_pushBlockMapped (fresh : Stored) (freeMem : UInt64) (skip : SkipFlags) (b : SignedBlock)
    (s : MappedDatabase Stored) :
    (pushBlockMapped fresh freeMem skip b).run s =
      match (releaseItems (pushBlockImpl skip b)).run s.database.settled with
      | .error e d => .error e ⟨d.repended skip s.database.pendingTrx, s.memory⟩
      | .ok a d =>
        match (checkFreeMemory fresh freeMem).run s.memory.idle with
        | .error e c => .error e ⟨d.repended skip s.database.pendingTrx, c⟩
        | .ok _ c => .ok a ⟨d.repended skip s.database.pendingTrx, c⟩ := by
  have hreset : (do
      modify fun d => { d with pendingTrx := [] }
      resetPendingSession : DbM Unit).run s.database = .ok () s.database.settled :=
    run_resetPendingSession { s.database with pendingTrx := [] }
  have hsettled := pushBlockImpl_keeps_idle skip b s.database.settled ⟨rfl, rfl⟩
  simp only [pushBlockMapped, EStateM.run_bind, EStateM.run_get, run_onDatabase, hreset,
    mapState_ok, run_tryCatch, run_restorePending]
  cases hrun : (releaseItems (pushBlockImpl skip b)).run s.database.settled with
  | error e d => rfl
  | ok a d =>
    rw [hrun] at hsettled
    simp only [mapState_ok, run_checkMemory fresh freeMem (s := ⟨d, s.memory⟩) hsettled.1]
    cases (checkFreeMemory fresh freeMem).run s.memory.idle <;> rfl

/-- A push returns where `push_block` does and the check passes. -/
theorem pushBlockMapped_eq_ok {a : Bool} {s' : MappedDatabase Stored} :
    (pushBlockMapped fresh freeMem skip b).run s = .ok a s' ↔
      (pushBlock skip b).run s.database = .ok a s'.database ∧
        (checkFreeMemory fresh freeMem).run s.memory.idle = .ok () s'.memory := by
  obtain ⟨d', c'⟩ := s'
  rw [run_pushBlockMapped, run_pushBlock_flags]
  cases (releaseItems (pushBlockImpl skip b)).run s.database.settled with
  | error e d => simp
  | ok a' d =>
    cases (checkFreeMemory fresh freeMem).run s.memory.idle with
    | error e c => simp
    | ok u c => simp [and_assoc]

/-- The outcome and the database are those of `push_block` under the outcome of the check. -/
theorem pushBlockMapped_checked (fresh : Stored) (freeMem : UInt64) (skip : SkipFlags)
    (b : SignedBlock) (s : MappedDatabase Stored) :
    mapState (·.database) ((pushBlockMapped fresh freeMem skip b).run s) =
      (pushBlockChecked (ending ((checkFreeMemory fresh freeMem).run s.memory.idle)) skip b).run
        s.database := by
  rw [run_pushBlockMapped, pushBlockChecked, run_withoutPendingTransactions, EStateM.run_bind]
  cases (releaseItems (pushBlockImpl skip b)).run s.database.settled with
  | error e d => rfl
  | ok a d => cases (checkFreeMemory fresh freeMem).run s.memory.idle <;> rfl

/-- **The check does not undo** what it throws out of. -/
theorem database_pushBlockMapped (fresh : Stored) (freeMem : UInt64) (skip : SkipFlags)
    (b : SignedBlock) (s : MappedDatabase Stored) :
    (finalState ((pushBlockMapped fresh freeMem skip b).run s)).database =
      finalState ((pushBlock skip b).run s.database) := by
  rw [run_pushBlockMapped, run_pushBlock_flags]
  cases (releaseItems (pushBlockImpl skip b)).run s.database.settled with
  | error e d => rfl
  | ok a d => cases (checkFreeMemory fresh freeMem).run s.memory.idle <;> rfl

omit [Node] in
theorem checkPasses_idle {c : Chainbase Stored} : CheckPasses c.idle freeMem ↔ CheckPasses c freeMem := by
  have hresizable : Resizable c.idle ↔ Resizable c :=
    ⟨fun h => ⟨h.opened, h.nodup⟩, fun h => ⟨h.opened, h.nodup⟩⟩
  constructor
  · rintro ⟨hmapped, hpasses⟩
    exact ⟨hmapped, hpasses.imp_right fun h => h.imp_right fun h => ⟨h.1, h.2.imp_right hresizable.mp⟩⟩
  · rintro ⟨hmapped, hpasses⟩
    exact ⟨hmapped, hpasses.imp_right fun h => h.imp_right fun h => ⟨h.1, h.2.imp_right hresizable.mpr⟩⟩

/-- **A push whose block is applied** returns exactly where the check passes. -/
theorem returned_pushBlockMapped {r : Bool} {d : Database}
    (h : (pushBlock skip b).run s.database = .ok r d) :
    Returned ((pushBlockMapped fresh freeMem skip b).run s) ↔ CheckPasses s.memory freeMem := by
  rw [← checkPasses_idle, ← returned_checkFreeMemory_iff rfl, run_pushBlockMapped]
  rw [run_pushBlock_flags] at h
  cases hrun : (releaseItems (pushBlockImpl skip b)).run s.database.settled with
  | error e c =>
    rw [hrun] at h
    cases h
  | ok a c =>
    cases (checkFreeMemory fresh freeMem).run s.memory.idle with
    | ok _ c' => exact iff_of_true (returned_ok _ _) (returned_ok _ _)
    | error e c' => exact iff_of_false (not_returned_error _ _) (not_returned_error _ _)

/-- Where the check passes, only `_push_block` throws, and no memory is touched. -/
theorem pushBlockMapped_error {e : Exc} {s' : MappedDatabase Stored}
    (hcheck : CheckPasses s.memory freeMem)
    (h : (pushBlockMapped fresh freeMem skip b).run s = .error e s') :
    (pushBlock skip b).run s.database = .error e s'.database ∧ s'.memory = s.memory := by
  have hreturned : Returned ((checkFreeMemory fresh freeMem).run s.memory.idle) :=
    (returned_checkFreeMemory_iff rfl freeMem).mpr (checkPasses_idle.mpr hcheck)
  obtain ⟨_, c, hpasses⟩ := hreturned
  rw [run_pushBlockMapped] at h
  rw [run_pushBlock_flags]
  cases hrun : (releaseItems (pushBlockImpl skip b)).run s.database.settled with
  | error e' d =>
    simp only [hrun] at h
    cases h
    exact ⟨rfl, rfl⟩
  | ok a d =>
    simp only [hrun, hpasses] at h
    cases h

end Mapped

/-- A push whose block is applied does not fail afterwards. -/
def FailsNoPush [Node] (fresh : Stored) (c : Chainbase Stored) : Prop :=
  ∀ freeMem skip b d d' r, (pushBlock skip b).run d = .ok r d' →
    (pushBlockChecked (ending ((checkFreeMemory fresh freeMem).run c)) skip b).run d = .ok r d'

/-- **Resizing keeps every table** as long as `initialize_indexes` was called once. -/
theorem resize_iff [Node] (fresh : Stored) (files : String → Option (SharedFile Stored))
    (threshold rate : UInt16) (calls : List (MemoryCall Stored)) {c : Chainbase Stored}
    (hrun : c = runMemoryCalls fresh (constructed files threshold rate) calls)
    (hidle : c.undoSessionCount = 0) :
    ((∀ size, ResizeKeeps fresh c size) ∧
        (∀ freeMem, Returned ((checkFreeMemory fresh freeMem).run c)) ∧ FailsNoPush fresh c) ↔
      c.dataDir ≠ "" ∧ (calls.map MemoryCall.initializations).sum ≤ 1 ∧ MarkFits c := by
  have hstart : Initialized 0 (constructed files threshold rate) := ⟨rfl, rfl, fun _ => rfl⟩
  have hcount := hstart.runMemoryCalls fresh calls
  rw [← hrun, Nat.zero_add] at hcount
  have hkeeps : c.dataDir ≠ "" → ((∀ size, ResizeKeeps fresh c size) ↔
      (calls.map MemoryCall.initializations).sum ≤ 1) := by
    intro hopen
    rw [← hcount.nodup_iff]
    have heach := fun size => resizeKeeps_iff fresh hidle hopen
      (fun _ hs => hcount.dir_eq hs) size
    exact ⟨fun h => (heach 0).mp (h 0), fun h size => (heach size).mpr h⟩
  have hreturned : (∀ size, ResizeKeeps fresh c size) →
      ∀ size, Returned ((resize fresh size).run c) := fun h size =>
    let ⟨_, hok, _⟩ := h size
    ⟨_, _, hok⟩
  constructor
  · rintro ⟨hresize, hcheck, -⟩
    have hopen : c.dataDir ≠ "" := by
      intro hclosed
      have := hreturned hresize 0
      rw [run_resize_closed hidle hclosed] at this
      exact not_returned_error _ _ this
    obtain ⟨s, hs⟩ := hcount.exists_segment hopen
    exact ⟨hopen, (hkeeps hopen).mp hresize,
      (returned_checkFreeMemory hs (hreturned hresize)).mp hcheck⟩
  · rintro ⟨hopen, honce, hfits⟩
    have hresize := (hkeeps hopen).mpr honce
    obtain ⟨s, hs⟩ := hcount.exists_segment hopen
    have hcheck := (returned_checkFreeMemory hs (hreturned hresize)).mpr hfits
    refine ⟨hresize, hcheck, fun freeMem skip b d d' r hpush => ?_⟩
    obtain ⟨_, c', hok⟩ := hcheck freeMem
    rw [hok, ending, pushBlockChecked_ok]
    exact hpush

/-- A database opened once. -/
theorem resize_iff_opened :
    let calls : List (MemoryCall Nat) :=
      [.open ⟨"blockchain", 1024, 9000, 5000⟩ (.ok ()) ⟨fun _ x => x + 1, .ok ()⟩]
    let c := runMemoryCalls 0 (constructed (fun _ => none) 0 0) calls
    ((∀ size, ResizeKeeps 0 c size) ∧ (∀ freeMem, Returned ((checkFreeMemory 0 freeMem).run c)) ∧
      @FailsNoPush Nat smallNode 0 c) := by
  intro calls c
  have hopen : c.dataDir ≠ "" := by decide
  have honce : (calls.map MemoryCall.initializations).sum ≤ 1 := by decide
  have hfits : MarkFits c := .inl (by decide)
  exact (@resize_iff Nat smallNode 0 (fun _ => none) 0 0 calls c rfl (by decide)).mpr
    ⟨hopen, honce, hfits⟩

/-- A database whose `open` found that the state does not match the block log, and
that was reindexed: no resize returns, and neither does the check once the memory is nearly full. -/
theorem resize_reindexed :
    let args : OpenDbArgs := ⟨"blockchain", 1024, 9000, 5000⟩
    let calls : List (MemoryCall Nat) :=
      [.open args (.ok ()) ⟨fun _ x => x,
        .error (.assertion "Chain state does not match block log. Please reindex blockchain.")⟩,
       .reindex args (.ok ()) ⟨fun _ x => x, .ok ()⟩ [] ⟨fun _ x => x, .ok ()⟩]
    let c := runMemoryCalls 0 (constructed (fun _ => none) 0 0) calls
    let inUse : Exc :=
      .logicError "news::chain::dynamic_global_property_object::type_id is already in use"
    c.undoSessionCount = 0 ∧ c.dataDir ≠ "" ∧ MarkFits c ∧
      ending ((resize 0 2048).run c) = .error inUse ∧
      ending ((checkFreeMemory 0 50).run c) = .error inUse ∧ ¬ ResizeKeeps 0 c 2048 := by
  intro args calls c inUse
  have hresize : ending ((resize 0 2048).run c) = .error inUse := by decide +kernel
  refine ⟨by decide, by decide, .inl (by decide), hresize, by decide +kernel, ?_⟩
  rintro ⟨c', hok, -⟩
  rw [hok] at hresize
  cases hresize

end NewsChain
