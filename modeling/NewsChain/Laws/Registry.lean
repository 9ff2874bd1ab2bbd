import Mathlib.Data.List.Nodup
import Mathlib.Tactic.Common
import NewsChain.Chainbase.Registry

/-!
# What is registered

The map and the list take an index at a time, the map at its type's id (`indexAt_putIndex`). So the
loop over `_index_types` goes through exactly if no two types have one id and none of the ids is
taken (`returned_addIndexes`), and then each type has one entry in the map and one in the list, the
same index (`held_registerAll`).

`resize` starts that loop from an empty map and an empty list, on a segment that has the objects of
the old one: it is the types alone that decide whether it returns (`returned_resize`).
-/

namespace NewsChain

variable {Stored : Type} {fresh : Stored} {c : Chainbase Stored} {s : Segment}

namespace Chainbase

/-! ## One index -/

/-- Nulls at the end of the map are no entries. -/
theorem join_rightpad (map : List (Option AbstractIndex)) (n k : Nat) :
    ((map.rightpad n none)[k]?).join = (map[k]?).join := by
  rw [List.rightpad, List.getElem?_append]
  split
  · rfl
  · rename_i hlong
    rw [List.getElem?_eq_none (Nat.le_of_not_lt hlong), List.getElem?_replicate]
    split <;> rfl

theorem lt_length_rightpad (map : List (Option AbstractIndex)) (k : Nat) :
    k < (map.rightpad (k + 1) none).length := by
  rw [List.length_rightpad]
  omega

theorem indexAt_putIndex (i : AbstractIndex) (c : Chainbase Stored) (id : UInt16) :
    (c.putIndex i).indexAt id = if id = i.type.typeId then some i else c.indexAt id := by
  simp only [indexAt, putIndex, List.getElem?_set]
  by_cases hid : id = i.type.typeId
  · rw [if_pos hid, if_pos (by rw [hid]), if_pos (lt_length_rightpad _ _)]
    rfl
  · rw [if_neg hid, if_neg fun h => hid (UInt16.toNat_inj.mp h).symm, join_rightpad]

/-- The map has one entry more, if its place was free. -/
theorem countP_putIndex (i : AbstractIndex) (p : AbstractIndex → Bool)
    (hfree : c.indexAt i.type.typeId = none) :
    (c.putIndex i).indexMap.countP (·.any p) =
      c.indexMap.countP (·.any p) + if p i then 1 else 0 := by
  have hlong := lt_length_rightpad c.indexMap i.type.typeId.toNat
  have hpad : (c.indexMap.rightpad (i.type.typeId.toNat + 1) none).countP (·.any p) =
      c.indexMap.countP (·.any p) := by
    rw [List.rightpad, List.countP_append, List.countP_replicate]
    rfl
  have hnone : (c.indexMap.rightpad (i.type.typeId.toNat + 1) none)[i.type.typeId.toNat] = none := by
    rw [indexAt, ← join_rightpad c.indexMap (i.type.typeId.toNat + 1),
      List.getElem?_eq_getElem hlong] at hfree
    exact hfree
  simp only [putIndex]
  rw [List.countP_set hlong, hpad, hnone]
  rfl

/-! ## The types one after another -/

/-- `add_index_helper`, where the id is free. -/
def register (fresh : Stored) (s : Segment) (t : IndexType) (c : Chainbase Stored) :
    Chainbase Stored :=
  (c.findOrConstruct fresh t.typeName s.dir).putIndex ⟨t, s.mapping⟩

/-- The loop of `resize`, where every id is. -/
def registerAll (fresh : Stored) (s : Segment) : List IndexType → Chainbase Stored → Chainbase Stored
  | [], c => c
  | t :: types, c => registerAll fresh s types (c.register fresh s t)

theorem indexAt_register (t : IndexType) (c : Chainbase Stored) (id : UInt16) :
    (c.register fresh s t).indexAt id =
      if id = t.typeId then some ⟨t, s.mapping⟩ else c.indexAt id :=
  indexAt_putIndex ⟨t, s.mapping⟩ _ id

/-- The loop writes the file, the map and the list. -/
theorem registerAll_frame (fresh : Stored) (s : Segment) (types : List IndexType)
    (c : Chainbase Stored) :
    ∃ files indexMap, registerAll fresh s types c =
      { c with
        files, indexMap
        indexList := c.indexList ++ types.map (⟨·, s.mapping⟩) } := by
  induction types generalizing c with
  | nil => exact ⟨c.files, c.indexMap, by rw [List.map_nil, List.append_nil]; rfl⟩
  | cons t types ih =>
    obtain ⟨files, indexMap, h⟩ := ih (c.register fresh s t)
    refine ⟨files, indexMap, h.trans ?_⟩
    simp only [register, putIndex, findOrConstruct, setFile, List.map_cons, List.append_assoc,
      List.singleton_append]

/-- The ids of the types are their own, and free in the map. -/
structure Registrable (types : List IndexType) (c : Chainbase Stored) : Prop where
  nodup : (types.map IndexType.typeId).Nodup
  free : ∀ t ∈ types, c.indexAt t.typeId = none

theorem registrable_nil (c : Chainbase Stored) : Registrable [] c := ⟨List.nodup_nil, nofun⟩

/-- Once the first type is registered, the others still are to be. -/
theorem registrable_cons (fresh : Stored) (s : Segment) {t : IndexType} {types : List IndexType} :
    Registrable (t :: types) c ↔ c.indexAt t.typeId = none ∧
      Registrable types (c.register fresh s t) := by
  constructor
  · rintro ⟨hnodup, hfree⟩
    obtain ⟨hnot, hrest⟩ := List.nodup_cons.mp hnodup
    refine ⟨hfree t List.mem_cons_self, hrest, fun u hu => ?_⟩
    have hne : u.typeId ≠ t.typeId := fun h => hnot (h ▸ List.mem_map_of_mem hu)
    rw [indexAt_register, if_neg hne]
    exact hfree u (List.mem_cons_of_mem _ hu)
  · rintro ⟨hhead, hnodup, hfree⟩
    have hne : ∀ u ∈ types, u.typeId ≠ t.typeId := by
      intro u hu h
      have := hfree u hu
      rw [indexAt_register, if_pos h] at this
      cases this
    refine ⟨List.nodup_cons.mpr ⟨fun h => ?_, hnodup⟩, fun u hu => ?_⟩
    · obtain ⟨u, hu, heq⟩ := List.mem_map.mp h
      exact hne u hu heq
    · rcases List.mem_cons.mp hu with rfl | hu
      · exact hhead
      · have := hfree u hu
        rwa [indexAt_register, if_neg (hne u hu)] at this

theorem indexAt_registerAll_of_not_mem {types : List IndexType} {id : UInt16}
    (h : id ∉ types.map IndexType.typeId) :
    (registerAll fresh s types c).indexAt id = c.indexAt id := by
  induction types generalizing c with
  | nil => rfl
  | cons t types ih =>
    rw [List.map_cons, List.mem_cons, not_or] at h
    exact (ih h.2).trans ((indexAt_register t c id).trans (if_neg h.1))

theorem indexAt_registerAll {types : List IndexType} (h : (types.map IndexType.typeId).Nodup)
    {t : IndexType} (ht : t ∈ types) :
    (registerAll fresh s types c).indexAt t.typeId = some ⟨t, s.mapping⟩ := by
  induction types generalizing c with
  | nil => cases ht
  | cons u types ih =>
    obtain ⟨hnot, hrest⟩ := List.nodup_cons.mp h
    rcases List.mem_cons.mp ht with rfl | ht
    · exact (indexAt_registerAll_of_not_mem hnot).trans
        ((indexAt_register t c t.typeId).trans (if_pos rfl))
    · exact ih hrest ht

theorem countP_registerAll {types : List IndexType} (h : Registrable types c)
    (p : AbstractIndex → Bool) :
    (registerAll fresh s types c).indexMap.countP (·.any p) =
      c.indexMap.countP (·.any p) + (types.map (⟨·, s.mapping⟩)).countP p := by
  induction types generalizing c with
  | nil => rfl
  | cons t types ih =>
    obtain ⟨hfree, hrest⟩ := (registrable_cons fresh s).mp h
    have hone : (c.register fresh s t).indexMap.countP (·.any p) =
        c.indexMap.countP (·.any p) + if p ⟨t, s.mapping⟩ then 1 else 0 :=
      countP_putIndex (c := c.findOrConstruct fresh t.typeName s.dir) ⟨t, s.mapping⟩ p hfree
    rw [registerAll, ih hrest, hone, List.map_cons, List.countP_cons]
    omega

/-! ## What the segment holds -/

theorem objectIn_findOrConstruct (name dir n : String) :
    (c.findOrConstruct fresh name dir).objectIn dir n = (c.files dir).bind fun file =>
      if n = name then some ((file.objects n).getD fresh) else file.objects n := by
  simp only [objectIn, findOrConstruct, setFile, if_pos]
  cases c.files dir <;> rfl

/-- What is there stays. -/
theorem objectIn_registerAll {types : List IndexType} {name : String} {x : Stored}
    (h : c.objectIn s.dir name = some x) :
    (registerAll fresh s types c).objectIn s.dir name = some x := by
  induction types generalizing c with
  | nil => exact h
  | cons t types ih =>
    refine ih (c := c.register fresh s t) ?_
    obtain ⟨file, hfile, hx⟩ := Option.bind_eq_some_iff.mp h
    refine (objectIn_findOrConstruct t.typeName s.dir name).trans ?_
    rw [hfile, Option.bind_some, hx]
    split <;> rfl

/-- What is registered is there. -/
theorem isSome_objectIn_registerAll {types : List IndexType} (hfile : (c.files s.dir).isSome)
    {t : IndexType} (ht : t ∈ types) :
    ((registerAll fresh s types c).objectIn s.dir t.typeName).isSome := by
  induction types generalizing c with
  | nil => cases ht
  | cons u types ih =>
    obtain ⟨file, hf⟩ := Option.isSome_iff_exists.mp hfile
    rcases List.mem_cons.mp ht with rfl | ht
    · have hthere : (c.register fresh s t).objectIn s.dir t.typeName =
          some ((file.objects t.typeName).getD fresh) := by
        refine (objectIn_findOrConstruct t.typeName s.dir t.typeName).trans ?_
        rw [hf, Option.bind_some, if_pos rfl]
      exact Option.isSome_of_eq_some (objectIn_registerAll (c := c.register fresh s t) hthere)
    · refine ih ?_ ht
      simp [register, putIndex, findOrConstruct, setFile, hf]

/-! ## The loop -/

theorem run_addIndexHelper (t : IndexType) (hsegment : c.segment = some s) :
    (addIndexHelper fresh t).run c =
      if (c.indexAt t.typeId).isSome then
        .error (.logicError (t.typeName ++ "::type_id is already in use")) c
      else .ok () (c.register fresh s t) := by
  simp only [addIndexHelper, EStateM.run_bind, EStateM.run_get, run_onlyIf]
  by_cases hused : (c.indexAt t.typeId).isSome
  · simp only [if_pos hused]
    rfl
  · simp only [if_neg hused, hsegment]
    rfl

/-- `add_index_helper` writes the file, the map and the list. -/
theorem addIndexHelper_keeps {I : Chainbase Stored → Prop} (t : IndexType)
    (h : ∀ c files indexMap indexList, I c → I { c with files, indexMap, indexList }) :
    Keeps I (addIndexHelper fresh t) := by
  refine Keeps.get.bind fun _ => (Keeps.onlyIf fun _ => .throw _).bind fun _ =>
    Keeps.get.bind fun c => ?_
  split
  · exact .throw _
  · exact (Keeps.modify fun c hc => h c _ _ _ hc).bind fun _ => Keeps.modify fun c hc => h c _ _ _ hc

/-- **The loop** goes through exactly for registrable types. -/
theorem run_addIndexes {types : List IndexType} (hsegment : c.segment = some s)
    (h : Registrable types c) :
    (forM types (addIndexHelper fresh)).run c = .ok () (registerAll fresh s types c) := by
  induction types generalizing c with
  | nil => rfl
  | cons t types ih =>
    obtain ⟨hfree, hrest⟩ := (registrable_cons fresh s).mp h
    rw [List.forM_cons, EStateM.run_bind, run_addIndexHelper t hsegment, hfree]
    exact ih hsegment hrest

theorem registrable_of_returned {types : List IndexType} (hsegment : c.segment = some s)
    (h : Returned ((forM types (addIndexHelper fresh)).run c)) : Registrable types c := by
  induction types generalizing c with
  | nil => exact registrable_nil c
  | cons t types ih =>
    rw [List.forM_cons] at h
    obtain ⟨_, c', hhead, hrest⟩ := returned_bind.mp h
    rw [run_addIndexHelper t hsegment] at hhead
    split at hhead
    · cases hhead
    · rename_i hfree
      cases hhead
      exact (registrable_cons fresh s).mpr
        ⟨Option.not_isSome_iff_eq_none.mp hfree, ih hsegment hrest⟩

/-! ## Resizing -/

/-- The file of the database is mapped anew, and nothing is registered. -/
def remapped (size : UInt64) (c : Chainbase Stored) : Chainbase Stored :=
  (c.mapFile c.dataDir size).clearIndexes

theorem segment_remapped (size : UInt64) (c : Chainbase Stored) :
    (c.remapped size).segment = some ⟨c.mappings, c.dataDir⟩ := rfl

/-- A grown file holds what it held, and a new one nothing. -/
theorem objectIn_remapped (size : UInt64) (c : Chainbase Stored) (name : String) :
    (c.remapped size).objectIn c.dataDir name = c.objectIn c.dataDir name := by
  simp only [remapped, clearIndexes, mapFile, setFile, objectIn, if_pos, Option.bind_some]
  cases c.files c.dataDir <;> rfl

theorem isSome_files_remapped (size : UInt64) (c : Chainbase Stored) :
    ((c.remapped size).files c.dataDir).isSome := by
  simp [remapped, clearIndexes, mapFile, setFile]

theorem registrable_remapped (size : UInt64) :
    Registrable c.indexTypes (c.remapped size) ↔ (c.indexTypes.map IndexType.typeId).Nodup :=
  ⟨fun h => h.nodup, fun h => ⟨h, fun _ _ => rfl⟩⟩

/-- `open` closes another directory's file first, which its own mapping replaces anyhow. -/
theorem run_openSegment {dir : String} (hdir : dir ≠ "") (size : UInt64) (c : Chainbase Stored) :
    (openSegment dir size).run c = .ok () ({ c with dataDir := dir }.mapFile dir size) := by
  simp only [openSegment, EStateM.run_bind, run_onlyIf, if_neg hdir, EStateM.run_get]
  by_cases hsame : c.dataDir ≠ dir
  · rw [if_pos hsame]
    rfl
  · rw [if_neg hsame]
    rfl

theorem run_openSegment_empty (size : UInt64) (c : Chainbase Stored) :
    (openSegment "" size).run c =
      .error (.runtimeError "boost::filesystem::create_directories") c := rfl

theorem run_resize_busy (hbusy : c.undoSessionCount ≠ 0) (size : UInt64) :
    (resize fresh size).run c =
      .error (.runtimeError "Cannot resize shared memory file while undo session is active") c := by
  simp only [resize, EStateM.run_bind, EStateM.run_get, run_onlyIf, if_pos hbusy]
  rfl

/-- A closed database has no directory to open. -/
theorem run_resize_closed (hidle : c.undoSessionCount = 0) (hclosed : c.dataDir = "")
    (size : UInt64) :
    (resize fresh size).run c =
      .error (.runtimeError "boost::filesystem::create_directories") { c with segment := none } := by
  have hbusy : ¬ c.undoSessionCount ≠ 0 := fun h => h hidle
  simp only [resize, EStateM.run_bind, EStateM.run_get, run_onlyIf, if_neg hbusy,
    EStateM.run_modify]
  rw [hclosed, run_openSegment_empty]

/-- In a database that is open, `resize` comes to its loop. -/
theorem run_resize (hidle : c.undoSessionCount = 0) (hopen : c.dataDir ≠ "") (size : UInt64) :
    (resize fresh size).run c =
      (forM c.indexTypes (addIndexHelper fresh)).run (c.remapped size) := by
  have hbusy : ¬ c.undoSessionCount ≠ 0 := fun h => h hidle
  simp only [resize, EStateM.run_bind, EStateM.run_get, run_onlyIf, if_neg hbusy,
    EStateM.run_modify, run_openSegment hopen]
  rfl

/-- One entry in the map, at the type's id, and one in the list: the same index. -/
structure Held (c : Chainbase Stored) (i : AbstractIndex) : Prop where
  indexAt : c.indexAt i.type.typeId = some i
  inMap : c.indexMap.countP (·.any (·.type = i.type)) = 1
  mem : i ∈ c.indexList
  inList : c.indexList.countP (·.type = i.type) = 1

/-- `resize` returns, and then each type that `add_index` was called with has one index, which
refers to what any index of the type referred to before. -/
def ResizeKeeps (fresh : Stored) (c : Chainbase Stored) (size : UInt64) : Prop :=
  ∃ c', (resize fresh size).run c = .ok () c' ∧ ∀ t ∈ c.indexTypes, ∃ i, i.type = t ∧ Held c' i ∧
    (c'.stored i).isSome ∧ ∀ j x, j.type = t → c.stored j = some x → c'.stored i = some x

/-- After the loop each type has one index. -/
theorem held_registerAll {types : List IndexType} (h : Registrable types c)
    (hmap : c.indexMap = []) (hlist : c.indexList = []) {t : IndexType} (ht : t ∈ types) :
    Held (registerAll fresh s types c) ⟨t, s.mapping⟩ := by
  obtain ⟨files, indexMap, hframe⟩ := registerAll_frame fresh s types c
  have hlist' : (registerAll fresh s types c).indexList = types.map (⟨·, s.mapping⟩) := by
    rw [hframe, hlist, List.nil_append]
  have hone : (types.map fun u => (⟨u, s.mapping⟩ : AbstractIndex)).countP (·.type = t) = 1 := by
    rw [List.countP_map]
    exact List.count_eq_one_of_mem h.nodup.of_map ht
  refine ⟨indexAt_registerAll h.nodup ht, ?_, ?_, ?_⟩
  · rw [countP_registerAll h, hmap]
    exact (Nat.zero_add _).trans hone
  · rw [hlist']
    exact List.mem_map_of_mem ht
  · rw [hlist']
    exact hone

/-- An index of the loop refers to what its segment holds under the type's name. -/
theorem stored_registerAll (fresh : Stored) (hsegment : c.segment = some s) (types : List IndexType)
    (t : IndexType) :
    (registerAll fresh s types c).stored ⟨t, s.mapping⟩ =
      (registerAll fresh s types c).objectIn s.dir t.typeName := by
  obtain ⟨files, indexMap, hframe⟩ := registerAll_frame fresh s types c
  have hsame : (registerAll fresh s types c).segment = some s := by rw [hframe]; exact hsegment
  rw [stored, hsame, Option.bind_some, if_pos rfl]

/-- An index refers to nothing but what the mapped file holds. -/
theorem objectIn_of_stored {i : AbstractIndex} {x : Stored} (h : c.stored i = some x) :
    ∃ s, c.segment = some s ∧ c.objectIn s.dir i.type.typeName = some x := by
  obtain ⟨s, hs, hx⟩ := Option.bind_eq_some_iff.mp h
  split at hx
  · exact ⟨s, hs, hx⟩
  · cases hx

/-- **What resizing depends on**: the ids of the types that were registered, all of them ever. -/
theorem resizeKeeps_iff (fresh : Stored) (hidle : c.undoSessionCount = 0) (hopen : c.dataDir ≠ "")
    (hsegment : ∀ s, c.segment = some s → s.dir = c.dataDir) (size : UInt64) :
    ResizeKeeps fresh c size ↔ (c.indexTypes.map IndexType.typeId).Nodup := by
  rw [← registrable_remapped size]
  constructor
  · rintro ⟨c', hrun, -⟩
    rw [run_resize hidle hopen] at hrun
    exact registrable_of_returned (segment_remapped size c) ⟨_, _, hrun⟩
  · intro h
    have hstored := stored_registerAll fresh (segment_remapped size c) c.indexTypes
    refine ⟨_, (run_resize hidle hopen size).trans (run_addIndexes (segment_remapped size c) h),
      fun t ht => ⟨⟨t, c.mappings⟩, rfl, held_registerAll h rfl rfl ht, ?_, ?_⟩⟩
    · rw [hstored]
      exact isSome_objectIn_registerAll (isSome_files_remapped size c) ht
    · rintro j x rfl hx
      obtain ⟨s, hs, hobject⟩ := objectIn_of_stored hx
      rw [hsegment s hs, ← objectIn_remapped size] at hobject
      rw [hstored]
      exact objectIn_registerAll hobject

end Chainbase

end NewsChain
