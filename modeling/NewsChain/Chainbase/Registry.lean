import NewsChain.Base.Exception

/-!
# The registries of chainbase

A chainbase database maps a file, `shared_memory.bin`, and keeps its objects in it under the names
of their types. Three members say what is registered: `_index_types` the types `add_index` was
called with, `_index_map` and `_index_list` the indexes into the mapped segment. `resize` maps the
file anew and registers `_index_types` again; `wipe` clears the other two.

A mapping has a number of its own, and an index belongs to the mapping it was made in: what it
refers to is gone when that mapping is (`Chainbase.stored`).

The file system does what it is asked, except that it makes no directory without a name, and the
segment has room for an index. `_flock`, the environment check and the sizes that `validate`
compares are those of one process and one build.
-/

namespace NewsChain

/-- A `MultiIndexType` of `add_index`, as the `type_id` and the name of its `value_type`. -/
structure IndexType where
  typeId : UInt16
  typeName : String
deriving DecidableEq, Repr

/-- `abstract_index`: the index of a type in the segment it was found in. -/
structure AbstractIndex where
  type : IndexType
  mapping : Nat
deriving DecidableEq, Repr

/-- `shared_memory.bin`: its size, and what it holds under each name. -/
structure SharedFile (Stored : Type) where
  size : UInt64
  objects : String → Option Stored := fun _ => none

/-- `_segment`: the number of the mapping, and the directory of the file. -/
structure Segment where
  mapping : Nat
  dir : String
deriving DecidableEq, Repr

/-- `chainbase::database` and the file system, with the two members of `chain::database` that
`check_free_memory` reads; an empty `dataDir` is `bfs::path()`. -/
structure Chainbase (Stored : Type) where
  files : String → Option (SharedFile Stored) := fun _ => none
  mappings : Nat := 0
  segment : Option Segment := none
  dataDir : String := ""
  fileSize : UInt64 := 0
  indexList : List AbstractIndex := []
  indexMap : List (Option AbstractIndex) := []
  indexTypes : List IndexType := []
  undoSessionCount : Nat := 0
  sharedFileFullThreshold : UInt16
  sharedFileScaleRate : UInt16

variable {Stored : Type}

abbrev ChainbaseM (Stored : Type) := EStateM Exc (Chainbase Stored)

namespace Chainbase

/-- `_index_map[ type_id ]`, null where the map is too short. -/
def indexAt (c : Chainbase Stored) (typeId : UInt16) : Option AbstractIndex :=
  (c.indexMap[typeId.toNat]?).join

/-- What the file of a directory holds under a name. -/
def objectIn (c : Chainbase Stored) (dir name : String) : Option Stored :=
  (c.files dir).bind (·.objects name)

/-- What an index refers to. -/
def stored (c : Chainbase Stored) (i : AbstractIndex) : Option Stored :=
  c.segment.bind fun s =>
    if s.mapping = i.mapping then c.objectIn s.dir i.type.typeName else none

/-- A file is put in the place of what a directory has. -/
def setFile (dir : String) (file : Option (SharedFile Stored)) (c : Chainbase Stored) :
    Chainbase Stored :=
  { c with files := fun d => if d = dir then file else c.files d }

/-- The file of a directory, made or grown to the size, is mapped. -/
def mapFile (dir : String) (sharedFileSize : UInt64) (c : Chainbase Stored) : Chainbase Stored :=
  let file : SharedFile Stored :=
    match c.files dir with
    | some file => { file with size := if file.size < sharedFileSize then sharedFileSize else file.size }
    | none => { size := sharedFileSize }
  { c.setFile dir (some file) with
    fileSize := file.size
    segment := some ⟨c.mappings, dir⟩
    mappings := c.mappings + 1 }

/-- `_segment->find_or_construct`. -/
def findOrConstruct (fresh : Stored) (name dir : String) (c : Chainbase Stored) :
    Chainbase Stored :=
  c.setFile dir <| (c.files dir).map fun file =>
    { file with
      objects := fun n => if n = name then some ((file.objects n).getD fresh) else file.objects n }

/-- The map, as long as the index needs it, and the list get an index. -/
def putIndex (i : AbstractIndex) (c : Chainbase Stored) : Chainbase Stored :=
  let id := i.type.typeId.toNat
  { c with
    indexMap := (c.indexMap.rightpad (id + 1) none).set id (some i)
    indexList := c.indexList ++ [i] }

/-- `_index_list.clear(); _index_map.clear()`. -/
def clearIndexes (c : Chainbase Stored) : Chainbase Stored :=
  { c with indexList := [], indexMap := [] }

end Chainbase

/-- `chainbase::database::close`. -/
def closeSegment : ChainbaseM Stored Unit :=
  modify fun c => { c with segment := none, dataDir := "" }

/-- `chainbase::database::open`. -/
def openSegment (dir : String) (sharedFileSize : UInt64) : ChainbaseM Stored Unit := do
  onlyIf (dir = "") do throw (.runtimeError "boost::filesystem::create_directories")
  onlyIf ((← get).dataDir ≠ dir) closeSegment
  modify fun c => { c with dataDir := dir }
  modify (·.mapFile dir sharedFileSize)

/-- `chainbase::database::wipe`. -/
def wipeSegment (dir : String) : ChainbaseM Stored Unit := do
  modify fun c => { c with segment := none }
  modify (·.setFile dir none)
  modify fun c => { c with dataDir := "" }
  modify (·.clearIndexes)

/-- `add_index_helper`. -/
def addIndexHelper (fresh : Stored) (type : IndexType) : ChainbaseM Stored Unit := do
  onlyIf (((← get).indexAt type.typeId).isSome) do
    throw (.logicError (type.typeName ++ "::type_id is already in use"))
  match (← get).segment with
  | none => throw (.undefinedBehavior "_segment->find_or_construct")
  | some s =>
    modify (·.findOrConstruct fresh type.typeName s.dir)
    modify (·.putIndex ⟨type, s.mapping⟩)

/-- `add_index`. -/
def addIndex (fresh : Stored) (type : IndexType) : ChainbaseM Stored Unit := do
  modify fun c => { c with indexTypes := c.indexTypes ++ [type] }
  addIndexHelper fresh type

/-- `resize`. -/
def resize (fresh : Stored) (newSharedFileSize : UInt64) : ChainbaseM Stored Unit := do
  onlyIf ((← get).undoSessionCount ≠ 0) do
    throw (.runtimeError "Cannot resize shared memory file while undo session is active")
  modify fun c => { c with segment := none }
  openSegment (← get).dataDir newSharedFileSize
  modify (·.clearIndexes)
  forM (← get).indexTypes (addIndexHelper fresh)

end NewsChain
