import Mathlib.Data.List.Chain
import NewsChain.Base.Exception
import NewsChain.Base.Types

/-!
# The fork database

`fork_database` keeps the blocks of every fork, each under its header id. Its items are shared:
the index, the head and local variables own them, and an item only points weakly at the one it
builds on.

An item never changes once `_push_block` has linked it. So a weak pointer is modelled by what it
points at, and an item carries the whole line of nodes its pointers lead to, each with the address
it was given. Whether a pointer still locks is asked of the database: `owns` says that somebody
owns an item at that address. That every node of a line builds on the next is a field.
-/

namespace NewsChain

/-- A `fork_item` object: its address and its block. -/
structure ForkNode where
  ptr : Nat
  data : SignedBlock
deriving DecidableEq

variable [Env]

/-- `prev` of `a` may point at `b`. -/
def ForkNode.BuildsOn (a b : ForkNode) : Prop :=
  a.data.previous ≠ .null ∧ a.data.previous = b.data.id ∧ a.data.blockNum = b.data.blockNum + 1

/-- A `fork_item` with the items its `prev` pointers lead to, nearest first. -/
@[ext] structure ForkItem where
  node : ForkNode
  line : List ForkNode
  linked : (node :: line).IsChain ForkNode.BuildsOn

/-- The items along a line. -/
def itemsOf : (nodes : List ForkNode) → nodes.IsChain ForkNode.BuildsOn → List ForkItem
  | [], _ => []
  | n :: ns, h => ⟨n, ns, h⟩ :: itemsOf ns h.tail

namespace ForkItem

def ptr (i : ForkItem) : Nat := i.node.ptr
def data (i : ForkItem) : SignedBlock := i.node.data
def num (i : ForkItem) : Nat := i.data.blockNum
def id (i : ForkItem) : BlockId := i.data.id

/-- The items `prev` leads to, nearest first. -/
def ancestors (i : ForkItem) : List ForkItem := itemsOf i.line i.linked.tail

/-- The blocks from the item down its line. -/
def blocks (i : ForkItem) : List SignedBlock := i.data :: i.line.map (·.data)

end ForkItem

/-- A block that follows its parent, wherever its number did not wrap around to zero. -/
theorem blockNum_of_previous {b p : SignedBlock} (h : b.previous = p.id) (hb : 0 < b.blockNum) :
    b.blockNum = p.blockNum + 1 := by
  have hlt := p.blockNum_lt
  simp only [BlockHeader.blockNum, h, numFromId_id] at hb ⊢
  simp only [BlockHeader.blockNum] at hb hlt ⊢
  omega

omit [Env] in
theorem noIds_nodup : ([] : List BlockId).Nodup := .nil

/-- `fork_database`. `held` are the items that local variables of the running call own. The block
ids of the index are unique. -/
structure ForkDatabase where
  index : List ForkItem := []
  unique : (index.map (·.id)).Nodup := by exact noIds_nodup
  head : Option ForkItem := none
  maxSize : Nat := 1024
  held : List ForkItem := []
  nextPtr : Nat := 0

/-- A `branch_type`, from its `back()` on: the order of `rbegin()` to `rend()`. -/
structure Branch where
  back : ForkItem
  rest : List ForkItem

namespace Branch

def items (br : Branch) : List ForkItem := br.back :: br.rest

/-- `front()`. -/
def front (br : Branch) : ForkItem := br.items.getLast (List.cons_ne_nil _ _)

end Branch

namespace ForkDatabase

variable (fdb : ForkDatabase)

/-- Somebody owns an item at this address. -/
def owns (ptr : Nat) : Bool := (fdb.index ++ fdb.head.toList ++ fdb.held).any (·.ptr == ptr)

/-- The values `next` takes under `next = next->prev.lock()`, up to the null it ends in. -/
def lineage (i : ForkItem) : List ForkItem := i :: i.ancestors.takeWhile fun p => fdb.owns p.ptr

/-- `_index.get<block_id>().find( id )`, and `fetch_block`. -/
def fetchBlock (id : BlockId) : Option ForkItem := fdb.index.find? (·.id == id)

/-- The item `push_block` makes of a block, linked as `_push_block` links it. -/
def link (b : SignedBlock) : Except Exc ForkItem :=
  match fdb.head with
  | none => .ok ⟨⟨fdb.nextPtr, b⟩, [], .singleton _⟩
  | some head =>
    if hnum : head.num - fdb.maxSize < b.blockNum then
      if hnull : b.previous = .null then .ok ⟨⟨fdb.nextPtr, b⟩, [], .singleton _⟩
      else
        match hfind : fdb.fetchBlock b.previous with
        | none => .error (.unlinkableBlock "block does not link to known chain")
        | some parent =>
          .ok ⟨⟨fdb.nextPtr, b⟩, parent.node :: parent.line,
            .cons_cons
              (have hid : b.previous = parent.id := by
                have := List.find?_some hfind
                exact (beq_iff_eq.mp this).symm
              ⟨hnull, hid, blockNum_of_previous hid (Nat.zero_lt_of_lt hnum)⟩)
              parent.linked⟩
    else .error (.assertion "attempting to push a block that is too old")

/-- `_index.insert( item )`: dropped when the id is already there. -/
def insert (i : ForkItem) : ForkDatabase :=
  if h : i.id ∈ fdb.index.map (·.id) then fdb
  else
    { fdb with
      index := fdb.index ++ [i]
      unique := by
        rw [List.map_append, List.nodup_append]
        refine ⟨fdb.unique, by simp, ?_⟩
        intro a ha b hb hab
        obtain rfl := List.mem_singleton.mp hb
        exact h (by simpa only [hab] using ha) }

/-- The head after an item is pushed: `if( !_head || item->num > _head->num ) _head = item`. -/
def raisedHead (i : ForkItem) : ForkItem :=
  match fdb.head with
  | none => i
  | some head => if head.num < i.num then i else head

/-- `push_block`: the head afterwards, and the database. -/
def pushBlock (b : SignedBlock) : Except Exc (ForkItem × ForkDatabase) :=
  match fdb.link b with
  | .error e => .error e
  | .ok item =>
    let head := fdb.raisedHead item
    .ok (head, { fdb.insert item with head := some head, nextPtr := fdb.nextPtr + 1 })

/-- `pop_block`. -/
def popBlock : Except Exc ForkDatabase :=
  match fdb.head with
  | none => .error (.assertion "cannot pop an empty fork database")
  | some head =>
    match fdb.lineage head with
    | _ :: prev :: _ => .ok { fdb with head := some prev }
    | _ => .error (.assertion "popping head block would leave fork DB empty")

/-- `set_head`. -/
def setHead (i : ForkItem) : ForkDatabase := { fdb with head := some i }

/-- Local variables that own items. -/
def hold (items : List ForkItem) : ForkDatabase := { fdb with held := items }

/-- The index with the items that fail a test taken out. -/
def keep (p : ForkItem → Bool) : ForkDatabase :=
  { fdb with
    index := fdb.index.filter p
    unique := fdb.unique.sublist (List.filter_sublist.map _) }

/-- `remove`. -/
def remove (id : BlockId) : ForkDatabase := fdb.keep (·.id != id)

/-- `set_max_size`: the index is ordered by number, so its loop takes out all that are too old. -/
def setMaxSize (s : Nat) : ForkDatabase :=
  match fdb.head with
  | none => { fdb with maxSize := s }
  | some head => { fdb.keep (fun i => !(i.num < head.num - s : Bool)) with maxSize := s }

@[simp] theorem setHead_head (i : ForkItem) : (fdb.setHead i).head = some i := rfl
@[simp] theorem hold_head (items : List ForkItem) : (fdb.hold items).head = fdb.head := rfl

@[simp] theorem hold_maxSize (items : List ForkItem) : (fdb.hold items).maxSize = fdb.maxSize := rfl
@[simp] theorem keep_head (p : ForkItem → Bool) : (fdb.keep p).head = fdb.head := rfl
@[simp] theorem remove_head (id : BlockId) : (fdb.remove id).head = fdb.head := rfl

@[simp] theorem setMaxSize_head (s : Nat) : (fdb.setMaxSize s).head = fdb.head := by
  unfold setMaxSize
  split <;> rename_i h <;> simp [h]

@[simp] theorem setMaxSize_maxSize (s : Nat) : (fdb.setMaxSize s).maxSize = s := by
  unfold setMaxSize
  split <;> rfl

/-- `fetch_block_by_number`. -/
def fetchBlockByNumber (num : Nat) : List ForkItem := fdb.index.filter (·.num == num)

/-- The loop of `walk_main_branch_to_num`. -/
def walkTo (num : Nat) : List ForkItem → Option ForkItem
  | [] => none
  | next :: rest => if num < next.num then walkTo num rest else some next

/-- `walk_main_branch_to_num`. It is only called where the index, and so the head, is there. -/
def walkMainBranchToNum (num : Nat) : Option ForkItem :=
  match fdb.head with
  | none => none
  | some head => if head.num < num then none else walkTo num (fdb.lineage head)

/-- `fetch_block_on_main_branch_by_number`. -/
def fetchBlockOnMainBranchByNumber (num : Nat) : Option ForkItem :=
  match fdb.fetchBlockByNumber num with
  | [] => none
  | [i] => some i
  | _ => fdb.walkMainBranchToNum num

/-- One of the first two loops of `fetch_branch_from`: down to a number, collecting. Each asserts that
its own branch has not ended. -/
def descend (assertion : String) (num : Nat) :
    List ForkItem → List ForkItem → Except Exc (List ForkItem × List ForkItem)
  | [], _ => .error (.assertion assertion)
  | next :: rest, branch =>
    if num < next.num then descend assertion num rest (next :: branch)
    else .ok (next :: rest, branch)

/-- The last loop of `fetch_branch_from`: down both branches until the previous ids agree. -/
def meet : List ForkItem → List ForkItem → List ForkItem → List ForkItem →
    Except Exc (Branch × Branch)
  | [], _, _, _ => .error (.assertion "first_branch")
  | _, [], _, _ => .error (.assertion "second_branch")
  | f :: fs, s :: ss, first, second =>
    if f.data.previous ≠ s.data.previous then meet fs ss (f :: first) (s :: second)
    else .ok (⟨f, first⟩, ⟨s, second⟩)

/-- `fetch_branch_from`. -/
def fetchBranchFrom (first second : BlockId) : Except Exc (Branch × Branch) :=
  match fdb.fetchBlock first with
  | none => .error (.assertion "first_branch_itr != _index.get<block_id>().end()")
  | some f =>
    match fdb.fetchBlock second with
    | none => .error (.assertion "second_branch_itr != _index.get<block_id>().end()")
    | some s =>
      match descend "first_branch" s.num (fdb.lineage f) [] with
      | .error e => .error e
      | .ok (fs, firsts) =>
        match descend "second_branch" (fs.headD f).num (fdb.lineage s) [] with
        | .error e => .error e
        | .ok (ss, seconds) => meet fs ss firsts seconds

/-- `start_block`. -/
def startBlock (b : SignedBlock) : ForkDatabase :=
  let item : ForkItem := ⟨⟨fdb.nextPtr, b⟩, [], .singleton _⟩
  { fdb.insert item with head := some item, nextPtr := fdb.nextPtr + 1 }

end ForkDatabase

end NewsChain
