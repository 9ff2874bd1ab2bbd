import NewsChain.Laws.CatchUp
import NewsChain.Laws.PoppedQueue

/-!
# What a switch pops and removes

`removedByPush` and `poppedByPush` follow a call through its states. Where the fork database holds
the main chain and the undo stack reaches down to where the branches part, the branches say the same:
a switch pops the old branch, removes the new one from its first block that does not apply
(`Kept.removedByPush_switch`), and then pops again the blocks before that one
(`Kept.poppedByPush_switch`).
-/

namespace NewsChain

open ForkDatabase (Detached)

variable [Node]

variable {chain : List SignedBlock} {d : Database}

/-! ## Popping to a block -/

theorem length_itemsOf (nodes : List ForkNode) (h : nodes.IsChain ForkNode.BuildsOn) :
    (itemsOf nodes h).length = nodes.length := by
  induction nodes with
  | nil => rfl
  | cons n nodes ih => exact congrArg (· + 1) (ih h.tail)

theorem ForkItem.length_ancestors (i : ForkItem) : i.ancestors.length = i.line.length :=
  length_itemsOf i.line i.linked.tail

/-- What popping to a block takes off, from a chain that is some blocks shorter already. -/
theorem TakenBack.poppedUntil_eq (h : OnMain chain d) {top : ForkItem} {n j rounds : Nat}
    {x : Database} (hframes : n ≤ d.store.frames.length) (hway : WayDown chain d.forkDb top n)
    (hx : TakenBack chain d top j x) (hj : j ≤ n) (hrounds : n ≤ j + rounds) :
    poppedUntil (headIdOf (chain.drop n)) rounds x = (chain.take n).drop j := by
  have hcount := h.onChain.frames
  have hn : n ≤ chain.length := by omega
  induction rounds generalizing j x with
  | zero =>
    rw [poppedUntil, List.drop_eq_nil_of_le]
    rw [List.length_take]
    omega
  | succ rounds ih =>
    have hid : x.headBlockId = headIdOf (chain.drop j) := hx.main.onChain.headBlockId
    by_cases hend : j = n
    · rw [poppedUntil, hid, hend, if_pos rfl, List.drop_eq_nil_of_le]
      rw [List.length_take]
      omega
    · have hlt : j < n := Nat.lt_of_le_of_ne hj hend
      have hne : x.headBlockId ≠ headIdOf (chain.drop n) := by
        rw [hid]
        exact fun hsame => hend (h.onChain.headIdOf_inj (by omega) hn hsame)
      have hsnapshot : x.store.frames ≠ [] := by
        intro hnil
        have hcount' := hx.main.onChain.frames
        rw [hnil, hx.blockLog, List.length_drop, List.length_nil] at hcount'
        omega
      obtain ⟨x', hrun, hx'⟩ := hx.pop hway hlt hn hsnapshot
      have hrest := ih hx' hlt (by omega)
      have hfirst : chain[j] :: (chain.take n).drop (j + 1) = (chain.take n).drop j := by
        have hlt' : j < (chain.take n).length := by
          rw [List.length_take_of_le hn]
          exact hlt
        rw [List.drop_eq_getElem_cons hlt', List.getElem_take]
      rw [poppedUntil, if_neg hne, hx.fetches hway hlt (by omega), hrun, ← hfirst, ← hrest]

/-- **Popping to a block** takes the chain off down to it, where the way down is open. -/
theorem OnMain.poppedUntil_eq (h : OnMain chain d) {top : ForkItem}
    (hhead : d.forkDb.head = some top) {n : Nat} (hframes : n ≤ d.store.frames.length)
    (hway : WayDown chain d.forkDb top n) :
    poppedUntil (headIdOf (chain.drop n)) d.popRounds d = chain.take n := by
  have hrounds : n ≤ d.popRounds := by
    obtain ⟨i, hi, -⟩ := hway.owned n (Nat.le_refl n)
    obtain ⟨hlt, -⟩ := List.getElem?_eq_some_iff.mp hi
    rw [List.length_cons, ForkItem.length_ancestors] at hlt
    rw [Database.popRounds, hhead]
    exact Nat.le_of_lt hlt
  exact TakenBack.poppedUntil_eq h hframes hway (.zero h hhead) (Nat.zero_le n) (by omega)

/-! ## Applying a branch -/

section Branches

variable (old : Branch) {items front rest : List ForkItem} {i : ForkItem} {x y : Database}
  {skip : SkipFlags} {e : Exc}

theorem appliesUpTo_eq_length
    (hrun : (forM items fun i => applyInSession skipNothing i.data : DbM Unit).run d = .ok () x) :
    appliesUpTo d.store.content (items.map (·.data)) = items.length := by
  induction items generalizing d with
  | nil => rfl
  | cons t items ih =>
    rw [List.forM_cons] at hrun
    obtain ⟨_, d₁, happly, hrest⟩ := bind_eq_ok.mp hrun
    obtain ⟨r, o, hobjects, hstore⟩ := applyInSession_eq_ok happly
    have htail := ih hrest
    rw [hstore, Snapshots.put_content] at htail
    rw [List.map_cons, appliesUpTo, hobjects]
    simp only [htail, List.length_cons]

/-- A branch that applies removes and pops nothing. -/
theorem branch_applies
    (hrun : (forM items fun i => applyInSession skip i.data : DbM Unit).run d = .ok () x) :
    removedByBranch skip items d = [] ∧ poppedByBranch skip old items d = [] := by
  induction items generalizing d with
  | nil => exact ⟨rfl, rfl⟩
  | cons t items ih =>
    rw [List.forM_cons] at hrun
    obtain ⟨_, d₁, happly, hrest⟩ := bind_eq_ok.mp hrun
    rw [removedByBranch, poppedByBranch, happly]
    exact ih hrest

/-- A branch that fails at an item is removed from there up, and what had applied is popped. -/
theorem branch_fails
    (hfront : (forM front fun i => applyInSession skip i.data : DbM Unit).run d = .ok () x)
    (hi : (applyInSession skip i.data).run x = .error e y) :
    removedByBranch skip (front ++ i :: rest) d = (i :: rest).map (·.id) ∧
      poppedByBranch skip old (front ++ i :: rest) d =
        poppedUntil old.back.data.previous (y.restoring (i :: rest) old).popRounds
          (y.restoring (i :: rest) old) := by
  induction front generalizing d with
  | nil =>
    rw [List.forM_nil, EStateM.run_pure] at hfront
    cases hfront
    rw [List.nil_append, removedByBranch, poppedByBranch, hi]
    exact ⟨rfl, rfl⟩
  | cons t front ih =>
    rw [List.forM_cons] at hfront
    obtain ⟨_, d₁, happly, hrest⟩ := bind_eq_ok.mp hfront
    rw [List.cons_append, removedByBranch, poppedByBranch, happly]
    exact ih hrest

end Branches

/-! ## A switch -/

/-- The items of the new branch that a switch applies and pops again: those before the first one that
does not apply, and none where all of them apply. -/
def Database.retracted (d : Database) (first second : Branch) : List ForkItem :=
  if d.switchTakes first second < first.items.length then
    first.items.take (d.switchTakes first second)
  else []

section Switch

variable {pushed : List SignedBlock} {b : SignedBlock} {item top : ForkItem} {n : Nat}
  {first second : Branch}

/-- The blocks of the old branch are the ends of the chain. -/
theorem Parted.take_chain (h : Parted chain d item top n first second) :
    chain.take n = (second.items.map (·.data)).reverse := by
  have htake := take_mounted (chain.drop n) second.items
  rw [h.mounted_second, h.secondLength] at htake
  exact htake

/-- The call links the block in, on another branch that is higher than the chain, and the undo stack
reaches down to where the branches part. -/
structure Switches (chain : List SignedBlock) (d : Database) (b : SignedBlock) (item : ForkItem)
    (first second : Branch) : Prop where
  link : d.forkDb.link b = .ok item
  previous : b.previous ≠ headIdOf chain
  higher : chain.length < item.num
  fetch : (d.forkDb.pushed item).fetchBranchFrom item.id (headIdOf chain) = .ok (first, second)
  undoable : second.items.length ≤ d.store.frames.length

namespace Switches

/-- **Such a call pops the old branch**, and goes on with the new one from there. -/
theorem popped (hs : Switches chain d b item first second) (h : Kept pushed chain d) :
    ∃ top x, Parted chain d item top second.items.length first second ∧
      TakenBack chain (d.switching item first second) item second.items.length x ∧
      (popUntil second.back.data.previous (d.switching item first second).popRounds).run
        (d.switching item first second) = .ok () x := by
  have hitem := ForkDatabase.link_eq_ok hs.link
  obtain ⟨top, hparted⟩ := h.parted hitem hs.higher hs.fetch hs.undoable
  obtain ⟨x, hpop, hx⟩ := hparted.pops h (h.raises hs.higher)
  exact ⟨top, x, hparted, hx, hpop⟩

/-- The head of the fork database that such a call acts on. -/
theorem newHead (hs : Switches chain d b item first second) (h : Kept pushed chain d) :
    d.forkDb.pushBlock b = .ok (item, d.forkDb.pushed item) ∧
      item.data.previous ≠ d.headBlockId ∧ d.headBlockNum < item.num := by
  have hid : d.headBlockId = headIdOf chain := h.headBlockId
  have hpush := ForkDatabase.pushBlock_eq_ok.mpr ⟨item, hs.link, rfl, rfl⟩
  rw [h.raises hs.higher] at hpush
  refine ⟨hpush, ?_, ?_⟩
  · rw [(ForkDatabase.link_eq_ok hs.link).data, hid]
    exact hs.previous
  · rw [h.headBlockNum]
    exact hs.higher

theorem run_switchForks (hs : Switches chain d b item first second) (h : Kept pushed chain d)
    {x : Database}
    (hpop : (popUntil second.back.data.previous (d.switching item first second).popRounds).run
      (d.switching item first second) = .ok () x) :
    (switchForks skipNothing item).run { d with forkDb := d.forkDb.pushed item } =
      (applyBranch skipNothing second first.items).run x := by
  have hid : Database.headBlockId { d with forkDb := d.forkDb.pushed item } = headIdOf chain :=
    h.headBlockId
  have hstart : ({ d with forkDb := (d.forkDb.pushed item).hold (first.items ++ second.items) } :
      Database) = d.switching item first second := rfl
  rw [NewsChain.run_switchForks, hid]
  simp only [hs.fetch, hstart, hpop]

/-- What is removed and popped, once the old branch is popped. -/
theorem effects (hs : Switches chain d b item first second) (h : Kept pushed chain d) :
    ∃ top x, Parted chain d item top second.items.length first second ∧
      TakenBack chain (d.switching item first second) item second.items.length x ∧
      removedByPush skipNothing b d = removedByBranch skipNothing first.items x ∧
      poppedByPush skipNothing b d = (second.items.map (·.data)).reverse ++
        poppedByBranch skipNothing second first.items x := by
  obtain ⟨top, x, hparted, hx, hpop⟩ := hs.popped h
  obtain ⟨hpush, hbuilds, hhigher⟩ := hs.newHead h
  have hmain : OnMain chain (d.switching item first second) :=
    ⟨h.main.settled, h.main.onChain, h.main.logged⟩
  have hpopped := hmain.poppedUntil_eq (congrArg some (h.raises hs.higher)) hparted.undoable
    (hparted.wayDown h)
  rw [hparted.take_chain, ← hparted.secondTops.previous] at hpopped
  have hid : Database.headBlockId { d with forkDb := d.forkDb.pushed item } = headIdOf chain :=
    h.headBlockId
  have hstart : ({ d with forkDb := (d.forkDb.pushed item).hold (first.items ++ second.items) } :
      Database) = d.switching item first second := rfl
  refine ⟨top, x, hparted, hx, ?_, ?_⟩
  · rw [removedByPush, if_neg (by decide), hpush]
    simp only [if_pos hbuilds, if_pos hhigher]
    rw [removedBySwitch, hid]
    simp only [hs.fetch, hstart, hpop]
  · rw [poppedByPush, if_neg (by decide), hpush]
    simp only [if_pos (And.intro hbuilds hhigher)]
    rw [poppedBySwitch, hid]
    simp only [hs.fetch, hstart, hpop, hpopped]

/-- Either the whole of the new branch applies, or it fails at one of its items. -/
theorem applies_or_fails (hs : Switches chain d b item first second) (h : Kept pushed chain d)
    {x : Database} (hparted : Parted chain d item top second.items.length first second)
    (hx : TakenBack chain (d.switching item first second) item second.items.length x) :
    ((∃ y, (forM first.items fun i => applyInSession skipNothing i.data : DbM Unit).run x =
        .ok () y) ∧ d.switchTakes first second = first.items.length) ∨
      ∃ front i rest, first.items = front ++ i :: rest ∧
        d.switchTakes first second = front.length ∧
        ∃ x₁ e y, (forM front fun i => applyInSession skipNothing i.data : DbM Unit).run x =
            .ok () x₁ ∧ (applyInSession skipNothing i.data).run x₁ = .error e y ∧
          y.forkDb = x₁.forkDb ∧ Parted.Fails chain d item second.items.length first front y := by
  have hitem := ForkDatabase.link_eq_ok hs.link
  cases hrun : (applyBranch skipNothing second first.items).run x with
  | ok answer y =>
    obtain ⟨-, hitems⟩ := applyBranch_eq_ok hrun
    refine .inl ⟨⟨y, hitems⟩, ?_⟩
    have hstore : x.store = Snapshots.undo^[second.items.length] d.store := by
      refine hx.main.onChain.store_eq (h.main.onChain.undos hparted.undoable).1 ?_
      rw [hx.blockLog]
      rfl
    have hlength := appliesUpTo_eq_length hitems
    rw [hstore] at hlength
    exact hlength
  | error e y =>
    obtain ⟨front, i, rest, e', y', hsplit, htakes, hy, -, x₁, hfront, hi, hfork⟩ :=
      hparted.fails h hitem hx hrun
    exact .inr ⟨front, i, rest, hsplit, htakes, x₁, e', y', hfront, hi, hfork, hy⟩

end Switches

/-- **What a switch removes**: the new branch from its first block that does not apply. -/
theorem Kept.removedByPush_switch (h : Kept pushed chain d)
    (hs : Switches chain d b item first second) :
    removedByPush skipNothing b d =
      (first.items.drop (d.switchTakes first second)).map (·.id) := by
  obtain ⟨top, x, hparted, hx, hremoved, -⟩ := hs.effects h
  rw [hremoved]
  rcases hs.applies_or_fails h hparted hx with
    ⟨⟨y, hitems⟩, htakes⟩ | ⟨front, i, rest, hsplit, htakes, x₁, e, y, hfront, hi, -⟩
  · rw [(branch_applies second hitems).1, htakes, List.drop_length]
    rfl
  · rw [htakes, hsplit, List.drop_left, (branch_fails second hfront hi).1]

/-- **What a switch pops**: the old branch, and then what it applied of a new branch that fails, where
the removed items leave no child behind and there is an item to pop down to. -/
theorem Kept.poppedByPush_switch (h : Kept pushed chain d)
    (hs : Switches chain d b item first second)
    (hleaves : Detached (d.forkDb.pushed item).index
      ((first.items.drop (d.switchTakes first second)).map (·.id)))
    (hrooted : second.back.data.previous = .null →
      d.switchTakes first second ≠ second.items.length) :
    poppedByPush skipNothing b d = (second.items.map (·.data)).reverse ++
      ((d.retracted first second).map (·.data)).reverse := by
  have hitem := ForkDatabase.link_eq_ok hs.link
  obtain ⟨top, x, hparted, hx, -, hpopped⟩ := hs.effects h
  rw [hpopped, Database.retracted]
  congr 1
  rcases hs.applies_or_fails h hparted hx with
    ⟨⟨y, hitems⟩, htakes⟩ | ⟨front, i, rest, hsplit, htakes, x₁, e, y, hfront, hi, -, hy⟩
  · rw [if_neg (by omega), (branch_applies second hitems).2]
    rfl
  · rw [htakes] at hrooted
    rw [htakes, hsplit, List.drop_left] at hleaves
    obtain ⟨hmain, hframes, hway⟩ :=
      hparted.wayBack h hitem hs.previous hsplit hy hleaves hrooted
    have hback := hmain.poppedUntil_eq (hparted.restoring_head y (i :: rest)) hframes hway
    rw [drop_mounted, take_mounted, ← hparted.secondTops.previous] at hback
    rw [hsplit, htakes, (branch_fails second hfront hi).2, hback, List.take_left, if_pos]
    rw [List.length_append, List.length_cons]
    omega

/-! ## The conditions, said by the branches -/

/-- **A switch keeps the tree** where what it removes, the new branch from its first block that does
not apply, leaves no child behind. -/
theorem Kept.keepsTree_switch {start : Option ForkNode} (h : Kept pushed chain d)
    (hs : Switches chain d b item first second) :
    KeepsTree start skipNothing b d ↔
      (b.previous = .null → item.id ∉ d.forkDb.index.map (·.id) → d.forkDb.Whole start) ∧
        Detached (d.forkDb.pushed item).index
          ((first.items.drop (d.switchTakes first second)).map (·.id)) := by
  have hpush := ForkDatabase.pushBlock_eq_ok.mpr ⟨item, hs.link, rfl, rfl⟩
  have hindex : linkedIndex skipNothing b d = (d.forkDb.pushed item).index := by
    rw [linkedIndex, if_neg (by decide), hpush]
  rw [← h.removedByPush_switch hs, ← hindex]
  constructor
  · intro hkeeps
    exact ⟨fun hnull => hkeeps.root (by decide) hnull item hs.link, hkeeps.leaves⟩
  · rintro ⟨hroot, hleaves⟩
    refine ⟨fun _ hnull item' hlink => ?_, hleaves⟩
    rw [hs.link] at hlink
    cases hlink
    exact hroot hnull

/-- **A switch leaves the queue empty** exactly where it was empty and neither the old branch nor what
was applied of a new branch that fails has a transaction. -/
theorem Kept.offersOnce_switch (h : Kept pushed chain d.settled)
    (hs : Switches chain d.settled b item first second)
    (hleaves : Detached (d.settled.forkDb.pushed item).index
      ((first.items.drop (d.settled.switchTakes first second)).map (·.id)))
    (hrooted : second.back.data.previous = .null →
      d.settled.switchTakes first second ≠ second.items.length) :
    OffersOnce skipNothing b d ↔
      d.poppedTx = [] ∧ ∀ i ∈ second.items ++ d.settled.retracted first second,
        i.data.transactions = [] := by
  have hqueue := pushBlock_poppedTx skipNothing b d
  rw [h.poppedByPush_switch hs hleaves hrooted] at hqueue
  have hempty : (finalState ((pushBlock skipNothing b).run d)).poppedTx = [] ↔
      d.poppedTx = [] ∧ ∀ i ∈ second.items ++ d.settled.retracted first second,
        i.data.transactions = [] := by
    rw [hqueue, requeue_eq_nil_iff, ← List.reverse_append, ← List.map_append]
    simp only [List.mem_reverse, List.forall_mem_map, List.mem_append, or_comm]
  rw [← hempty]
  exact ⟨fun h => h.emptied, offersOnce_of_emptied⟩

end Switch

end NewsChain
