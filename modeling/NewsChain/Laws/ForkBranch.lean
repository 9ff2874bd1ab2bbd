import NewsChain.Chain.ForkDatabase

/-!
# Lines and branches of the fork database

An item's line is a chain of parents: each builds on the next. `fetchBranchFrom` walks two such
lines down to items with the same previous id; `Forked` says what it returns.
-/

namespace NewsChain

variable [Env]

namespace ForkItem

/-- `b` is what `a.prev` was set to. -/
def Follows (a b : ForkItem) : Prop := a.line = b.node :: b.line

variable {a b : ForkItem}

theorem Follows.buildsOn (h : a.Follows b) : a.node.BuildsOn b.node := by
  have := a.linked
  rw [h] at this
  exact (List.isChain_cons_cons.mp this).1

theorem Follows.previous (h : a.Follows b) : a.data.previous = b.id := h.buildsOn.2.1

theorem Follows.num (h : a.Follows b) : a.num = b.num + 1 := h.buildsOn.2.2

end ForkItem

/-- Along a line each item follows the next. -/
theorem itemsOf_follows {nodes : List ForkNode} (h : nodes.IsChain ForkNode.BuildsOn) :
    (itemsOf nodes h).IsChain ForkItem.Follows := by
  induction nodes with
  | nil => exact .nil
  | cons n ns ih =>
    cases ns with
    | nil => exact .singleton _
    | cons m ms => exact .cons_cons rfl (ih h.tail)

namespace ForkItem

variable (i : ForkItem)

theorem follows_chain : (i :: i.ancestors).IsChain Follows := by
  have := itemsOf_follows i.linked
  simpa [itemsOf, ancestors] using this

theorem ancestors_eq_nil : i.ancestors = [] ↔ i.line = [] := by
  obtain ⟨node, line, linked⟩ := i
  cases line <;> simp [ancestors, itemsOf]

/-- The ancestors are the parent and its ancestors. -/
theorem ancestors_eq_cons {p : ForkItem} {ps : List ForkItem} (h : i.ancestors = p :: ps) :
    i.Follows p ∧ ps = p.ancestors := by
  obtain ⟨node, line, linked⟩ := i
  cases line with
  | nil => cases h
  | cons n ns =>
    simp only [ancestors, itemsOf, List.cons.injEq] at h
    obtain ⟨rfl, rfl⟩ := h
    exact ⟨rfl, rfl⟩

theorem Follows.ancestors {a b : ForkItem} (h : a.Follows b) :
    a.ancestors = b :: b.ancestors := by
  obtain ⟨node, line, linked⟩ := a
  obtain rfl : line = b.node :: b.line := h
  rfl

/-- The blocks down a line are those of the item and its ancestors. -/
theorem map_data_ancestors : (i :: i.ancestors).map (·.data) = i.blocks := by
  obtain ⟨node, line, linked⟩ := i
  simp only [List.map_cons, blocks, ForkItem.data]
  congr 1
  induction line generalizing node with
  | nil => rfl
  | cons n ns ih => exact congrArg (n.data :: ·) (ih n linked.tail)

end ForkItem

namespace ForkDatabase

variable {fdb : ForkDatabase} {i p : ForkItem}

theorem lineage_prefix (fdb : ForkDatabase) (i : ForkItem) :
    fdb.lineage i <+: i :: i.ancestors :=
  (List.cons_prefix_cons.mpr ⟨rfl, List.takeWhile_prefix _⟩)

theorem lineage_follows (fdb : ForkDatabase) (i : ForkItem) :
    (fdb.lineage i).IsChain ForkItem.Follows := i.follows_chain.prefix (fdb.lineage_prefix i)

/-- The line of a child is the child over the line of its parent, as long as that is owned. -/
theorem lineage_of_follows (h : i.Follows p) :
    fdb.lineage i = i :: if fdb.owns p.ptr then fdb.lineage p else [] := by
  simp only [lineage, h.ancestors, List.takeWhile_cons]

/-! ## Walking two lines down -/

/-- `descend` cuts a list at the first item that is not above the number. -/
theorem descend_eq_ok {assertion : String} {num : Nat} {items branch rest branch' : List ForkItem}
    (h : descend assertion num items branch = .ok (rest, branch')) :
    ∃ above next below, items = above ++ rest ∧ branch' = above.reverse ++ branch ∧
      rest = next :: below ∧ next.num ≤ num ∧ ∀ i ∈ above, num < i.num := by
  induction items generalizing branch with
  | nil => cases h
  | cons i items ih =>
    simp only [descend] at h
    split at h
    · rename_i hlt
      obtain ⟨above, next, below, rfl, rfl, hrest, hnext, habove⟩ := ih h
      refine ⟨i :: above, next, below, rfl, by simp, hrest, hnext, fun j hj => ?_⟩
      rcases List.mem_cons.mp hj with rfl | hj
      · exact hlt
      · exact habove j hj
    · rename_i hle
      cases h
      exact ⟨[], i, items, rfl, rfl, rfl, Nat.le_of_not_lt hle, by simp⟩

/-- `meet` goes down both lists in step, to the first items with the same previous id. -/
theorem meet_eq_ok {fs ss first second : List ForkItem} {a b : Branch}
    (h : meet fs ss first second = .ok (a, b)) :
    ∃ fpre spre frest srest, fs = fpre ++ a.back :: frest ∧ ss = spre ++ b.back :: srest ∧
      a.rest = fpre.reverse ++ first ∧ b.rest = spre.reverse ++ second ∧
      a.back.data.previous = b.back.data.previous ∧
      List.Forall₂ (fun x y : ForkItem => x.data.previous ≠ y.data.previous) fpre spre := by
  induction fs generalizing ss first second with
  | nil => cases h
  | cons f fs ih =>
    cases ss with
    | nil => cases h
    | cons s ss =>
      simp only [meet] at h
      split at h
      · rename_i hne
        obtain ⟨fpre, spre, frest, srest, rfl, rfl, ha, hb, hsame, hpre⟩ := ih h
        exact ⟨f :: fpre, s :: spre, frest, srest, rfl, rfl, by simp [ha], by simp [hb], hsame,
          .cons hne hpre⟩
      · rename_i heq
        cases h
        exact ⟨[], [], fs, ss, rfl, rfl, rfl, rfl, not_not.mp heq, .nil⟩

/-- What `fetchBranchFrom` returns: the upper parts of the lines of the two items, down to the
first two of the same height with the same previous id. -/
structure Forked (fdb : ForkDatabase) (f s : ForkItem) (first second : Branch) : Prop where
  firstLine : ∃ below, fdb.lineage f = first.items.reverse ++ below
  secondLine : ∃ below, fdb.lineage s = second.items.reverse ++ below
  previous : first.back.data.previous = second.back.data.previous
  apart : s.num ≤ f.num → ∀ (k : Nat) (x y : ForkItem), first.rest[k]? = some x →
    second.rest[k]? = some y → x.data.previous ≠ y.data.previous

/-- The numbers down a line fall by one. -/
theorem num_of_follows {items : List ForkItem} (h : items.IsChain ForkItem.Follows) {k : Nat}
    {x y : ForkItem} (hx : items[0]? = some x) (hy : items[k]? = some y) : x.num = y.num + k := by
  induction k generalizing items x with
  | zero =>
    rw [hx] at hy
    cases hy
    rfl
  | succ k ih =>
    cases items with
    | nil => cases hx
    | cons i items =>
      cases hx
      cases items with
      | nil => cases hy
      | cons j items =>
        have hnum := (List.isChain_cons_cons.mp h).1.num
        have := ih h.tail rfl hy
        omega

theorem fetchBranchFrom_eq_ok {a b : BlockId} {first second : Branch}
    (h : fdb.fetchBranchFrom a b = .ok (first, second)) :
    ∃ f s, fdb.fetchBlock a = some f ∧ fdb.fetchBlock b = some s ∧
      fdb.Forked f s first second := by
  simp only [fetchBranchFrom] at h
  split at h
  · cases h
  rename_i f hf
  split at h
  · cases h
  rename_i s hs
  split at h
  · cases h
  rename_i fs firsts hdf
  split at h
  · cases h
  rename_i ss seconds hds
  obtain ⟨fabove, fnext, fbelow, hfl, hfirsts, hfs, hfnum, hfabove⟩ := descend_eq_ok hdf
  obtain ⟨sabove, snext, sbelow, hsl, hseconds, hss, hsnum, hsabove⟩ := descend_eq_ok hds
  obtain ⟨fpre, spre, frest, srest, hfs', hss', ha, hb, hsame, hpre⟩ := meet_eq_ok h
  refine ⟨f, s, hf, hs, ⟨frest, ?_⟩, ⟨srest, ?_⟩, hsame, ?_⟩
  · rw [hfl, hfs', Branch.items, ha, hfirsts]
    simp
  · rw [hsl, hss', Branch.items, hb, hseconds]
    simp
  · intro hle k x y hx hy
    -- The first walk stops no lower than the second item, so the second walk does not move.
    have hlevel : s.num ≤ fnext.num := by
      have hnext : (fdb.lineage f)[fabove.length]? = some fnext := by simp [hfl, hfs]
      have hfnum' := num_of_follows (fdb.lineage_follows f) rfl hnext
      rcases List.eq_nil_or_concat fabove with rfl | ⟨pre, last, rfl⟩
      · simpa [hfnum'] using hle
      · have hlast : (fdb.lineage f)[pre.length]? = some last := by simp [hfl]
        have hlast' := num_of_follows (fdb.lineage_follows f) rfl hlast
        have habove := hfabove last (by simp)
        simp only [List.concat_eq_append, List.length_append, List.length_singleton] at hfnum'
        omega
    have hstill : sabove = [] := by
      cases sabove with
      | nil => rfl
      | cons s' sabove =>
        have hs' : s = s' := by
          simp only [lineage, List.cons_append, List.cons.injEq] at hsl
          exact hsl.1
        have := hsabove s' List.mem_cons_self
        rw [hfs, List.headD_cons, ← hs'] at this
        omega
    rw [hseconds, hstill, List.reverse_nil, List.append_nil, List.append_nil] at hb
    rw [ha, hfirsts] at hx
    rw [hb] at hy
    obtain ⟨hks, hy⟩ := List.getElem?_eq_some_iff.mp hy
    have hrev := List.rel_reverse hpre
    have hkf : k < fpre.reverse.length := hrev.length_eq ▸ hks
    rw [List.getElem?_append_left hkf] at hx
    obtain ⟨hkf, hx⟩ := List.getElem?_eq_some_iff.mp hx
    have := hrev.get hkf hks
    simpa only [List.get_eq_getElem, hx, hy] using this

/-! ## Branches -/

/-- The items of a branch, from its back up, each following the one before. -/
theorem climbs_of_line {br : Branch} (h : ∃ below, fdb.lineage i = br.items.reverse ++ below) :
    br.items.IsChain fun a b => b.Follows a := by
  obtain ⟨below, h⟩ := h
  have hchain := fdb.lineage_follows i
  rw [h] at hchain
  exact List.isChain_reverse.mp <| hchain.prefix ⟨below, rfl⟩

theorem front_of_line {br : Branch} (h : ∃ below, fdb.lineage i = br.items.reverse ++ below) :
    br.front = i := by
  obtain ⟨below, h⟩ := h
  have hhead : (fdb.lineage i).head? = some i := rfl
  rw [h, List.head?_append_of_ne_nil _ (by simp [Branch.items]), List.head?_reverse] at hhead
  exact (List.getLast_eq_iff_getLast?_eq_some (List.cons_ne_nil _ _)).mpr hhead

/-- The blocks of a branch are the uppermost of the line it was cut from. -/
theorem data_of_line {br : Branch} (h : ∃ below, fdb.lineage i = br.items.reverse ++ below) :
    br.items.map (·.data) = (i.blocks.take br.items.length).reverse := by
  obtain ⟨below, h⟩ := h
  obtain ⟨rest, hrest⟩ := fdb.lineage_prefix i
  have hprefix : (br.items.map (·.data)).reverse <+: i.blocks := by
    rw [← ForkItem.map_data_ancestors, ← List.map_reverse]
    refine List.IsPrefix.map _ ⟨below ++ rest, ?_⟩
    rw [← hrest, h, List.append_assoc]
  have htake := List.prefix_iff_eq_take.mp hprefix
  rw [List.length_reverse, List.length_map] at htake
  rw [← htake, List.reverse_reverse]

theorem data_getElem_of_line {br : Branch} (h : ∃ below, fdb.lineage i = br.items.reverse ++ below)
    {k : Nat} (hk : k < br.items.length) :
    (br.items.map (·.data))[k]? = i.blocks[br.items.length - 1 - k]? := by
  have hdata := data_of_line h
  have hlength := congrArg List.length hdata
  rw [List.length_map, List.length_reverse] at hlength
  rw [hdata, List.getElem?_reverse (by omega), ← hlength, List.getElem?_take_of_lt (by omega)]

end ForkDatabase

/-- Each block of a list builds on the one before it. -/
def Climbs (blocks : List SignedBlock) : Prop := blocks.IsChain fun a b => b.previous = a.id

theorem Branch.climbs {fdb : ForkDatabase} {i : ForkItem} {br : Branch}
    (h : ∃ below, fdb.lineage i = br.items.reverse ++ below) :
    Climbs (br.items.map (·.data)) := by
  unfold Climbs
  rw [List.isChain_map]
  exact (ForkDatabase.climbs_of_line h).imp fun _ _ h => h.previous

namespace ForkDatabase

variable {fdb : ForkDatabase} {i p : ForkItem}

/-! ## Pushing -/

/-- The item `push_block` makes of a block it accepts: under a new address, at the top of the line
of its parent, recent enough for the head. -/
structure Linked (fdb : ForkDatabase) (b : SignedBlock) (item : ForkItem) : Prop where
  ptr : item.ptr = fdb.nextPtr
  data : item.data = b
  line : item.line = [] ∧ (fdb.head = none ∨ b.previous = .null) ∨
    ∃ p, fdb.fetchBlock b.previous = some p ∧ item.Follows p
  recent : ∀ head, fdb.head = some head → head.num - fdb.maxSize < b.blockNum

theorem link_eq_ok {b : SignedBlock} {item : ForkItem} (h : fdb.link b = .ok item) :
    fdb.Linked b item := by
  unfold link at h
  split at h
  · rename_i hhead
    cases h
    exact ⟨rfl, rfl, .inl ⟨rfl, .inl hhead⟩, fun _ h => by rw [hhead] at h; cases h⟩
  · rename_i head hhead
    split at h
    · rename_i hnum
      have hrecent : ∀ head, fdb.head = some head → head.num - fdb.maxSize < b.blockNum :=
        fun _ h => by
          rw [hhead] at h
          cases h
          exact hnum
      split at h
      · rename_i hnull
        cases h
        exact ⟨rfl, rfl, .inl ⟨rfl, .inr hnull⟩, hrecent⟩
      · rename_i hnull
        split at h
        · cases h
        · rename_i p hp
          cases h
          exact ⟨rfl, rfl, .inr ⟨p, hp, rfl⟩, hrecent⟩
    · cases h

/-- The database after an item was pushed. -/
def pushed (fdb : ForkDatabase) (item : ForkItem) : ForkDatabase :=
  { fdb.insert item with head := some (fdb.raisedHead item), nextPtr := fdb.nextPtr + 1 }

theorem pushBlock_eq_ok {b : SignedBlock} {newBlock : ForkItem} {fdb' : ForkDatabase} :
    fdb.pushBlock b = .ok (newBlock, fdb') ↔
      ∃ item, fdb.link b = .ok item ∧ newBlock = fdb.raisedHead item ∧ fdb' = fdb.pushed item := by
  unfold pushBlock
  split
  · rename_i e he
    simp [he]
  · rename_i item hitem
    constructor
    · intro h
      cases h
      exact ⟨item, hitem, rfl, rfl⟩
    · rintro ⟨item', hitem', rfl, rfl⟩
      rw [hitem] at hitem'
      cases hitem'
      rfl

/-- The head after a push is the new item or the old head. -/
theorem raisedHead_cases (fdb : ForkDatabase) (item : ForkItem) :
    (fdb.raisedHead item = item ∧ ∀ head, fdb.head = some head → head.num < item.num) ∨
      (fdb.head = some (fdb.raisedHead item) ∧ item.num ≤ (fdb.raisedHead item).num) := by
  unfold raisedHead
  split
  · rename_i h
    exact .inl ⟨rfl, fun _ h' => by rw [h] at h'; cases h'⟩
  · rename_i head h
    split
    · rename_i hlt
      exact .inl ⟨rfl, fun _ h' => by rw [h] at h'; cases h'; exact hlt⟩
    · rename_i hle
      exact .inr ⟨h, Nat.le_of_not_lt hle⟩

end ForkDatabase

end NewsChain
