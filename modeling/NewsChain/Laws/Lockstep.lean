import NewsChain.Laws.RejectedBlocks
import NewsChain.Laws.SwitchEffects

/-!
# Two databases in step

Two nodes that took in the same blocks, but for copies with other transactions, keep fork databases
that are alike from a number on (`ForkDatabase.Alike`): the same lines of headers from there up, the
same blocks under all ids but those set apart, and heads with the same header. They may differ in the
addresses of their items and in what lies lower. Where they also have the same main chain, whatever a
call does to the one it does to the other (`InStep.step`), as long as no block that is set apart is
on a branch that is switched to.
-/

namespace NewsChain

open EStateM (Result)

section Forks

variable [Node]

/-- Copies of a block: the same header, and the same block unless the id is set apart. -/
structure Copies (apart : BlockId → Prop) (b b' : SignedBlock) : Prop where
  header : b.toSignedBlockHeader = b'.toSignedBlockHeader
  same : ¬ apart b.id → b = b'

/-- Items whose lines are copies of each other. -/
def SameLine (apart : BlockId → Prop) (i i' : ForkItem) : Prop :=
  List.Forall₂ (Copies apart) i.blocks i'.blocks

variable {apart : BlockId → Prop} {b b' : SignedBlock} {i i' a a' : ForkItem}

theorem Copies.refl (apart : BlockId → Prop) (b : SignedBlock) : Copies apart b b :=
  ⟨rfl, fun _ => rfl⟩

theorem Copies.id_eq (h : Copies apart b b') : b.id = b'.id :=
  congrArg SignedBlockHeader.id h.header

/-- Copies with no id set apart are the same blocks. -/
theorem eq_of_copies {blocks blocks' : List SignedBlock}
    (h : List.Forall₂ (Copies apart) blocks blocks') (hids : ∀ b ∈ blocks, ¬ apart b.id) :
    blocks = blocks' := by
  induction h with
  | nil => rfl
  | cons hcopy _ ih =>
    obtain ⟨hid, hids⟩ := List.forall_mem_cons.mp hids
    rw [hcopy.same hid, ih hids]

theorem Copies.symm (h : Copies apart b b') : Copies apart b' b :=
  ⟨h.header.symm, fun hid => (h.same (h.id_eq ▸ hid)).symm⟩

namespace SameLine

theorem of_blocks (apart : BlockId → Prop) (h : i.blocks = i'.blocks) : SameLine apart i i' := by
  rw [SameLine, h]
  exact List.forall₂_same.mpr fun b _ => .refl apart b

theorem symm (h : SameLine apart i i') : SameLine apart i' i :=
  (List.Forall₂.flip h).imp fun _ _ hc => hc.symm

theorem data (h : SameLine apart i i') : Copies apart i.data i'.data :=
  (List.forall₂_cons.mp h).1

theorem id_eq (h : SameLine apart i i') : i.id = i'.id := h.data.id_eq

theorem num_eq (h : SameLine apart i i') : i.num = i'.num :=
  congrArg (·.blockNum) h.data.header

theorem getElem {k : Nat} (h : SameLine apart i i') (hb : i.blocks[k]? = some b) :
    ∃ b', i'.blocks[k]? = some b' ∧ Copies apart b b' := by
  obtain ⟨hlt, rfl⟩ := List.getElem?_eq_some_iff.mp hb
  have hlt' : k < i'.blocks.length := h.length_eq ▸ hlt
  exact ⟨_, List.getElem?_eq_getElem hlt', h.get hlt hlt'⟩

/-- The ancestors at one depth. -/
theorem ancestor {k : Nat} (h : SameLine apart i i') (ha : (i :: i.ancestors)[k]? = some a)
    (ha' : (i' :: i'.ancestors)[k]? = some a') : SameLine apart a a' := by
  rw [SameLine, ForkItem.blocks_getElem ha, ForkItem.blocks_getElem ha']
  exact List.forall₂_drop k h

end SameLine

namespace ForkDatabase

/-- Each item from a number on has a copy. -/
def Covers (apart : BlockId → Prop) (low : Nat) (fdb fdb' : ForkDatabase) : Prop :=
  ∀ i ∈ fdb.index, low ≤ i.num → ∃ i' ∈ fdb'.index, SameLine apart i i'

/-- The same lines from a number on, but for copies, and heads with the same header. -/
structure Alike (apart : BlockId → Prop) (low : Nat) (fdb fdb' : ForkDatabase) : Prop where
  forth : Covers apart low fdb fdb'
  back : Covers apart low fdb' fdb
  head : fdb.head.map (·.data.toSignedBlockHeader) = fdb'.head.map (·.data.toSignedBlockHeader)

variable {low : Nat} {fdb fdb' : ForkDatabase} {item item' : ForkItem}

/-- The line of the item a block is linked in as. -/
theorem link_blocks (h : fdb.link b = .ok item) :
    (fdb.head = none ∨ b.previous = .null) ∧ item.blocks = [b] ∨
      fdb.head ≠ none ∧ b.previous ≠ .null ∧
        ∃ p, fdb.fetchBlock b.previous = some p ∧ item.blocks = b :: p.blocks := by
  unfold ForkDatabase.link at h
  split at h
  · rename_i hnone
    cases h
    exact .inl ⟨.inl hnone, rfl⟩
  · rename_i head hhead
    have hsome : fdb.head ≠ none := by
      rw [hhead]
      exact Option.some_ne_none head
    split at h
    · split at h
      · rename_i hnull
        cases h
        exact .inl ⟨.inr hnull, rfl⟩
      · rename_i hnull
        split at h
        · cases h
        · rename_i p hp
          cases h
          exact .inr ⟨hsome, hnull, p, hp, rfl⟩
    · cases h

theorem link_of_empty (hnone : fdb.head = none) : ∃ item, fdb.link b = .ok item := by
  unfold ForkDatabase.link
  split
  · exact ⟨_, rfl⟩
  · rename_i head hhead
    rw [hnone] at hhead
    cases hhead

theorem Covers.refl (apart : BlockId → Prop) (low : Nat) (fdb : ForkDatabase) :
    Covers apart low fdb fdb := fun i hi _ => ⟨i, hi, .of_blocks apart rfl⟩

theorem Covers.removeAll (h : Covers apart low fdb fdb') {items items' : List ForkItem}
    (hids : items.map (·.id) = items'.map (·.id)) :
    Covers apart low (fdb.removeAll items) (fdb'.removeAll items') := by
  intro i hi hlow
  obtain ⟨hmem, hid⟩ := mem_removeAll.mp hi
  obtain ⟨i', hmem', hline⟩ := h i hmem hlow
  rw [hids, hline.id_eq] at hid
  exact ⟨i', mem_removeAll.mpr ⟨hmem', hid⟩, hline⟩

theorem Covers.setMaxSize (h : Covers apart low fdb fdb')
    (hhead : fdb.head.map (·.data.toSignedBlockHeader) =
      fdb'.head.map (·.data.toSignedBlockHeader)) (size : Nat) :
    Covers apart low (fdb.setMaxSize size) (fdb'.setMaxSize size) := by
  intro i hi hlow
  obtain ⟨hmem, hrecent⟩ := mem_setMaxSize.mp hi
  obtain ⟨i', hmem', hline⟩ := h i hmem hlow
  refine ⟨i', mem_setMaxSize.mpr ⟨hmem', fun head' hhead' => ?_⟩, hline⟩
  rw [hhead', Option.map_some] at hhead
  obtain ⟨head, hsome, hsame⟩ := Option.map_eq_some_iff.mp hhead
  have hnum : head.num = head'.num := congrArg (·.blockNum) hsame
  rw [← hnum, ← hline.num_eq]
  exact hrecent head hsome

theorem Covers.pushed (h : Covers apart low fdb fdb') (hback : Covers apart low fdb' fdb)
    (hlow : low ≤ item.num) (hline : SameLine apart item item') :
    Covers apart low (fdb.pushed item) (fdb'.pushed item') := by
  intro i hi hilow
  rcases mem_insert.mp hi with hmem | ⟨rfl, hnew⟩
  · obtain ⟨i', hmem', hi'⟩ := h i hmem hilow
    exact ⟨i', mem_insert.mpr (.inl hmem'), hi'⟩
  · refine ⟨item', mem_insert.mpr (.inr ⟨rfl, fun hold => hnew ?_⟩), hline⟩
    obtain ⟨j', hj', hid⟩ := List.mem_map.mp hold
    have hid' : j'.id = i.id := hid.trans hline.id_eq.symm
    have hnum : j'.num = i.num := blockNum_eq_of_id_eq hid'
    obtain ⟨j, hj, hjline⟩ := hback j' hj' (by omega)
    exact List.mem_map.mpr ⟨j, hj, hjline.symm.id_eq.trans hid'⟩

namespace Alike

theorem refl (apart : BlockId → Prop) (low : Nat) (fdb : ForkDatabase) : Alike apart low fdb fdb :=
  ⟨.refl apart low fdb, .refl apart low fdb, rfl⟩

theorem symm (h : Alike apart low fdb fdb') : Alike apart low fdb' fdb :=
  ⟨h.back, h.forth, h.head.symm⟩

theorem hold (h : Alike apart low fdb fdb') (items items' : List ForkItem) :
    Alike apart low (fdb.hold items) (fdb'.hold items') := ⟨h.forth, h.back, h.head⟩

/-- Where one has a head, so has the other. -/
theorem head_some (h : Alike apart low fdb fdb') {head' : ForkItem}
    (hhead : fdb'.head = some head') : ∃ head, fdb.head = some head ∧
      head.data.toSignedBlockHeader = head'.data.toSignedBlockHeader := by
  have hsame := h.head
  rw [hhead, Option.map_some] at hsame
  exact Option.map_eq_some_iff.mp hsame

theorem head_none (h : Alike apart low fdb fdb') (hhead : fdb.head = none) : fdb'.head = none := by
  have hsame := h.head
  rw [hhead, Option.map_none] at hsame
  exact Option.map_eq_none_iff.mp hsame.symm

theorem setMaxSize (h : Alike apart low fdb fdb') (size : Nat) :
    Alike apart low (fdb.setMaxSize size) (fdb'.setMaxSize size) := by
  refine ⟨h.forth.setMaxSize h.head size, h.back.setMaxSize h.head.symm size, ?_⟩
  rw [setMaxSize_head, setMaxSize_head]
  exact h.head

theorem setHead (h : Alike apart low fdb fdb') (hline : SameLine apart i i') :
    Alike apart low (fdb.setHead i) (fdb'.setHead i') :=
  ⟨h.forth, h.back, congrArg some hline.data.header⟩

theorem removeAll (h : Alike apart low fdb fdb') {items items' : List ForkItem}
    (hids : items.map (·.id) = items'.map (·.id)) :
    Alike apart low (fdb.removeAll items) (fdb'.removeAll items') := by
  refine ⟨h.forth.removeAll hids, h.back.removeAll hids.symm, ?_⟩
  rw [removeAll_head, removeAll_head]
  exact h.head

/-- The head after a push. -/
theorem raisedHead (h : Alike apart low fdb fdb') (hline : SameLine apart item item') :
    (fdb.raisedHead item).data.toSignedBlockHeader =
      (fdb'.raisedHead item').data.toSignedBlockHeader := by
  cases hhead' : fdb'.head with
  | none =>
    simp only [ForkDatabase.raisedHead, hhead', h.symm.head_none hhead']
    exact hline.data.header
  | some head' =>
    obtain ⟨head, hhead, hsame⟩ := h.head_some hhead'
    have hnum : head.num = head'.num := congrArg (·.blockNum) hsame
    simp only [ForkDatabase.raisedHead, hhead, hhead', hnum, hline.num_eq]
    split
    · exact hline.data.header
    · exact hsame

/-- The item that is pushed. -/
theorem pushed (h : Alike apart low fdb fdb') (hlow : low ≤ item.num)
    (hline : SameLine apart item item') :
    Alike apart low (fdb.pushed item) (fdb'.pushed item') :=
  ⟨h.forth.pushed h.back hlow hline,
    h.back.pushed h.forth (hline.num_eq ▸ hlow) hline.symm, congrArg some (h.raisedHead hline)⟩

/-- **Linking.** What the one links in, the other does too, under a copy of the line. -/
theorem link (h : Alike apart low fdb fdb') (hsize : fdb.maxSize = fdb'.maxSize)
    (hcopy : Copies apart b b') (hlow : low ≤ numFromId b.previous)
    (hlink : fdb.link b = .ok item) :
    ∃ item', fdb'.link b' = .ok item' ∧ SameLine apart item item' := by
  have hprev : b'.previous = b.previous := congrArg (·.previous) hcopy.header.symm
  have hrecent : ∀ head', fdb'.head = some head' → head'.num - fdb'.maxSize < b'.blockNum := by
    intro head' hhead'
    obtain ⟨head, hhead, hsame⟩ := h.head_some hhead'
    have hnum : head.num = head'.num := congrArg (·.blockNum) hsame
    have hblockNum : b.blockNum = b'.blockNum := congrArg (·.blockNum) hcopy.header
    rw [← hnum, ← hsize, ← hblockNum]
    exact (link_eq_ok hlink).recent head hhead
  rcases link_blocks hlink with ⟨hroot, hblocks⟩ | ⟨hhead, hnull, p, hp, hblocks⟩
  · have hroot' : fdb'.head = none ∨ b'.previous = .null := hroot.imp h.head_none hprev.trans
    have hlink' : ∃ item', fdb'.link b' = .ok item' := by
      rcases hroot' with hnone | hnull
      · exact link_of_empty hnone
      · exact link_returns hrecent (.inl hnull)
    obtain ⟨item', hlink'⟩ := hlink'
    refine ⟨item', hlink', ?_⟩
    rcases link_blocks hlink' with ⟨-, hblocks'⟩ | ⟨hhead', hnull', -⟩
    · rw [SameLine, hblocks, hblocks']
      exact .cons hcopy .nil
    · exact absurd hroot' (not_or.mpr ⟨hhead', hnull'⟩)
  · obtain ⟨hmem, hid⟩ := fetchBlock_eq_some.mp hp
    have hpnum : p.num = numFromId b.previous := by
      rw [← hid]
      exact (numFromId_id p.data.toSignedBlockHeader).symm
    obtain ⟨p', hmem', hpline⟩ := h.forth p hmem (by omega)
    have hp' : fdb'.fetchBlock b'.previous = some p' :=
      fetchBlock_eq_some.mpr ⟨hmem', hpline.id_eq.symm.trans (hid.trans hprev.symm)⟩
    obtain ⟨item', hlink'⟩ := link_returns hrecent
      (.inr (by rw [hp']; exact Option.some_ne_none p'))
    refine ⟨item', hlink', ?_⟩
    rcases link_blocks hlink' with ⟨hroot', -⟩ | ⟨-, -, p₂, hp₂, hblocks'⟩
    · rcases hroot' with hnone | hnull'
      · exact absurd (h.symm.head_none hnone) hhead
      · exact absurd (hprev ▸ hnull') hnull
    · rw [hp'] at hp₂
      cases hp₂
      rw [SameLine, hblocks, hblocks']
      exact .cons hcopy hpline

end Alike

end ForkDatabase

end Forks

open ForkDatabase (Alike cacheDepth)

section Databases

variable [Node]

variable {apart : BlockId → Prop} {low : Nat} {pushed chain : List SignedBlock}
  {d d' x x' y y' : Database} {b : SignedBlock} {item item' top top' : ForkItem}
  {first second first' second' : Branch} {n n' : Nat}

/-- **The same blocks**, applied to the same objects, leave fork databases alike. -/
theorem ForkDatabase.Alike.applied (h : Alike apart low x.forkDb x'.forkDb)
    (hcontent : x.store.content = x'.store.content) {items items' : List ForkItem}
    (hsame : items.map (·.data) = items'.map (·.data))
    (hrun : (forM items fun i => applyInSession skipNothing i.data : DbM Unit).run x = .ok () y)
    (hrun' : (forM items' fun i => applyInSession skipNothing i.data : DbM Unit).run x' =
      .ok () y') :
    Alike apart low y.forkDb y'.forkDb ∧ y.store.content = y'.store.content := by
  induction items generalizing items' x x' with
  | nil =>
    obtain rfl : items' = [] := List.map_eq_nil_iff.mp hsame.symm
    rw [List.forM_nil, EStateM.run_pure] at hrun hrun'
    cases hrun
    cases hrun'
    exact ⟨h, hcontent⟩
  | cons i items ih =>
    cases items' with
    | nil => cases hsame
    | cons i' items' =>
      have hdata : i.data = i'.data := (List.cons.inj hsame).1
      have hrest := (List.cons.inj hsame).2
      rw [List.forM_cons] at hrun hrun'
      obtain ⟨_, x₁, happly, hrun⟩ := bind_eq_ok.mp hrun
      obtain ⟨_, x₁', happly', hrun'⟩ := bind_eq_ok.mp hrun'
      obtain ⟨_, o, hobjects, hstore⟩ := applyInSession_eq_ok happly
      obtain ⟨_, o', hobjects', hstore'⟩ := applyInSession_eq_ok happly'
      rw [hcontent, hdata, hobjects'] at hobjects
      cases hobjects
      have hcontent₁ : x₁.store.content = x₁'.store.content := by
        rw [hstore, hstore', Snapshots.put_content, Snapshots.put_content]
      have hgpo : x₁.gpo = x₁'.gpo := congrArg (·.gpo) hcontent₁
      refine ih ?_ hcontent₁ hrest hrun hrun'
      rw [forkDb_applyInSession happly, forkDb_applyInSession happly', hgpo]
      exact h.setMaxSize _

/-! ## Where branches part -/

namespace Parted

theorem firstItems (h : Parted chain d item top n first second) : first.items.length = n + 1 :=
  congrArg (· + 1) h.firstLength

/-- The line of the pushed item is its branch, over the chain from where the branches part. -/
theorem blocks_eq (h : Parted chain d item top n first second) :
    item.blocks = mounted (chain.drop n) first.items := by
  have htake := ForkDatabase.data_of_line h.forked.firstLine
  have hback := Kept.back_of_line h.forked.firstLine
  rw [h.firstLength] at hback
  have hdrop : item.blocks.drop (n + 1) = chain.drop n := by
    rw [← List.tail_drop, ← ForkItem.blocks_getElem hback, h.firstTops.blocks, List.tail_cons]
  rw [h.firstItems] at htake
  rw [mounted, htake, List.reverse_reverse, ← hdrop, List.take_append_drop]

/-- Where the branches part, their blocks have the same previous id. -/
theorem meets (h : Parted chain d item top n first second) :
    ∃ x y, item.blocks[n]? = some x ∧ chain[n - 1]? = some y ∧ x.previous = y.previous := by
  have hfirst := ForkItem.data_getElem (Kept.back_of_line h.forked.firstLine)
  have hsecond := ForkItem.data_getElem (Kept.back_of_line h.forked.secondLine)
  have hlength := h.secondLength
  rw [Branch.items, List.length_cons] at hlength
  have hrest : second.rest.length = n - 1 := by omega
  rw [h.firstLength] at hfirst
  rw [hrest, h.topBlocks] at hsecond
  exact ⟨_, _, hfirst, hsecond, h.forked.previous⟩

/-- Above that, they have not. -/
theorem previous_ne (h : Parted chain d item top n first second) {m : Nat} (hpos : 0 < m)
    (hlt : m < n) {x y : SignedBlock} (hx : item.blocks[m]? = some x)
    (hy : chain[m - 1]? = some y) : x.previous ≠ y.previous := by
  obtain ⟨k, hk⟩ : ∃ k, n - m = k + 1 := ⟨n - m - 1, by omega⟩
  have ha := ForkDatabase.data_getElem_of_line h.forked.firstLine (k := k + 1)
    (by rw [h.firstItems]; omega)
  have hc := ForkDatabase.data_getElem_of_line h.forked.secondLine (k := k + 1)
    (by rw [h.secondLength]; omega)
  have hm : n + 1 - 1 - (k + 1) = m := by omega
  have hm' : n - 1 - (k + 1) = m - 1 := by omega
  rw [h.firstItems, hm, hx, List.getElem?_map, Branch.items, List.getElem?_cons_succ] at ha
  rw [h.secondLength, hm', h.topBlocks, hy, List.getElem?_map, Branch.items,
    List.getElem?_cons_succ] at hc
  obtain ⟨a, harest, rfl⟩ := Option.map_eq_some_iff.mp ha
  obtain ⟨c, hcrest, rfl⟩ := Option.map_eq_some_iff.mp hc
  have hle : top.num ≤ item.num := by
    rw [h.topNum, h.num]
    omega
  exact h.forked.apart hle k a c harest hcrest

/-- **The headers say where the branches part.** -/
theorem depth_eq (h : Parted chain d item top n first second)
    (h' : Parted chain d' item' top' n' first' second') (hline : SameLine apart item item') :
    n = n' := by
  obtain ⟨x, y, hx, hy, hsame⟩ := h.meets
  obtain ⟨x', y', hx', hy', hsame'⟩ := h'.meets
  rcases Nat.lt_trichotomy n n' with hlt | heq | hlt
  · obtain ⟨z, hz, hcopy⟩ := hline.getElem hx
    have hprev : x.previous = z.previous := congrArg (·.previous) hcopy.header
    exact absurd (hprev ▸ hsame) (h'.previous_ne h.pos hlt hz hy)
  · exact heq
  · obtain ⟨z, hz, hcopy⟩ := hline.symm.getElem hx'
    have hprev : x'.previous = z.previous := congrArg (·.previous) hcopy.header
    exact absurd (hprev ▸ hsame') (h.previous_ne h'.pos hlt hz hy')

/-- The same blocks, where no id of theirs is set apart. -/
theorem first_data (h : Parted chain d item top n first second)
    (h' : Parted chain d' item' top' n first' second') (hline : SameLine apart item item')
    (havoids : ∀ i ∈ first.items, ¬ apart i.id) :
    first.items.map (·.data) = first'.items.map (·.data) := by
  have htake := ForkDatabase.data_of_line h.forked.firstLine
  have hcopies := List.forall₂_take (n + 1) hline
  rw [h.firstItems] at htake
  rw [htake, ForkDatabase.data_of_line h'.forked.firstLine, h'.firstItems]
  refine congrArg List.reverse (eq_of_copies hcopies fun c hc => ?_)
  rw [← List.mem_reverse, ← htake] at hc
  obtain ⟨i, hi, rfl⟩ := List.mem_map.mp hc
  exact havoids i hi

end Parted

/-! ## How a switch ends -/

theorem run_applyBranch_ok {skip : SkipFlags} {old : Branch} {items : List ForkItem}
    (h : (forM items fun i => applyInSession skip i.data : DbM Unit).run d = .ok () d') :
    (applyBranch skip old items).run d = .ok true d' := by
  induction items generalizing d with
  | nil =>
    rw [List.forM_nil, EStateM.run_pure] at h
    cases h
    rfl
  | cons i items ih =>
    rw [List.forM_cons] at h
    obtain ⟨_, d₁, happly, hrest⟩ := bind_eq_ok.mp h
    rw [run_applyBranch_cons, happly]
    exact ih hrest

theorem run_applyBranch_error {skip : SkipFlags} {old : Branch} {front rest : List ForkItem}
    {i : ForkItem} {e : Exc}
    (hfront : (forM front fun i => applyInSession skip i.data : DbM Unit).run d = .ok () x)
    (hi : (applyInSession skip i.data).run x = .error e y) :
    (applyBranch skip old (front ++ i :: rest)).run d = (restoreBranch skip (i :: rest) old e).run y := by
  induction front generalizing d with
  | nil =>
    rw [List.forM_nil, EStateM.run_pure] at hfront
    cases hfront
    rw [List.nil_append, run_applyBranch_cons, hi]
  | cons t front ih =>
    rw [List.forM_cons] at hfront
    obtain ⟨_, d₁, happly, hrest⟩ := bind_eq_ok.mp hfront
    rw [List.cons_append, run_applyBranch_cons, happly]
    exact ih hrest

/-- A switch that is carried through, from where the branches part. -/
structure GoesOver (d : Database) (b : SignedBlock) (item : ForkItem) (first second : Branch)
    (x y : Database) : Prop where
  takes : d.switchTakes first second = first.items.length
  applied : (forM first.items fun i => applyInSession skipNothing i.data : DbM Unit).run x = .ok () y
  kept : ∃ pushed, Kept pushed item.blocks y
  sized : y.forkDb.maxSize = NewsChain.forkWindow y.gpo
  after : d.afterBlock b = { y with forkDb := y.forkDb.hold [] }

/-- The way back of a switch that fails: the items that are applied before the failing one, and those
from there on; and the databases when it fails, when what was applied is popped, and at the end. -/
structure Retreat where
  front : List ForkItem
  failing : ForkItem
  rest : List ForkItem
  failed : Database
  popped : Database
  back : Database

/-- The items that are removed. -/
def Retreat.removed (r : Retreat) : List ForkItem := r.failing :: r.rest

/-- A switch that fails, from where the branches part, and gets back to the old branch. -/
structure GetsBack (chain : List SignedBlock) (d : Database) (b : SignedBlock) (item top : ForkItem)
    (first second : Branch) (x : Database) (r : Retreat) : Prop where
  split : first.items = r.front ++ r.removed
  takes : d.switchTakes first second = r.front.length
  applied : ∃ x₁, (forM r.front fun i => applyInSession skipNothing i.data : DbM Unit).run x =
    .ok () x₁ ∧ r.failed.forkDb = x₁.forkDb
  logs : r.failed.blockLog.blocks.length = d.blockLog.blocks.length
  recovers : Parted.Recovers chain top second.items.length r.front.length second
    (r.failed.restoring r.removed second) r.popped r.back
  kept : ∃ pushed, Kept pushed chain r.back
  sized : r.back.forkDb.maxSize = NewsChain.forkWindow r.back.gpo
  gone : ∀ g ∈ r.back.forkDb.index, g.id ∉ r.removed.map (·.id)
  keeps : ∀ g ∈ (d.forkDb.pushed item).index, g.id ∉ r.removed.map (·.id) →
    chain.length - cacheDepth ≤ g.num → g ∈ r.back.forkDb.index
  after : d.afterBlock b = { r.back with forkDb := r.back.forkDb.hold [] }

theorem GetsBack.takes_lt {r : Retreat} (h : GetsBack chain d b item top first second x r) :
    d.switchTakes first second < first.items.length := by
  rw [h.takes, h.split, List.length_append, Retreat.removed, List.length_cons]
  omega

/-- The head of the fork database at the end, down the line of the old head. -/
theorem GetsBack.head {r : Retreat} (h : GetsBack chain d b item top first second x r) :
    ∃ z, (top :: top.ancestors)[r.front.length]? = some z ∧ r.back.forkDb.head = some z := by
  obtain ⟨z, hz, hfork⟩ := h.recovers.head
  refine ⟨z, hz, ?_⟩
  rw [head_applyItems h.recovers.applied, hfork]
  rfl

/-- A call above the chain switches, where it is restful. -/
theorem Restful.switches (hb : Restful d b) (h : Kept pushed chain d)
    (hlink : d.forkDb.link b = .ok item) (hprev : b.previous ≠ headIdOf chain)
    (hhigher : chain.length < item.num) :
    ∃ first second, Switches chain d b item first second ∧
      Recoverable d (d.forkDb.pushed item) first second ∧
      switchOf d b = some (d.forkDb.pushed item, first, second) := by
  have hid : d.headBlockId = headIdOf chain := h.headBlockId
  have hpush := ForkDatabase.pushBlock_eq_ok.mpr ⟨item, hlink, rfl, rfl⟩
  rw [h.raises hhigher] at hpush
  have hprev' : item.data.previous ≠ d.headBlockId := by
    rw [(ForkDatabase.link_eq_ok hlink).data, hid]
    exact hprev
  have hhigher' : d.headBlockNum < item.num := by
    rw [h.headBlockNum]
    exact hhigher
  cases hfetch : (d.forkDb.pushed item).fetchBranchFrom item.id d.headBlockId with
  | error e =>
    have hstrands := strands_eq_true hpush hprev' hhigher' hfetch
    rw [hb.found] at hstrands
    cases hstrands
  | ok branches =>
    obtain ⟨first, second⟩ := branches
    have hswitch := switchOf_eq_some hpush hprev' hhigher' hfetch
    have hrecoverable := hb.switch _ hswitch
    rw [hid] at hfetch
    exact ⟨first, second, ⟨hlink, hprev, hhigher, hfetch, hrecoverable.undoable⟩, hrecoverable,
      hswitch⟩

/-- **How a switch ends**: either it goes over to the new branch, or it gets back to the old one. -/
theorem Switches.ends (hs : Switches chain d b item first second) (h : Kept pushed chain d)
    (hr : Recoverable d (d.forkDb.pushed item) first second) :
    ∃ top x, Parted chain d item top second.items.length first second ∧
      TakenBack chain (d.switching item first second) item second.items.length x ∧
      ((∃ y, GoesOver d b item first second x y) ∨
        ∃ r, GetsBack chain d b item top first second x r) := by
  obtain ⟨top, x, hparted, hx, hpop⟩ := hs.popped h
  obtain ⟨hpush, hbuilds, hhigher⟩ := hs.newHead h
  have hitem := ForkDatabase.link_eq_ok hs.link
  have hnew := h.raises hs.higher
  have hrun := hs.run_switchForks h hpop
  have hafter : ∀ r : Result Exc Database Bool,
      (applyBranch skipNothing second first.items).run x = r →
      d.afterBlock b = { finalState r with forkDb := (finalState r).forkDb.hold [] } := by
    intro r hr
    rw [Database.afterBlock, run_releaseItems, run_pushBlockImpl, hpush]
    simp only [if_pos hbuilds, if_pos hhigher, hrun, hr]
    cases r <;> rfl
  refine ⟨top, x, hparted, hx, ?_⟩
  rcases hs.applies_or_fails h hparted hx with
    ⟨⟨y, hitems⟩, htakes⟩ | ⟨front, i, rest, hsplit, htakes, x₁, e, y, hfront, hi, hfork, hy⟩
  · have happlied : (applyBranch skipNothing second first.items).run x = .ok true y :=
      run_applyBranch_ok hitems
    have hsize := maxSize_applyItems (List.cons_ne_nil _ _) hitems
    refine .inl ⟨y, htakes, hitems, ?_, hsize, hafter _ happlied⟩
    rw [happlied] at hrun
    obtain ⟨-, hmain, hlog, hnum, first', second', depth, hfetch, hback, ht, htrim⟩ :=
      h.switch hitem hnew hhigher hrun
    have hstep : Step chain d.forkDb b true item.blocks y.forkDb :=
      .switched hitem hs.previous hnum hfetch hback ht htrim
    refine ⟨pushed ++ [b], hmain, ?_, hstep.forest h.forest⟩
    have hlength := hstep.length
    have hlogs := h.logs
    rw [Database.LogsUpTo] at hlog
    rw [if_pos rfl] at hlength
    omega
  · have hlength := congrArg List.length hsplit
    rw [hparted.firstItems, List.length_append, List.length_cons] at hlength
    obtain ⟨-, hleaves, hrooted, hrecent⟩ := hr
    rw [htakes, hsplit, List.drop_left] at hleaves
    rw [htakes] at hrooted hrecent
    rw [h.headBlockNum] at hrecent
    obtain ⟨w, v, hrestore, hw⟩ :=
      hparted.recovers h hitem hs.previous e hsplit hy hleaves hrooted
    obtain ⟨hkept, hsize, hgone, hkeeps⟩ := hparted.restores h hitem hs.previous hsplit hy hleaves hrooted
      (hrecent (by omega)) hw
    have hfailed : (applyBranch skipNothing second first.items).run x = .error e v := by
      rw [hsplit, run_applyBranch_error hfront hi, hrestore]
    exact .inr ⟨⟨front, i, rest, y, w, v⟩, hsplit, htakes, ⟨x₁, hfront, hfork⟩, hy.logs, hw,
      ⟨_, hkept⟩, hsize, hgone, hkeeps, hafter _ hfailed⟩

/-! ## A call in step -/

/-- Two databases with the same main chain, and fork databases that are alike. -/
structure InStep (apart : BlockId → Prop) (low : Nat) (chain : List SignedBlock)
    (d d' : Database) : Prop where
  level : Level chain d
  level' : Level chain d'
  alike : Alike apart low d.forkDb d'.forkDb
  maxSize : d.forkDb.maxSize = d'.forkDb.maxSize
  started : low = 0 ∨ d.forkDb.head ≠ none

/-- The same block is linked in by both, and their fork databases are alike then. -/
structure Entering (apart : BlockId → Prop) (low : Nat) (chain : List SignedBlock)
    (d d' : Database) (b : SignedBlock) (item item' : ForkItem) : Prop where
  level : Level chain d
  level' : Level chain d'
  link : d.forkDb.link b = .ok item
  link' : d'.forkDb.link b = .ok item'
  line : SameLine apart item item'
  alike : Alike apart low (d.forkDb.pushed item) (d'.forkDb.pushed item')

theorem Level.num_le (h : Level chain d) : ∀ j ∈ d.forkDb.index, j.num ≤ chain.length := by
  obtain ⟨⟨pushed, hstanding⟩, -⟩ := h
  obtain ⟨⟨base, hkept⟩, -⟩ := hstanding.near
  exact hkept.forest.low

theorem Level.tops (h : Level chain d) (hlink : d.forkDb.link b = .ok item)
    (hprev : b.previous = headIdOf chain) : Tops item chain := by
  obtain ⟨⟨pushed, hstanding⟩, -⟩ := h
  obtain ⟨-, -, -, ht, -⟩ := hstanding.linked (ForkDatabase.link_eq_ok hlink) hprev
  exact ht

/-- A block beside the chain leaves it. -/
theorem Level.ignored (h : Level chain d) (hkept : Kept pushed chain d)
    (hlink : d.forkDb.link b = .ok item) (hle : item.num ≤ chain.length) :
    Level chain { d with forkDb := (d.forkDb.pushed item).hold [] } := by
  have hitem := ForkDatabase.link_eq_ok hlink
  have hforest := (hkept.forest.ignored hitem hle).hold []
  refine ⟨⟨pushed ++ [b], .kept ⟨?_, hkept.logs, hforest⟩⟩, ?_⟩
  · exact ⟨hkept.main.settled, hkept.main.onChain, hkept.main.logged⟩
  · exact (ForkDatabase.insert_maxSize _ _).symm ▸ h.sized

/-- The local variables of a call play no part. -/
theorem InStep.hold (h : InStep apart low chain d d') : InStep apart low chain
    { d with forkDb := d.forkDb.hold [] } { d' with forkDb := d'.forkDb.hold [] } :=
  ⟨h.level.hold [], h.level'.hold [], h.alike.hold [] [], h.maxSize, h.started⟩

namespace Entering

/-- **A child of the head** is applied by both or by none. -/
theorem direct (h : Entering apart low chain d d' b item item') (hprev : b.previous = headIdOf chain)
    (hsize : d.forkDb.maxSize = d'.forkDb.maxSize) :
    ∃ chain', InStep apart low chain' (d.afterBlock b) (d'.afterBlock b) := by
  have hstore := h.level.store_eq h.level'
  rcases h.level.direct h.link hprev with
    ⟨d₁, hrun, hlevel, hfork, hobjects⟩ | ⟨e, d₁, hrun, hlevel, hfork, hrefused⟩
  · rcases h.level'.direct h.link' hprev with
      ⟨d₁', hrun', hlevel', hfork', -⟩ | ⟨e', d₁', -, -, -, hrefused⟩
    swap
    · exact absurd (hstore ▸ hobjects) hrefused
    have hgpo : d₁.gpo = d₁'.gpo := congrArg (·.content.gpo) (hlevel.store_eq hlevel')
    rw [afterBlock_of_ok hrun, afterBlock_of_ok hrun']
    refine ⟨b :: chain, hlevel, hlevel', ?_, ?_, .inr ?_⟩
    · rw [hfork, hfork', hgpo]
      exact (h.alike.setMaxSize _).hold [] []
    · rw [hfork, hfork', hgpo]
      exact (ForkDatabase.setMaxSize_maxSize _ _).trans (ForkDatabase.setMaxSize_maxSize _ _).symm
    · rw [hfork, ForkDatabase.hold_head, ForkDatabase.setMaxSize_head]
      exact Option.some_ne_none _
  · rcases h.level'.direct h.link' hprev with
      ⟨d₁', -, -, -, hobjects⟩ | ⟨e', d₁', hrun', hlevel', hfork', -⟩
    · exact absurd (hstore ▸ hobjects) hrefused
    have hremove : ∀ {fdb : ForkDatabase} {i : ForkItem}, i.data = b →
        fdb.remove b.id = fdb.removeAll [i] := by
      rintro fdb i rfl
      rfl
    rw [hremove (ForkDatabase.link_eq_ok h.link).data] at hfork
    rw [hremove (ForkDatabase.link_eq_ok h.link').data] at hfork'
    rw [afterBlock_of_error hrun, afterBlock_of_error hrun']
    refine ⟨chain, hlevel, hlevel', ?_, ?_, .inr ?_⟩
    · rw [hfork, hfork']
      refine (h.alike.removeAll ?_).hold [] []
      exact congrArg ([·]) h.line.id_eq
    · rw [hfork, hfork']
      simpa using hsize
    · rw [hfork, ForkDatabase.hold_head, ForkDatabase.removeAll_head]
      exact Option.some_ne_none _

/-- A block beside the chain is kept by both. -/
theorem ignored (h : Entering apart low chain d d' b item item') {pushed' : List SignedBlock}
    (hkept : Kept pushed chain d) (hkept' : Kept pushed' chain d') (hle : item.num ≤ chain.length)
    (hsize : d.forkDb.maxSize = d'.forkDb.maxSize) :
    InStep apart low chain (d.afterBlock b) (d'.afterBlock b) := by
  have hle' : item'.num ≤ chain.length := h.line.num_eq ▸ hle
  rw [afterBlock_of_ok (hkept.ignores h.link hle), afterBlock_of_ok (hkept'.ignores h.link' hle')]
  refine ⟨h.level.ignored hkept h.link hle, h.level'.ignored hkept' h.link' hle',
    h.alike.hold [] [], ?_, .inr (Option.some_ne_none _)⟩
  simpa using hsize

/-- The fork databases in which both switch, once the old branch is popped. -/
theorem popped (h : Entering apart low chain d d' b item item')
    (hx : TakenBack chain (d.switching item first second) item n x)
    (hx' : TakenBack chain (d'.switching item' first' second') item' n x') :
    Alike apart low x.forkDb x'.forkDb ∧ x.store.content = x'.store.content := by
  obtain ⟨z, hz, hfork⟩ := hx.head
  obtain ⟨z', hz', hfork'⟩ := hx'.head
  constructor
  · rw [hfork, hfork']
    exact (h.alike.hold _ _).setHead (h.line.ancestor hz hz')
  · have hlogs : x.blockLog.blocks.length = x'.blockLog.blocks.length := by
      rw [hx.blockLog, hx'.blockLog]
      exact h.level.logs.trans h.level'.logs.symm
    exact congrArg (·.content) (hx.main.onChain.store_eq hx'.main.onChain hlogs)

variable {r r' : Retreat}

/-- **Both go over.** -/
theorem goesOver (h : Entering apart low chain d d' b item item')
    (hp : Parted chain d item top n first second)
    (hp' : Parted chain d' item' top' n first' second')
    (havoids : ∀ i ∈ first.items, ¬ apart i.id)
    (hx : TakenBack chain (d.switching item first second) item n x)
    (hx' : TakenBack chain (d'.switching item' first' second') item' n x')
    (hover : GoesOver d b item first second x y)
    (hover' : GoesOver d' b item' first' second' x' y') :
    InStep apart low item.blocks (d.afterBlock b) (d'.afterBlock b) := by
  have hdata := hp.first_data hp' h.line havoids
  obtain ⟨halike, hcontent⟩ := h.popped hx hx'
  obtain ⟨halike', hcontent'⟩ :=
    halike.applied hcontent hdata hover.applied hover'.applied
  obtain ⟨p, hkept⟩ := hover.kept
  obtain ⟨p', hkept'⟩ := hover'.kept
  have hblocks : item'.blocks = item.blocks := by
    rw [hp.blocks_eq, hp'.blocks_eq, mounted, mounted, hdata]
  rw [hblocks] at hkept'
  have hgpo : y.gpo = y'.gpo := congrArg (·.gpo) hcontent'
  rw [hover.after, hover'.after]
  refine ⟨(hkept.level hover.sized).hold [], (hkept'.level hover'.sized).hold [],
    halike'.hold [] [], ?_, .inr fun hnone => ?_⟩
  · exact hover.sized.trans (hgpo ▸ hover'.sized.symm)
  · exact absurd (hkept.forest.fresh hnone).2 (List.cons_ne_nil _ _)

/-- **Both get back.** -/
theorem getsBack (h : Entering apart low chain d d' b item item')
    (hp : Parted chain d item top second.items.length first second)
    (hp' : Parted chain d' item' top' second'.items.length first' second')
    (hn : second.items.length = second'.items.length)
    (hdata : first.items.map (·.data) = first'.items.map (·.data))
    (hx : TakenBack chain (d.switching item first second) item second.items.length x)
    (hx' : TakenBack chain (d'.switching item' first' second') item' second'.items.length x')
    (hback : GetsBack chain d b item top first second x r)
    (hback' : GetsBack chain d' b item' top' first' second' x' r')
    (htakes : r.front.length = r'.front.length) :
    InStep apart low chain (d.afterBlock b) (d'.afterBlock b) := by
  obtain ⟨halike, hcontent⟩ := h.popped hx (hn ▸ hx')
  -- The same blocks are applied, and the same are removed.
  rw [hback.split, hback'.split, List.map_append, List.map_append] at hdata
  obtain ⟨hfront, hrest⟩ := List.append_inj hdata (by rw [List.length_map, List.length_map, htakes])
  obtain ⟨x₁, hrun, hfork⟩ := hback.applied
  obtain ⟨x₁', hrun', hfork'⟩ := hback'.applied
  obtain ⟨halike, -⟩ := halike.applied hcontent hfront hrun hrun'
  rw [← hfork, ← hfork'] at halike
  have hids : r.removed.map (·.id) = r'.removed.map (·.id) := by
    have := congrArg (List.map fun c : SignedBlock => c.id) hrest
    rwa [List.map_map, List.map_map] at this
  have htop : SameLine apart top top' := .of_blocks apart (hp.topBlocks.trans hp'.topBlocks.symm)
  -- The same blocks are applied again.
  obtain ⟨z, hz, hfork⟩ := hback.recovers.head
  obtain ⟨z', hz', hfork'⟩ := hback'.recovers.head
  have hw : Alike apart low r.popped.forkDb r'.popped.forkDb := by
    rw [hfork, hfork']
    refine Alike.setHead ((halike.removeAll hids).setHead ?_) (htop.ancestor hz (htakes ▸ hz'))
    rw [ForkDatabase.front_of_line hp.forked.secondLine,
      ForkDatabase.front_of_line hp'.forked.secondLine]
    exact htop
  have hcontent' : r.popped.store.content = r'.popped.store.content := by
    have hmain := hback.recovers.main.onChain
    have hmain' := hback'.recovers.main.onChain
    rw [← hn] at hmain'
    refine congrArg (·.content) (hmain.store_eq hmain' ?_)
    rw [hback.recovers.blockLog, hback'.recovers.blockLog]
    exact hback.logs.trans (h.level.logs.trans (h.level'.logs.symm.trans hback'.logs.symm))
  have hsecond : second.items.map (·.data) = second'.items.map (·.data) := by
    have htake := hp.take_chain
    rw [hn, hp'.take_chain] at htake
    exact (List.reverse_injective htake).symm
  obtain ⟨halike', hcontent'⟩ := hw.applied hcontent' hsecond hback.recovers.applied
    hback'.recovers.applied
  obtain ⟨p, hkept⟩ := hback.kept
  obtain ⟨p', hkept'⟩ := hback'.kept
  have hgpo : r.back.gpo = r'.back.gpo := congrArg (·.gpo) hcontent'
  rw [hback.after, hback'.after]
  refine ⟨(hkept.level hback.sized).hold [], (hkept'.level hback'.sized).hold [],
    halike'.hold [] [], ?_, .inr fun hnone => ?_⟩
  · exact hback.sized.trans (hgpo ▸ hback'.sized.symm)
  · exact absurd (hkept.forest.fresh hnone).2 (hp.topBlocks ▸ List.cons_ne_nil _ _)

/-- **A switch** ends the same way in both. -/
theorem switched (h : Entering apart low chain d d' b item item') {pushed' : List SignedBlock}
    (hkept : Kept pushed chain d) (hkept' : Kept pushed' chain d') (hb : Restful d b)
    (hb' : Restful d' b) (hprev : b.previous ≠ headIdOf chain) (hhigher : chain.length < item.num)
    (havoids : ∀ s ∈ switchOf d b, ∀ i ∈ s.2.1.items, ¬ apart i.id) :
    ∃ chain', InStep apart low chain' (d.afterBlock b) (d'.afterBlock b) := by
  obtain ⟨first, second, hs, hr, hswitch⟩ := hb.switches hkept h.link hprev hhigher
  obtain ⟨first', second', hs', hr', -⟩ :=
    hb'.switches hkept' h.link' hprev (h.line.num_eq ▸ hhigher)
  obtain ⟨top, x, hp, hx, hends⟩ := hs.ends hkept hr
  obtain ⟨top', x', hp', hx', hends'⟩ := hs'.ends hkept' hr'
  have havoids' : ∀ i ∈ first.items, ¬ apart i.id := havoids _ hswitch
  have hn := hp.depth_eq hp' h.line
  have hdata : first.items.map (·.data) = first'.items.map (·.data) :=
    hp.first_data (hn ▸ hp') h.line havoids'
  have htakes : d.switchTakes first second = d'.switchTakes first' second' := by
    rw [Database.switchTakes, Database.switchTakes, hn, hdata, h.level.store_eq h.level']
  have hlength : first.items.length = first'.items.length := by
    rw [hp.firstItems, hp'.firstItems, hn]
  rcases hends with ⟨y, hover⟩ | ⟨r, hback⟩
  · rcases hends' with ⟨y', hover'⟩ | ⟨r', hback'⟩
    · exact ⟨_, h.goesOver hp (hn ▸ hp') havoids' hx (hn ▸ hx') hover hover'⟩
    · have hlt := hback'.takes_lt
      have hover := hover.takes
      omega
  · rcases hends' with ⟨y', hover'⟩ | ⟨r', hback'⟩
    · have hlt := hback.takes_lt
      have hover' := hover'.takes
      omega
    · have hfront : r.front.length = r'.front.length := by
        rw [← hback.takes, ← hback'.takes, htakes]
      exact ⟨_, h.getsBack hp hp' hn hdata hx hx' hback hback' hfront⟩

end Entering

/-- A call that does not push on the head starts from a main chain with nothing above it. -/
theorem Level.kept (h : Level chain d) (hb : Restful d b) (hlink : d.forkDb.link b = .ok item)
    (hprev : b.previous ≠ headIdOf chain) : ∃ pushed, Kept pushed chain d := by
  obtain ⟨⟨pushed, hstanding⟩, -⟩ := h
  cases hstanding with
  | kept h => exact ⟨pushed, h⟩
  | refused h hhead hs _ =>
    exact absurd (Standing.previous_of_linksUp h hhead hs hb.linksUp hlink) hprev

/-- A block that is linked in above a head is numbered above its parent. -/
theorem ForkDatabase.Linked.num_eq {fdb : ForkDatabase} (h : fdb.Linked b item)
    (hhead : fdb.head ≠ none) : item.num = numFromId b.previous + 1 := by
  obtain ⟨head, hhead⟩ := Option.ne_none_iff_exists'.mp hhead
  have hrecent := h.recent head hhead
  have hlt := numFromId_lt b.previous
  rw [BlockHeader.blockNum] at hrecent
  rw [ForkItem.num, h.data, BlockHeader.blockNum]
  omega

/-- **What a call does to the one it does to the other**, if it is about blocks from the number on and
switches to no block that is set apart. -/
theorem InStep.step (h : InStep apart low chain d d') (hb : Restful d b) (hb' : Restful d' b)
    (hlow : low ≤ numFromId b.previous)
    (havoids : ∀ s ∈ switchOf d b, ∀ i ∈ s.2.1.items, ¬ apart i.id) :
    ∃ chain', InStep apart low chain' (d.afterBlock b) (d'.afterBlock b) := by
  cases hlink : d.forkDb.link b with
  | error e =>
    cases hlink' : d'.forkDb.link b with
    | ok item' =>
      obtain ⟨item, hok, -⟩ := h.alike.symm.link h.maxSize.symm (.refl apart b) hlow hlink'
      rw [hlink] at hok
      cases hok
    | error e' =>
      rw [afterBlock_unlinked hlink, afterBlock_unlinked hlink']
      exact ⟨chain, h.hold⟩
  | ok item =>
    obtain ⟨item', hlink', hline⟩ := h.alike.link h.maxSize (.refl apart b) hlow hlink
    have hlow' : low ≤ item.num := by
      rcases h.started with hzero | hhead
      · omega
      · have hnum := (ForkDatabase.link_eq_ok hlink).num_eq hhead
        omega
    have henter : Entering apart low chain d d' b item item' :=
      ⟨h.level, h.level', hlink, hlink', hline, h.alike.pushed hlow' hline⟩
    by_cases hprev : b.previous = headIdOf chain
    · exact henter.direct hprev h.maxSize
    · obtain ⟨pushed, hkept⟩ := h.level.kept hb hlink hprev
      obtain ⟨pushed', hkept'⟩ := h.level'.kept hb' hlink' hprev
      by_cases hhigher : chain.length < item.num
      · exact henter.switched hkept hkept' hb hb' hprev hhigher havoids
      · exact ⟨chain, henter.ignored hkept hkept' (Nat.le_of_not_lt hhigher) h.maxSize⟩

end Databases

end NewsChain
