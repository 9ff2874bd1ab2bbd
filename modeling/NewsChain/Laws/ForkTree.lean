import NewsChain.Laws.ForkBranch
import NewsChain.Laws.BlockSummary

/-!
# The main chain in the fork database

Pops move the head of the fork database down and side blocks move it up again, so it says little
about the main chain. What does is the index: `Forest` says that it has an item whose line is the
main chain, that no item is higher, and that no recent ancestor of an item is ever taken out.

A block is then found by its number wherever the head is on the line it is looked for on
(`found_on_line`), and two items with the same previous id have the same line
(`Forest.blocks_eq`).
-/

namespace NewsChain

section Items

variable [Env]

namespace ForkItem

variable {i a : ForkItem}

/-- An ancestor, at its depth: below it lies the rest of the line. -/
theorem ancestors_getElem {k : Nat} (h : (i :: i.ancestors)[k]? = some a) :
    a :: a.ancestors = (i :: i.ancestors).drop k ∧ a.num + k = i.num := by
  induction k generalizing i with
  | zero =>
    obtain rfl : i = a := by simpa using h
    exact ⟨rfl, rfl⟩
  | succ k ih =>
    rw [List.getElem?_cons_succ] at h
    cases hanc : i.ancestors with
    | nil => simp [hanc] at h
    | cons p ps =>
      obtain ⟨hfollows, rfl⟩ := i.ancestors_eq_cons hanc
      rw [hanc] at h
      obtain ⟨hdrop, hnum⟩ := ih h
      have hp := hfollows.num
      exact ⟨by rw [hdrop, List.drop_succ_cons], by omega⟩

/-- The blocks of an ancestor are the rest of the item's. -/
theorem blocks_getElem {k : Nat} (h : (i :: i.ancestors)[k]? = some a) :
    a.blocks = i.blocks.drop k := by
  rw [← map_data_ancestors, ← map_data_ancestors, (ancestors_getElem h).1, List.map_drop]

theorem data_getElem {k : Nat} (h : (i :: i.ancestors)[k]? = some a) :
    i.blocks[k]? = some a.data := by
  rw [← map_data_ancestors, List.getElem?_map, h]
  rfl

theorem length_blocks (i : ForkItem) : i.blocks.length = (i :: i.ancestors).length := by
  rw [← map_data_ancestors, List.length_map]

/-- The ancestor of a number. -/
theorem ancestor_of_num (i : ForkItem) {n : Nat} (hle : n ≤ i.num)
    (hlength : i.num - n < i.blocks.length) :
    ∃ a, (i :: i.ancestors)[i.num - n]? = some a ∧ a.num = n := by
  rw [length_blocks] at hlength
  refine ⟨_, List.getElem?_eq_getElem hlength, ?_⟩
  have hnum := (ancestors_getElem (List.getElem?_eq_getElem hlength)).2
  omega

/-- Two ancestors of one number are one. -/
theorem ancestor_unique {a c : ForkItem} (ha : a ∈ i :: i.ancestors) (hc : c ∈ i :: i.ancestors)
    (h : a.num = c.num) : a = c := by
  obtain ⟨j, hj⟩ := List.mem_iff_getElem?.mp ha
  obtain ⟨k, hk⟩ := List.mem_iff_getElem?.mp hc
  have hja := (ancestors_getElem hj).2
  have hkc := (ancestors_getElem hk).2
  have : j = k := by omega
  subst this
  rw [hj] at hk
  exact Option.some.inj hk

/-- The ancestors of an ancestor are ancestors. -/
theorem ancestors_trans {a c : ForkItem} (ha : a ∈ i :: i.ancestors) (hc : c ∈ a :: a.ancestors) :
    c ∈ i :: i.ancestors := by
  obtain ⟨j, hj⟩ := List.mem_iff_getElem?.mp ha
  rw [(ancestors_getElem hj).1] at hc
  exact List.mem_of_mem_drop hc

/-- No item of a line is higher than the top. -/
theorem num_le_of_mem (h : a ∈ i :: i.ancestors) : a.num ≤ i.num := by
  obtain ⟨k, hk⟩ := List.mem_iff_getElem?.mp h
  have hnum := (ancestors_getElem hk).2
  omega

/-- The parent of an item of a line is the next one down. -/
theorem getElem_follows {k : Nat} {p : ForkItem} (h : (i :: i.ancestors)[k]? = some a)
    (hp : a.Follows p) : (i :: i.ancestors)[k + 1]? = some p := by
  have hdrop := (ancestors_getElem h).1
  rw [hp.ancestors] at hdrop
  rw [← List.getElem?_drop, ← hdrop]
  rfl

theorem parent_mem {t p : ForkItem} (ht : t ∈ i :: i.ancestors) (h : t.Follows p) :
    p ∈ i.ancestors := by
  obtain ⟨k, hk⟩ := List.mem_iff_getElem?.mp ht
  have hnext := getElem_follows hk h
  rw [List.getElem?_cons_succ] at hnext
  exact List.mem_of_getElem? hnext

end ForkItem

namespace ForkDatabase

variable {fdb : ForkDatabase} {i j item : ForkItem} {b : SignedBlock}

/-- An item of the index is known by its id. -/
theorem index_unique (hi : i ∈ fdb.index) (hj : j ∈ fdb.index) (h : i.id = j.id) : i = j :=
  List.inj_on_of_nodup_map fdb.unique hi hj h

theorem fetchBlock_eq_some {id : BlockId} :
    fdb.fetchBlock id = some i ↔ i ∈ fdb.index ∧ i.id = id := by
  constructor
  · intro h
    have hid := List.find?_some h
    exact ⟨List.mem_of_find?_eq_some h, beq_iff_eq.mp hid⟩
  · rintro ⟨hi, hid⟩
    cases h : fdb.fetchBlock id with
    | none =>
      have := List.find?_eq_none.mp h i hi
      simp [hid] at this
    | some c =>
      have hc := List.mem_of_find?_eq_some h
      have hcid := List.find?_some h
      rw [fdb.index_unique hc hi ((beq_iff_eq.mp hcid).trans hid.symm)]

theorem mem_insert : j ∈ (fdb.insert i).index ↔
    j ∈ fdb.index ∨ j = i ∧ i.id ∉ fdb.index.map (·.id) := by
  unfold insert
  split
  · rename_i h
    exact ⟨.inl, fun hj => hj.resolve_right fun hji => hji.2 h⟩
  · rename_i h
    rw [List.mem_append, List.mem_singleton]
    exact or_congr_right ⟨fun hj => ⟨hj, h⟩, And.left⟩

@[simp] theorem insert_head (fdb : ForkDatabase) (i : ForkItem) : (fdb.insert i).head = fdb.head := by
  unfold insert
  split <;> rfl

@[simp] theorem insert_maxSize (fdb : ForkDatabase) (i : ForkItem) :
    (fdb.insert i).maxSize = fdb.maxSize := by
  unfold insert
  split <;> rfl

@[simp] theorem pushed_maxSize (fdb : ForkDatabase) (i : ForkItem) :
    (fdb.pushed i).maxSize = fdb.maxSize := insert_maxSize fdb i

theorem mem_setMaxSize {s : Nat} : i ∈ (fdb.setMaxSize s).index ↔
    i ∈ fdb.index ∧ ∀ h, fdb.head = some h → h.num - s ≤ i.num := by
  unfold setMaxSize
  split
  · rename_i hnone
    simp [hnone]
  · rename_i head hhead
    simp [keep, hhead]

/-! ## Looking up by number -/

/-- Down a line that starts high enough the walk stops at the number. -/
theorem walkTo_eq_some {num : Nat} {items : List ForkItem} (hchain : items.IsChain ForkItem.Follows)
    (hstart : ∀ x, items.head? = some x → num ≤ x.num) (h : walkTo num items = some i) :
    i ∈ items ∧ i.num = num := by
  induction items with
  | nil => cases h
  | cons next rest ih =>
    have hle := hstart next rfl
    simp only [walkTo] at h
    split at h
    · rename_i hlt
      obtain ⟨hmem, hnum⟩ := ih hchain.tail (fun x hx => by
        cases rest with
        | nil => cases hx
        | cons y rest =>
          cases hx
          have hfollows := (List.isChain_cons_cons.mp hchain).1.num
          omega) h
      exact ⟨List.mem_cons_of_mem _ hmem, hnum⟩
    · cases h
      exact ⟨List.mem_cons_self, by omega⟩

section Lines

variable {a head : ForkItem} {n : Nat}

theorem mem_fetchBlockByNumber : a ∈ fdb.fetchBlockByNumber n ↔ a ∈ fdb.index ∧ a.num = n := by
  rw [fetchBlockByNumber, List.mem_filter, beq_iff_eq]

/-- A block without a competitor is the only one of its number. -/
theorem fetchBlockByNumber_eq_singleton (ha : a ∈ fdb.index) (hnum : a.num = n)
    (halone : ∀ i ∈ fdb.index, i.num = n → i.id = a.id) : fdb.fetchBlockByNumber n = [a] := by
  have hmem := mem_fetchBlockByNumber.mpr ⟨ha, hnum⟩
  have hall : ∀ i ∈ fdb.fetchBlockByNumber n, i = a := fun i hi => by
    obtain ⟨hi, hinum⟩ := mem_fetchBlockByNumber.mp hi
    exact fdb.index_unique hi ha (halone i hi hinum)
  have hnodup : (fdb.fetchBlockByNumber n).Nodup :=
    (List.Nodup.of_map _ fdb.unique).sublist List.filter_sublist
  rw [List.eq_replicate_of_mem hall] at hnodup hmem ⊢
  have hle := List.nodup_replicate.mp hnodup
  have hpos := List.length_pos_of_mem hmem
  rw [List.length_replicate] at hpos
  rw [show (fdb.fetchBlockByNumber n).length = 1 by omega]
  rfl

/-- A walk down a line finds the item of the number. -/
theorem walkTo_of_getElem {items : List ForkItem} {k : Nat} (hchain : items.IsChain ForkItem.Follows)
    (hk : items[k]? = some a) : walkTo a.num items = some a := by
  induction k generalizing items with
  | zero =>
    cases items with
    | nil => cases hk
    | cons i items =>
      obtain rfl : i = a := by simpa using hk
      rw [walkTo, if_neg (Nat.lt_irrefl _)]
  | succ k ih =>
    cases items with
    | nil => cases hk
    | cons i items =>
      have hnum := num_of_follows hchain rfl hk
      rw [walkTo, if_pos (by omega)]
      exact ih hchain.tail (by simpa using hk)

/-- The line of an item is walked as long as its ancestors are in the index. -/
theorem lineage_getElem {k : Nat} (ha : (head :: head.ancestors)[k]? = some a)
    (hcached : ∀ c ∈ head.ancestors, a.num ≤ c.num → c ∈ fdb.index) :
    (fdb.lineage head)[k]? = some a := by
  cases k with
  | zero => exact ha
  | succ k =>
    rw [List.getElem?_cons_succ] at ha
    have howned : ∀ c ∈ head.ancestors.take (k + 1), fdb.owns c.ptr = true := fun c hc => by
      obtain ⟨j, hj⟩ := List.mem_iff_getElem?.mp hc
      rw [List.getElem?_take] at hj
      split at hj
      · rename_i hlt
        have hanum := (ForkItem.ancestors_getElem (k := k + 1) (by simpa using ha)).2
        have hcnum := (ForkItem.ancestors_getElem (k := j + 1) (by simpa using hj)).2
        have hmem := hcached c (List.mem_of_getElem? hj) (by omega)
        exact List.any_eq_true.mpr ⟨c, by simp [hmem], by simp⟩
      · cases hj
    rw [lineage, List.getElem?_cons_succ, ← List.take_append_drop (k + 1) head.ancestors,
      List.takeWhile_append_of_pos howned, List.getElem?_append_left, List.getElem?_take_of_succ]
    · exact ha
    · have hlt := (List.getElem?_eq_some_iff.mp ha).1
      rw [List.length_take]
      omega

/-- The block of a number is found where the fork database's head is on a line that is in the index
down to it. -/
theorem fetchBlockOnMainBranchByNumber_of_line (ha : a ∈ fdb.index) (hhead : fdb.head = some head)
    (hline : a ∈ head :: head.ancestors)
    (hcached : ∀ c ∈ head.ancestors, a.num ≤ c.num → c ∈ fdb.index) :
    fdb.fetchBlockOnMainBranchByNumber a.num = some a := by
  obtain ⟨k, hk⟩ := List.mem_iff_getElem?.mp hline
  have hmem := mem_fetchBlockByNumber.mpr ⟨ha, rfl⟩
  unfold fetchBlockOnMainBranchByNumber
  split
  · rename_i hnil
    rw [hnil] at hmem
    cases hmem
  · rename_i i hi
    rw [hi, List.mem_singleton] at hmem
    rw [hmem]
  · have hwalk := walkTo_of_getElem (fdb.lineage_follows head) (lineage_getElem hk hcached)
    have hle := ForkItem.num_le_of_mem hline
    simp only [walkMainBranchToNum, hhead, if_neg (Nat.not_lt.mpr hle)]
    exact hwalk

end Lines

/-- **Looking up a block of a line.** Where every item of the line with that number is in the
index, and the head is on the line, what is found is the block of the line. -/
theorem found_on_line {top head : ForkItem} {n : Nat} (hle : n ≤ top.num)
    (hlength : top.num - n < top.blocks.length) (hhead : fdb.head = some head)
    (hline : head ∈ top :: top.ancestors)
    (hindex : ∀ a ∈ top :: top.ancestors, a.num = n → a ∈ fdb.index)
    (h : fdb.fetchBlockOnMainBranchByNumber n = some i) :
    i ∈ top :: top.ancestors ∧ i.num = n := by
  obtain ⟨a, ha, hnum⟩ := top.ancestor_of_num hle hlength
  have hmem := List.mem_of_getElem? ha
  have hfound : a ∈ fdb.fetchBlockByNumber n := mem_fetchBlockByNumber.mpr ⟨hindex a hmem hnum, hnum⟩
  unfold fetchBlockOnMainBranchByNumber at h
  split at h
  · cases h
  · rename_i x hx
    cases h
    rw [hx, List.mem_singleton] at hfound
    exact hfound ▸ ⟨hmem, hnum⟩
  · unfold walkMainBranchToNum at h
    rw [hhead] at h
    simp only at h
    split at h
    · cases h
    · obtain ⟨hi, hinum⟩ := walkTo_eq_some (fdb.lineage_follows head)
        (fun x hx => by cases hx; omega) h
      exact ⟨ForkItem.ancestors_trans hline ((fdb.lineage_prefix head).subset hi), hinum⟩

/-! ## Taking old items out -/

/-- How far below the head of a long chain items are kept. -/
def cacheDepth : Nat := irreversibleBlockNum + 1

/-- Items below a number may have been taken out. -/
structure Trimmed (low : Nat) (fdb fdb' : ForkDatabase) : Prop where
  head : fdb'.head = fdb.head
  subset : ∀ i ∈ fdb'.index, i ∈ fdb.index
  kept : ∀ i ∈ fdb.index, low ≤ i.num → i ∈ fdb'.index

namespace Trimmed

variable {low low' : Nat} {fdb' fdb'' : ForkDatabase}

theorem refl (low : Nat) (fdb : ForkDatabase) : Trimmed low fdb fdb :=
  ⟨rfl, fun _ h => h, fun _ h _ => h⟩

theorem hold (h : Trimmed low fdb fdb') (items items' : List ForkItem) :
    Trimmed low (fdb.hold items) (fdb'.hold items') := ⟨h.head, h.subset, h.kept⟩

theorem mono (h : Trimmed low fdb fdb') (hle : low ≤ low') : Trimmed low' fdb fdb' :=
  ⟨h.head, h.subset, fun i hi hlow => h.kept i hi (Nat.le_trans hle hlow)⟩

theorem trans (h : Trimmed low fdb fdb') (h' : Trimmed low fdb' fdb'') :
    Trimmed low fdb fdb'' :=
  ⟨h'.head.trans h.head, fun i hi => h.subset i (h'.subset i hi),
    fun i hi hlow => h'.kept i (h.kept i hi hlow) hlow⟩

/-- The size that goes with a chain keeps what is recent for it, if the head is no higher. -/
theorem setMaxSize {height : Nat} (h : ∀ head, fdb.head = some head → head.num ≤ height) :
    Trimmed (height - cacheDepth) fdb
      (fdb.setMaxSize (min height irreversibleBlockNum + 1)) := by
  refine ⟨setMaxSize_head _ _, fun i hi => (mem_setMaxSize.mp hi).1, fun i hi hlow => ?_⟩
  refine mem_setMaxSize.mpr ⟨hi, fun head hhead => ?_⟩
  have hle := h head hhead
  simp only [cacheDepth, irreversibleBlockNum] at hlow ⊢
  omega

end Trimmed

end ForkDatabase

/-! ## The main chain in the index -/

/-- What the index holds where no block was refused: blocks that were pushed, none higher than the
chain, every recent ancestor of its items, and the chain. -/
structure Forest (pushed chain : List SignedBlock) (fdb : ForkDatabase) : Prop where
  known : ∀ i ∈ fdb.index, ∀ b ∈ i.blocks, b ∈ pushed
  low : ∀ i ∈ fdb.index, i.num ≤ chain.length
  head : ∀ h, fdb.head = some h → h.num ≤ chain.length ∧ (chain ≠ [] → 0 < h.num)
  fresh : fdb.head = none → fdb.index = [] ∧ chain = []
  rooted : ∀ i ∈ fdb.index, i.line = [] → i.data.previous = .null ∨ i.num = 0
  closed : ∀ i ∈ fdb.index, ∀ a ∈ i.ancestors,
    chain.length - ForkDatabase.cacheDepth ≤ a.num → a ∈ fdb.index
  top : chain ≠ [] → ∃ m ∈ fdb.index, m.blocks = chain ∧ m.num = chain.length

namespace Forest

open ForkDatabase (Linked Trimmed cacheDepth)

variable {pushed chain : List SignedBlock} {fdb : ForkDatabase} {b : SignedBlock} {item : ForkItem}

theorem empty : Forest [] [] {} where
  known _ hi := absurd hi List.not_mem_nil
  low _ hi := absurd hi List.not_mem_nil
  head _ hhead := nomatch hhead
  fresh _ := ⟨rfl, rfl⟩
  rooted _ hi := absurd hi List.not_mem_nil
  closed _ hi := absurd hi List.not_mem_nil
  top hne := absurd rfl hne

/-- The index is all that counts, and the head. -/
theorem hold (h : Forest pushed chain fdb) (items : List ForkItem) :
    Forest pushed chain (fdb.hold items) :=
  ⟨h.known, h.low, h.head, h.fresh, h.rooted, h.closed, h.top⟩

/-- The ancestors of an item that is pushed are in the index. -/
theorem ancestor_mem (h : Forest pushed chain fdb) (hitem : fdb.Linked b item) {a : ForkItem}
    (ha : a ∈ item.ancestors) (hnum : chain.length - cacheDepth ≤ a.num) : a ∈ fdb.index := by
  rcases hitem.line with ⟨hnil, -⟩ | ⟨p, hp, hfollows⟩
  · rw [item.ancestors_eq_nil.mpr hnil] at ha
    exact absurd ha List.not_mem_nil
  · have hmem := (ForkDatabase.fetchBlock_eq_some.mp hp).1
    rw [hfollows.ancestors] at ha
    rcases List.mem_cons.mp ha with rfl | ha
    · exact hmem
    · exact h.closed p hmem a ha hnum

/-- A recent block of the chain has an item. -/
theorem item_of_num (h : Forest pushed chain fdb) {n : Nat}
    (hpos : 0 < n) (hle : n ≤ chain.length) (hrecent : chain.length - cacheDepth ≤ n) :
    ∃ a ∈ fdb.index, a.num = n ∧ chain[chain.length - n]? = some a.data := by
  have hne : chain ≠ [] := by
    rintro rfl
    rw [List.length_nil] at hle
    omega
  obtain ⟨m, hm, hblocks, hnum⟩ := h.top hne
  obtain ⟨a, ha, hanum⟩ := m.ancestor_of_num (n := n) (by omega) (by rw [hblocks]; omega)
  have hdata := ForkItem.data_getElem ha
  rw [hblocks, hnum] at hdata
  refine ⟨a, ?_, hanum, hdata⟩
  rcases List.mem_cons.mp (List.mem_of_getElem? ha) with rfl | ha
  · exact hm
  · exact h.closed m hm a ha (by omega)

/-- An item that is pushed is at most one higher than the chain, unless it is the first. -/
theorem num_le (h : Forest pushed chain fdb) (hitem : fdb.Linked b item) (hhead : fdb.head ≠ none) :
    item.num ≤ chain.length + 1 := by
  rcases hitem.line with ⟨-, hnone | hnull⟩ | ⟨p, hp, hfollows⟩
  · exact absurd hnone hhead
  · have hnum : item.num = 1 := by
      rw [ForkItem.num, hitem.data, BlockHeader.blockNum, hnull, numFromId_null]
      rfl
    omega
  · have hlow := h.low p (ForkDatabase.fetchBlock_eq_some.mp hp).1
    have hnum := hfollows.num
    omega

theorem known_pushed (h : Forest pushed chain fdb) (hitem : fdb.Linked b item) :
    ∀ i, i ∈ fdb.index ∨ i = item → ∀ c ∈ i.blocks, c ∈ pushed ++ [b] := by
  rintro i (hi | rfl) c hc
  · exact List.mem_append_left _ (h.known i hi c hc)
  · rcases hitem.line with ⟨hnil, -⟩ | ⟨p, hp, hfollows⟩
    · rw [ForkItem.blocks, hnil, List.map_nil, List.mem_singleton, hitem.data] at hc
      exact List.mem_append_right _ (List.mem_singleton.mpr hc)
    · rw [ForkItem.blocks, hfollows, List.map_cons] at hc
      rcases List.mem_cons.mp hc with rfl | hc
      · rw [hitem.data]
        exact List.mem_append_right _ List.mem_cons_self
      · exact List.mem_append_left _ (h.known p (ForkDatabase.fetchBlock_eq_some.mp hp).1 c hc)

theorem rooted_pushed (h : Forest pushed chain fdb) (hitem : fdb.Linked b item)
    (hnum : item.num ≤ chain.length) (hroot : item.line = []) :
    item.data.previous = .null ∨ item.num = 0 := by
  rcases hitem.line with ⟨-, hnone | hnull⟩ | ⟨p, -, hfollows⟩
  · rw [(h.fresh hnone).2, List.length_nil] at hnum
    exact .inr (Nat.le_zero.mp hnum)
  · exact .inl (by rw [hitem.data, hnull])
  · rw [hfollows] at hroot
    cases hroot

/-- A push that does not reach above the chain leaves it the main chain. -/
theorem ignored (h : Forest pushed chain fdb) (hitem : fdb.Linked b item)
    (hnum : item.num ≤ chain.length) : Forest (pushed ++ [b]) chain (fdb.pushed item) := by
  have hmem : ∀ i, i ∈ (fdb.pushed item).index → i ∈ fdb.index ∨ i = item := fun i hi =>
    (ForkDatabase.mem_insert.mp hi).imp_right And.left
  have hold : ∀ i ∈ fdb.index, i ∈ (fdb.pushed item).index := fun i hi =>
    ForkDatabase.mem_insert.mpr (.inl hi)
  refine ⟨fun i hi => ?_, fun i hi => ?_, fun head hhead => ?_, fun hnone => ?_, fun i hi => ?_,
    fun i hi a ha hlow => ?_, fun hne => ?_⟩
  · exact h.known_pushed hitem i (hmem i hi)
  · rcases hmem i hi with hi | rfl
    · exact h.low i hi
    · exact hnum
  · cases hhead
    rcases fdb.raisedHead_cases item with ⟨heq, -⟩ | ⟨heq, -⟩
    · rw [heq]
      refine ⟨hnum, fun hne => ?_⟩
      cases hold : fdb.head with
      | none => exact absurd (h.fresh hold).2 hne
      | some old =>
        have hrecent := hitem.recent old hold
        rw [ForkItem.num, hitem.data]
        omega
    · exact h.head _ heq
  · cases hnone
  · intro hroot
    rcases hmem i hi with hi | rfl
    · exact h.rooted i hi hroot
    · exact h.rooted_pushed hitem hnum hroot
  · rcases hmem i hi with hi | rfl
    · exact hold a (h.closed i hi a ha hlow)
    · exact hold a (h.ancestor_mem hitem ha hlow)
  · obtain ⟨m, hm, hblocks⟩ := h.top hne
    exact ⟨m, hold m hm, hblocks⟩

/-- An item above the chain is new. -/
theorem mem_pushed (h : Forest pushed chain fdb) (hnum : chain.length < item.num) {i : ForkItem} :
    i ∈ (fdb.pushed item).index ↔ i ∈ fdb.index ∨ i = item := by
  have hnew : item.id ∉ fdb.index.map (·.id) := fun hmem => by
    obtain ⟨i, hi, hid⟩ := List.mem_map.mp hmem
    have hlow := h.low i hi
    have hsame : i.num = item.num := blockNum_eq_of_id_eq hid
    omega
  exact ForkDatabase.mem_insert.trans (or_congr_right (and_iff_left hnew))

/-- A push above the chain makes the line of the item the main chain, where nothing recent is taken
out afterwards. -/
theorem grown (h : Forest pushed chain fdb) (hitem : fdb.Linked b item)
    (hnum : item.num = chain.length + 1) (hlength : item.blocks.length = item.num)
    (hroot : item.line = [] → b.previous = .null) {head : ForkItem} {fdb' : ForkDatabase}
    (hhead : 0 < head.num ∧ head.num ≤ item.num)
    (htrim : Trimmed (item.num - cacheDepth) ((fdb.pushed item).setHead head) fdb') :
    Forest (pushed ++ [b]) item.blocks fdb' := by
  have hmem : ∀ i ∈ fdb'.index, i ∈ fdb.index ∨ i = item := fun i hi =>
    (h.mem_pushed (by omega)).mp (htrim.subset i hi)
  have hkept : ∀ i, i ∈ fdb.index ∨ i = item → item.num - cacheDepth ≤ i.num → i ∈ fdb'.index :=
    fun i hi hlow => htrim.kept i ((h.mem_pushed (by omega)).mpr hi) hlow
  refine ⟨fun i hi => h.known_pushed hitem i (hmem i hi), fun i hi => ?_, fun i hi => ?_,
    fun hnone => ?_, fun i hi hline => ?_, fun i hi a ha hlow => ?_, fun _ => ?_⟩
  · rw [hlength]
    rcases hmem i hi with hi | rfl
    · exact Nat.le_trans (h.low i hi) (by omega)
    · exact Nat.le_refl _
  · rw [htrim.head] at hi
    cases hi
    rw [hlength]
    exact ⟨hhead.2, fun _ => hhead.1⟩
  · rw [htrim.head] at hnone
    cases hnone
  · rcases hmem i hi with hi | rfl
    · exact h.rooted i hi hline
    · exact .inl (by rw [hitem.data, hroot hline])
  · rw [hlength] at hlow
    refine hkept a (.inl ?_) hlow
    rcases hmem i hi with hi | rfl
    · exact h.closed i hi a ha (by omega)
    · exact h.ancestor_mem hitem ha (by omega)
  · exact ⟨item, hkept item (.inr rfl) (Nat.sub_le _ _), rfl, hlength.symm⟩

end Forest

end Items

section Chains

variable [Node]

namespace Forest

open ForkDatabase (Linked Trimmed cacheDepth)

variable {pushed chain : List SignedBlock} {fdb : ForkDatabase} {b : SignedBlock} {item : ForkItem}

/-- **Two lines meet in one item.** An item on the line of one that is pushed, whose previous id is
that of a recent block of the chain, has the rest of the chain below it. -/
theorem blocks_eq (h : Forest pushed chain fdb) (hitem : fdb.Linked b item) {t : ForkItem}
    (ht : t ∈ item :: item.ancestors) {j : Nat} (hj : j ≤ cacheDepth)
    (hprev : t.data.previous = headIdOf (chain.drop j))
    (hnum : t.num = (chain.drop j).length + 1) : t.blocks = t.data :: chain.drop j := by
  have hlength : (chain.drop j).length = chain.length - j := List.length_drop
  cases hdrop : chain.drop j with
  | nil =>
    rw [hdrop] at hprev
    have hline : t.line = [] := by
      cases hline : t.line with
      | nil => rfl
      | cons n ns =>
        have hlinked := t.linked
        rw [hline] at hlinked
        exact absurd hprev (List.isChain_cons_cons.mp hlinked).1.1
    rw [ForkItem.blocks, hline, List.map_nil]
  | cons c rest =>
    rw [hdrop] at hprev hlength hnum
    rw [List.length_cons] at hlength hnum
    -- The block below has an item on the chain's line.
    have hne : chain ≠ [] := by
      rintro rfl
      rw [List.drop_nil] at hdrop
      cases hdrop
    obtain ⟨m, hm, hblocks, hmnum⟩ := h.top hne
    obtain ⟨g, hg⟩ : ∃ g, (m :: m.ancestors)[j]? = some g := by
      refine ⟨_, List.getElem?_eq_getElem ?_⟩
      rw [← ForkItem.length_blocks, hblocks]
      omega
    have hgblocks : g.blocks = c :: rest := by rw [ForkItem.blocks_getElem hg, hblocks, hdrop]
    have hgdata : g.data = c := by
      rw [ForkItem.blocks] at hgblocks
      exact (List.cons.inj hgblocks).1
    have hgnum : g.num = rest.length + 1 := by
      have := (ForkItem.ancestors_getElem hg).2
      omega
    have hgmem : g ∈ fdb.index := by
      rcases List.mem_cons.mp (List.mem_of_getElem? hg) with rfl | hg
      · exact hm
      · exact h.closed m hm g hg (by omega)
    have hid : t.data.previous = g.id := by rw [hprev, headIdOf, ForkItem.id, hgdata]
    cases hanc : t.ancestors with
    | nil =>
      -- The first item of a line is not that high.
      exfalso
      have hroot := t.ancestors_eq_nil.mp hanc
      have hnull : t.data.previous = .null → False := fun hnull => by
        have : g.num = 0 := by
          rw [ForkItem.num, ← numFromId_id g.data.toSignedBlockHeader]
          change numFromId g.id = 0
          rw [← hid, hnull, numFromId_null]
        omega
      rcases List.mem_cons.mp ht with rfl | ht
      · rcases hitem.line with ⟨-, hnone | hzero⟩ | ⟨p, -, hfollows⟩
        · exact hne (h.fresh hnone).2
        · exact hnull (by rw [hitem.data, hzero])
        · rw [hfollows] at hroot
          cases hroot
      · rcases h.rooted t (h.ancestor_mem hitem ht (by omega)) hroot with hzero | hzero
        · exact hnull hzero
        · omega
    | cons p ps =>
      obtain ⟨hfollows, rfl⟩ := t.ancestors_eq_cons hanc
      have hpnum := hfollows.num
      have hpmem := h.ancestor_mem hitem (ForkItem.parent_mem ht hfollows) (by omega)
      have hsame : p = g := fdb.index_unique hpmem hgmem (by rw [← hid, hfollows.previous])
      rw [ForkItem.blocks, hfollows, List.map_cons, ← hgblocks, ← hsame]
      rfl

end Forest

end Chains

end NewsChain
