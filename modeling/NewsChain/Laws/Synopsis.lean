import NewsChain.Laws.Atomicity
import NewsChain.Laws.BranchMeeting
import NewsChain.Laws.Sync

/-!
# The synopsis of a chain

`RefLine` is the chain a synopsis is about, by the numbers of its blocks: the main chain, a part of
it, or the main chain up to where a fork leaves it and the fork from there. The loop goes up that
line, half of the way that is left at a time, and never past its end (`nextLow_le`); so what it
collects lies on the line, and ends at its end if nothing comes after (`wellFormed_of_ids`).

A fork block is found to be on a fork by asking for the main-chain block of its number. Above the head
the question throws, or finds another block, or the block itself, which then passes for one of the main
chain (`Summarizable`, `synopsis_wellFormed_iff`).
-/

namespace NewsChain

open ForkDatabase (back_getElem num_of_lineage)

/-! ## The steps -/

section Steps

variable {t low : Nat}

theorem nextLow_eq (hle : low ≤ t) (hpos : 1 ≤ low) (hfits : t + 1 < 2 ^ 32) :
    nextLow t low = low + (t - low + 2) / 2 := by
  unfold nextLow
  have hsub : (t + 2 ^ 32 - low + 2) % 2 ^ 32 = t - low + 2 := by omega
  rw [hsub]
  omega

/-- A step goes up, -/
theorem lt_nextLow (hle : low ≤ t) (hpos : 1 ≤ low) (hfits : t + 1 < 2 ^ 32) :
    low < nextLow t low := by
  rw [nextLow_eq hle hpos hfits]
  omega

/-- and not past the end, unless it starts there. -/
theorem nextLow_le (hlt : low < t) (hpos : 1 ≤ low) (hfits : t + 1 < 2 ^ 32) :
    nextLow t low ≤ t := by
  rw [nextLow_eq (by omega) hpos hfits]
  omega

/-- The numbers `get_blockchain_synopsis` goes through, from a first one on. -/
def synopsisNumbers (highBlockNum trueHighBlockNum : Nat) : Nat → Nat → List Nat
  | 0, _ => []
  | rounds + 1, lowBlockNum =>
    lowBlockNum :: if nextLow trueHighBlockNum lowBlockNum ≤ highBlockNum then
      synopsisNumbers highBlockNum trueHighBlockNum rounds (nextLow trueHighBlockNum lowBlockNum)
    else []

/-- They rise from the first one; and where nothing comes after the end, the last is the end. -/
theorem synopsisNumbers_spec {high after rounds low : Nat} (hfits : high + after + 1 < 2 ^ 32)
    (hpos : 1 ≤ low) (hle : low ≤ high) (hrounds : high < low + rounds) :
    (synopsisNumbers high (high + after) rounds low).head? = some low ∧
      (∀ n ∈ synopsisNumbers high (high + after) rounds low, low ≤ n ∧ n ≤ high) ∧
      (synopsisNumbers high (high + after) rounds low).Pairwise (· < ·) ∧
      (after = 0 → (synopsisNumbers high (high + after) rounds low).getLast? = some high) := by
  induction rounds generalizing low with
  | zero => omega
  | succ rounds ih =>
    have hup := lt_nextLow (t := high + after) (by omega) hpos hfits
    rw [synopsisNumbers]
    by_cases hnext : nextLow (high + after) low ≤ high
    · rw [if_pos hnext]
      obtain ⟨hhead, hbounds, hsorted, hlast⟩ := ih (by omega) hnext (by omega)
      refine ⟨rfl, ?_, List.pairwise_cons.mpr ⟨fun n hn => ?_, hsorted⟩, fun hafter => ?_⟩
      · rintro n (_ | ⟨_, hn⟩)
        · exact ⟨Nat.le_refl _, hle⟩
        · have := hbounds n hn
          omega
      · have := hbounds n hn
        omega
      · rw [← hlast hafter]
        cases hrest : synopsisNumbers high (high + after) rounds (nextLow (high + after) low) with
        | nil =>
          rw [hrest] at hhead
          cases hhead
        | cons n ns => rfl
    · rw [if_neg hnext]
      refine ⟨rfl, ?_, List.pairwise_singleton _ _, fun hafter => ?_⟩
      · intro n hn
        obtain rfl := List.mem_singleton.mp hn
        exact ⟨Nat.le_refl _, hle⟩
      · -- The step would not have gone past the end from below it.
        have hend : low = high := by
          by_contra hne
          exact hnext (by
            have hle' : nextLow (high + after) low ≤ high + after :=
              nextLow_le (by omega) hpos hfits
            omega)
        exact congrArg some hend

end Steps

section Chains

variable [Node] {pushed chain : List SignedBlock} {d : Database} {path fork : List BlockId}
  {id ref : BlockId} {a after : Nat}

/-! ## The loop -/

/-- Each id of a list has the number it stands at. -/
def Numbered (path : List BlockId) : Prop := ∀ k id, path[k]? = some id → numFromId id = k + 1

/-- **The loop** collects the ids of its numbers. -/
theorem synopsisLoop_returns {r : SynopsisRange} {ids : Nat → BlockId} {rounds low : Nat}
    (hids : ∀ n ∈ synopsisNumbers r.highBlockNum (r.highBlockNum + after) rounds low,
      d.synopsisId r n = .ok (ids n))
    (hfits : r.highBlockNum + after + 1 < 2 ^ 32) (hpos : 1 ≤ low) (hle : low ≤ r.highBlockNum)
    (hrounds : r.highBlockNum < low + rounds) :
    d.synopsisLoop r (r.highBlockNum + after) rounds low =
      .ok ((synopsisNumbers r.highBlockNum (r.highBlockNum + after) rounds low).map ids) := by
  induction rounds generalizing low with
  | zero => omega
  | succ rounds ih =>
    have hup := lt_nextLow (t := r.highBlockNum + after) (by omega) hpos hfits
    rw [synopsisNumbers] at hids ⊢
    rw [Database.synopsisLoop, hids low List.mem_cons_self]
    dsimp only
    by_cases hnext : nextLow (r.highBlockNum + after) low ≤ r.highBlockNum
    · rw [if_pos hnext] at hids ⊢
      rw [if_pos hnext, ih (fun n hn => hids n (List.mem_cons_of_mem _ hn)) (by omega) hnext
        (by omega)]
      rfl
    · rw [if_neg hnext, if_neg hnext]
      rfl

/-- It throws if the id of one of them does. -/
theorem synopsisLoop_throws {r : SynopsisRange} {t rounds low : Nat}
    (hthrows : ∃ n ∈ synopsisNumbers r.highBlockNum t rounds low, ∃ e, d.synopsisId r n = .error e) :
    ∃ e, d.synopsisLoop r t rounds low = .error e := by
  induction rounds generalizing low with
  | zero =>
    obtain ⟨n, hn, -⟩ := hthrows
    cases hn
  | succ rounds ih =>
    rw [synopsisNumbers] at hthrows
    rw [Database.synopsisLoop]
    cases hlow : d.synopsisId r low with
    | error e => exact ⟨e, rfl⟩
    | ok id =>
      obtain ⟨n, hn, e, he⟩ := hthrows
      have hne : n ≠ low := by
        rintro rfl
        rw [hlow] at he
        cases he
      have hrest := (List.mem_cons.mp hn).resolve_left hne
      split at hrest
      · rename_i hnext
        obtain ⟨e', hloop⟩ := ih ⟨n, hrest, e, he⟩
        simp only [if_pos hnext, hloop]
        exact ⟨e', rfl⟩
      · cases hrest

/-! ## The chain a synopsis is about -/

/-- An item of the fork database whose line is the main chain, as far as it goes. -/
structure MainItem (chain : List SignedBlock) (f : ForkItem) : Prop where
  num : f.num = chain.length
  previous : ∀ k i, (f :: f.ancestors)[k]? = some i →
    i.data.previous = headIdOf (chain.drop (k + 1))

/-- The item of the head has the main chain as its line. -/
theorem mainItem_of_blocks {m : ForkItem} (hlinked : LinkedChain chain) (hblocks : m.blocks = chain)
    (hnum : m.num = chain.length) : MainItem chain m := by
  refine ⟨hnum, fun k i hi => ?_⟩
  have hdata := ForkItem.data_getElem hi
  obtain ⟨hlt, -⟩ := List.getElem?_eq_some_iff.mp hdata
  have hdrop := hlinked.drop k
  rw [hblocks] at hdata hlt
  rw [List.drop_eq_getElem_cons hlt] at hdrop
  obtain ⟨_, hget⟩ := List.getElem?_eq_some_iff.mp hdata
  rw [← hget]
  exact hdrop.1

/-- A known block of a fork that leaves the main chain after the block of number `a`, which is not
below the last irreversible one; and the ids of the fork up to the block. -/
structure ForkBlock (chain : List SignedBlock) (d : Database) (ref : BlockId) (a : Nat)
    (fork : List BlockId) : Prop where
  branches : ∃ f s first second, d.forkDb.fetchBlock d.headBlockId = some f ∧
    d.forkDb.fetchBlock ref = some s ∧ MainItem chain f ∧ d.forkDb.Meeting f s first second ∧
    first.back.num = a + 1 ∧ fork = second.items.map (·.id)
  other : ref ∉ mainIds chain
  recent : d.lastNonUndoableBlockNum ≤ a

/-- A fork block is one to which `fetch_branch_from` finds the branches. -/
theorem forkBlock_of_fetch {first second : Branch} (hlinked : LinkedChain chain)
    (hroom : chain.length < 2 ^ 32)
    (hhead : (d.forkDb.fetchBlock d.headBlockId).map (·.blocks) = some chain)
    (hfetch : d.forkDb.fetchBranchFrom d.headBlockId ref = .ok (first, second))
    (hnum : first.back.num = a + 1) (hother : ref ∉ mainIds chain)
    (hrecent : d.lastNonUndoableBlockNum ≤ a) :
    ForkBlock chain d ref a (second.items.map (·.id)) := by
  obtain ⟨f, s, hf, hs, hmeet⟩ :=
    ((ForkDatabase.fetchBranchFrom_spec _ _ _).1 first second).mp hfetch
  obtain ⟨f', hf', hblocks⟩ := Option.map_eq_some_iff.mp hhead
  rw [hf, Option.some.injEq] at hf'
  subst hf'
  have htop : chain[0]? = some f.data := by
    rw [← hblocks]
    rfl
  have hlen : f.num = chain.length := by
    have := (List.getElem?_eq_some_iff.mp htop).1
    rw [ForkItem.num, hlinked.blockNum htop]
    omega
  exact ⟨⟨f, s, first, second, hf, hs, mainItem_of_blocks hlinked hblocks hlen, hmeet, hnum, rfl⟩,
    hother, hrecent⟩

/-- The ids of the chain up to a reference point, by number: the null id stands for the head. -/
inductive RefLine (chain : List SignedBlock) (d : Database) : BlockId → List BlockId → Prop
  | null : RefLine chain d .null (mainIds chain)
  | main {n : Nat} {ref : BlockId} : (mainIds chain)[n]? = some ref →
      RefLine chain d ref ((mainIds chain).take (n + 1))
  | fork {a : Nat} {ref : BlockId} {fork : List BlockId} : ForkBlock chain d ref a fork →
      RefLine chain d ref ((mainIds chain).take a ++ fork)

/-- What a synopsis of a line is to be. -/
def WellFormed (d : Database) (path : List BlockId) (after : Nat)
    (answer : Except SyncExc (List BlockId)) : Prop :=
  ∃ ids, answer = .ok ids ∧ (∀ id ∈ ids, path[numFromId id - 1]? = some id) ∧
    ids.Pairwise (numFromId · < numFromId ·) ∧
    (path ≠ [] →
      ids.head?.map numFromId = some (min (max d.lastNonUndoableBlockNum 1) path.length)) ∧
    (after = 0 → ids.getLast? = path.getLast?)

/-- Ids of rising numbers on a line. -/
structure LiesOn (path ids : List BlockId) : Prop where
  on : ∀ id ∈ ids, path[numFromId id - 1]? = some id
  rises : ids.Pairwise (numFromId · < numFromId ·)

omit [Node] in
/-- What stands at rising numbers of a line lies on it. -/
theorem liesOn_map {ids : Nat → BlockId} {ns : List Nat} (hline : Numbered path)
    (hpos : ∀ n ∈ ns, 1 ≤ n) (hids : ∀ n ∈ ns, path[n - 1]? = some (ids n))
    (hsorted : ns.Pairwise (· < ·)) : LiesOn path (ns.map ids) := by
  have hnum : ∀ n ∈ ns, numFromId (ids n) = n := fun n hn => by
    have hat := hline _ _ (hids n hn)
    have := hpos n hn
    omega
  refine ⟨fun id hid => ?_, ?_⟩
  · obtain ⟨n, hn, rfl⟩ := List.mem_map.mp hid
    rw [hnum n hn]
    exact hids n hn
  · refine List.pairwise_map.mpr (hsorted.imp_of_mem fun hm hn hlt => ?_)
    rw [hnum _ hm, hnum _ hn]
    exact hlt

omit [Node] in
/-- The first number of a synopsis. -/
theorem firstNumber_eq {low last length : Nat} (hpos : 1 ≤ length)
    (hlow : low = last ∧ last ≤ length ∨ low = length ∧ length < last) :
    (if low = 0 then 1 else low) = min (max last 1) length := by
  split <;> omega

/-- The synopsis from a range, where each of its numbers has an id of the line. -/
theorem wellFormed_of_ids {r : SynopsisRange} {ids : Nat → BlockId} {low : Nat}
    (hrange : d.synopsisRange ref = .ok (some r)) (hhigh : r.highBlockNum = path.length)
    (hstart : (if r.lowBlockNum = 0 then 1 else r.lowBlockNum) = low)
    (hlow : low = min (max d.lastNonUndoableBlockNum 1) path.length) (hne : path ≠ [])
    (hids : ∀ n ∈ synopsisNumbers path.length (path.length + after) (path.length + 1) low,
      d.synopsisId r n = .ok (ids n))
    (hlies : LiesOn path ((synopsisNumbers path.length (path.length + after) (path.length + 1)
      low).map ids))
    (hfirst : numFromId (ids low) = low) (hlast : path.getLast? = some (ids path.length))
    (hfits : path.length + after + 1 < 2 ^ 32) :
    WellFormed d path after (d.getBlockchainSynopsis ref after) := by
  have hpos := List.length_pos_iff.mpr hne
  have hrounds : path.length < low + (path.length + 1) := by omega
  obtain ⟨hhead, -, -, hend⟩ := synopsisNumbers_spec hfits (by omega) (by omega) hrounds
  rw [← hhigh] at hids hfits hrounds
  have hloop := synopsisLoop_returns hids hfits (by omega) (by omega) hrounds
  rw [hhigh] at hloop
  refine ⟨_, ?_, hlies.on, hlies.rises, fun _ => ?_, fun hafter => ?_⟩
  · simp only [Database.getBlockchainSynopsis, hrange, hstart, hhigh]
    rw [Nat.mod_eq_of_lt (by omega)]
    exact hloop
  · rw [List.head?_map, hhead, Option.map_some, Option.map_some, hfirst, hlow]
  · rw [List.getLast?_map, hend hafter, hlast, Option.map_some]

/-- The synopsis from a range that fits a line. -/
theorem wellFormed_of_range {r : SynopsisRange} (hrange : d.synopsisRange ref = .ok (some r))
    (hline : Numbered path) (hne : path ≠ []) (hhigh : r.highBlockNum = path.length)
    (hlow : r.lowBlockNum = d.lastNonUndoableBlockNum ∧ d.lastNonUndoableBlockNum ≤ path.length ∨
      r.lowBlockNum = path.length ∧ path.length < d.lastNonUndoableBlockNum)
    (hids : ∀ n, 1 ≤ n → n ≤ path.length → ∃ id, d.synopsisId r n = .ok id ∧ path[n - 1]? = some id)
    (hfits : path.length + after + 1 < 2 ^ 32) :
    WellFormed d path after (d.getBlockchainSynopsis ref after) := by
  have hpos := List.length_pos_iff.mpr hne
  obtain ⟨at', hat⟩ : ∃ at' : Nat → BlockId, ∀ n, 1 ≤ n → n ≤ path.length →
      d.synopsisId r n = .ok (at' n) ∧ path[n - 1]? = some (at' n) := by
    refine ⟨fun n => (path[n - 1]?).getD .null, fun n hn hle => ?_⟩
    obtain ⟨id, hid, hget⟩ := hids n hn hle
    dsimp only
    rw [hget]
    exact ⟨hid, rfl⟩
  obtain ⟨low, hstart⟩ : ∃ low, low = min (max d.lastNonUndoableBlockNum 1) path.length := ⟨_, rfl⟩
  have hrounds : path.length < low + (path.length + 1) := by omega
  obtain ⟨-, hbounds, hsorted, -⟩ := synopsisNumbers_spec hfits (by omega) (by omega) hrounds
  have hids' : ∀ n ∈ synopsisNumbers path.length (path.length + after) (path.length + 1) low,
      d.synopsisId r n = .ok (at' n) := fun n hn =>
    (hat n (by have := hbounds n hn; omega) (hbounds n hn).2).1
  refine wellFormed_of_ids hrange hhigh ?_ hstart hne hids' ?_ ?_ ?_ hfits
  · rw [firstNumber_eq hpos hlow, hstart]
  · refine liesOn_map hline (fun n hn => ?_) (fun n hn => ?_) hsorted
    · have := hbounds n hn
      omega
    · have hn := hbounds n hn
      exact (hat n (by omega) hn.2).2
  · have := hline _ _ (hat low (by omega) (by omega)).2
    omega
  · rw [List.getLast?_eq_getElem?]
    exact (hat path.length hpos (Nat.le_refl _)).2

namespace MainFound

variable (h : MainFound chain d)

include h

theorem numbered_take (n : Nat) : Numbered ((mainIds chain).take n) := by
  intro k id hk
  rw [List.getElem?_take] at hk
  split at hk
  · exact (h.numFromId_mainIds hk).1
  · cases hk

/-- Up to the main chain's part of a line the ids are looked up. -/
theorem synopsisId_main {r : SynopsisRange} {n : Nat} (hpos : 1 ≤ n) (hle : n ≤ chain.length)
    (hn : n ≤ r.nonForkHighBlockNum) :
    ∃ id, d.synopsisId r n = .ok id ∧ (mainIds chain)[n - 1]? = some id := by
  refine ⟨_, ?_, h.found n hpos hle⟩
  rw [Database.synopsisId, if_pos hn, (h.getBlockIdForNum hpos hle).1]

/-- The whole chain, for the null id. -/
theorem wellFormed_null (hlast : chain.length ≠ 0 → d.lastNonUndoableBlockNum ≤ chain.length)
    (hfits : (mainIds chain).length + after + 1 < 2 ^ 32) :
    WellFormed d (mainIds chain) after (d.getBlockchainSynopsis .null after) := by
  have hlength := length_mainIds chain
  by_cases hempty : chain = []
  · have hzero : d.headBlockNum = 0 := by
      rw [h.headBlockNum, hempty, List.length_nil]
    subst hempty
    refine ⟨[], ?_, fun id hid => absurd hid List.not_mem_nil, .nil, fun hne => absurd rfl hne,
      fun _ => rfl⟩
    simp only [Database.getBlockchainSynopsis, Database.synopsisRange, ne_eq, not_true_eq_false,
      if_false, hzero, if_true]
  · have hpos := List.length_pos_iff.mpr hempty
    refine wellFormed_of_range (r := ⟨d.lastNonUndoableBlockNum, d.headBlockNum, d.headBlockNum, []⟩)
      ?_ ?_ ?_ ?_ (.inl ⟨rfl, by have := hlast (by omega); omega⟩) (fun n hn hle => ?_) hfits
    · rw [Database.synopsisRange, if_neg (not_not.mpr rfl), if_neg (by rw [h.headBlockNum]; omega)]
    · have hall := h.numbered_take (mainIds chain).length
      rwa [List.take_length] at hall
    · exact List.ne_nil_of_length_pos (by omega)
    · rw [h.headBlockNum, hlength]
    · exact h.synopsisId_main hn (by omega) (by
        show n ≤ d.headBlockNum
        rw [h.headBlockNum]
        omega)

/-- The chain up to one of its blocks. -/
theorem wellFormed_main {n : Nat} (href : (mainIds chain)[n]? = some ref)
    (hfits : ((mainIds chain).take (n + 1)).length + after + 1 < 2 ^ 32) :
    WellFormed d ((mainIds chain).take (n + 1)) after (d.getBlockchainSynopsis ref after) := by
  have hmem := List.mem_of_getElem? href
  obtain ⟨hnum, hlt⟩ := h.numFromId_mainIds href
  have hlength : ((mainIds chain).take (n + 1)).length = n + 1 := by
    rw [List.length_take, length_mainIds]
    omega
  refine wellFormed_of_range (r := ⟨if numFromId ref < d.lastNonUndoableBlockNum then numFromId ref
    else d.lastNonUndoableBlockNum, numFromId ref, numFromId ref, []⟩) ?_ (h.numbered_take _) ?_ ?_ ?_
    (fun k hk hle => ?_) hfits
  · simp only [Database.synopsisRange, if_pos (h.ne_null hmem), h.isIncludedBlock_of_mem hmem]
  · exact List.ne_nil_of_length_pos (by omega)
  · rw [hnum, hlength]
  · dsimp only
    by_cases hold : numFromId ref < d.lastNonUndoableBlockNum
    · rw [if_pos hold]
      exact .inr ⟨by omega, by omega⟩
    · rw [if_neg hold]
      exact .inl ⟨rfl, by omega⟩
  · obtain ⟨id, hid, hat⟩ := h.synopsisId_main (r := ⟨_, numFromId ref, numFromId ref, []⟩) hk
      (by omega) (show k ≤ numFromId ref by omega)
    exact ⟨id, hid, by rw [List.getElem?_take_of_lt (by omega), hat]⟩

end MainFound

/-! ## A fork -/

section Fork

variable {f s : ForkItem} {first second : Branch}

/-- The items of a branch have consecutive numbers. -/
theorem num_of_branch (hpath : second.items.reverse <+: d.forkDb.lineage s) {k : Nat} {x : ForkItem}
    (hx : second.items[k]? = some x) : x.num = second.back.num + k := by
  obtain ⟨hlt, -⟩ := List.getElem?_eq_some_iff.mp hx
  have hlength : second.items.length = second.rest.length + 1 := rfl
  have hback := num_of_lineage (back_getElem hpath)
  have hreverse : second.items.reverse[second.rest.length - k]? = some x := by
    rw [List.getElem?_reverse (by omega), ← hx]
    congr 1
    omega
  have hline : (d.forkDb.lineage s)[second.rest.length - k]? = some x := by
    obtain ⟨below, hbelow⟩ := hpath
    rw [← hbelow, List.getElem?_append_left (by rw [List.length_reverse]; omega), hreverse]
  have htop := num_of_lineage hline
  omega

/-- A branch goes up to the item it is of. -/
theorem getLast_of_branch (hpath : second.items.reverse <+: d.forkDb.lineage s) :
    second.items.getLast? = some s := by
  obtain ⟨below, hbelow⟩ := hpath
  have hhead : second.items.reverse.head? = some s := by
    cases hitems : second.items.reverse with
    | nil => exact absurd (List.reverse_eq_nil_iff.mp hitems) (List.cons_ne_nil _ _)
    | cons i items =>
      rw [hitems] at hbelow
      exact congrArg some (List.cons.inj hbelow).1
  rw [← hhead, List.head?_reverse]

end Fork

namespace ForkBlock

variable (hfork : ForkBlock chain d ref a fork)

include hfork

/-- The fork's ids have the numbers after the block it leaves the chain at; the last is the block's. -/
theorem numbers : (∀ k id, fork[k]? = some id → numFromId id = a + k + 1) ∧
    fork.getLast? = some ref := by
  obtain ⟨f, s, first, second, -, hs, -, hmeet, hnum, rfl⟩ := hfork.branches
  have hback := hmeet.num
  refine ⟨fun k id hk => ?_, ?_⟩
  · rw [List.getElem?_map] at hk
    obtain ⟨x, hx, rfl⟩ := Option.map_eq_some_iff.mp hk
    have hxnum := num_of_branch hmeet.secondPath hx
    rw [ForkItem.id, numFromId_id]
    change x.num = _
    omega
  · rw [List.getLast?_map, getLast_of_branch hmeet.secondPath]
    exact congrArg some (ForkDatabase.fetchBlock_eq_some.mp hs).2

theorem ne_nil : fork ≠ [] := by
  rintro rfl
  have hlast := hfork.numbers.2
  cases hlast

theorem numFromId_ref : numFromId ref = a + fork.length := by
  have hpos := List.length_pos_iff.mpr hfork.ne_nil
  obtain ⟨hnumbers, hlast⟩ := hfork.numbers
  rw [List.getLast?_eq_getElem?] at hlast
  have := hnumbers _ _ hlast
  omega

theorem ref_ne_null : ref ≠ .null := by
  rintro rfl
  have hnum := hfork.numFromId_ref
  have hpos := List.length_pos_iff.mpr hfork.ne_nil
  rw [numFromId_null] at hnum
  omega

/-- The block it leaves the chain at is on the chain; below block 1 it is the null id. -/
theorem leaves : a + 1 ≤ chain.length ∧ ∃ f s first second,
    d.forkDb.fetchBranchFrom d.headBlockId ref = .ok (first, second) ∧
    first.back.data.previous = headIdOf (chain.drop (chain.length - a)) ∧
    fork = second.items.map (·.id) ∧ d.forkDb.Meeting f s first second := by
  obtain ⟨f, s, first, second, hf, hs, hmain, hmeet, hnum, rfl⟩ := hfork.branches
  have hback := back_getElem hmeet.firstPath
  have hdepth := num_of_lineage hback
  have htop := hmain.num
  obtain ⟨below, hline⟩ := d.forkDb.lineage_prefix f
  have hat : (f :: f.ancestors)[first.rest.length]? = some first.back := by
    rw [← hline, List.getElem?_append_left (List.getElem?_eq_some_iff.mp hback).1, hback]
  have hprevious := hmain.previous _ _ hat
  have hleft : first.rest.length + 1 = chain.length - a := by omega
  rw [hleft] at hprevious
  refine ⟨by omega, f, s, first, second, ?_, hprevious, rfl, hmeet⟩
  exact ((ForkDatabase.fetchBranchFrom_spec _ _ _).1 first second).mpr ⟨f, s, hf, hs, hmeet⟩

/-- A line up to a fork block has as many ids as the block's number says. -/
theorem length_path : ((mainIds chain).take a ++ fork).length = numFromId ref := by
  have hlt := hfork.leaves.1
  rw [hfork.numFromId_ref, List.length_append, List.length_take, length_mainIds]
  omega

end ForkBlock

/-- The last id of the line is the reference point. -/
theorem RefLine.getLast (h : RefLine chain d ref path) (hne : ref ≠ .null) :
    path.getLast? = some ref := by
  cases h with
  | null => exact absurd rfl hne
  | @main n _ href =>
    obtain ⟨hlt, -⟩ := List.getElem?_eq_some_iff.mp href
    rw [List.getLast?_eq_getElem?, List.length_take, Nat.min_eq_left (by omega),
      List.getElem?_take_of_lt (by omega), Nat.add_sub_cancel, href]
  | fork hfork => rw [List.getLast?_append_of_ne_nil _ hfork.ne_nil, hfork.numbers.2]

namespace MainFound

variable (h : MainFound chain d) (hfork : ForkBlock chain d ref a fork)

include h hfork

/-- The number of the block a fork leaves the chain at. -/
theorem numFromId_drop : (if headIdOf (chain.drop (chain.length - a)) = .null then 0
    else numFromId (headIdOf (chain.drop (chain.length - a)))) = a := by
  obtain ⟨hlt, -⟩ := hfork.leaves
  by_cases hzero : a = 0
  · rw [hzero, Nat.sub_zero, List.drop_length]
    rfl
  · obtain ⟨b, hb⟩ : ∃ b, chain[chain.length - a]? = some b :=
      ⟨_, List.getElem?_eq_getElem (by omega)⟩
    have hat : (mainIds chain)[a - 1]? = some b.id := by
      rw [mainIds, List.getElem?_map, List.getElem?_reverse (by omega),
        show chain.length - 1 - (a - 1) = chain.length - a by omega, hb, Option.map_some]
    rw [headIdOf_drop hb, if_neg (h.ne_null (List.mem_of_getElem? hat)),
      (h.numFromId_mainIds hat).1]
    omega

/-- The fork that `get_blockchain_synopsis` works with. -/
theorem forkRange_eq : d.forkRange ref = .ok ⟨d.lastNonUndoableBlockNum, a, a + fork.length, fork⟩ := by
  obtain ⟨-, f, s, first, second, hfetch, hprevious, hids, -⟩ := hfork.leaves
  have hhistory : d.getBlockIdsOnFork ref =
      .ok (fork.reverse ++ [headIdOf (chain.drop (chain.length - a))]) := by
    simp only [Database.getBlockIdsOnFork, hfetch]
    rw [hprevious, hids, List.map_reverse]
  have hlast : (fork.reverse ++ [headIdOf (chain.drop (chain.length - a))]).getLastD .null =
      headIdOf (chain.drop (chain.length - a)) := by
    rw [List.getLastD_eq_getLast?, List.getLast?_append_of_ne_nil _ (List.cons_ne_nil _ _)]
    rfl
  have hrecent : ¬ a < d.lastNonUndoableBlockNum := Nat.not_lt.mpr hfork.recent
  simp only [Database.forkRange, hhistory, hlast, List.dropLast_concat, List.reverse_reverse,
    h.numFromId_drop hfork, if_neg hrecent]

theorem numbered_path : Numbered ((mainIds chain).take a ++ fork) := by
  have hlt := hfork.leaves.1
  have htake : ((mainIds chain).take a).length = a := by
    rw [List.length_take, length_mainIds]
    omega
  intro k id hk
  by_cases hmain : k < a
  · rw [List.getElem?_append_left (by omega)] at hk
    exact h.numbered_take a k id hk
  · rw [List.getElem?_append_right (by omega), htake] at hk
    have := hfork.numbers.1 _ _ hk
    omega

/-- A fork block that is found to be one: its synopsis. -/
theorem wellFormed_other (hother : d.isIncludedBlock ref = .ok false)
    (hfits : ((mainIds chain).take a ++ fork).length + after + 1 < 2 ^ 32) :
    WellFormed d ((mainIds chain).take a ++ fork) after (d.getBlockchainSynopsis ref after) := by
  obtain ⟨hlt, -⟩ := hfork.leaves
  have hnum := hfork.numFromId_ref
  have hpos := List.length_pos_iff.mpr hfork.ne_nil
  have hrecent := hfork.recent
  have hlength := hfork.length_path
  have htake : ((mainIds chain).take a).length = a := by
    rw [List.length_take, length_mainIds]
    omega
  refine wellFormed_of_range (r := ⟨d.lastNonUndoableBlockNum, a, a + fork.length, fork⟩) ?_
    (h.numbered_path hfork) ?_ ?_ ?_ (fun n hn hle => ?_) hfits
  · simp only [Database.synopsisRange, if_pos hfork.ref_ne_null, hother, h.forkRange_eq hfork]
    rfl
  · exact List.ne_nil_of_length_pos (by omega)
  · rw [hlength, hnum]
  · exact .inl ⟨rfl, by omega⟩
  · by_cases hmain : n ≤ a
    · obtain ⟨id, hid, hat⟩ := h.synopsisId_main
        (r := ⟨d.lastNonUndoableBlockNum, a, a + fork.length, fork⟩) hn (by omega) hmain
      refine ⟨id, hid, ?_⟩
      rw [List.getElem?_append_left (by omega), List.getElem?_take_of_lt (by omega), hat]
    · obtain ⟨id, hid⟩ : ∃ id, fork[n - a - 1]? = some id :=
        ⟨_, List.getElem?_eq_getElem (by omega)⟩
      refine ⟨id, ?_, ?_⟩
      · simp only [Database.synopsisId, if_neg hmain, hid]
      · rw [List.getElem?_append_right (by omega), htake, Nat.sub_right_comm, hid]

/-- A fork that is not above the head is found to be one. -/
theorem isIncludedBlock_fork (hle : numFromId ref ≤ chain.length) :
    d.isIncludedBlock ref = .ok false := by
  have hnum := hfork.numFromId_ref
  have hpos := List.length_pos_iff.mpr hfork.ne_nil
  obtain ⟨hok, hmem⟩ := h.getBlockIdForNum (n := numFromId ref) (by omega) hle
  have hne : ref ≠ d.findBlockIdForNum (numFromId ref) := fun hsame =>
    hfork.other (hsame ▸ hmem)
  rw [Database.isIncludedBlock, hok]
  exact congrArg Except.ok (beq_eq_false_iff_ne.mpr hne)

theorem wellFormed_fork (hle : numFromId ref ≤ chain.length)
    (hfits : ((mainIds chain).take a ++ fork).length + after + 1 < 2 ^ 32) :
    WellFormed d ((mainIds chain).take a ++ fork) after (d.getBlockchainSynopsis ref after) :=
  h.wellFormed_other hfork (h.isIncludedBlock_fork hfork hle) hfits

omit h in
/-- A fork above the head is asked for where there is no number. -/
theorem not_wellFormed_of_higher (hnone : d.findBlockIdForNum (numFromId ref) = .null) :
    ¬ WellFormed d path after (d.getBlockchainSynopsis ref after) := by
  have hthrows : d.getBlockIdForNum (numFromId ref) = .error (.assertion "bid != block_id_type()") :=
    if_neg (not_not.mpr hnone)
  rintro ⟨ids, hok, -⟩
  simp only [Database.getBlockchainSynopsis, Database.synopsisRange, if_pos hfork.ref_ne_null,
    Database.isIncludedBlock, hthrows] at hok
  cases hok

/-- A fork block above the head that its number finds passes for one of the main chain: every id is
then looked up by its number. -/
theorem wellFormed_self_iff (hself : d.findBlockIdForNum (numFromId ref) = ref)
    (hfits : ((mainIds chain).take a ++ fork).length + after + 1 < 2 ^ 32) :
    WellFormed d ((mainIds chain).take a ++ fork) after (d.getBlockchainSynopsis ref after) ↔
      LiesOn ((mainIds chain).take a ++ fork)
        ((synopsisNumbers (numFromId ref) (numFromId ref + after) (numFromId ref + 1)
          (max d.lastNonUndoableBlockNum 1)).map d.findBlockIdForNum) := by
  obtain ⟨hlt, -⟩ := hfork.leaves
  have hnum := hfork.numFromId_ref
  have hpos := List.length_pos_iff.mpr hfork.ne_nil
  have hrecent := hfork.recent
  have hlength := hfork.length_path
  have hline := h.numbered_path hfork
  have hend := (RefLine.fork hfork).getLast hfork.ref_ne_null
  generalize (mainIds chain).take a ++ fork = path at hfits hlength hline hend ⊢
  obtain ⟨low, hlow⟩ : ∃ low, low = max d.lastNonUndoableBlockNum 1 := ⟨_, rfl⟩
  rw [← hlow, ← hlength]
  obtain ⟨r, hr⟩ : ∃ r : SynopsisRange, r =
      ⟨d.lastNonUndoableBlockNum, numFromId ref, numFromId ref, []⟩ := ⟨_, rfl⟩
  have hrange : d.synopsisRange ref = .ok (some r) := by
    have hincluded : d.isIncludedBlock ref = .ok true := by
      rw [Database.isIncludedBlock, Database.getBlockIdForNum, hself, if_pos hfork.ref_ne_null]
      exact congrArg Except.ok (beq_self_eq_true ref)
    have hold : ¬ numFromId ref < d.lastNonUndoableBlockNum := by omega
    simp only [Database.synopsisRange, if_pos hfork.ref_ne_null, hincluded, if_neg hold, hr]
  have hhigh : r.highBlockNum = path.length := by rw [hr, hlength]
  have hlook : ∀ n, n ≤ path.length → d.synopsisId r n =
      if d.findBlockIdForNum n = .null then
        .error (.database (.assertion "bid != block_id_type()"))
      else .ok (d.findBlockIdForNum n) := by
    intro n hn
    rw [Database.synopsisId, if_pos (by rw [hr]; exact hlength ▸ hn), Database.getBlockIdForNum]
    by_cases hnone : d.findBlockIdForNum n = .null
    · rw [if_neg (not_not.mpr hnone), if_pos hnone]
    · rw [if_pos hnone, if_neg hnone]
  have hstart : (if r.lowBlockNum = 0 then 1 else r.lowBlockNum) = low := by
    rw [hr, hlow]
    dsimp only
    split <;> omega
  have hrounds : path.length < low + (path.length + 1) := by omega
  obtain ⟨-, hbounds, -, -⟩ := synopsisNumbers_spec hfits (by omega) (by omega) hrounds
  have hloop : ∀ {ns}, ns = synopsisNumbers path.length (path.length + after) (path.length + 1) low →
      (∀ n ∈ ns, d.findBlockIdForNum n ≠ .null) →
      ∀ n ∈ ns, d.synopsisId r n = .ok (d.findBlockIdForNum n) := by
    rintro ns rfl hsome n hn
    rw [hlook n (hbounds n hn).2, if_neg (hsome n hn)]
  constructor
  · rintro ⟨ids, hok, hon, hrises, -, -⟩
    have hanswer : d.getBlockchainSynopsis ref after =
        d.synopsisLoop r (path.length + after) (path.length + 1) low := by
      simp only [Database.getBlockchainSynopsis, hrange, hstart, hhigh]
      rw [Nat.mod_eq_of_lt (by omega)]
    rw [hanswer] at hok
    have hsome : ∀ n ∈ synopsisNumbers path.length (path.length + after) (path.length + 1) low,
        d.findBlockIdForNum n ≠ .null := by
      intro n hn hnone
      have hthrows : ∃ e, d.synopsisLoop r (path.length + after) (path.length + 1) low = .error e := by
        apply synopsisLoop_throws
        rw [hhigh]
        exact ⟨n, hn, _, (hlook n (hbounds n hn).2).trans (if_pos hnone)⟩
      obtain ⟨e, he⟩ := hthrows
      rw [he] at hok
      cases hok
    have hids := hloop rfl hsome
    rw [← hhigh] at hids hfits hrounds
    have hreturns := synopsisLoop_returns hids hfits (by omega) (by omega) hrounds
    rw [hhigh] at hreturns
    rw [hreturns, Except.ok.injEq] at hok
    rw [hok]
    exact ⟨hon, hrises⟩
  · intro hlies
    have hsome : ∀ n ∈ synopsisNumbers path.length (path.length + after) (path.length + 1) low,
        d.findBlockIdForNum n ≠ .null := by
      intro n hn hnone
      have hat := hline _ _ (hlies.on _ (List.mem_map_of_mem hn))
      rw [hnone, numFromId_null] at hat
      omega
    refine wellFormed_of_ids hrange hhigh hstart ?_ ?_ (hloop rfl hsome) hlies ?_ ?_ hfits
    · rw [hlow]
      omega
    · exact List.ne_nil_of_length_pos (by omega)
    · have hfirst := (h.numFromId_mainIds (h.found low (by omega) (by omega))).1
      omega
    · rw [hend, hlength, hself]

end MainFound

/-! ## Every reference point -/

/-- No item of the fork database is higher than the chain where no push has thrown. -/
theorem Kept.numFromId_le (hd : Kept pushed chain d.settled) (hfork : ForkBlock chain d ref a fork) :
    numFromId ref ≤ chain.length := by
  obtain ⟨_, s, _, _, _, hs, _⟩ := hfork.branches
  obtain ⟨hmem, hid⟩ := ForkDatabase.fetchBlock_eq_some.mp hs
  have hlow := hd.forest.low s hmem
  rw [← hid, ForkItem.id, numFromId_id]
  exact hlow

/-- What decides whether a synopsis is well formed. Only above the head is there a question: there a
fork block's number has to find a block; and if it finds the fork block itself, then each number of the
synopsis has to find the id on the line. -/
structure Summarizable (d : Database) (path : List BlockId) (ref : BlockId) (after : Nat) : Prop where
  final : ref = .null → d.headBlockNum ≠ 0 → d.lastNonUndoableBlockNum ≤ d.headBlockNum
  found : d.headBlockNum < numFromId ref → d.findBlockIdForNum (numFromId ref) ≠ .null
  self : d.headBlockNum < numFromId ref → d.findBlockIdForNum (numFromId ref) = ref →
    LiesOn path ((synopsisNumbers (numFromId ref) (numFromId ref + after) (numFromId ref + 1)
      (max d.lastNonUndoableBlockNum 1)).map d.findBlockIdForNum)

/-- Below the head there is nothing to ask for. -/
theorem summarizable_of_le (hle : numFromId ref ≤ d.headBlockNum)
    (hfinal : d.lastNonUndoableBlockNum ≤ d.headBlockNum) : Summarizable d path ref after :=
  ⟨fun _ _ => hfinal, fun hhigh => absurd hhigh (Nat.not_lt.mpr hle),
    fun hhigh => absurd hhigh (Nat.not_lt.mpr hle)⟩

/-- Where the last irreversible block is above the head, there is no fork history to look in. -/
theorem not_wellFormed_null (hne : d.headBlockNum ≠ 0)
    (hfinal : d.headBlockNum < d.lastNonUndoableBlockNum) :
    ¬ WellFormed d path after (d.getBlockchainSynopsis .null after) := by
  rintro ⟨ids, hok, -⟩
  have hpos : d.lastNonUndoableBlockNum ≠ 0 := by omega
  have hnull : ¬ (BlockId.null ≠ BlockId.null) := not_not.mpr rfl
  simp only [Database.getBlockchainSynopsis, Database.synopsisRange, if_neg hnull, if_neg hne,
    if_neg hpos, Database.synopsisLoop, Database.synopsisId, if_neg (Nat.not_le.mpr hfinal),
    List.getElem?_nil] at hok
  cases hok

/-- In every run in which no push throws, every reference point can be summarized. -/
theorem ReturnedRun.summarizable {P : Database → SignedBlock → Prop} (hrun : ReturnedRun P pushed d) :
    ∃ chain, MainFound chain d ∧ ∀ ref path, RefLine chain d ref path →
      ∀ after, Summarizable d path ref after := by
  obtain ⟨hpending, chain, hkept⟩ := hrun.kept
  have hfound := hkept.mainFound hpending
  have hlast : d.lastNonUndoableBlockNum = d.headBlockNum - irreversibleBlockNum :=
    (hkept.final hpending).lastIrreversible
  refine ⟨chain, hfound, fun ref path href after => summarizable_of_le ?_ (by omega)⟩
  rw [hfound.headBlockNum]
  cases href with
  | null =>
    rw [numFromId_null]
    exact Nat.zero_le _
  | main href => exact (hfound.findBlockIdForNum_of_mem (List.mem_of_getElem? href)).2.1
  | fork hfork => exact hkept.numFromId_le hfork

end Chains

end NewsChain
