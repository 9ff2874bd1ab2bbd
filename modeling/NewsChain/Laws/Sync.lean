import NewsChain.Chain.Sync
import NewsChain.Laws.BlockLookup
import NewsChain.Laws.LinkedTree

/-!
# What a peer is served

A synopsis is read from its end, up to the first id that is null or on the main chain. An id that is
read on the way should not matter. It does where the block is known but is not on the main chain, and
its number is above the head: `get_block_id_for_num` throws where it finds nothing, and where it
finds that very block, the block passes for one of the main chain. And a block of the main chain is
passed over where it is not known or not found by its number.

So what counts is where the reading ends (`stopOf`) and where it should (`startOf`): `ReadsRight` is
the condition, and `getBlockIds_serves_iff` says that nothing else can go wrong.
-/

namespace NewsChain

section Chains

variable [Node] {pushed chain : List SignedBlock} {d : Database} {synopsis : List BlockId}
  {id : BlockId} {limit : Nat}

/-- The ids of a chain, by their numbers. -/
def mainIds (chain : List SignedBlock) : List BlockId := chain.reverse.map (·.id)

theorem length_mainIds (chain : List SignedBlock) : (mainIds chain).length = chain.length := by
  rw [mainIds, List.length_map, List.length_reverse]

/-- The main chain of a database: the blocks from the first one to the head. -/
structure MainNumbers (chain : List SignedBlock) (d : Database) : Prop where
  linked : LinkedChain chain
  room : chain.length < 2 ^ 32
  headBlockId : d.headBlockId = headIdOf chain
  headBlockNum : d.headBlockNum = chain.length

/-- Each block of the main chain is found by its number. -/
structure MainFound (chain : List SignedBlock) (d : Database) : Prop extends MainNumbers chain d where
  found : ∀ n, 1 ≤ n → n ≤ chain.length → (mainIds chain)[n - 1]? = some (d.findBlockIdForNum n)

/-- Each block of the main chain is known besides, and the head is not at the last number. -/
structure MainLookups (chain : List SignedBlock) (d : Database) : Prop extends MainFound chain d where
  known : ∀ id ∈ mainIds chain, d.isKnowBlock id = true
  below : chain.length + 1 < 2 ^ 32

namespace MainNumbers

variable (h : MainNumbers chain d)

include h

/-- Each id has the number it stands at. -/
theorem numFromId_mainIds {k : Nat} (hk : (mainIds chain)[k]? = some id) :
    numFromId id = k + 1 ∧ k < chain.length := by
  obtain ⟨hlt, -⟩ := List.getElem?_eq_some_iff.mp hk
  rw [length_mainIds] at hlt
  rw [mainIds, List.getElem?_map, List.getElem?_reverse hlt] at hk
  obtain ⟨b, hb, rfl⟩ := Option.map_eq_some_iff.mp hk
  have hroom := h.room
  rw [numFromId_id, h.linked.blockNum hb]
  omega

/-- Each id stands at its number. -/
theorem getElem?_mainIds (hid : id ∈ mainIds chain) :
    1 ≤ numFromId id ∧ numFromId id ≤ chain.length ∧
      (mainIds chain)[numFromId id - 1]? = some id := by
  obtain ⟨k, hk⟩ := List.mem_iff_getElem?.mp hid
  obtain ⟨hnum, hlt⟩ := h.numFromId_mainIds hk
  rw [hnum, Nat.add_sub_cancel]
  exact ⟨Nat.succ_pos k, hlt, hk⟩

theorem ne_null (hid : id ∈ mainIds chain) : id ≠ .null := by
  rintro rfl
  have hpos := (h.getElem?_mainIds hid).1
  rw [numFromId_null] at hpos
  omega

end MainNumbers

namespace MainFound

variable (h : MainFound chain d)

include h

/-- A number of the main chain finds its id. -/
theorem getBlockIdForNum {n : Nat} (hpos : 1 ≤ n) (hle : n ≤ chain.length) :
    d.getBlockIdForNum n = .ok (d.findBlockIdForNum n) ∧ d.findBlockIdForNum n ∈ mainIds chain := by
  have hmem := List.mem_of_getElem? (h.found n hpos hle)
  exact ⟨if_pos (h.ne_null hmem), hmem⟩

/-- An id of the main chain is found by its number. -/
theorem findBlockIdForNum_of_mem (hid : id ∈ mainIds chain) :
    1 ≤ numFromId id ∧ numFromId id ≤ chain.length ∧ d.findBlockIdForNum (numFromId id) = id := by
  obtain ⟨hpos, hle, hget⟩ := h.getElem?_mainIds hid
  have hfound := h.found (numFromId id) hpos hle
  rw [hget] at hfound
  exact ⟨hpos, hle, (Option.some.inj hfound).symm⟩

/-- It passes for a block of the main chain. -/
theorem isIncludedBlock_of_mem (hid : id ∈ mainIds chain) : d.isIncludedBlock id = .ok true := by
  obtain ⟨hpos, hle, hfind⟩ := h.findBlockIdForNum_of_mem hid
  rw [Database.isIncludedBlock, (h.getBlockIdForNum hpos hle).1, hfind]
  exact congrArg Except.ok (beq_self_eq_true id)

end MainFound

/-! ## Reading the synopsis -/

/-- An id that `get_block_ids` is to start from. -/
def startable (chain : List SignedBlock) (id : BlockId) : Bool :=
  decide (id = .null ∨ id ∈ mainIds chain)

theorem startable_iff : startable chain id = true ↔ id = .null ∨ id ∈ mainIds chain :=
  decide_eq_true_iff

/-- The last such id of a synopsis; the null id for an empty one. -/
def startOf (chain : List SignedBlock) (synopsis : List BlockId) : Option BlockId :=
  if synopsis = [] then some .null
  else synopsis.reverse.find? (startable chain)

/-- The ids after the last such id. -/
def passedOver (chain : List SignedBlock) (synopsis : List BlockId) : List BlockId :=
  synopsis.reverse.takeWhile (!startable chain ·)

/-- A known block for whose number `find_block_id_for_num` finds nothing, or the block itself. -/
def Database.Heeded (d : Database) (id : BlockId) : Prop :=
  d.isKnowBlock id = true ∧
    (d.findBlockIdForNum (numFromId id) = .null ∨ d.findBlockIdForNum (numFromId id) = id)

instance (d : Database) (id : BlockId) : Decidable (d.Heeded id) :=
  inferInstanceAs (Decidable (_ ∧ _))

/-- An id that `get_block_ids` does not pass over. -/
def Database.stops (d : Database) (id : BlockId) : Bool := decide (id = .null ∨ d.Heeded id)

theorem stops_iff : d.stops id = true ↔ id = .null ∨ d.Heeded id := decide_eq_true_iff

/-- The last such id of a synopsis; the null id for an empty one. -/
def Database.stopOf (d : Database) (synopsis : List BlockId) : Option BlockId :=
  if synopsis = [] then some .null
  else synopsis.reverse.find? d.stops

/-- What the claimed inventory is: from the start on, at most `limit` ids of consecutive numbers,
and how many are left after the last. -/
def Serves (chain : List SignedBlock) (synopsis : List BlockId) (limit : Nat)
    (answer : Except SyncExc (List BlockId × Nat)) : Prop :=
  match startOf chain synopsis with
  | none => answer = .error .peerIsOnAnUnreachableFork
  | some start => ∃ ids remaining, answer = .ok (ids, remaining) ∧
      ids = ((mainIds chain).drop (numFromId start - 1)).take limit ∧
      ∀ last ∈ ids.getLast?, remaining = chain.length - numFromId last

/-- The reading ends where it should, or at the null id where block 1 is next to be served anyhow;
and every number that is to be served finds its id. At the last number there is none to go on to. -/
structure RightStart (chain : List SignedBlock) (d : Database) (synopsis : List BlockId)
    (start : BlockId) : Prop where
  stop : d.stopOf synopsis = some start ∨
    d.stopOf synopsis = some .null ∧ numFromId start ≤ 1
  below : d.headBlockNum + 1 < 2 ^ 32 ∨ numFromId start ≤ 1
  found : ∀ n, 1 ≤ n → numFromId start ≤ n → n ≤ d.headBlockNum →
    (mainIds chain)[n - 1]? = some (d.findBlockIdForNum n)

/-- The synopsis is read as the claimed inventory says. -/
def ReadsRight (chain : List SignedBlock) (d : Database) (synopsis : List BlockId) : Prop :=
  match startOf chain synopsis with
  | none => d.stopOf synopsis = none
  | some start => RightStart chain d synopsis start

/-- What the reading makes of the id it ends at. -/
def Database.readTo (d : Database) : Option BlockId → Except SyncExc BlockId
  | none => .error .peerIsOnAnUnreachableFork
  | some id =>
    if id ≠ .null ∧ d.findBlockIdForNum (numFromId id) = .null then
      .error (.database (.assertion "bid != block_id_type()"))
    else .ok id

theorem lastKnownBlockId_eq (d : Database) (ids : List BlockId) :
    d.lastKnownBlockId ids = d.readTo (ids.find? d.stops) := by
  induction ids with
  | nil => rfl
  | cons id ids ih =>
    rw [Database.lastKnownBlockId]
    by_cases hnull : id = .null
    · rw [if_pos hnull, List.find?_cons_of_pos (stops_iff.mpr (.inl hnull)), Database.readTo,
        if_neg fun hid => hid.1 hnull]
    · rw [if_neg hnull]
      by_cases hheeded : d.Heeded id
      · obtain ⟨hknown, hfind⟩ := hheeded
        rw [if_pos hknown, List.find?_cons_of_pos (stops_iff.mpr (.inr ⟨hknown, hfind⟩)),
          Database.readTo, Database.isIncludedBlock, Database.getBlockIdForNum]
        by_cases hnone : d.findBlockIdForNum (numFromId id) = .null
        · rw [if_neg (not_not.mpr hnone), if_pos ⟨hnull, hnone⟩]
        · have hsame := hfind.resolve_left hnone
          rw [if_pos hnone, if_neg fun hid => hnone hid.2]
          simp only [hsame, beq_self_eq_true]
      · have hpass : ¬ d.stops id = true := fun hstops =>
          (stops_iff.mp hstops).elim hnull hheeded
        rw [List.find?_cons_of_neg hpass, ← ih]
        by_cases hknown : d.isKnowBlock id = true
        · -- Its number finds another block.
          have hfind : d.findBlockIdForNum (numFromId id) ≠ .null := fun hnone =>
            hheeded ⟨hknown, .inl hnone⟩
          have hother : d.findBlockIdForNum (numFromId id) ≠ id := fun hsame =>
            hheeded ⟨hknown, .inr hsame⟩
          rw [if_pos hknown, Database.isIncludedBlock, Database.getBlockIdForNum, if_pos hfind]
          simp only [beq_eq_false_iff_ne.mpr (Ne.symm hother)]
        · rw [if_neg hknown]

/-- `get_block_ids` on a chain that is not empty. -/
theorem getBlockIds_eq (hpos : d.headBlockNum ≠ 0) (synopsis : List BlockId) (limit : Nat) :
    d.getBlockIds synopsis limit =
      match d.readTo (d.stopOf synopsis) with
      | .error e => .error e
      | .ok id =>
        match d.collectBlockIds limit (d.headBlockNum + 2 * limit + 2) (numFromId id) [] with
        | .error e => .error e
        | .ok result => .ok (result, d.remainingItemCount result) := by
  have hnull : d.readTo (some .null) = .ok .null := by
    rw [Database.readTo, if_neg fun h => h.1 rfl]
  have hread : (if synopsis = [] ∨ synopsis = [.null] then .ok .null
      else d.lastKnownBlockId synopsis.reverse) = d.readTo (d.stopOf synopsis) := by
    by_cases hnil : synopsis = []
    · rw [if_pos (.inl hnil), Database.stopOf, if_pos hnil, hnull]
    · by_cases hone : synopsis = [.null]
      · rw [if_pos (.inr hone), Database.stopOf, if_neg hnil, hone, List.reverse_singleton,
          List.find?_cons_of_pos (stops_iff.mpr (.inl rfl)), hnull]
      · rw [if_neg (not_or.mpr ⟨hnil, hone⟩), Database.stopOf, if_neg hnil, lastKnownBlockId_eq]
  refine (if_neg hpos).trans ?_
  generalize (if synopsis = [] ∨ synopsis = [.null] then Except.ok BlockId.null
    else d.lastKnownBlockId synopsis.reverse) = read at hread ⊢
  subst hread
  rfl

/-! ## Collecting the ids -/

section Collecting

variable (h : MainNumbers chain d)

include h

/-- The ids from a number on, as many as fit, where each number finds its own. -/
theorem collectBlockIds_from {rounds num : Nat} {result : List BlockId} (hpos : 1 ≤ num)
    (hfound : ∀ n, num ≤ n → n ≤ chain.length →
      (mainIds chain)[n - 1]? = some (d.findBlockIdForNum n))
    (hle : num ≤ chain.length + 1) (hrounds : chain.length + 1 < num + rounds)
    (hfill : chain.length + 1 < 2 ^ 32 ∨ limit ≤ result.length + (chain.length + 1 - num)) :
    d.collectBlockIds limit rounds num result =
      .ok (result ++ ((mainIds chain).drop (num - 1)).take (limit - result.length)) := by
  have hroom := h.room
  induction rounds generalizing num result with
  | zero => omega
  | succ rounds ih =>
    rw [Database.collectBlockIds, h.headBlockNum]
    by_cases hmore : num ≤ chain.length ∧ result.length < limit
    · obtain ⟨hlast, hfull⟩ := hmore
      obtain ⟨hlt, hget⟩ := List.getElem?_eq_some_iff.mp (hfound num (Nat.le_refl num) hlast)
      have hok : d.getBlockIdForNum num = .ok (d.findBlockIdForNum num) :=
        if_pos (h.ne_null (List.mem_of_getElem? (hfound num (Nat.le_refl num) hlast)))
      have hdrop : (mainIds chain).drop (num - 1) =
          d.findBlockIdForNum num :: (mainIds chain).drop num := by
        rw [List.drop_eq_getElem_cons hlt, hget, Nat.sub_add_cancel hpos]
      have htake : limit - result.length = limit - (result.length + 1) + 1 := by omega
      rw [if_pos ⟨hlast, hfull⟩, if_pos (Nat.lt_of_lt_of_le Nat.zero_lt_one hpos), hok, hdrop, htake,
        List.take_succ_cons]
      dsimp only
      by_cases hwrap : num + 1 < 2 ^ 32
      · rw [Nat.mod_eq_of_lt hwrap, ih (by omega) (fun n hn => hfound n (by omega)) (by omega)
          (by omega) (by rw [List.length_append, List.length_singleton]; omega), List.length_append,
          List.length_singleton, List.append_assoc, Nat.add_sub_cancel]
        rfl
      · -- The last number, and there is no room for more.
        obtain ⟨rounds, rfl⟩ : ∃ k, rounds = k + 1 := ⟨rounds - 1, by omega⟩
        have hdone : ¬ ((num + 1) % 2 ^ 32 ≤ d.headBlockNum ∧
            (result ++ [d.findBlockIdForNum num]).length < limit) := by
          rw [List.length_append, List.length_singleton]
          omega
        rw [Database.collectBlockIds, if_neg hdone, show limit - (result.length + 1) = 0 by omega,
          List.take_zero]
    · rw [if_neg hmore]
      have hnone : ((mainIds chain).drop (num - 1)).take (limit - result.length) = [] := by
        by_cases hfull : result.length < limit
        · have hend : chain.length ≤ num - 1 := by
            by_contra hlast
            exact hmore ⟨by omega, hfull⟩
          rw [List.drop_of_length_le (by rw [length_mainIds]; exact hend), List.take_nil]
        · rw [Nat.sub_eq_zero_of_le (Nat.le_of_not_lt hfull), List.take_zero]
      rw [hnone, List.append_nil]

omit h in
/-- What is there stays; and only past the head is there an end before the limit. -/
theorem prefix_of_collectBlockIds {rounds num : Nat} {result ids : List BlockId} (hnum : num < 2 ^ 32)
    (hok : d.collectBlockIds limit rounds num result = .ok ids) :
    result <+: ids ∧ (ids.length < limit → d.headBlockNum + 1 < 2 ^ 32) := by
  induction rounds generalizing num result with
  | zero => cases hok
  | succ rounds ih =>
    have hnext : (num + 1) % 2 ^ 32 < 2 ^ 32 := Nat.mod_lt _ (by decide)
    rw [Database.collectBlockIds] at hok
    split at hok
    · split at hok
      · split at hok
        · obtain ⟨hgrown, hend⟩ := ih hnext hok
          exact ⟨(List.prefix_append _ _).trans hgrown, hend⟩
        · cases hok
      · exact ih hnext hok
    · rename_i hend
      cases hok
      exact ⟨List.prefix_rfl, fun hshort => by omega⟩

omit h in
/-- Each number finds what stands at its place. -/
theorem getElem?_of_collectBlockIds {rounds num n : Nat} {result ids : List BlockId}
    (hhead : d.headBlockNum < 2 ^ 32) (hpos : 1 ≤ num) (hn : num ≤ n) (hle : n ≤ d.headBlockNum)
    (hfit : result.length + (n - num) < limit)
    (hok : d.collectBlockIds limit rounds num result = .ok ids) :
    ids[result.length + (n - num)]? = some (d.findBlockIdForNum n) := by
  induction rounds generalizing num result with
  | zero => cases hok
  | succ rounds ih =>
    rw [Database.collectBlockIds, if_pos ⟨by omega, by omega⟩,
      if_pos (Nat.lt_of_lt_of_le Nat.zero_lt_one hpos), Database.getBlockIdForNum] at hok
    split at hok
    · rename_i id hid
      split at hid
      · cases hid
        by_cases hfirst : n = num
        · obtain ⟨more, rfl⟩ :=
            (prefix_of_collectBlockIds (Nat.mod_lt _ (by decide)) hok).1
          rw [hfirst, Nat.sub_self, Nat.add_zero, List.append_assoc,
            List.getElem?_append_right (Nat.le_refl _), Nat.sub_self]
          rfl
        · rw [Nat.mod_eq_of_lt (by omega)] at hok
          have hrest := ih (by omega) (by omega)
            (by rw [List.length_append, List.length_singleton]; omega) hok
          rw [List.length_append, List.length_singleton,
            show result.length + 1 + (n - (num + 1)) = result.length + (n - num) by omega] at hrest
          exact hrest
      · cases hid
    · cases hok

omit h in
/-- Number 0 adds nothing. -/
theorem getElem?_of_collected {rounds n k : Nat} {ids : List BlockId} (hhead : d.headBlockNum < 2 ^ 32)
    (hk : 1 ≤ k) (hn : n ≤ k) (hle : k ≤ d.headBlockNum) (hfit : k - max n 1 < limit)
    (hok : d.collectBlockIds limit (rounds + 1) n [] = .ok ids) :
    ids[k - max n 1]? = some (d.findBlockIdForNum k) := by
  by_cases hpos : 1 ≤ n
  · have hget := getElem?_of_collectBlockIds hhead hpos hn hle
      (by rw [List.length_nil]; omega) hok
    rwa [List.length_nil, Nat.zero_add, ← Nat.max_eq_left hpos] at hget
  · obtain rfl : n = 0 := by omega
    rw [Database.collectBlockIds, if_pos ⟨Nat.zero_le _, by rw [List.length_nil]; omega⟩,
      if_neg (Nat.lt_irrefl 0), Nat.mod_eq_of_lt (by decide)] at hok
    have hget := getElem?_of_collectBlockIds hhead (Nat.le_refl 1) hk hle
      (by rw [List.length_nil]; omega) hok
    rwa [List.length_nil, Nat.zero_add] at hget

/-! ## The answer -/

/-- An id of the main chain has as many ids after it as there are blocks above its own. -/
theorem remainingItemCount_eq {ids : List BlockId} (hids : ids ⊆ mainIds chain) :
    ∀ last ∈ ids.getLast?, d.remainingItemCount ids = chain.length - numFromId last := by
  intro last hlast
  have hle := (h.getElem?_mainIds (hids (List.mem_of_getLast? hlast))).2.1
  rw [Option.mem_def] at hlast
  simp only [Database.remainingItemCount, hlast, h.headBlockNum]
  split
  · rfl
  · omega

omit h in
theorem startable_of_startOf (hstart : startOf chain synopsis = some id) :
    startable chain id = true := by
  unfold startOf at hstart
  split at hstart
  · cases hstart
    exact startable_iff.mpr (.inl rfl)
  · exact List.find?_some hstart

theorem numFromId_le_of_startable (hid : startable chain id = true) :
    numFromId id ≤ chain.length := by
  rcases startable_iff.mp hid with rfl | hmain
  · rw [numFromId_null]
    exact Nat.zero_le _
  · exact (h.getElem?_mainIds hmain).2.1

/-- From a number of the chain on, or from 0, which adds nothing. -/
theorem collectBlockIds_eq {n : Nat} (hle : n ≤ chain.length)
    (hfound : ∀ k, 1 ≤ k → n ≤ k → k ≤ chain.length →
      (mainIds chain)[k - 1]? = some (d.findBlockIdForNum k))
    (hfill : chain.length + 1 < 2 ^ 32 ∨ limit ≤ chain.length ∧ n ≤ 1) :
    d.collectBlockIds limit (d.headBlockNum + 2 * limit + 2) n [] =
      .ok (((mainIds chain).drop (n - 1)).take limit) := by
  rw [h.headBlockNum]
  by_cases hpos : 1 ≤ n
  · rw [collectBlockIds_from h hpos (fun k hk => hfound k (by omega) hk) (by omega) (by omega)
      (by rw [List.length_nil]; omega)]
    rfl
  · -- Number 0 takes a round.
    obtain rfl : n = 0 := by omega
    rw [Database.collectBlockIds, h.headBlockNum]
    by_cases hfull : ([] : List BlockId).length < limit
    · rw [if_pos ⟨hle, hfull⟩, if_neg (Nat.lt_irrefl 0), Nat.mod_eq_of_lt (by decide),
        collectBlockIds_from h (Nat.le_refl 1) (fun k hk => hfound k hk (Nat.zero_le k)) (by omega)
          (by omega) (by rw [List.length_nil]; omega)]
      rfl
    · have hlimit : limit = 0 := Nat.eq_zero_of_not_pos hfull
      rw [if_neg fun hmore => hfull hmore.2, hlimit, List.take_zero]

/-- **Right reading, right answer.** -/
theorem serves_of_readsRight (hne : chain ≠ []) (hright : ReadsRight chain d synopsis)
    (hlimit : limit < 2 ^ 32) : Serves chain synopsis limit (d.getBlockIds synopsis limit) := by
  have hpos : d.headBlockNum ≠ 0 := by
    rw [h.headBlockNum]
    exact fun hzero => hne (List.length_eq_zero_iff.mp hzero)
  have hroom := h.room
  rw [getBlockIds_eq hpos]
  unfold ReadsRight at hright
  unfold Serves
  cases hof : startOf chain synopsis with
  | none =>
    rw [hof] at hright
    rw [hright]
    rfl
  | some start =>
    rw [hof] at hright
    obtain ⟨hstop, hbelow, hfound⟩ := hright
    rw [h.headBlockNum] at hbelow hfound
    have hstart := startable_iff.mp (startable_of_startOf hof)
    have hle := numFromId_le_of_startable h (startable_of_startOf hof)
    -- The id that is read, and the number it is served from.
    obtain ⟨id, hread, hid, hdrop, hlow⟩ : ∃ id, d.readTo (d.stopOf synopsis) = .ok id ∧
        numFromId id ≤ chain.length ∧ numFromId id - 1 = numFromId start - 1 ∧
        ∀ k, 1 ≤ k → numFromId id ≤ k → numFromId start ≤ k := by
      rcases hstop with hstop | ⟨hstop, hone⟩
      · refine ⟨start, ?_, hle, rfl, fun k _ hk => hk⟩
        rw [hstop, Database.readTo, if_neg]
        rintro ⟨hnull, hnone⟩
        have hmain := hstart.resolve_left hnull
        obtain ⟨hfirst, -, hget⟩ := h.getElem?_mainIds hmain
        have hsome := hfound _ hfirst (Nat.le_refl _) hle
        rw [hget, hnone, Option.some.injEq] at hsome
        exact hnull hsome
      · refine ⟨.null, ?_, ?_, ?_, fun k hk _ => Nat.le_trans hone hk⟩
        · rw [hstop, Database.readTo, if_neg fun hnull => hnull.1 rfl]
        · rw [numFromId_null]
          exact Nat.zero_le _
        · rw [numFromId_null]
          omega
    have hcollect : d.collectBlockIds limit (d.headBlockNum + 2 * limit + 2) (numFromId id) [] =
        .ok (((mainIds chain).drop (numFromId id - 1)).take limit) :=
      collectBlockIds_eq h hid (fun k hk hidk => hfound k hk (hlow k hk hidk)) (by omega)
    rw [hread]
    dsimp only
    rw [hcollect, hdrop]
    exact ⟨_, _, rfl, rfl, remainingItemCount_eq h fun i hi =>
      List.mem_of_mem_drop (List.mem_of_mem_take hi)⟩

omit h in
/-- Where the reading of an answer ended, and what was collected from there. -/
theorem exists_of_getBlockIds {ids : List BlockId} {remaining : Nat} (hpos : d.headBlockNum ≠ 0)
    (hok : d.getBlockIds synopsis limit = .ok (ids, remaining)) :
    ∃ id, d.stopOf synopsis = some id ∧
      (id ≠ .null → 1 ≤ numFromId id ∧ d.findBlockIdForNum (numFromId id) = id) ∧
      d.collectBlockIds limit (d.headBlockNum + 2 * limit + 2) (numFromId id) [] = .ok ids := by
  rw [getBlockIds_eq hpos] at hok
  cases hstop : d.stopOf synopsis with
  | none =>
    rw [hstop] at hok
    cases hok
  | some id =>
    rw [hstop, Database.readTo] at hok
    by_cases hthrows : id ≠ .null ∧ d.findBlockIdForNum (numFromId id) = .null
    · rw [if_pos hthrows] at hok
      cases hok
    · rw [if_neg hthrows] at hok
      dsimp only at hok
      refine ⟨id, rfl, fun hnull => ?_, ?_⟩
      · have hstops : d.stops id = true := by
          unfold Database.stopOf at hstop
          split at hstop
          · cases hstop
            exact absurd rfl hnull
          · exact List.find?_some hstop
        have hfind := ((stops_iff.mp hstops).resolve_left hnull).2.resolve_left fun hnone =>
          hthrows ⟨hnull, hnone⟩
        refine ⟨Nat.pos_of_ne_zero fun hzero => hnull ?_, hfind⟩
        rw [← hfind, hzero]
        rfl
      · cases hcollect : d.collectBlockIds limit (d.headBlockNum + 2 * limit + 2) (numFromId id) [] with
        | error e =>
          rw [hcollect] at hok
          cases hok
        | ok result =>
          rw [hcollect] at hok
          cases hok
          rfl

omit [Node] h in
/-- Two searches that would both have taken what the other one found. -/
theorem find?_eq_of_both {α : Type} {p q : α → Bool} {l : List α} {a b : α} (ha : l.find? p = some a)
    (hb : l.find? q = some b) (hqa : q a = true) (hpb : p b = true) : a = b := by
  induction l with
  | nil => cases ha
  | cons x l ih =>
    rw [List.find?_cons] at ha hb
    cases hp : p x <;> cases hq : q x <;> simp only [hp, hq] at ha hb
    · exact ih ha hb
    · cases hb
      rw [hp] at hpb
      cases hpb
    · cases ha
      rw [hq] at hqa
      cases hqa
    · cases ha
      cases hb
      rfl

/-- **Right answers, right reading.** -/
theorem readsRight_of_serves (hne : chain ≠ [])
    (hserves : ∀ limit < 2 ^ 32, Serves chain synopsis limit (d.getBlockIds synopsis limit)) :
    ReadsRight chain d synopsis := by
  have hlen := List.length_pos_iff.mpr hne
  have hpos : d.headBlockNum ≠ 0 := by
    rw [h.headBlockNum]
    omega
  have hroom := h.room
  unfold ReadsRight
  cases hof : startOf chain synopsis with
  | none =>
    have hnone := hserves 0 (by decide)
    simp only [Serves, hof, getBlockIds_eq hpos] at hnone
    cases hstop : d.stopOf synopsis with
    | none => rfl
    | some id =>
      rw [hstop, Database.readTo] at hnone
      split at hnone
      · rename_i e he
        split at he
        · cases he
          cases hnone
        · cases he
      · rw [Database.collectBlockIds, if_neg fun hmore => Nat.lt_irrefl 0 hmore.2] at hnone
        cases hnone
  | some start =>
    have hall := hserves chain.length hroom
    simp only [Serves, hof] at hall
    obtain ⟨ids, remaining, hanswer, hids, -⟩ := hall
    obtain ⟨id, hstop, hfind, hcollect⟩ := exists_of_getBlockIds hpos hanswer
    have hstart := startable_iff.mp (startable_of_startOf hof)
    have hlow := numFromId_le_of_startable h (startable_of_startOf hof)
    have hcount : ids.length = chain.length - (numFromId start - 1) := by
      rw [hids, List.length_take, List.length_drop, length_mainIds]
      omega
    have hat : ∀ n, 1 ≤ n → numFromId start ≤ n → n ≤ chain.length →
        ids[n - max (numFromId start) 1]? = (mainIds chain)[n - 1]? := by
      intro n hn hsn hle
      rw [hids, List.getElem?_take_of_lt (by omega), List.getElem?_drop]
      congr 1
      omega
    have hhead : d.headBlockNum = chain.length := h.headBlockNum
    have hnumbers : ∀ k, 1 ≤ k → numFromId id ≤ k → k ≤ chain.length →
        ids[k - max (numFromId id) 1]? = some (d.findBlockIdForNum k) := fun k hk hidk hle =>
      getElem?_of_collected (by omega) hk hidk (by omega) (by omega) hcollect
    -- The reading ended at the start, or at the null id.
    have hend : id = start ∨ id = .null ∧ numFromId start ≤ 1 := by
      by_cases hnull : id = .null
      · refine .inr ⟨hnull, ?_⟩
        have hlast := hnumbers chain.length hlen (by rw [hnull, numFromId_null]; omega)
          (Nat.le_refl _)
        have hlt := (List.getElem?_eq_some_iff.mp hlast).1
        rw [hnull, numFromId_null] at hlt
        omega
      · left
        obtain ⟨hfirst, hself⟩ := hfind hnull
        have hle : numFromId id ≤ chain.length := by
          by_contra hhigh
          rw [Database.collectBlockIds, if_neg fun hmore => hhigh (hhead ▸ hmore.1)] at hcollect
          cases hcollect
          rw [List.length_nil] at hcount
          omega
        have hzero := hnumbers _ hfirst (Nat.le_refl _) hle
        rw [hself, Nat.max_eq_left hfirst, Nat.sub_self] at hzero
        have hmain := hat (max (numFromId start) 1) (by omega) (by omega) (by omega)
        rw [Nat.sub_self, hzero] at hmain
        rcases hstart with rfl | hstart
        · -- The null id would have ended the reading, and `id` is on the main chain.
          unfold Database.stopOf at hstop
          unfold startOf at hof
          by_cases hnil : synopsis = []
          · rw [if_pos hnil] at hstop
            cases hstop
            rfl
          · rw [if_neg hnil] at hstop hof
            exact (find?_eq_of_both hof hstop (stops_iff.mpr (.inl rfl))
              (startable_iff.mpr (.inr (List.mem_of_getElem? hmain.symm)))).symm
        · obtain ⟨hpos', -, hget⟩ := h.getElem?_mainIds hstart
          rw [Nat.max_eq_left hpos', hget, Option.some.injEq] at hmain
          exact hmain
    have hsame : max (numFromId id) 1 = max (numFromId start) 1 := by
      rcases hend with rfl | ⟨rfl, hone⟩
      · rfl
      · rw [numFromId_null]
        omega
    refine ⟨?_, ?_, fun n hn hsn hle => ?_⟩
    · rcases hend with rfl | ⟨rfl, hone⟩
      · exact .inl hstop
      · exact .inr ⟨hstop, hone⟩
    · by_contra hwraps
      have hshort := (prefix_of_collectBlockIds (numFromId_lt id) hcollect).2 (by omega)
      omega
    · rw [hhead] at hle
      rw [← hat n hn hsn hle, ← hsame, hnumbers n hn (by omega) hle]

end Collecting

/-! ## Where every block is found -/

omit [Node] in
/-- What is found first, if it is there, before what is looked for. -/
theorem find?_of_takeWhile {α : Type} {p q : α → Bool} {l : List α}
    (h : ∃ a ∈ l.takeWhile (!p ·), q a = true) : ∃ b, l.find? q = some b ∧ p b = false := by
  induction l with
  | nil =>
    obtain ⟨a, ha, -⟩ := h
    cases ha
  | cons x l ih =>
    obtain ⟨a, ha, hqa⟩ := h
    cases hp : p x with
    | true =>
      rw [List.takeWhile_cons_of_neg (by rw [hp]; decide)] at ha
      cases ha
    | false =>
      rw [List.takeWhile_cons_of_pos (by rw [hp]; decide)] at ha
      cases hq : q x with
      | true => exact ⟨x, List.find?_cons_of_pos hq, hp⟩
      | false =>
        rw [List.find?_cons_of_neg (by rw [hq]; decide)]
        refine ih ⟨a, (List.mem_cons.mp ha).resolve_left ?_, hqa⟩
        rintro rfl
        rw [hq] at hqa
        cases hqa

omit [Node] in
/-- Two searches of which one takes what the other does, and nothing before. -/
theorem find?_eq_of_takeWhile {α : Type} {p q : α → Bool} {l : List α}
    (hpq : ∀ a, p a = true → q a = true) (h : ∀ a ∈ l.takeWhile (!p ·), ¬ q a = true) :
    l.find? q = l.find? p := by
  induction l with
  | nil => rfl
  | cons x l ih =>
    cases hp : p x with
    | true => rw [List.find?_cons_of_pos hp, List.find?_cons_of_pos (hpq x hp)]
    | false =>
      rw [List.takeWhile_cons_of_pos (by rw [hp]; decide)] at h
      rw [List.find?_cons_of_neg (h x List.mem_cons_self),
        List.find?_cons_of_neg (by rw [hp]; decide)]
      exact ih fun a ha => h a (List.mem_cons_of_mem _ ha)

/-- Where the main chain is known and found by its numbers, a synopsis is read right if nothing that is
passed over stops the reading. -/
theorem MainLookups.readsRight_iff (h : MainLookups chain d) (synopsis : List BlockId) :
    ReadsRight chain d synopsis ↔ ∀ id ∈ passedOver chain synopsis, ¬ d.Heeded id := by
  have hstartable : ∀ id, startable chain id = true → d.stops id = true := by
    intro id hid
    refine stops_iff.mpr ((startable_iff.mp hid).imp_right fun hmain => ⟨h.known id hmain, .inr ?_⟩)
    exact (h.findBlockIdForNum_of_mem hmain).2.2
  constructor
  · intro hright id hid hheeded
    have hne : synopsis ≠ [] := by
      rintro rfl
      cases hid
    obtain ⟨stop, hstop, hother⟩ := find?_of_takeWhile
      (q := d.stops) ⟨id, hid, stops_iff.mpr (.inr hheeded)⟩
    have hof : d.stopOf synopsis = some stop := by rw [Database.stopOf, if_neg hne, hstop]
    unfold ReadsRight at hright
    cases hstart : startOf chain synopsis with
    | none =>
      rw [hstart] at hright
      rw [hof] at hright
      cases hright
    | some start =>
      rw [hstart] at hright
      have hstops : startable chain stop = true := by
        rcases hright.stop with hsame | ⟨hnull, -⟩
        · rw [hof, Option.some.injEq] at hsame
          rw [hsame]
          exact startable_of_startOf hstart
        · rw [hof, Option.some.injEq] at hnull
          exact startable_iff.mpr (.inl hnull)
      rw [hstops] at hother
      cases hother
  · intro hpassed
    have hsame : d.stopOf synopsis = startOf chain synopsis := by
      rw [Database.stopOf, startOf]
      split
      · rfl
      · rename_i hne
        refine find?_eq_of_takeWhile hstartable fun id hid hstops => hpassed id hid ?_
        refine (stops_iff.mp hstops).resolve_left fun hnull => ?_
        have hnot := List.all_takeWhile (p := (!startable chain ·)) (l := synopsis.reverse)
        have := List.all_eq_true.mp hnot id hid
        rw [startable_iff.mpr (.inl hnull)] at this
        cases this
    unfold ReadsRight
    rw [hsame]
    cases hstart : startOf chain synopsis with
    | none => rfl
    | some start =>
      refine ⟨.inl (hsame.trans hstart), .inl ?_, fun n hn _ hle => h.found n hn ?_⟩
      · rw [h.headBlockNum]
        exact h.below
      · rw [← h.headBlockNum]
        exact hle

/-- What the main chain's inventory is where nothing else stops the reading. -/
theorem MainLookups.serves (h : MainLookups chain d) (hne : chain ≠ [])
    (hpassed : ∀ id ∈ passedOver chain synopsis, ¬ d.Heeded id) (hlimit : limit < 2 ^ 32) :
    Serves chain synopsis limit (d.getBlockIds synopsis limit) :=
  serves_of_readsRight h.toMainNumbers hne ((h.readsRight_iff synopsis).mpr hpassed) hlimit

/-- An id stands at the place of its block from the other end. -/
theorem getElem?_mainIds_reverse {k : Nat} (hk : k < chain.length) :
    (mainIds chain)[k]? = (chain[chain.length - (k + 1)]?).map (·.id) := by
  rw [mainIds, List.getElem?_map, List.getElem?_reverse hk, Nat.sub_sub, Nat.add_comm 1]

/-- A database in which no push has thrown finds the blocks of its main chain. -/
theorem Kept.mainFound (hd : Kept pushed chain d.settled) (hpending : Pending d) :
    MainFound chain d := by
  have hmain := hd.mainChain hpending
  refine ⟨⟨hmain.linked, hd.main.onChain.length_lt, hmain.headBlockId, hmain.headBlockNum⟩,
    fun n hpos hle => ?_⟩
  obtain ⟨c, hc⟩ : ∃ c, chain[chain.length - n]? = some c :=
    ⟨_, List.getElem?_eq_getElem (by omega)⟩
  rw [getElem?_mainIds_reverse (by omega), Nat.sub_add_cancel hpos, hc, Option.map_some,
    hd.findBlockIdForNum hpending hpos hle hc]

/-- The lookups of a database in which no push has thrown. -/
theorem Kept.mainLookups (hd : Kept pushed chain d.settled) (hpending : Pending d)
    (hroom : chain.length + 1 < 2 ^ 32) : MainLookups chain d := by
  refine ⟨hd.mainFound hpending, fun id hid => ?_, hroom⟩
  obtain ⟨k, hk⟩ := List.mem_iff_getElem?.mp hid
  obtain ⟨hlt, -⟩ := List.getElem?_eq_some_iff.mp hk
  rw [length_mainIds] at hlt
  rw [getElem?_mainIds_reverse hlt] at hk
  obtain ⟨c, hc, rfl⟩ := Option.map_eq_some_iff.mp hk
  have hnum : numFromId c.id = k + 1 := by
    rw [numFromId_id, hd.main.onChain.blockNum hc]
    omega
  have hblock : (d.fetchBlockById c.id).isSome = true := by
    unfold Database.fetchBlockById
    cases hfork : d.forkDb.fetchBlock c.id with
    | some i => rfl
    | none =>
      -- A block that is not in the fork database is irreversible.
      have hold : k + 1 ≤ chain.length - irreversibleBlockNum := by
        by_contra hrecent
        obtain ⟨a, ha, -, hadata⟩ := hd.forest.item_of_num (n := k + 1) (by omega) (by omega) (by
          simp only [ForkDatabase.cacheDepth, irreversibleBlockNum] at hrecent ⊢
          omega)
        rw [hc] at hadata
        have hsome : d.forkDb.fetchBlock c.id = some a := ForkDatabase.fetchBlock_eq_some.mpr
          ⟨ha, by rw [ForkItem.id, ← Option.some.inj hadata]⟩
        rw [hfork] at hsome
        cases hsome
      have hread := hd.readBlockByNum (n := k + 1) (by omega) hold hc
      have hlog : d.blockLog.readBlockByNum (k + 1) = some c := hread
      simp only [hnum, hlog, Option.filter_some, beq_self_eq_true, if_true, Option.isSome_some]
  exact hblock

/-- In every run in which no push throws, the blocks of the main chain are known and found. -/
theorem ReturnedRun.mainLookups {P : Database → SignedBlock → Prop} (h : ReturnedRun P pushed d)
    (hroom : d.headBlockNum + 1 < 2 ^ 32) : ∃ chain, MainLookups chain d := by
  obtain ⟨hpending, chain, hkept⟩ := h.kept
  rw [(hkept.mainChain hpending).headBlockNum] at hroom
  exact ⟨chain, hkept.mainLookups hpending hroom⟩

end Chains

end NewsChain
