import NewsChain.Chain.Evaluator
import NewsChain.Chain.MerkleRoot
import NewsChain.Lib.PairTree

/-!
# What a merkle root binds

The loops of `caculate_merkle_root` compute `merkleRoot`, and `merkleRoot` is the hash of the value
of the tree that pairs neighbours. So a root binds the digests of the transactions, their order
and their number, as far as the hash tells apart what the trees hash.

The digests are finitely many, so no hash tells all inputs apart. What is asked of the hash is
asked of the inputs that occur, over a class of transaction lists (`HashesApart`).
-/

namespace NewsChain

variable [Env]

/-! ## The levels -/

theorem pairUp_eq (ds : List Digest) : pairUp ds = pairNeighbours Env.hashPair ds := by
  fun_induction pairNeighbours Env.hashPair ds with
  | case1 => rfl
  | case2 => rfl
  | case3 a b rest ih => rw [← ih, pairUp]

theorem merkleReduce_eq {fuel : Nat} {ds : List Digest} {d : Digest}
    (h : climb Env.hashPair fuel ds = some d) : merkleReduce fuel ds = d := by
  induction fuel generalizing ds with
  | zero =>
    match ds, h with
    | [_], h => exact Option.some.inj h
  | succ fuel ih =>
    match ds, h with
    | [_], h => exact Option.some.inj h
    | a :: b :: rest, h =>
      show merkleReduce fuel (pairUp (a :: b :: rest)) = d
      rw [pairUp_eq]
      exact ih h

/-- The tree whose value is hashed to the root. -/
def merkleTree (transactions : List SignedTransaction) : Option (PairTree Digest) :=
  PairTree.ofList (transactions.map Env.merkleDigest)

theorem merkleRoot_eq {ts : List SignedTransaction} {t : PairTree Digest}
    (h : merkleTree ts = some t) : merkleRoot ts = Env.hashDigest (t.fold Env.hashPair) := by
  have hne : ts ≠ [] := by
    rintro rfl
    cases h
  have hclimb := PairTree.fold_ofList Env.hashPair (ts.map Env.merkleDigest)
  rw [show PairTree.ofList (ts.map Env.merkleDigest) = some t from h, Option.map_some,
    List.length_map] at hclimb
  rw [merkleRoot, if_neg (by simpa using hne), merkleReduce_eq hclimb.symm]

/-! ## The loops -/

/-- The first loop ends only if the counter can reach the number of transactions. -/
theorem length_lt_of_digestLoop {ts : List SignedTransaction} {fuel : Nat} {i : UInt32}
    {ids ids' : List Digest} (h : digestLoop ts fuel i ids = some ids') :
    ts.length < 2 ^ 32 := by
  induction fuel generalizing i ids with
  | zero => cases h
  | succ fuel ih =>
    rw [digestLoop] at h
    split at h
    · obtain ⟨t, -, h⟩ := Option.bind_eq_some_iff.mp h
      exact ih h
    · have := i.toNat_lt
      omega

/-- The first loop writes the digests of the transactions from `i` on. -/
theorem digestLoop_eq {ts : List SignedTransaction} (hts : ts.length < 2 ^ 32) {fuel : Nat}
    {i : UInt32} {ids : List Digest} (hids : ids.length = ts.length) (hi : i.toNat ≤ ts.length)
    (hfuel : ts.length - i.toNat < fuel) :
    digestLoop ts fuel i ids =
      some (ids.take i.toNat ++ (ts.drop i.toNat).map Env.merkleDigest) := by
  induction fuel generalizing i ids with
  | zero => omega
  | succ fuel ih =>
    rw [digestLoop]
    by_cases hlt : i.toNat < ts.length
    · have hnext : (i + 1).toNat = i.toNat + 1 := by
        rw [UInt32.toNat_add, UInt32.toNat_one]
        omega
      rw [if_pos hlt, List.getElem?_eq_getElem hlt, Option.bind_eq_bind, Option.bind_some,
        ih (by rw [List.length_set, hids]) (by omega) (by omega), hnext,
        List.drop_eq_getElem_cons hlt, List.map_cons, List.take_succ_eq_append_getElem (by simpa [hids]),
        List.take_set_of_le (le_refl _), List.getElem_set_self]
      simp
    · rw [if_neg hlt, List.take_of_length_le (by omega), List.drop_eq_nil_of_le (by omega)]
      simp

omit [Env] in
/-- What stands behind the first `n` digests is read at `n`. -/
theorem getElem?_behind {front back : List Digest} {d : Digest} {n : Nat}
    (h : n = front.length) : (front ++ d :: back)[n]? = some d := by
  subst h
  simp

/-- The loop over a level turns the digests up to `max` into pairs. In front of what is not read
yet are the pairs made so far and what is left of the digests they were made from. -/
theorem levelLoop_eq {max : UInt32} {rest : List Digest} {fuel : Nat} {i k : UInt32}
    {made gap tail : List Digest} (hk : k.toNat = made.length)
    (hi : i.toNat = made.length + gap.length) (hmax : max.toNat = i.toNat + rest.length)
    (heven : rest.length % 2 = 0) (hfuel : rest.length / 2 < fuel) :
    ∃ k' gap', levelLoop max fuel i k (made ++ gap ++ rest ++ tail) =
        some (k', made ++ pairNeighbours Env.hashPair rest ++ gap' ++ tail) ∧
      k'.toNat = made.length + (pairNeighbours Env.hashPair rest).length ∧
      max.toNat = k'.toNat + gap'.length := by
  induction fuel generalizing rest i k made gap with
  | zero => omega
  | succ fuel ih =>
    rw [levelLoop]
    match rest with
    | [] =>
      have hstop : ¬ i < max := by
        rw [UInt32.lt_iff_toNat_lt, hmax]
        simp
      refine ⟨k, gap, ?_, ?_, ?_⟩
      · rw [if_neg hstop, pairNeighbours, List.append_nil, List.append_nil]
      · simpa [pairNeighbours] using hk
      · rw [hmax, hi, hk]
        rfl
    | [_] => simp at heven
    | a :: b :: rest =>
      simp only [List.length_cons] at hmax heven hfuel
      have hlast := max.toNat_lt
      have hlt : i < max := by
        rw [UInt32.lt_iff_toNat_lt]
        omega
      have hone : (i + 1).toNat = i.toNat + 1 := by
        rw [UInt32.toNat_add, UInt32.toNat_one]
        omega
      have htwo : (i + 2).toNat = i.toNat + 2 := by
        rw [UInt32.toNat_add, show (2 : UInt32).toNat = 2 from rfl]
        omega
      have hnext : (k + 1).toNat = k.toNat + 1 := by
        rw [UInt32.toNat_add, UInt32.toNat_one]
        omega
      have ha : (made ++ gap ++ a :: b :: rest ++ tail)[i.toNat]? = some a := by
        rw [List.append_assoc, List.cons_append]
        exact getElem?_behind (by simpa using hi)
      have hb : (made ++ gap ++ a :: b :: rest ++ tail)[(i + 1).toNat]? = some b := by
        rw [show made ++ gap ++ a :: b :: rest ++ tail =
          (made ++ gap ++ [a]) ++ b :: (rest ++ tail) by simp]
        exact getElem?_behind (by simp [hone, hi, Nat.add_assoc])
      -- the pair goes where the first digest of the gap was, or where `a` was when there is none
      have hset : (made ++ gap ++ a :: b :: rest ++ tail).set k.toNat (Env.hashPair a b) =
          (made ++ [Env.hashPair a b]) ++ (gap ++ [a, b]).tail ++ rest ++ tail := by
        rw [hk]
        cases gap <;> simp
      obtain ⟨k', gap', hrun, hk', hgap'⟩ := @ih rest (i + 2) (k + 1)
        (made ++ [Env.hashPair a b]) (gap ++ [a, b]).tail
        (by simp [hnext, hk]) (by simp [htwo, hi]; omega) (by omega) (by omega) (by omega)
      refine ⟨k', gap', ?_, ?_, hgap'⟩
      · rw [if_pos hlt, ha, Option.bind_eq_bind, Option.bind_some, hb, Option.bind_some, hset, hrun]
        simp [pairNeighbours]
      · rw [hk', pairNeighbours]
        simp only [List.length_append, List.length_cons, List.length_nil]
        omega

omit [Env] in
/-- A level is full pairs and at most one digest more. -/
theorem exists_pairs_odd (level : List Digest) :
    ∃ front odd, level = front ++ odd ∧ front.length % 2 = 0 ∧
      odd.length = level.length % 2 ∧ front.length = level.length - level.length % 2 := by
  refine ⟨level.take (level.length - level.length % 2), level.drop (level.length - level.length % 2),
    (List.take_append_drop _ _).symm, ?_, ?_, ?_⟩
  · rw [List.length_take]
    omega
  · rw [List.length_drop]
    omega
  · rw [List.length_take]
    omega

/-- **The loop over the levels reduces the digests.** What is behind the current level is left over
from the levels before. -/
theorem hashLoop_eq {fuel : Nat} {level tail : List Digest} (hne : level ≠ [])
    (hlen : level.length < 2 ^ 32) (hfuel : level.length < fuel) :
    ∃ ids d, hashLoop fuel level.length (level ++ tail) = some ids ∧ ids[0]? = some d ∧
      climb Env.hashPair fuel level = some d := by
  induction fuel generalizing level tail with
  | zero => omega
  | succ fuel ih =>
    rw [hashLoop]
    match hlevel : level with
    | [d] => exact ⟨d :: tail, d, by simp, rfl, rfl⟩
    | a :: b :: rest =>
      rw [← hlevel] at hlen hfuel ⊢
      have htwo : 1 < level.length := by simp [hlevel]
      have hclimb : climb Env.hashPair (fuel + 1) level =
          climb Env.hashPair fuel (pairNeighbours Env.hashPair level) := by
        rw [hlevel]
        rfl
      obtain ⟨front, odd, hsplit, heven, hodd, hfront⟩ := exists_pairs_odd level
      have hmax : (UInt32.ofNat (level.length - level.length % 2)).toNat = front.length := by
        rw [hfront]
        exact UInt32.toNat_ofNat_of_lt' (by simp only [UInt32.size]; omega)
      obtain ⟨k, gap, hrun, hk, hgap⟩ := @levelLoop_eq _
        (UInt32.ofNat (level.length - level.length % 2)) front fuel 0 0 [] [] (odd ++ tail)
        rfl rfl (by simp [hmax]) heven (by omega)
      simp only [List.nil_append, List.length_nil, Nat.zero_add] at hrun hk
      rw [hmax] at hgap
      have hnext := length_pairNeighbours Env.hashPair level
      have hids : level ++ tail = front ++ (odd ++ tail) := by
        rw [← List.append_assoc, ← hsplit]
      simp only [if_pos htwo, Nat.and_one_is_mod, hids, hrun, hmax, Option.bind_eq_bind,
        Option.bind_some]
      rcases Nat.mod_two_eq_zero_or_one level.length with hmod | hmod
      · obtain rfl := List.eq_nil_of_length_eq_zero (hodd.trans hmod)
        obtain rfl : level = front := hsplit.trans (List.append_nil _)
        obtain ⟨ids, d, hrest, hd, hc⟩ := @ih (pairNeighbours Env.hashPair level)
          (gap ++ tail) (List.ne_nil_of_length_pos (by omega)) (by omega) (by omega)
        refine ⟨ids, d, ?_, hd, hclimb.trans hc⟩
        rw [if_neg (by omega), hk, ← hrest]
        simp
      · obtain ⟨x, rfl⟩ := List.length_eq_one_iff.mp (hodd.trans hmod)
        have hpairs : pairNeighbours Env.hashPair level =
            pairNeighbours Env.hashPair front ++ [x] := by
          rw [hsplit, pairNeighbours_append _ heven]
          rfl
        have hlast : (pairNeighbours Env.hashPair front ++ gap ++ ([x] ++ tail))[front.length]? =
            some x := getElem?_behind (by rw [List.length_append, ← hk, ← hgap])
        -- the odd digest takes the place of the first digest left over, or keeps its own
        have hset : (pairNeighbours Env.hashPair front ++ gap ++ ([x] ++ tail)).set k.toNat x =
            pairNeighbours Env.hashPair level ++ ((gap ++ [x]).tail ++ tail) := by
          rw [hk, hpairs]
          cases gap <;> simp
        have hsucc : (k + 1).toNat = (pairNeighbours Env.hashPair level).length := by
          rw [UInt32.toNat_add, UInt32.toNat_one, hk, hpairs, List.length_append]
          have := congrArg List.length hpairs
          simp only [List.length_append, List.length_cons, List.length_nil] at this ⊢
          omega
        obtain ⟨ids, d, hrest, hd, hc⟩ := @ih (pairNeighbours Env.hashPair level)
          ((gap ++ [x]).tail ++ tail) (List.ne_nil_of_length_pos (by omega)) (by omega)
          (by omega)
        refine ⟨ids, d, ?_, hd, hclimb.trans hc⟩
        rw [if_pos hmod, hlast, Option.bind_some, hset, hsucc, hrest]

/-! More fuel does not change an answer. -/

theorem digestLoop_mono {ts : List SignedTransaction} {fuel fuel' : Nat} {i : UInt32}
    {ids r : List Digest} (hle : fuel ≤ fuel') (h : digestLoop ts fuel i ids = some r) :
    digestLoop ts fuel' i ids = some r := by
  induction fuel generalizing fuel' i ids with
  | zero => cases h
  | succ fuel ih =>
    obtain ⟨fuel', rfl⟩ := Nat.exists_eq_add_of_lt hle
    rw [digestLoop] at h ⊢
    split at h
    · rw [if_pos ‹_›]
      obtain ⟨t, ht, h⟩ := Option.bind_eq_some_iff.mp h
      exact Option.bind_eq_some_iff.mpr ⟨t, ht, ih (by omega) h⟩
    · rwa [if_neg ‹_›]

theorem levelLoop_mono {max : UInt32} {fuel fuel' : Nat} {i k : UInt32} {ids : List Digest}
    {r : UInt32 × List Digest} (hle : fuel ≤ fuel') (h : levelLoop max fuel i k ids = some r) :
    levelLoop max fuel' i k ids = some r := by
  induction fuel generalizing fuel' i k ids with
  | zero => cases h
  | succ fuel ih =>
    obtain ⟨fuel', rfl⟩ := Nat.exists_eq_add_of_lt hle
    rw [levelLoop] at h ⊢
    split at h
    · rw [if_pos ‹_›]
      obtain ⟨a, ha, h⟩ := Option.bind_eq_some_iff.mp h
      obtain ⟨b, hb, h⟩ := Option.bind_eq_some_iff.mp h
      exact Option.bind_eq_some_iff.mpr ⟨a, ha, Option.bind_eq_some_iff.mpr ⟨b, hb, ih (by omega) h⟩⟩
    · rwa [if_neg ‹_›]

theorem hashLoop_mono {fuel fuel' count : Nat} {ids r : List Digest} (hle : fuel ≤ fuel')
    (h : hashLoop fuel count ids = some r) : hashLoop fuel' count ids = some r := by
  induction fuel generalizing fuel' count ids with
  | zero => cases h
  | succ fuel ih =>
    obtain ⟨fuel', rfl⟩ := Nat.exists_eq_add_of_lt hle
    rw [hashLoop] at h ⊢
    split at h
    · rw [if_pos ‹_›]
      obtain ⟨⟨k, ids'⟩, hlevel, h⟩ := Option.bind_eq_some_iff.mp h
      refine Option.bind_eq_some_iff.mpr ⟨⟨k, ids'⟩, levelLoop_mono (by omega) hlevel, ?_⟩
      dsimp only at h ⊢
      split at h
      · rw [if_pos ‹_›]
        obtain ⟨last, hlast, h⟩ := Option.bind_eq_some_iff.mp h
        exact Option.bind_eq_some_iff.mpr ⟨last, hlast, ih (by omega) h⟩
      · rw [if_neg ‹_›]
        exact ih (by omega) h
    · rwa [if_neg ‹_›]

theorem caculateMerkleRoot_mono {ts : List SignedTransaction} {fuel fuel' : Nat} {root : Digest}
    (hle : fuel ≤ fuel') (h : caculateMerkleRoot fuel ts = some root) :
    caculateMerkleRoot fuel' ts = some root := by
  unfold caculateMerkleRoot at h ⊢
  split at h
  · rwa [if_pos ‹_›]
  · rw [if_neg ‹_›]
    obtain ⟨ids, hids, h⟩ := Option.bind_eq_some_iff.mp h
    obtain ⟨ids', hids', h⟩ := Option.bind_eq_some_iff.mp h
    exact Option.bind_eq_some_iff.mpr ⟨ids, digestLoop_mono hle hids,
      Option.bind_eq_some_iff.mpr ⟨ids', hashLoop_mono hle hids', h⟩⟩

/-- **The function computes the root** of every list its counter can run through, -/
theorem caculateMerkleRoot_eq {ts : List SignedTransaction} (hlen : ts.length < 2 ^ 32)
    {fuel : Nat} (hfuel : ts.length < fuel) : caculateMerkleRoot fuel ts = some (merkleRoot ts) := by
  unfold caculateMerkleRoot
  by_cases hnil : ts.length = 0
  · obtain rfl := List.eq_nil_of_length_eq_zero hnil
    simp [merkleRoot]
  · obtain ⟨ids, d, hrun, hd, hclimb⟩ := @hashLoop_eq _ fuel
      (ts.map Env.merkleDigest) [] (by simpa using hnil) (by simpa using hlen)
      (by simpa using hfuel)
    rw [List.append_nil, List.length_map] at hrun
    rw [if_neg hnil, digestLoop_eq hlen List.length_replicate (Nat.zero_le _) (by simpa using hfuel)]
    simp only [UInt32.toNat_zero, List.take_zero, List.drop_zero, List.nil_append,
      Option.bind_eq_bind, Option.bind_some, List.length_map, hrun, hd]
    rw [merkleRoot, if_neg (by simpa using hnil),
      @merkleReduce_fuel _ _ fuel _ (by simp) (by simp; omega), merkleReduce_eq hclimb]
    rfl

/-- and answers for no other. -/
theorem length_lt_of_caculateMerkleRoot {ts : List SignedTransaction} {fuel : Nat} {root : Digest}
    (h : caculateMerkleRoot fuel ts = some root) : ts.length < 2 ^ 32 := by
  unfold caculateMerkleRoot at h
  split at h
  case isTrue hnil => omega
  case isFalse =>
    obtain ⟨ids, hids, -⟩ := Option.bind_eq_some_iff.mp h
    exact length_lt_of_digestLoop hids

/-- What the function returns is the root. -/
theorem eq_merkleRoot {ts : List SignedTransaction} {fuel : Nat} {root : Digest}
    (h : caculateMerkleRoot fuel ts = some root) : root = merkleRoot ts := by
  have hmore := caculateMerkleRoot_mono (Nat.le_add_right fuel (ts.length + 1)) h
  rw [caculateMerkleRoot_eq (length_lt_of_caculateMerkleRoot h) (by omega)] at hmore
  exact (Option.some.inj hmore).symm

/-! ## Equal roots -/

/-- The hash tells apart what is hashed for the roots of a class of transaction lists: the pairs
inside their trees and the values of the trees. It makes no digest of a transaction out of a pair,
and no zero digest. -/
structure HashesApart (lists : Set (List SignedTransaction)) : Prop where
  pairs : ∀ ts ∈ lists, ∀ ts' ∈ lists, ∀ t ∈ merkleTree ts, ∀ t' ∈ merkleTree ts',
    ∀ p ∈ t.pairs Env.hashPair, ∀ q ∈ t'.pairs Env.hashPair,
      Env.hashPair p.1 p.2 = Env.hashPair q.1 q.2 → p = q
  leaves : ∀ ts ∈ lists, ∀ x ∈ ts, ∀ ts' ∈ lists, ∀ t' ∈ merkleTree ts',
    ∀ p ∈ t'.pairs Env.hashPair, Env.merkleDigest x ≠ Env.hashPair p.1 p.2
  tops : ∀ ts ∈ lists, ∀ ts' ∈ lists, ∀ t ∈ merkleTree ts, ∀ t' ∈ merkleTree ts',
    Env.hashDigest (t.fold Env.hashPair) = Env.hashDigest (t'.fold Env.hashPair) →
      t.fold Env.hashPair = t'.fold Env.hashPair
  nonzero : ∀ ts ∈ lists, ∀ t ∈ merkleTree ts, Env.hashDigest (t.fold Env.hashPair) ≠ 0

theorem merkleTree_isSome {ts : List SignedTransaction} (hne : ts ≠ []) :
    ∃ t, merkleTree ts = some t :=
  PairTree.ofList_isSome (by simpa using hne)

variable {lists : Set (List SignedTransaction)}

theorem HashesApart.merkleRoot_ne_zero (h : HashesApart lists) {ts : List SignedTransaction}
    (hts : ts ∈ lists) (hne : ts ≠ []) : merkleRoot ts ≠ 0 := by
  obtain ⟨t, ht⟩ := merkleTree_isSome hne
  rw [merkleRoot_eq ht]
  exact h.nonzero ts hts t ht

/-- Equal roots have equal trees under them. -/
theorem HashesApart.merkleTree_eq (h : HashesApart lists) {ts ts' : List SignedTransaction}
    (hts : ts ∈ lists) (hts' : ts' ∈ lists) {t t' : PairTree Digest} (ht : merkleTree ts = some t)
    (ht' : merkleTree ts' = some t') (hroot : merkleRoot ts = merkleRoot ts') : t = t' := by
  rw [merkleRoot_eq ht, merkleRoot_eq ht'] at hroot
  refine PairTree.eq_of_fold_eq
    (P := fun a b => (a, b) ∈ t.pairs Env.hashPair ∨ (a, b) ∈ t'.pairs Env.hashPair)
    (L := fun d => d ∈ t.leaves ∨ d ∈ t'.leaves) ?_ ?_ (fun _ hp => .inl hp) (fun _ hp => .inr hp)
    (fun _ ha => .inl ha) (fun _ ha => .inr ha) (h.tops ts hts ts' hts' t ht t' ht' hroot)
  · intro a b c d hab hcd heq
    suffices (a, b) = (c, d) from ⟨(Prod.mk.inj this).1, (Prod.mk.inj this).2⟩
    rcases hab with hab | hab <;> rcases hcd with hcd | hcd
    · exact h.pairs ts hts ts hts t ht t ht _ hab _ hcd heq
    · exact h.pairs ts hts ts' hts' t ht t' ht' _ hab _ hcd heq
    · exact h.pairs ts' hts' ts hts t' ht' t ht _ hab _ hcd heq
    · exact h.pairs ts' hts' ts' hts' t' ht' t' ht' _ hab _ hcd heq
  · intro a b c hc hab
    have hleaf : ∃ us ∈ lists, ∃ x ∈ us, Env.merkleDigest x = c := by
      rw [PairTree.leaves_ofList ht, PairTree.leaves_ofList ht'] at hc
      rcases hc with hc | hc
      · exact ⟨ts, hts, List.mem_map.mp hc⟩
      · exact ⟨ts', hts', List.mem_map.mp hc⟩
    obtain ⟨us, hus, x, hx, rfl⟩ := hleaf
    rcases hab with hab | hab
    · exact h.leaves us hus x hx ts hts t ht _ hab
    · exact h.leaves us hus x hx ts' hts' t' ht' _ hab

/-- **The root binds the transactions.** Where the hash tells apart what is hashed, two lists for
which the function returns equal roots have equal digests, in content, order and number. And the
function returns, for every list its counters can run through, the hash of the value of the tree
that pairs neighbours level by level. -/
theorem caculateMerkleRoot_binds (h : HashesApart lists) :
    (∀ ts ∈ lists, ∀ ts' ∈ lists, ∀ fuel fuel' root, caculateMerkleRoot fuel ts = some root →
      caculateMerkleRoot fuel' ts' = some root →
        ts.map Env.merkleDigest = ts'.map Env.merkleDigest) ∧
    (∀ ts : List SignedTransaction, ts ≠ [] → ts.length < 2 ^ 32 →
      ∃ t, PairTree.ofList (ts.map Env.merkleDigest) = some t ∧
        ∀ fuel, ts.length < fuel →
          caculateMerkleRoot fuel ts = some (Env.hashDigest (t.fold Env.hashPair))) := by
  constructor
  · intro ts hts ts' hts' fuel fuel' root hrun hrun'
    have hroot : merkleRoot ts = merkleRoot ts' := by
      rw [← eq_merkleRoot hrun, ← eq_merkleRoot hrun']
    by_cases hnil : ts = []
    · subst hnil
      by_cases hnil' : ts' = []
      · rw [hnil']
      · exact absurd hroot.symm (h.merkleRoot_ne_zero hts' hnil')
    · by_cases hnil' : ts' = []
      · subst hnil'
        exact absurd hroot (h.merkleRoot_ne_zero hts hnil)
      · obtain ⟨t, ht⟩ := merkleTree_isSome hnil
        obtain ⟨t', ht'⟩ := merkleTree_isSome hnil'
        rw [← PairTree.leaves_ofList ht, ← PairTree.leaves_ofList ht',
          h.merkleTree_eq hts hts' ht ht' hroot]
  · intro ts hne hlen
    obtain ⟨t, ht⟩ := merkleTree_isSome hne
    refine ⟨t, ht, fun fuel hfuel => ?_⟩
    rw [caculateMerkleRoot_eq hlen hfuel, merkleRoot_eq ht]

omit [Env] in
/-- What holds of the pairs of a list is decided along the list, not over all digests. -/
instance decidableForallPairs (pairs : List (Digest × Digest)) (P : Digest × Digest → Prop)
    [DecidablePred P] : Decidable (∀ p ∈ pairs, P p) :=
  List.decidableBAll P pairs

omit [Env] in
/-- Two and three transactions, the first of them in common. -/
theorem caculateMerkleRoot_binds_unitTransfers :
    let ts := [unitTransfer 10, unitTransfer 11]
    let ts' := [unitTransfer 10, unitTransfer 11, unitTransfer 12]
    @caculateMerkleRoot smallNode.toEnv 4 ts ≠ @caculateMerkleRoot smallNode.toEnv 4 ts' := by
  intro ts ts' heq
  let _ : Env := smallNode.toEnv
  have hapart : HashesApart {us | us ∈ [ts, ts']} := by
    constructor <;> simp only [Set.mem_ofPred_eq] <;> decide +kernel
  have hrun : (caculateMerkleRoot 4 ts).isSome := by decide +kernel
  obtain ⟨root, hroot⟩ := Option.isSome_iff_exists.mp hrun
  have hdigests := (@caculateMerkleRoot_binds smallNode.toEnv _ hapart).1 ts (.head _) ts'
    (.tail _ (.head _)) 4 4 root hroot (heq ▸ hroot)
  exact absurd (congrArg List.length hdigests) (by decide)

end NewsChain
