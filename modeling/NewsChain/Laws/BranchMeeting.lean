import NewsChain.Laws.ForkTree

/-!
# Where two branches meet

`fetch_branch_from` walks two lines of items down: the higher one to the number of the lower, then
both in step until the previous ids agree. The lines are the items whose weak pointers still lock
(`lineage`), and down a line the numbers fall by one. So whatever the shape of the tree, the
result is determined by the two lines: `Meeting` states it without the walk, and the function
returns exactly where some pair of one number has the same previous id.
-/

namespace NewsChain

variable [Env]

namespace ForkDatabase

variable {fdb : ForkDatabase} {f s x y : ForkItem}

/-- The two branches of two items: the upper parts of their lines, of which the last items have one
number and one previous id and no pair of one number above them has. -/
structure Meeting (fdb : ForkDatabase) (f s : ForkItem) (first second : Branch) : Prop where
  firstPath : first.items.reverse <+: fdb.lineage f
  secondPath : second.items.reverse <+: fdb.lineage s
  num : first.back.num = second.back.num
  previous : first.back.data.previous = second.back.data.previous
  apart : ∀ x ∈ first.rest, ∀ y ∈ second.rest, x.num = y.num → x.data.previous ≠ y.data.previous

/-! ## Items of a line -/

theorem mem_ancestors_of_lineage (h : x ∈ fdb.lineage f) : x ∈ f :: f.ancestors :=
  (fdb.lineage_prefix f).subset h

theorem num_le_of_lineage (h : x ∈ fdb.lineage f) : x.num ≤ f.num :=
  ForkItem.num_le_of_mem (mem_ancestors_of_lineage h)

/-- Two items of a line with one number are one. -/
theorem eq_of_lineage (hx : x ∈ fdb.lineage f) (hy : y ∈ fdb.lineage f) (h : x.num = y.num) :
    x = y :=
  ForkItem.ancestor_unique (mem_ancestors_of_lineage hx) (mem_ancestors_of_lineage hy) h

/-- Where an item stands in a line is its distance to the top. -/
theorem num_of_lineage {k : Nat} (h : (fdb.lineage f)[k]? = some x) : f.num = x.num + k :=
  num_of_follows (fdb.lineage_follows f) rfl h

/-- The end of a path down a line. -/
theorem back_getElem {br : Branch} (hpath : br.items.reverse <+: fdb.lineage f) :
    (fdb.lineage f)[br.rest.length]? = some br.back := by
  obtain ⟨below, hline⟩ := hpath
  rw [← hline, Branch.items, List.reverse_cons, List.append_assoc]
  simp

/-- An item of a line that is above the end of a path down it is on the path. -/
theorem mem_rest_of_path {br : Branch} (hpath : br.items.reverse <+: fdb.lineage f)
    (hx : x ∈ fdb.lineage f) (hlt : br.back.num < x.num) : x ∈ br.rest := by
  obtain ⟨k, hk⟩ := List.mem_iff_getElem?.mp hx
  have hxnum := num_of_lineage hk
  have hbnum := num_of_lineage (back_getElem hpath)
  obtain ⟨below, hline⟩ := hpath
  rw [← hline, Branch.items, List.reverse_cons, List.append_assoc,
    List.getElem?_append_left (by rw [List.length_reverse]; omega)] at hk
  exact List.mem_reverse.mp (List.mem_of_getElem? hk)

theorem back_mem_of_path {br : Branch} (hpath : br.items.reverse <+: fdb.lineage f) :
    br.back ∈ fdb.lineage f :=
  hpath.subset (List.mem_reverse.mpr (.head _))

/-- A path is known by its end. -/
theorem path_unique {br br' : Branch} (hpath : br.items.reverse <+: fdb.lineage f)
    (hpath' : br'.items.reverse <+: fdb.lineage f) (h : br.back = br'.back) : br = br' := by
  have hlength : br.rest.length = br'.rest.length := by
    have hnum := num_of_lineage (back_getElem hpath)
    have hnum' := num_of_lineage (back_getElem hpath')
    rw [h] at hnum
    omega
  have hitems : br.items = br'.items := List.reverse_inj.mp
    ((List.prefix_of_prefix_length_le hpath hpath' (by simp [Branch.items, hlength])).eq_of_length
      (by simp [Branch.items, hlength]))
  obtain ⟨back, rest⟩ := br
  obtain ⟨back', rest'⟩ := br'
  obtain ⟨rfl, rfl⟩ := List.cons.inj hitems
  rfl

/-! ## The walk -/

/-- Going down stops above the end, if an item as low as the number is there. -/
theorem descend_returns {assertion : String} {num : Nat} {items branch : List ForkItem} (hx : x ∈ items)
    (hle : x.num ≤ num) : ∃ r, descend assertion num items branch = .ok r := by
  induction items generalizing branch with
  | nil => cases hx
  | cons i items ih =>
    rw [descend]
    split
    case isTrue hlt =>
      rcases List.mem_cons.mp hx with rfl | hx
      · omega
      · exact ih hx
    case isFalse => exact ⟨_, rfl⟩

/-- Going down in step stops where the items have one previous id. -/
theorem meet_returns {fs ss first second : List ForkItem} {k : Nat} (hx : fs[k]? = some x)
    (hy : ss[k]? = some y) (h : x.data.previous = y.data.previous) :
    ∃ r, meet fs ss first second = .ok r := by
  induction k generalizing fs ss first second with
  | zero =>
    cases fs with
    | nil => cases hx
    | cons f fs =>
      cases ss with
      | nil => cases hy
      | cons s ss =>
        obtain rfl : f = x := by simpa using hx
        obtain rfl : s = y := by simpa using hy
        exact ⟨_, by rw [meet, if_neg (not_not.mpr h)]⟩
  | succ k ih =>
    cases fs with
    | nil => cases hx
    | cons f fs =>
      cases ss with
      | nil => cases hy
      | cons s ss =>
        rw [meet]
        split
        · exact ih (by simpa using hx) (by simpa using hy)
        · exact ⟨_, rfl⟩

/-- What the first two loops leave: both lines from one number on, with what is above it
collected. One of the two lines is not above the other and is left whole. -/
structure Leveled (fdb : ForkDatabase) (f s fnext snext : ForkItem)
    (fabove fbelow sabove sbelow : List ForkItem) : Prop where
  firstLine : fdb.lineage f = fabove ++ fnext :: fbelow
  secondLine : fdb.lineage s = sabove ++ snext :: sbelow
  num : fnext.num = snext.num
  firstAbove : ∀ x ∈ fabove, s.num < x.num
  secondAbove : ∀ y ∈ sabove, f.num < y.num

/-- A line cut at the first item that is not above a number starts there at the number, or is cut
nowhere. -/
theorem cut_of_lineage {num : Nat} {above below : List ForkItem}
    (hline : fdb.lineage f = above ++ x :: below) (hle : x.num ≤ num)
    (habove : ∀ i ∈ above, num < i.num) : x.num = num ∨ above = [] ∧ x = f := by
  have hx : (fdb.lineage f)[above.length]? = some x := by simp [hline]
  have hxnum := num_of_lineage hx
  rcases List.eq_nil_or_concat above with rfl | ⟨pre, last, rfl⟩
  · right
    refine ⟨rfl, ?_⟩
    simp only [lineage, List.nil_append, List.cons.injEq] at hline
    exact hline.1.symm
  · left
    have hlast : (fdb.lineage f)[pre.length]? = some last := by simp [hline]
    have hlastnum := num_of_lineage hlast
    have hlt := habove last (by simp)
    simp only [List.concat_eq_append, List.length_append, List.length_singleton] at hxnum
    omega

theorem leveled_of_descend {fs firsts ss seconds : List ForkItem}
    (hdf : descend "first_branch" s.num (fdb.lineage f) [] = .ok (fs, firsts))
    (hds : descend "second_branch" (fs.headD f).num (fdb.lineage s) [] = .ok (ss, seconds)) :
    ∃ fnext snext fbelow sbelow, fs = fnext :: fbelow ∧ ss = snext :: sbelow ∧
      fdb.Leveled f s fnext snext firsts.reverse fbelow seconds.reverse sbelow := by
  obtain ⟨fabove, fnext, fbelow, hfl, hfirsts, hfs, hfnum, hfabove⟩ := descend_eq_ok hdf
  obtain ⟨sabove, snext, sbelow, hsl, hseconds, hss, hsnum, hsabove⟩ := descend_eq_ok hds
  rw [hfs, List.headD_cons] at hsnum hsabove
  rw [hfs] at hfl
  rw [hss] at hsl
  have hfirsts : firsts.reverse = fabove := by simp [hfirsts]
  have hseconds : seconds.reverse = sabove := by simp [hseconds]
  refine ⟨fnext, snext, fbelow, sbelow, hfs, hss, ?_⟩
  rw [hfirsts, hseconds]
  rcases cut_of_lineage hfl hfnum hfabove with hf | ⟨rfl, rfl⟩
  · rcases cut_of_lineage hsl hsnum hsabove with hs | ⟨rfl, rfl⟩
    · refine ⟨hfl, hsl, hs.symm, hfabove, fun y hy => ?_⟩
      have hmem : y ∈ fdb.lineage s := by
        rw [hsl]
        exact List.mem_append_left _ hy
      have hle := num_le_of_lineage hmem
      have hlt := hsabove y hy
      omega
    · exact ⟨hfl, hsl, hf, hfabove, by simp⟩
  · rcases cut_of_lineage hsl hsnum hsabove with hs | ⟨rfl, rfl⟩
    · exact ⟨hfl, hsl, hs.symm, by simp, hsabove⟩
    · exact ⟨hfl, hsl, by omega, by simp, by simp⟩

/-- In a line cut in two, what stands at a distance below the cut has that much less of a number. -/
theorem num_of_cut {above below : List ForkItem} {next : ForkItem} {k : Nat}
    (hline : fdb.lineage f = above ++ next :: below) (hx : (next :: below)[k]? = some x) :
    next.num = x.num + k := by
  have hcut : (fdb.lineage f).drop above.length = next :: below := by simp [hline]
  have hnext : (fdb.lineage f)[above.length]? = some next := by simp [hline]
  have hat : (fdb.lineage f)[above.length + k]? = some x := by
    rw [← List.getElem?_drop, hcut, hx]
  have := num_of_lineage hnext
  have := num_of_lineage hat
  omega

/-- The last loop, from one number on, ends in the meeting. -/
theorem Leveled.meeting {fnext snext : ForkItem} {firsts seconds fbelow sbelow : List ForkItem}
    {first second : Branch}
    (hl : fdb.Leveled f s fnext snext firsts.reverse fbelow seconds.reverse sbelow)
    (h : meet (fnext :: fbelow) (snext :: sbelow) firsts seconds = .ok (first, second)) :
    fdb.Meeting f s first second := by
  obtain ⟨fpre, spre, frest, srest, hfs, hss, ha, hb, hsame, hpre⟩ := meet_eq_ok h
  have hfline : fdb.lineage f = firsts.reverse ++ (fpre ++ first.back :: frest) := by
    rw [hl.firstLine, hfs]
  have hsline : fdb.lineage s = seconds.reverse ++ (spre ++ second.back :: srest) := by
    rw [hl.secondLine, hss]
  have hfnum : fnext.num = first.back.num + fpre.length :=
    num_of_cut hl.firstLine (by rw [hfs]; simp)
  have hsnum : snext.num = second.back.num + spre.length :=
    num_of_cut hl.secondLine (by rw [hss]; simp)
  have hlength := hpre.length_eq
  have hnum := hl.num
  refine ⟨⟨frest, ?_⟩, ⟨srest, ?_⟩, by omega, hsame, ?_⟩
  · rw [hfline, Branch.items, ha]
    simp
  · rw [hsline, Branch.items, hb]
    simp
  · intro x hx y hy hxy
    rw [ha, List.mem_append, List.mem_reverse] at hx
    rw [hb, List.mem_append, List.mem_reverse] at hy
    have hxs : x ∈ fdb.lineage f := by
      rw [hfline]
      rcases hx with hx | hx <;> simp [hx]
    have hys : y ∈ fdb.lineage s := by
      rw [hsline]
      rcases hy with hy | hy <;> simp [hy]
    have hxle := num_le_of_lineage hxs
    have hyle := num_le_of_lineage hys
    rcases hx with hx | hx
    · rcases hy with hy | hy
      · obtain ⟨j, hj⟩ := List.mem_iff_getElem?.mp hx
        obtain ⟨k, hk⟩ := List.mem_iff_getElem?.mp hy
        obtain ⟨hjlt, hjx⟩ := List.getElem?_eq_some_iff.mp hj
        obtain ⟨hklt, hky⟩ := List.getElem?_eq_some_iff.mp hk
        have hxnum : fnext.num = x.num + j :=
          num_of_cut hl.firstLine (by rw [hfs, List.getElem?_append_left hjlt, hj])
        have hynum : snext.num = y.num + k :=
          num_of_cut hl.secondLine (by rw [hss, List.getElem?_append_left hklt, hk])
        obtain rfl : j = k := by omega
        have := hpre.get hjlt hklt
        simpa only [List.get_eq_getElem, hjx, hky] using this
      · have := hl.secondAbove y (List.mem_reverse.mpr hy)
        omega
    · have := hl.firstAbove x (List.mem_reverse.mpr hx)
      omega

/-- What the function returns is a meeting, -/
theorem meeting_of_fetchBranchFrom {a b : BlockId} {first second : Branch}
    (h : fdb.fetchBranchFrom a b = .ok (first, second)) :
    ∃ f s, fdb.fetchBlock a = some f ∧ fdb.fetchBlock b = some s ∧
      fdb.Meeting f s first second := by
  simp only [fetchBranchFrom] at h
  split at h
  case h_1 => cases h
  case h_2 f hf =>
    split at h
    case h_1 => cases h
    case h_2 s hs =>
      split at h
      case h_1 => cases h
      case h_2 fs firsts hdf =>
        split at h
        case h_1 => cases h
        case h_2 ss seconds hds =>
          obtain ⟨fnext, snext, fbelow, sbelow, rfl, rfl, hlevel⟩ := leveled_of_descend hdf hds
          exact ⟨f, s, hf, hs, hlevel.meeting h⟩

/-- and it returns wherever two items of one number on the lines have one previous id. -/
theorem fetchBranchFrom_returns {a b : BlockId} (hf : fdb.fetchBlock a = some f)
    (hs : fdb.fetchBlock b = some s) (hx : x ∈ fdb.lineage f) (hy : y ∈ fdb.lineage s)
    (hnum : x.num = y.num) (hsame : x.data.previous = y.data.previous) :
    ∃ first second, fdb.fetchBranchFrom a b = .ok (first, second) := by
  have hyle := num_le_of_lineage hy
  have hfirst : ∃ r, ForkDatabase.descend "first_branch" s.num (fdb.lineage f) [] = .ok r :=
    descend_returns hx (by omega)
  obtain ⟨⟨fs, firsts⟩, hdf⟩ := hfirst
  obtain ⟨fabove, fnext, fbelow, hfl, -, rfl, -, hfabove⟩ := descend_eq_ok hdf
  have hxcut : x ∈ fnext :: fbelow := by
    rw [hfl] at hx
    refine (List.mem_append.mp hx).resolve_left fun habove => ?_
    have := hfabove x habove
    omega
  obtain ⟨j, hj⟩ := List.mem_iff_getElem?.mp hxcut
  have hxnum := num_of_cut hfl hj
  have hsecond : ∃ r, ForkDatabase.descend "second_branch" fnext.num (fdb.lineage s) [] = .ok r :=
    descend_returns hy (by omega)
  obtain ⟨⟨ss, seconds⟩, hds⟩ := hsecond
  obtain ⟨fnext', snext, fbelow', sbelow, hfs, rfl, hlevel⟩ := leveled_of_descend hdf hds
  obtain ⟨rfl, rfl⟩ := List.cons.inj hfs
  have hycut : y ∈ snext :: sbelow := by
    have hline := hlevel.secondLine
    rw [hline] at hy
    refine (List.mem_append.mp hy).resolve_left fun habove => ?_
    have := hlevel.secondAbove y habove
    have := num_le_of_lineage hx
    omega
  obtain ⟨k, hk⟩ := List.mem_iff_getElem?.mp hycut
  have hynum := num_of_cut hlevel.secondLine hk
  have hlevelnum := hlevel.num
  obtain rfl : j = k := by omega
  have hmeets : ∃ r, ForkDatabase.meet (fnext :: fbelow) (snext :: sbelow) firsts seconds = .ok r :=
    meet_returns hj hk hsame
  obtain ⟨⟨first, second⟩, hmeet⟩ := hmeets
  refine ⟨first, second, ?_⟩
  simp only [fetchBranchFrom, hf, hs, hdf, List.headD_cons, hds, hmeet]

/-! ## One meeting -/

/-- Two items of one number with one previous id are not above the meeting. -/
theorem Meeting.num_le {first second : Branch} (h : fdb.Meeting f s first second)
    (hx : x ∈ fdb.lineage f) (hy : y ∈ fdb.lineage s) (hnum : x.num = y.num)
    (hsame : x.data.previous = y.data.previous) : x.num ≤ first.back.num := by
  by_contra hlt
  have hback := h.num
  exact h.apart x (mem_rest_of_path h.firstPath hx (by omega)) y
    (mem_rest_of_path h.secondPath hy (by omega)) hnum hsame

/-- Two lines have one meeting. -/
theorem Meeting.unique {first second first' second' : Branch} (h : fdb.Meeting f s first second)
    (h' : fdb.Meeting f s first' second') : first = first' ∧ second = second' := by
  have hle := h'.num_le (back_mem_of_path h.firstPath) (back_mem_of_path h.secondPath) h.num
    h.previous
  have hle' := h.num_le (back_mem_of_path h'.firstPath) (back_mem_of_path h'.secondPath) h'.num
    h'.previous
  have hnum := h.num
  have hnum' := h'.num
  have hfirst : first.back = first'.back := eq_of_lineage (back_mem_of_path h.firstPath)
    (back_mem_of_path h'.firstPath) (by omega)
  have hsecond : second.back = second'.back := eq_of_lineage (back_mem_of_path h.secondPath)
    (back_mem_of_path h'.secondPath) (by omega)
  exact ⟨path_unique h.firstPath h'.firstPath hfirst, path_unique h.secondPath h'.secondPath hsecond⟩

/-- An item on both lines that is the top of one of them is the end of both branches. -/
theorem Meeting.back_eq {first second : Branch} {anc : ForkItem}
    (h : fdb.Meeting f s first second) (hf : anc ∈ fdb.lineage f) (hs : anc ∈ fdb.lineage s)
    (htop : anc = f ∨ anc = s) : first.back = anc ∧ second.back = anc := by
  have hle := h.num_le hf hs rfl rfl
  have hnum := h.num
  have hfirst := num_le_of_lineage (back_mem_of_path h.firstPath)
  have hsecond := num_le_of_lineage (back_mem_of_path h.secondPath)
  have hanc : first.back.num = anc.num := by
    rcases htop with rfl | rfl <;> omega
  exact ⟨eq_of_lineage (back_mem_of_path h.firstPath) hf hanc,
    eq_of_lineage (back_mem_of_path h.secondPath) hs (by omega)⟩

/-- **`fetch_branch_from` returns the two branches.** In every fork database and for every two ids
it returns the meeting of the lines of the two items and nothing else; it returns exactly where
both ids are known and the lines reach a pair of one number with one previous id; and where one
item is on the line of the other, both branches end in it. -/
theorem fetchBranchFrom_spec (fdb : ForkDatabase) (a b : BlockId) :
    (∀ first second, fdb.fetchBranchFrom a b = .ok (first, second) ↔
      ∃ f s, fdb.fetchBlock a = some f ∧ fdb.fetchBlock b = some s ∧
        fdb.Meeting f s first second) ∧
    ((∃ first second, fdb.fetchBranchFrom a b = .ok (first, second)) ↔
      ∃ f s x y, fdb.fetchBlock a = some f ∧ fdb.fetchBlock b = some s ∧
        x ∈ fdb.lineage f ∧ y ∈ fdb.lineage s ∧ x.num = y.num ∧
          x.data.previous = y.data.previous) ∧
    (∀ f s anc, fdb.fetchBlock a = some f → fdb.fetchBlock b = some s →
      (anc = s ∧ s ∈ fdb.lineage f ∨ anc = f ∧ f ∈ fdb.lineage s) →
        ∃ first second, fdb.fetchBranchFrom a b = .ok (first, second) ∧
          first.back = anc ∧ second.back = anc) := by
  refine ⟨fun first second => ⟨meeting_of_fetchBranchFrom, ?_⟩, ⟨?_, ?_⟩, ?_⟩
  · rintro ⟨f, s, hf, hs, hmeeting⟩
    obtain ⟨first', second', hrun⟩ := fetchBranchFrom_returns hf hs
      (back_mem_of_path hmeeting.firstPath) (back_mem_of_path hmeeting.secondPath)
      hmeeting.num hmeeting.previous
    obtain ⟨f', s', hf', hs', hmeeting'⟩ := meeting_of_fetchBranchFrom hrun
    obtain rfl : f = f' := Option.some.inj (hf.symm.trans hf')
    obtain rfl : s = s' := Option.some.inj (hs.symm.trans hs')
    obtain ⟨rfl, rfl⟩ := hmeeting.unique hmeeting'
    exact hrun
  · rintro ⟨first, second, hrun⟩
    obtain ⟨f, s, hf, hs, hmeeting⟩ := meeting_of_fetchBranchFrom hrun
    exact ⟨f, s, first.back, second.back, hf, hs, back_mem_of_path hmeeting.firstPath,
      back_mem_of_path hmeeting.secondPath, hmeeting.num, hmeeting.previous⟩
  · rintro ⟨f, s, x, y, hf, hs, hx, hy, hnum, hsame⟩
    exact fetchBranchFrom_returns hf hs hx hy hnum hsame
  · intro f s anc hf hs hanc
    have hboth : anc ∈ fdb.lineage f ∧ anc ∈ fdb.lineage s ∧ (anc = f ∨ anc = s) := by
      rcases hanc with ⟨rfl, h⟩ | ⟨rfl, h⟩
      · exact ⟨h, .head _, .inr rfl⟩
      · exact ⟨.head _, h, .inl rfl⟩
    obtain ⟨hmemf, hmems, htop⟩ := hboth
    obtain ⟨first, second, hrun⟩ := fetchBranchFrom_returns hf hs hmemf hmems rfl rfl
    obtain ⟨f', s', hf', hs', hmeeting⟩ := meeting_of_fetchBranchFrom hrun
    obtain rfl : f = f' := Option.some.inj (hf.symm.trans hf')
    obtain rfl : s = s' := Option.some.inj (hs.symm.trans hs')
    exact ⟨first, second, hrun, hmeeting.back_eq hmemf hmems htop⟩

end ForkDatabase

end NewsChain
