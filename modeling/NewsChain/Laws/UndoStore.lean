import NewsChain.Chainbase.GenericIndex

/-!
# The undo log is a stack of snapshots

An undo state says of every object what its session did to it: nothing, created it, modified it,
removed it. `Change` is that answer, and `Change.Undoes` what it means between the snapshot the
session started from and the present. Each recording function changes one answer, and the three
loops of `squash` compose two answers by the table in the source (`Change.compose`).

`Records` carries the meaning down the stack. It is kept by every operation, `undo` goes back to the
snapshot because of it, and `genericIndex_refines_snapshots` follows by induction over a run.
-/

namespace NewsChain

variable {V : Type} [Indexed V]

/-! ## What a session did to one object -/

/-- An object's relationship to an undo state. -/
inductive Change (V : Type)
  | nop
  | new
  | upd (was : V)
  | del (was : V)

namespace Change

/-- The change leads from what the snapshot held to what is there now. -/
def Undoes : Change V → Option V → Option V → Prop
  | nop, old, now => old = now
  | new, old, now => old = none ∧ now ≠ none
  | upd x, old, now => old = some x ∧ ∃ y, now = some y ∧ SameKeys x y
  | del x, old, now => old = some x ∧ now = none

/-- The table of `squash`: the older change, then the newer one. -/
def compose : Change V → Change V → Change V
  | new, upd _ => new
  | new, del _ => nop
  | upd x, upd _ => upd x
  | upd x, del _ => del x
  | nop, b => b
  | a, nop => a
  | a, _ => a

theorem Undoes.eq_nop {c : Change V} (h : c.Undoes none none) : c = nop := by
  cases c with
  | nop => rfl
  | new => exact absurd rfl h.2
  | upd x => cases h.1
  | del x => cases h.1

omit [Indexed V] in
@[simp] theorem compose_nop (a : Change V) : a.compose nop = a := by cases a <;> rfl

/-- The table is right wherever the two changes can follow each other: an object that a session
creates was never recorded before. -/
theorem Undoes.compose {a b : Change V} {x y z : Option V} (hab : a.Undoes x y)
    (hbc : b.Undoes y z) (hnew : b = new → a = nop) : (a.compose b).Undoes x z := by
  cases a with
  | nop =>
    obtain rfl : x = y := hab
    cases b <;> exact hbc
  | new =>
    obtain ⟨rfl, hy⟩ := hab
    cases b with
    | nop =>
      obtain rfl : y = z := hbc
      exact ⟨rfl, hy⟩
    | new => exact absurd hbc.1 hy
    | upd v =>
      obtain ⟨-, w, rfl, -⟩ := hbc
      exact ⟨rfl, nofun⟩
    | del v => exact hbc.2.symm
  | upd u =>
    obtain ⟨rfl, v, rfl, huv⟩ := hab
    cases b with
    | nop =>
      obtain rfl : some v = z := hbc
      exact ⟨rfl, v, rfl, huv⟩
    | new => cases hbc.1
    | upd v' =>
      obtain ⟨hv, w, rfl, hvw⟩ := hbc
      cases hv
      exact ⟨rfl, w, rfl, huv.trans hvw⟩
    | del v' => exact ⟨rfl, hbc.2⟩
  | del u =>
    obtain ⟨rfl, rfl⟩ := hab
    cases b with
    | nop =>
      obtain rfl : none = z := hbc
      exact ⟨rfl, rfl⟩
    | new => exact nomatch hnew rfl
    | upd v => cases hbc.1
    | del v => cases hbc.1

/-- The change as an undo state spells it: is the id new, its old value, its removed value. -/
def encode : Change V → Option Unit × Option V × Option V
  | nop => (none, none, none)
  | new => (some (), none, none)
  | upd x => (none, some x, none)
  | del x => (none, none, some x)

end Change

theorem SameKeys.symm {v w : V} (h : SameKeys v w) : SameKeys w v := fun k hk => (h k hk).symm

/-! ## The recording functions, one object at a time -/

theorem IdMap.get?_emplace {W : Type} (m : IdMap W) (i j : Nat) (w : W) :
    (m.emplace i w).get? j = if j = i then some ((m.get? i).getD w) else m.get? j := by
  unfold IdMap.emplace
  split
  · rename_i h
    obtain ⟨x, hx⟩ := Option.isSome_iff_exists.mp h
    split
    · rename_i hj
      rw [hj, hx]
      rfl
    · rfl
  · rename_i h
    rw [IdMap.get?_insert, Option.not_isSome_iff_eq_none.mp h]
    rfl

namespace UndoState

/-- What an undo state holds about one object. -/
def entry (u : UndoState V) (i : Nat) : Option Unit × Option V × Option V :=
  (u.newIds.get? i, u.oldValues.get? i, u.removedValues.get? i)

omit [Indexed V] in
theorem entry_onCreate (u : UndoState V) {n : Nat} {c : Change V} (hc : u.entry n = c.encode)
    (hnop : c = .nop) (j : Nat) :
    (u.onCreate n).entry j = if j = n then (c.compose .new).encode else u.entry j := by
  subst hnop
  simp only [entry, Change.encode, Prod.mk.injEq] at hc
  obtain ⟨-, hold, hremoved⟩ := hc
  simp only [entry, onCreate, IdMap.get?_insert]
  split
  · rename_i hj
    rw [hj, hold, hremoved]
    rfl
  · rfl

omit [Indexed V] in
theorem entry_onModify (u : UndoState V) {i : Nat} {v : V} {c : Change V}
    (hc : u.entry i = c.encode) (hdel : ∀ x, c ≠ .del x) (j : Nat) :
    (u.onModify i v).entry j = if j = i then (c.compose (.upd v)).encode else u.entry j := by
  by_cases hj : j = i
  · subst hj
    simp only [if_true]
    simp only [entry] at hc
    cases c with
    | nop =>
      simp only [Change.encode, Prod.mk.injEq] at hc
      simp [entry, onModify, hc, IdMap.get?_emplace, Change.compose, Change.encode]
    | new =>
      simp only [Change.encode, Prod.mk.injEq] at hc
      simp [entry, onModify, hc, Change.compose, Change.encode]
    | upd x =>
      simp only [Change.encode, Prod.mk.injEq] at hc
      simp [entry, onModify, hc, Change.compose, Change.encode]
    | del x => exact absurd rfl (hdel x)
  · simp only [if_neg hj, onModify]
    split
    · rfl
    · split
      · rfl
      · simp [entry, IdMap.get?_emplace, hj]

omit [Indexed V] in
theorem entry_onRemove (u : UndoState V) {i : Nat} {v : V} {c : Change V}
    (hc : u.entry i = c.encode) (hdel : ∀ x, c ≠ .del x) (j : Nat) :
    (u.onRemove i v).entry j = if j = i then (c.compose (.del v)).encode else u.entry j := by
  by_cases hj : j = i
  · subst hj
    simp only [if_true]
    simp only [entry] at hc
    cases c with
    | nop =>
      simp only [Change.encode, Prod.mk.injEq] at hc
      simp [entry, onRemove, hc, IdMap.get?_emplace, Change.compose, Change.encode]
    | new =>
      simp only [Change.encode, Prod.mk.injEq] at hc
      simp [entry, onRemove, hc, Change.compose, Change.encode]
    | upd x =>
      simp only [Change.encode, Prod.mk.injEq] at hc
      simp [entry, onRemove, hc, IdMap.get?_emplace, Change.compose, Change.encode]
    | del x => exact absurd rfl (hdel x)
  · simp only [if_neg hj, onRemove]
    split
    · simp [entry, IdMap.get?_erase, hj]
    · split
      · simp [entry, IdMap.get?_emplace, IdMap.get?_erase, hj]
      · split
        · rfl
        · simp [entry, IdMap.get?_emplace, hj]

/-! ### The loops of `squash` -/

omit [Indexed V] in
theorem entry_foldl_mergeOld (prev : UndoState V) (old : IdMap V) (j : Nat) :
    (old.rows.foldl mergeOld prev).entry j =
      match old.get? j with
      | some w =>
        if (prev.entry j).1.isSome ∨ (prev.entry j).2.1.isSome then prev.entry j
        else ((prev.entry j).1, some w, (prev.entry j).2.2)
      | none => prev.entry j := by
  refine IdMap.fold_local mergeOld entry
    (fun w e => if e.1.isSome ∨ e.2.1.isSome then e else (e.1, some w, e.2.2)) ?_ ?_ old prev j
  · intro u r
    simp only [mergeOld]
    split
    · rename_i h
      simp [entry, h]
    · split
      · rename_i h
        simp [entry, h]
      · rename_i hnew hold
        simp [entry, hnew, IdMap.get?_emplace, Option.not_isSome_iff_eq_none.mp hold]
  · intro u r k hk
    simp only [mergeOld]
    split
    · rfl
    · split
      · rfl
      · simp [entry, IdMap.get?_emplace, hk]

omit [Indexed V] in
theorem entry_foldl_mergeNew (prev : UndoState V) (new : IdMap Unit) (j : Nat) :
    (new.rows.foldl mergeNew prev).entry j =
      match new.get? j with
      | some _ => (some (), (prev.entry j).2)
      | none => prev.entry j := by
  have hfold := IdMap.fold_local mergeNew entry (fun _ e => (some (), e.2))
    (fun u r => by simp [entry, mergeNew])
    (fun u r k hk => by simp [entry, mergeNew, IdMap.get?_insert, hk]) new prev j
  rw [hfold]
  cases new.get? j <;> rfl

omit [Indexed V] in
theorem entry_foldl_mergeRemoved (prev : UndoState V) (removed : IdMap V) (j : Nat) :
    (removed.rows.foldl mergeRemoved prev).entry j =
      match removed.get? j with
      | some w =>
        if (prev.entry j).1.isSome then (none, (prev.entry j).2)
        else
          (none, none, some ((prev.entry j).2.2.getD ((prev.entry j).2.1.getD w)))
      | none => prev.entry j := by
  refine IdMap.fold_local mergeRemoved entry
    (fun w e => if e.1.isSome then (none, e.2) else (none, none, some (e.2.2.getD (e.2.1.getD w))))
    ?_ ?_ removed prev j
  · intro u r
    simp only [mergeRemoved]
    split
    · rename_i h
      simp [entry, h]
    · rename_i h
      have hnone := Option.not_isSome_iff_eq_none.mp h
      split
      · rename_i x hx
        simp [entry, IdMap.get?_emplace, hx, hnone]
      · rename_i hx
        simp [entry, IdMap.get?_emplace, hx, hnone]
  · intro u r k hk
    simp only [mergeRemoved]
    split
    · simp [entry, IdMap.get?_erase, hk]
    · split
      · simp [entry, IdMap.get?_emplace, IdMap.get?_erase, hk]
      · simp [entry, IdMap.get?_emplace, hk]

omit [Indexed V] in
/-- The merged state keeps the older one's next id and revision. -/
theorem merge_header (prev state : UndoState V) :
    (prev.merge state).oldNextId = prev.oldNextId ∧
      (prev.merge state).revision = prev.revision := by
  have hfold : ∀ (W : Type) (body : UndoState V → Nat × W → UndoState V)
      (_ : ∀ u r, (body u r).oldNextId = u.oldNextId ∧ (body u r).revision = u.revision)
      (rows : List (Nat × W)) (u : UndoState V),
      (rows.foldl body u).oldNextId = u.oldNextId ∧ (rows.foldl body u).revision = u.revision := by
    intro W body hbody rows
    induction rows with
    | nil => exact fun u => ⟨rfl, rfl⟩
    | cons r rest ih =>
      intro u
      exact ⟨(ih _).1.trans (hbody u r).1, (ih _).2.trans (hbody u r).2⟩
  have hold := hfold _ (mergeOld (V := V)) fun u r => by
    unfold mergeOld
    split
    · exact ⟨rfl, rfl⟩
    · split <;> exact ⟨rfl, rfl⟩
  have hnew := hfold _ (mergeNew (V := V)) fun u r => ⟨rfl, rfl⟩
  have hremoved := hfold _ (mergeRemoved (V := V)) fun u r => by
    unfold mergeRemoved
    split
    · exact ⟨rfl, rfl⟩
    · split <;> exact ⟨rfl, rfl⟩
  unfold merge
  exact ⟨((hremoved _ _).1.trans (hnew _ _).1).trans (hold _ _).1,
    ((hremoved _ _).2.trans (hnew _ _).2).trans (hold _ _).2⟩

/-- Merging two undo states composes what they say of every object. -/
theorem entry_merge {prev state : UndoState V} {a b : Change V} {x y z : Option V} {j : Nat}
    (ha : prev.entry j = a.encode) (hb : state.entry j = b.encode) (hab : a.Undoes x y)
    (hbc : b.Undoes y z) (hnew : b = .new → a = .nop) :
    (prev.merge state).entry j = (a.compose b).encode := by
  have hstate := hb
  simp only [entry] at hstate
  simp only [merge, entry_foldl_mergeRemoved, entry_foldl_mergeNew, entry_foldl_mergeOld, ha]
  cases b with
  | nop =>
    simp only [Change.encode, Prod.mk.injEq] at hstate
    simp [hstate]
  | new =>
    obtain rfl := hnew rfl
    simp only [Change.encode, Prod.mk.injEq] at hstate
    simp [hstate, Change.encode, Change.compose]
  | upd v =>
    simp only [Change.encode, Prod.mk.injEq] at hstate
    cases a with
    | del u => exact absurd (hab.2.symm.trans hbc.1) nofun
    | _ => simp [hstate, Change.encode, Change.compose]
  | del v =>
    simp only [Change.encode, Prod.mk.injEq] at hstate
    cases a with
    | del u => exact absurd (hab.2.symm.trans hbc.1) nofun
    | _ => simp [hstate, Change.encode, Change.compose]

end UndoState

/-! ## A record against the snapshot it stands for -/

/-- An undo state leads from the snapshot `old` to the content `now`. -/
structure Tracks (u : UndoState V) (old now : Content V) : Prop where
  nextId : u.oldNextId = old.nextId
  grows : old.nextId ≤ now.nextId
  fresh : ∀ i, (u.newIds.get? i).isSome → old.nextId ≤ i
  change : ∀ i, ∃ c : Change V,
    u.entry i = c.encode ∧ c.Undoes (old.table.get? i) (now.table.get? i)

/-- The undo states lead down the stack of snapshots, each to the next. -/
def Records : List (UndoState V) → List (Frame (Content V)) → Content V → Prop
  | [], [], now => now.Below
  | u :: us, f :: fs, now =>
    now.Below ∧ u.revision = f.revision ∧ Tracks u f.saved now ∧ Records us fs f.saved
  | _, _, _ => False

theorem Records.below {us : List (UndoState V)} {fs : List (Frame (Content V))} {now : Content V}
    (h : Records us fs now) : now.Below := by
  match us, fs, h with
  | [], [], h => exact h
  | _ :: _, _ :: _, h => exact h.1

/-- A new undo state tracks the present content against itself. -/
theorem Tracks.start (now : Content V) (revision : Int) :
    Tracks { oldNextId := now.nextId, revision } now now where
  nextId := rfl
  grows := Nat.le_refl _
  fresh := fun i h => by simp at h
  change := fun i => ⟨.nop, rfl, rfl⟩

/-- Recording one more change of the object at `i` tracks the content after it. -/
theorem Tracks.step {u u' : UndoState V} {old now now' : Content V} {i : Nat} {b : Change V}
    (h : Tracks u old now) (hnext : u'.oldNextId = u.oldNextId) (hgrows : now.nextId ≤ now'.nextId)
    (hfresh : ∀ j, (u'.newIds.get? j).isSome → (u.newIds.get? j).isSome ∨ now.nextId ≤ j)
    (hentry : ∀ c : Change V, u.entry i = c.encode →
      c.Undoes (old.table.get? i) (now.table.get? i) →
        ∀ j, u'.entry j = if j = i then (c.compose b).encode else u.entry j)
    (hchange : b.Undoes (now.table.get? i) (now'.table.get? i))
    (hnew : b = .new → old.table.get? i = none)
    (haway : ∀ j, j ≠ i → now'.table.get? j = now.table.get? j) : Tracks u' old now' := by
  obtain ⟨c, hc, hundoes⟩ := h.change i
  refine ⟨hnext.trans h.nextId, h.grows.trans hgrows, fun j hj => ?_, fun j => ?_⟩
  · rcases hfresh j hj with hj | hj
    · exact h.fresh j hj
    · exact h.grows.trans hj
  · rw [hentry c hc hundoes j]
    split
    · rename_i hj
      subst hj
      refine ⟨_, rfl, hundoes.compose hchange fun hb => ?_⟩
      have hold := hnew hb
      subst hb
      rw [hold, hchange.1] at hundoes
      exact hundoes.eq_nop
    · rename_i hj
      rw [haway j hj]
      exact h.change j

/-! ## Recording -/

/-- Undo states recorded over the same snapshots, where only the newest was rewritten. -/
theorem Records.record {g : GenericIndex V} {fs : List (Frame (Content V))} {now now' : Content V}
    {r : UndoState V → UndoState V} (h : Records g.stack fs now) (hbelow : now'.Below)
    (hrevision : ∀ u, (r u).revision = u.revision)
    (hstep : ∀ u old, old.Below → Tracks u old now → Tracks (r u) old now') :
    Records (g.record r).stack fs now' := by
  obtain ⟨indices, nextId, stack, revision⟩ := g
  match stack, fs, h with
  | [], [], _ => exact hbelow
  | u :: us, f :: fs, ⟨_, hrev, htracks, hrest⟩ =>
    exact ⟨hbelow, (hrevision u).trans hrev, hstep u _ hrest.below htracks, hrest⟩

@[simp] theorem GenericIndex.record_indices (g : GenericIndex V) (r : UndoState V → UndoState V) :
    (g.record r).indices = g.indices := by
  unfold GenericIndex.record
  split <;> rfl

@[simp] theorem GenericIndex.record_nextId (g : GenericIndex V) (r : UndoState V → UndoState V) :
    (g.record r).nextId = g.nextId := by
  unfold GenericIndex.record
  split <;> rfl

@[simp] theorem GenericIndex.record_revision (g : GenericIndex V)
    (r : UndoState V → UndoState V) : (g.record r).revision = g.revision := by
  unfold GenericIndex.record
  split <;> rfl

theorem Content.Below.get?_nextId {c : Content V} (h : c.Below) : c.table.get? c.nextId = none := by
  cases hg : c.table.get? c.nextId with
  | none => rfl
  | some v => exact absurd (h _ v hg) (Nat.lt_irrefl _)

/-- A created object was never recorded before: its id is past every id in use. -/
theorem Tracks.onCreate {u : UndoState V} {old now now' : Content V} {v : V} (hold : old.Below)
    (hnow : now.Below) (h : Tracks u old now) (hc : now.emplace v = some now') :
    Tracks (u.onCreate now.nextId) old now' := by
  have hnone := hnow.get?_nextId
  have hfree : old.table.get? now.nextId = none := by
    cases hg : old.table.get? now.nextId with
    | none => rfl
    | some w => exact absurd (hold _ w hg) (Nat.not_lt.mpr h.grows)
  have hget := Content.get?_emplace hc
  have hgrows : now.nextId ≤ now'.nextId := by
    obtain ⟨_, _, rfl⟩ := Content.emplace_eq_some.mp hc
    exact Nat.le_succ _
  refine h.step (i := now.nextId) (b := .new) rfl hgrows (fun j hj => ?_)
    (fun c hcode hundoes => ?_) ⟨hnone, ?_⟩ (fun _ => hfree) (fun j hj => ?_)
  · simp only [UndoState.onCreate, IdMap.get?_insert] at hj
    split at hj
    · rename_i hj'
      exact .inr (Nat.le_of_eq hj'.symm)
    · exact .inl hj
  · rw [hfree, hnone] at hundoes
    exact UndoState.entry_onCreate u hcode hundoes.eq_nop
  · rw [hget, if_pos rfl]
    nofun
  · rw [hget, if_neg hj]

theorem Tracks.onModify {u : UndoState V} {old now : Content V} {i : Nat} {v : V}
    (h : Tracks u old now) (hv : now.table.get? i = some v) (m : Modifier V) :
    Tracks (u.onModify i v) old (now.modify i m) := by
  refine h.step (i := i) (b := .upd v) ?_ (Nat.le_refl _) (fun j hj => .inl ?_)
    (fun c hcode hundoes => UndoState.entry_onModify u hcode fun x hx => ?_)
    ⟨hv, m.apply v, ?_, (m.keeps v).symm⟩ nofun (fun j hj => ?_)
  · unfold UndoState.onModify
    split
    · rfl
    · split <;> rfl
  · unfold UndoState.onModify at hj
    split at hj
    · exact hj
    · split at hj <;> exact hj
  · subst hx
    exact absurd (hundoes.2.symm.trans hv) nofun
  · rw [Content.modify, Table.get?_modify, if_pos rfl, hv]
    rfl
  · rw [Content.modify, Table.get?_modify, if_neg hj]

theorem Tracks.onRemove {u : UndoState V} {old now : Content V} {i : Nat} {v : V}
    (h : Tracks u old now) (hv : now.table.get? i = some v) :
    Tracks (u.onRemove i v) old (now.erase i) := by
  refine h.step (i := i) (b := .del v) ?_ (Nat.le_refl _) (fun j hj => .inl ?_)
    (fun c hcode hundoes => UndoState.entry_onRemove u hcode fun x hx => ?_)
    ⟨hv, ?_⟩ nofun (fun j hj => ?_)
  · unfold UndoState.onRemove
    split
    · rfl
    · split
      · rfl
      · split <;> rfl
  · unfold UndoState.onRemove at hj
    split at hj
    · simp only [IdMap.get?_erase] at hj
      split at hj
      · cases hj
      · exact hj
    · split at hj
      · exact hj
      · split at hj <;> exact hj
  · subst hx
    exact absurd (hundoes.2.symm.trans hv) nofun
  · rw [Content.erase, Table.get?_erase, if_pos rfl]
  · rw [Content.erase, Table.get?_erase, if_neg hj]

/-! ## Undoing -/

theorem restoreOld_ok {rows : List (Nat × V)} (hnodup : (rows.map (·.1)).Nodup) {t : Table V}
    (h : ∀ r ∈ rows, ∃ y, t.get? r.1 = some y ∧ SameKeys r.2 y) :
    ∃ t', restoreOld rows t = .ok t' ∧ (∀ r ∈ rows, t'.get? r.1 = some r.2) ∧
      ∀ j, (∀ r ∈ rows, r.1 ≠ j) → t'.get? j = t.get? j := by
  induction rows generalizing t with
  | nil => exact ⟨t, rfl, nofun, fun _ _ => rfl⟩
  | cons r rest ih =>
    obtain ⟨hr, hrest⟩ := List.nodup_cons.mp hnodup
    have hne : ∀ r' ∈ rest, r'.1 ≠ r.1 := fun r' hr' he =>
      hr (List.mem_map.mpr ⟨r', hr', he⟩)
    obtain ⟨y, hy, hkeys⟩ := h r List.mem_cons_self
    -- the old value has the keys of the present one, so it collides with nothing else
    have hfits : t.Fits r.1 r.2 := Table.fits_iff.mpr fun j w hw hj hclash =>
      hj (t.unique r.1 j y w hy hw ((Clash.congr hkeys).mp hclash)).symm
    have hreplace : t.replace r.1 r.2 = some (t.store r.1 r.2 hfits) :=
      Table.replace_eq_some.mpr ⟨by rw [hy]; nofun, hfits, rfl⟩
    obtain ⟨t', ht', hrows, haway⟩ := ih hrest (t := t.store r.1 r.2 hfits) fun r' hr' => by
      rw [Table.get?_store, if_neg (hne r' hr')]
      exact h r' (List.mem_cons_of_mem _ hr')
    refine ⟨t', by simp only [restoreOld, hreplace, ht'], fun r' hr' => ?_, fun j hj => ?_⟩
    · rcases List.mem_cons.mp hr' with rfl | hr'
      · rw [haway _ hne, Table.get?_store, if_pos rfl]
      · exact hrows r' hr'
    · rw [haway j fun r' hr' => hj r' (List.mem_cons_of_mem _ hr'), Table.get?_store,
        if_neg (hj r List.mem_cons_self).symm]

theorem eraseNew_ok {rows : List (Nat × Unit)} (hnodup : (rows.map (·.1)).Nodup) {t : Table V}
    (h : ∀ r ∈ rows, t.get? r.1 ≠ none) :
    ∃ t', eraseNew rows t = .ok t' ∧ (∀ r ∈ rows, t'.get? r.1 = none) ∧
      ∀ j, (∀ r ∈ rows, r.1 ≠ j) → t'.get? j = t.get? j := by
  induction rows generalizing t with
  | nil => exact ⟨t, rfl, nofun, fun _ _ => rfl⟩
  | cons r rest ih =>
    obtain ⟨hr, hrest⟩ := List.nodup_cons.mp hnodup
    have hne : ∀ r' ∈ rest, r'.1 ≠ r.1 := fun r' hr' he =>
      hr (List.mem_map.mpr ⟨r', hr', he⟩)
    obtain ⟨y, hy⟩ := Option.ne_none_iff_exists'.mp (h r List.mem_cons_self)
    obtain ⟨t', ht', hrows, haway⟩ := ih hrest (t := t.erase r.1) fun r' hr' => by
      rw [Table.get?_erase, if_neg (hne r' hr')]
      exact h r' (List.mem_cons_of_mem _ hr')
    refine ⟨t', by simp only [eraseNew, hy, ht'], fun r' hr' => ?_, fun j hj => ?_⟩
    · rcases List.mem_cons.mp hr' with rfl | hr'
      · rw [haway _ hne, Table.get?_erase, if_pos rfl]
      · exact hrows r' hr'
    · rw [haway j fun r' hr' => hj r' (List.mem_cons_of_mem _ hr'), Table.get?_erase,
        if_neg (hj r List.mem_cons_self).symm]

/-- The removed values come back into a part of the container they were taken from, so none of
them collides. -/
theorem restoreRemoved_ok {rows : List (Nat × V)} (hnodup : (rows.map (·.1)).Nodup)
    {t : Table V} (old : Table V) (hpart : ∀ j w, t.get? j = some w → old.get? j = some w)
    (h : ∀ r ∈ rows, t.get? r.1 = none ∧ old.get? r.1 = some r.2) :
    ∃ t', restoreRemoved rows t = .ok t' ∧ (∀ r ∈ rows, t'.get? r.1 = some r.2) ∧
      ∀ j, (∀ r ∈ rows, r.1 ≠ j) → t'.get? j = t.get? j := by
  induction rows generalizing t with
  | nil => exact ⟨t, rfl, nofun, fun _ _ => rfl⟩
  | cons r rest ih =>
    obtain ⟨hr, hrest⟩ := List.nodup_cons.mp hnodup
    have hne : ∀ r' ∈ rest, r'.1 ≠ r.1 := fun r' hr' he =>
      hr (List.mem_map.mpr ⟨r', hr', he⟩)
    obtain ⟨hnone, hold⟩ := h r List.mem_cons_self
    have hfits : t.Fits r.1 r.2 := Table.fits_iff.mpr fun j w hw hj hclash =>
      hj (old.unique r.1 j r.2 w hold (hpart j w hw) hclash).symm
    have hemplace : t.emplace r.1 r.2 = some (t.store r.1 r.2 hfits) :=
      Table.emplace_eq_some.mpr ⟨hnone, hfits, rfl⟩
    obtain ⟨t', ht', hrows, haway⟩ := ih hrest (t := t.store r.1 r.2 hfits)
      (fun j w hw => by
        rw [Table.get?_store] at hw
        split at hw
        · rename_i hj
          rw [hj, ← hw]
          exact hold
        · exact hpart j w hw)
      (fun r' hr' => by
        rw [Table.get?_store, if_neg (hne r' hr')]
        exact h r' (List.mem_cons_of_mem _ hr'))
    refine ⟨t', by simp only [restoreRemoved, hemplace, ht'], fun r' hr' => ?_, fun j hj => ?_⟩
    · rcases List.mem_cons.mp hr' with rfl | hr'
      · rw [haway _ hne, Table.get?_store, if_pos rfl]
      · exact hrows r' hr'
    · rw [haway j fun r' hr' => hj r' (List.mem_cons_of_mem _ hr'), Table.get?_store,
        if_neg (hj r List.mem_cons_self).symm]

/-! ### Reading a record -/

namespace Tracks

variable {u : UndoState V} {old now : Content V} {i : Nat}

theorem of_old {x : V} (h : Tracks u old now) (hx : u.oldValues.get? i = some x) :
    old.table.get? i = some x ∧ ∃ y, now.table.get? i = some y ∧ SameKeys x y := by
  obtain ⟨c, hc, hundoes⟩ := h.change i
  simp only [UndoState.entry, hx] at hc
  cases c with
  | upd w =>
    simp only [Change.encode, Prod.mk.injEq, Option.some.injEq] at hc
    obtain ⟨-, rfl, -⟩ := hc
    exact hundoes
  | _ => simp [Change.encode] at hc

theorem of_new {e : Unit} (h : Tracks u old now) (hx : u.newIds.get? i = some e) :
    u.oldValues.get? i = none ∧ old.table.get? i = none ∧ now.table.get? i ≠ none := by
  obtain ⟨c, hc, hundoes⟩ := h.change i
  simp only [UndoState.entry, hx] at hc
  cases c with
  | new =>
    simp only [Change.encode, Prod.mk.injEq] at hc
    exact ⟨hc.2.1, hundoes⟩
  | _ => simp [Change.encode] at hc

theorem of_removed {x : V} (h : Tracks u old now) (hx : u.removedValues.get? i = some x) :
    u.newIds.get? i = none ∧ u.oldValues.get? i = none ∧ old.table.get? i = some x ∧
      now.table.get? i = none := by
  obtain ⟨c, hc, hundoes⟩ := h.change i
  simp only [UndoState.entry, hx] at hc
  cases c with
  | del w =>
    simp only [Change.encode, Prod.mk.injEq, Option.some.injEq] at hc
    obtain ⟨hnew, hold, rfl⟩ := hc
    exact ⟨hnew, hold, hundoes⟩
  | _ => simp [Change.encode] at hc

theorem of_nop (h : Tracks u old now) (hnew : u.newIds.get? i = none)
    (hold : u.oldValues.get? i = none) (hremoved : u.removedValues.get? i = none) :
    old.table.get? i = now.table.get? i := by
  obtain ⟨c, hc, hundoes⟩ := h.change i
  simp only [UndoState.entry, hnew, hold, hremoved] at hc
  cases c with
  | nop => exact hundoes
  | _ => simp [Change.encode] at hc

end Tracks

theorem IdMap.forall_ne_of_get?_eq_none {W : Type} {m : IdMap W} {j : Nat}
    (h : m.get? j = none) : ∀ r ∈ m.rows, r.1 ≠ j := fun r hr he =>
  IdMap.get?_eq_none.mp h r.2 (he ▸ hr)

/-- Undoing the newest record brings its snapshot back, without throwing. -/
theorem GenericIndex.undo_ok {g : GenericIndex V} {u : UndoState V} {us : List (UndoState V)}
    {old now : Content V} (hstack : g.stack = u :: us) (hindices : g.indices = now.table)
    (h : Tracks u old now) :
    g.undo = .ok
      { indices := old.table, nextId := old.nextId, stack := us, revision := g.revision - 1 } := by
  -- the old values are written over the objects they belong to
  obtain ⟨t₁, ht₁, hrows₁, haway₁⟩ := restoreOld_ok (t := g.indices) u.oldValues.rows_nodup_keys
    fun r hr => by
      rw [hindices]
      exact (h.of_old (IdMap.get?_eq_some.mpr hr)).2
  -- the new objects are there, and none of them has an old value
  obtain ⟨t₂, ht₂, hrows₂, haway₂⟩ := eraseNew_ok (t := t₁) u.newIds.rows_nodup_keys
    fun r hr => by
      obtain ⟨hold, -, hnow⟩ := h.of_new (IdMap.get?_eq_some.mpr hr)
      rwa [haway₁ _ (IdMap.forall_ne_of_get?_eq_none hold), hindices]
  have hpart : ∀ j, u.removedValues.get? j = none → t₂.get? j = old.table.get? j := by
    intro j hremoved
    cases hnew : u.newIds.get? j with
    | some e => rw [hrows₂ (j, e) (IdMap.get?_eq_some.mp hnew), (h.of_new hnew).2.1]
    | none =>
      rw [haway₂ j (IdMap.forall_ne_of_get?_eq_none hnew)]
      cases hold : u.oldValues.get? j with
      | some x => rw [hrows₁ (j, x) (IdMap.get?_eq_some.mp hold), (h.of_old hold).1]
      | none =>
        rw [haway₁ j (IdMap.forall_ne_of_get?_eq_none hold), hindices,
          h.of_nop hnew hold hremoved]
  have hgone : ∀ j x, u.removedValues.get? j = some x → t₂.get? j = none := by
    intro j x hremoved
    obtain ⟨hnew, hold, -, hnow⟩ := h.of_removed hremoved
    rw [haway₂ j (IdMap.forall_ne_of_get?_eq_none hnew),
      haway₁ j (IdMap.forall_ne_of_get?_eq_none hold), hindices, hnow]
  obtain ⟨t₃, ht₃, hrows₃, haway₃⟩ := restoreRemoved_ok (t := t₂)
    u.removedValues.rows_nodup_keys old.table
    (fun j w hw => by
      cases hremoved : u.removedValues.get? j with
      | some x => exact absurd (hw.symm.trans (hgone j x hremoved)) nofun
      | none => rw [← hpart j hremoved, hw])
    (fun r hr => by
      have hremoved := IdMap.get?_eq_some.mpr hr
      exact ⟨hgone _ _ hremoved, (h.of_removed hremoved).2.2.1⟩)
  have htable : t₃ = old.table := Table.ext_get? fun j => by
    cases hremoved : u.removedValues.get? j with
    | some x =>
      rw [hrows₃ (j, x) (IdMap.get?_eq_some.mp hremoved), (h.of_removed hremoved).2.2.1]
    | none => rw [haway₃ j (IdMap.forall_ne_of_get?_eq_none hremoved), hpart j hremoved]
  simp only [GenericIndex.undo, hstack, ht₁, ht₂, ht₃, bind, Except.bind, htable, h.nextId]

/-! ## Squashing and committing -/

/-- The merged state leads from the older snapshot to the present. -/
theorem Tracks.merge {prev state : UndoState V} {old mid now : Content V} (hold : old.Below)
    (h : Tracks prev old mid) (h' : Tracks state mid now) : Tracks (prev.merge state) old now := by
  have hentry : ∀ j, ∃ a b : Change V, (prev.merge state).entry j = (a.compose b).encode ∧
      (a.compose b).Undoes (old.table.get? j) (now.table.get? j) ∧
      prev.entry j = a.encode ∧ state.entry j = b.encode := by
    intro j
    obtain ⟨a, ha, hab⟩ := h.change j
    obtain ⟨b, hb, hbc⟩ := h'.change j
    -- an id the newer session created is past all ids of the older snapshots
    have hnew : b = .new → a = .nop := by
      rintro rfl
      simp only [UndoState.entry, Change.encode, Prod.mk.injEq] at hb
      have hfresh : mid.nextId ≤ j := h'.fresh j (by rw [hb.1]; rfl)
      have hfree : old.table.get? j = none := by
        cases hg : old.table.get? j with
        | none => rfl
        | some w => exact absurd (hold _ w hg) (Nat.not_lt.mpr (h.grows.trans hfresh))
      rw [hfree, hbc.1] at hab
      exact hab.eq_nop
    exact ⟨a, b, UndoState.entry_merge ha hb hab hbc hnew, hab.compose hbc hnew, ha, hb⟩
  refine ⟨?_, h.grows.trans h'.grows, fun j hj => ?_, fun j => ?_⟩
  · exact (UndoState.merge_header prev state).1.trans h.nextId
  · obtain ⟨a, b, hcode, -, ha, hb⟩ := hentry j
    have hnewIds : ((a.compose b).encode).1.isSome := by
      rw [← hcode]
      exact hj
    -- the id is new in one of the two
    cases a with
    | new =>
      simp only [UndoState.entry, Change.encode, Prod.mk.injEq] at ha
      exact h.fresh j (by rw [ha.1]; rfl)
    | nop =>
      cases b with
      | new =>
        simp only [UndoState.entry, Change.encode, Prod.mk.injEq] at hb
        exact h.grows.trans (h'.fresh j (by rw [hb.1]; rfl))
      | _ => simp [Change.compose, Change.encode] at hnewIds
    | upd x => cases b <;> simp [Change.compose, Change.encode] at hnewIds
    | del x => cases b <;> simp [Change.compose, Change.encode] at hnewIds
  · obtain ⟨a, b, hcode, hundoes, -, -⟩ := hentry j
    exact ⟨_, hcode, hundoes⟩

/-- A commit takes the same number of states and snapshots from the oldest end. -/
theorem Records.commit {us : List (UndoState V)} {fs : List (Frame (Content V))} {now : Content V}
    (h : Records us fs now) (r : Int) :
    Records (us.rdropWhile fun u => u.revision ≤ r) (fs.rdropWhile fun f => f.revision ≤ r) now ∧
      (us.rdropWhile (fun u => u.revision ≤ r) = [] ↔
        fs.rdropWhile (fun f => f.revision ≤ r) = []) := by
  induction us generalizing fs now with
  | nil =>
    match fs, h with
    | [], h => exact ⟨h, by simp⟩
  | cons u us ih =>
    match fs, h with
    | f :: fs, ⟨hbelow, hrev, htracks, hrest⟩ =>
      obtain ⟨hih, hempty⟩ := ih hrest
      rw [rdropWhile_cons, rdropWhile_cons]
      by_cases hnil : us.rdropWhile (fun u => u.revision ≤ r) = []
      · rw [if_pos hnil, if_pos (hempty.mp hnil), hrev]
        by_cases hle : f.revision ≤ r
        · simp only [hle, decide_true, if_true]
          exact ⟨hbelow, trivial⟩
        · simp only [hle, decide_false, Bool.false_eq_true, if_false]
          exact ⟨⟨hbelow, hrev, htracks, hrest.below⟩, by simp⟩
      · rw [if_neg hnil, if_neg fun h => hnil (hempty.mpr h)]
        exact ⟨⟨hbelow, hrev, htracks, hih⟩, by simp⟩

/-! ## Refinement -/

/-- The undo log and the snapshots agree. -/
structure Refines (g : GenericIndex V) (s : Snapshots (Content V)) : Prop where
  indices : g.indices = s.content.table
  nextId : g.nextId = s.content.nextId
  revision : g.revision = s.revision
  records : Records g.stack s.frames s.content

namespace Refines

variable {g : GenericIndex V} {s : Snapshots (Content V)}

theorem emplace (h : Refines g s) (v : V) :
    Refines (g.after (.emplace v)) (s.step (.emplace v)) := by
  simp only [GenericIndex.after, GenericIndex.step, GenericIndex.emplace, Snapshots.step, h.indices,
    h.nextId]
  cases ht : s.content.table.emplace s.content.nextId v with
  | none => simpa [Content.emplace, ht] using h
  | some t =>
    have hc : s.content.emplace v = some ⟨t, s.content.nextId + 1⟩ := by
      rw [Content.emplace, ht]
      rfl
    rw [hc]
    exact ⟨by simp, by simp, by simpa using h.revision,
      Records.record (g := { g with indices := t, nextId := s.content.nextId + 1 }) h.records
        (h.records.below.emplace hc) (fun _ => rfl)
        fun u old hold htracks => htracks.onCreate hold h.records.below hc⟩

theorem modify (h : Refines g s) (i : Nat) (m : Modifier V) :
    Refines (g.after (.modify i m)) (s.step (.modify i m)) := by
  simp only [GenericIndex.after, GenericIndex.step, GenericIndex.modify, Snapshots.step, h.indices]
  cases hv : s.content.table.get? i with
  | none =>
    have hsame : s.content.modify i m = s.content := by
      refine Content.ext (Table.ext_get? fun j => ?_) rfl
      rw [Content.modify, Table.get?_modify]
      split
      · rename_i hj
        rw [hj, hv]
        rfl
      · rfl
    rw [hsame, Snapshots.put_self]
    exact h
  | some v =>
    refine ⟨rfl, (g.record_nextId _).trans h.nextId, (g.record_revision _).trans h.revision, ?_⟩
    exact Records.record h.records (h.records.below.modify i m)
      (fun u => by
        unfold UndoState.onModify
        split
        · rfl
        · split <;> rfl)
      fun u old _ htracks => htracks.onModify hv m

theorem remove (h : Refines g s) (i : Nat) :
    Refines (g.after (.remove i)) (s.step (.remove i)) := by
  simp only [GenericIndex.after, GenericIndex.step, GenericIndex.remove, Snapshots.step, h.indices]
  cases hv : s.content.table.get? i with
  | none =>
    have hsame : s.content.erase i = s.content := by
      refine Content.ext (Table.ext_get? fun j => ?_) rfl
      rw [Content.erase, Table.get?_erase]
      split
      · rename_i hj
        rw [hj, hv]
      · rfl
    rw [hsame, Snapshots.put_self]
    exact h
  | some v =>
    refine ⟨rfl, (g.record_nextId _).trans h.nextId, (g.record_revision _).trans h.revision, ?_⟩
    exact Records.record h.records (h.records.below.erase i)
      (fun u => by
        unfold UndoState.onRemove
        split
        · rfl
        · split
          · rfl
          · split <;> rfl)
      fun u old _ htracks => htracks.onRemove hv

theorem start (h : Refines g s) : Refines g.startUndoSession s.start where
  indices := h.indices
  nextId := h.nextId
  revision := by simp only [GenericIndex.startUndoSession, Snapshots.start, h.revision]
  records := by
    refine ⟨h.records.below, by simp only [h.revision], ?_, h.records⟩
    rw [h.nextId]
    exact Tracks.start _ _

/-- An undo does not throw, and goes back to the newest snapshot. -/
theorem undo (h : Refines g s) : ∃ g', g.undo = .ok g' ∧ Refines g' s.undo := by
  obtain ⟨content, frames, revision⟩ := s
  match hstack : g.stack, frames, h with
  | [], [], h =>
    exact ⟨g, by simp only [GenericIndex.undo, hstack], h⟩
  | u :: us, f :: fs, h =>
    have hrecords := h.records
    rw [hstack] at hrecords
    obtain ⟨-, hrev, htracks, hrest⟩ := hrecords
    exact ⟨_, GenericIndex.undo_ok hstack h.indices htracks, rfl, rfl,
      by simp only [Snapshots.undo, h.revision], hrest⟩
  | [], f :: fs, h =>
    have := h.records
    rw [hstack] at this
    exact this.elim
  | u :: us, [], h =>
    have := h.records
    rw [hstack] at this
    exact this.elim

theorem squash (h : Refines g s) : Refines g.squash s.squash := by
  obtain ⟨content, frames, revision⟩ := s
  obtain ⟨indices, nextId, stack, rev⟩ := g
  obtain ⟨hindices, hnextId, hrevision, hrecords⟩ := h
  match stack, frames, hrecords with
  | [], [], hrecords => exact ⟨hindices, hnextId, hrevision, hrecords⟩
  | [u], [f], hrecords => exact ⟨hindices, hnextId, hrevision, hrecords.1⟩
  | state :: prev :: us, f :: f' :: fs, ⟨hbelow, _, htracks, hmid, hprev, htracks', hrest⟩ =>
    refine ⟨hindices, hnextId, ?_, hbelow, ?_, htracks'.merge hrest.below htracks, hrest⟩
    · show rev - 1 = revision - 1
      rw [show rev = revision from hrevision]
    · exact (UndoState.merge_header prev state).2.trans hprev

theorem commit (h : Refines g s) (r : Int) : Refines (g.commit r) (s.commit r) :=
  ⟨h.indices, h.nextId, h.revision, (h.records.commit r).1⟩

theorem undoRounds (n : Nat) (h : Refines g s) :
    ∃ g', GenericIndex.undoRounds n g = .ok g' ∧ Refines g' (Snapshots.undo^[n] s) := by
  induction n generalizing g s with
  | zero => exact ⟨g, rfl, h⟩
  | succ n ih =>
    obtain ⟨g₁, hg₁, h₁⟩ := h.undo
    obtain ⟨g', hg', h'⟩ := ih h₁
    exact ⟨g', by simp only [GenericIndex.undoRounds, hg₁, bind, Except.bind, hg'], h'⟩

theorem length_eq (h : Refines g s) : g.stack.length = s.frames.length := by
  have hlen : ∀ (us : List (UndoState V)) (fs : List (Frame (Content V))) (now : Content V),
      Records us fs now → us.length = fs.length := by
    intro us
    induction us with
    | nil =>
      intro fs now h
      match fs, h with
      | [], _ => rfl
    | cons u us ih =>
      intro fs now h
      match fs, h with
      | f :: fs, ⟨_, _, _, hrest⟩ => simp only [List.length_cons, ih fs f.saved hrest]
  exact hlen _ _ _ h.records

theorem undoAll (h : Refines g s) : ∃ g', g.undoAll = .ok g' ∧ Refines g' s.undoAll := by
  unfold GenericIndex.undoAll Snapshots.undoAll
  rw [h.length_eq]
  exact h.undoRounds _

/-- Every operation keeps the agreement. -/
theorem step (h : Refines g s) (op : UndoOp V) : Refines (g.after op) (s.step op) := by
  cases op with
  | emplace v => exact h.emplace v
  | modify i m => exact h.modify i m
  | remove i => exact h.remove i
  | startUndoSession => exact h.start
  | undo =>
    obtain ⟨g', hg', h'⟩ := h.undo
    simp only [GenericIndex.after, GenericIndex.step, hg']
    exact h'
  | squash => exact h.squash
  | commit r => exact h.commit r
  | undoAll =>
    obtain ⟨g', hg', h'⟩ := h.undoAll
    simp only [GenericIndex.after, GenericIndex.step, hg']
    exact h'

theorem run (h : Refines g s) (ops : List (UndoOp V)) :
    Refines (ops.foldl GenericIndex.after g) (ops.foldl Snapshots.step s) := by
  induction ops generalizing g s with
  | nil => exact h
  | cons op ops ih => exact ih (h.step op)

end Refines

/-- **The undo store refines a stack of snapshots.** After every run of operations on an index its
container, its next id and its revision are those of the machine that keeps full copies, and neither
`undo` nor `undo_all` throws there. -/
theorem genericIndex_refines_snapshots (ops : List (UndoOp V)) :
    let g := ops.foldl GenericIndex.after ({} : GenericIndex V)
    let s := ops.foldl Snapshots.step ({ content := .empty } : Snapshots (Content V))
    g.indices = s.content.table ∧ g.nextId = s.content.nextId ∧ g.revision = s.revision ∧
      (∃ g', g.undo = .ok g') ∧ ∃ g', g.undoAll = .ok g' := by
  intro g s
  have hinit : Refines ({} : GenericIndex V) { content := .empty } :=
    ⟨rfl, rfl, rfl, Content.below_empty⟩
  have h : Refines g s := hinit.run ops
  obtain ⟨g₁, hg₁, -⟩ := h.undo
  obtain ⟨g₂, hg₂, -⟩ := h.undoAll
  exact ⟨h.indices, h.nextId, h.revision, ⟨g₁, hg₁⟩, g₂, hg₂⟩

end NewsChain
