import Mathlib.Data.List.DropRight
import NewsChain.Laws.Authority
import NewsChain.Laws.OperationIndex
import NewsChain.Laws.RawRoundTrip

/-!
# Account history

The rows of an account in `account_history_object_index` are numbered in the order in which they were
created. The index is read from the largest number down: `ownRows` are the rows of a name that a
lower bound finds, and both the next number and the answer of `get_account_history` are read off
them.
-/

namespace NewsChain

/-! ## The index -/

/-- `by_account` orders its rows. -/
theorem orders_historyBefore : Orders historyBefore where
  asymm a b hab hba := by
    simp only [historyBefore, UInt64.lt_iff_toNat_lt, UInt32.lt_iff_toNat_lt,
      ← UInt64.toNat_inj] at hab hba
    omega
  trans a b c hab hbc hac := by
    simp only [historyBefore, UInt64.lt_iff_toNat_lt, UInt32.lt_iff_toNat_lt,
      ← UInt64.toNat_inj] at hab hbc hac
    omega

theorem historyBefore_total {a b : AccountName × UInt32} (h : a ≠ b) :
    historyBefore a b ∨ historyBefore b a := by
  simp only [historyBefore, UInt64.lt_iff_toNat_lt, UInt32.lt_iff_toNat_lt, ← UInt64.toNat_inj]
  rw [ne_eq, Prod.ext_iff, ← UInt64.toNat_inj, ← UInt32.toNat_inj] at h
  omega

/-- The rows of a name from a bound on, as a lower bound finds them. -/
def ownRows (t : Table AccountHistoryObject) (name : AccountName) (start : UInt32) :
    List (Nat × AccountHistoryObject) :=
  (lowerBound t (name, start)).takeWhile fun r => r.2.name == name

section Rows

variable {t : Table AccountHistoryObject} {name : AccountName} {start : UInt32}

/-- No two rows stand at one place of the index. -/
theorem place_injective {r s : Nat × AccountHistoryObject} (hr : r ∈ t.rows) (hs : s ∈ t.rows)
    (hplace : r.2.place = s.2.place) : r = s := by
  have hr := Table.get?_eq_some_iff_mem.mpr hr
  have hs := Table.get?_eq_some_iff_mem.mpr hs
  have hid := t.unique _ _ _ _ hr hs ⟨_, List.mem_singleton_self _, hplace⟩
  rw [hid, hs] at hr
  exact Prod.ext hid (Option.some.inj hr).symm

/-- The rows of the index, each before those behind it. -/
theorem pairwise_index (t : Table AccountHistoryObject) :
    (inOrder (fun r s => historyBefore r.2.place s.2.place) t.rows).Pairwise
      fun r s => historyBefore r.2.place s.2.place := by
  have horders : Orders fun r s : Nat × AccountHistoryObject =>
      historyBefore r.2.place s.2.place :=
    ⟨fun _ _ => orders_historyBefore.asymm _ _, fun _ _ _ => orders_historyBefore.trans _ _ _⟩
  refine pairwise_inOrder_before horders ?_ fun r hr s hs hne =>
    historyBefore_total fun h => hne (place_injective hr hs h)
  exact t.map.rows_nodup_keys.of_map

/-- A lower bound leaves the rows that are not before it. -/
theorem mem_lowerBound {bound : AccountName × UInt32} {r : Nat × AccountHistoryObject} :
    r ∈ lowerBound t bound ↔ r ∈ t.rows ∧ ¬ historyBefore r.2.place bound := by
  have hfilter : lowerBound t bound =
      (inOrder (fun r s => historyBefore r.2.place s.2.place) t.rows).filter fun r =>
        !decide (historyBefore r.2.place bound) := by
    refine dropWhile_eq_filter (pairwise_index t) fun a b hab ha => ?_
    rw [decide_eq_false_iff_not] at ha ⊢
    exact orders_historyBefore.trans _ _ _ ha (orders_historyBefore.asymm _ _ hab)
  rw [hfilter, List.mem_filter, (perm_inOrder _).mem_iff]
  simp

theorem pairwise_lowerBound (bound : AccountName × UInt32) :
    (lowerBound t bound).Pairwise fun r s => historyBefore r.2.place s.2.place :=
  (pairwise_index t).sublist (List.dropWhile_sublist _)

/-- Own rows are the rows of the name up to the bound. -/
theorem mem_ownRows {r : Nat × AccountHistoryObject} :
    r ∈ ownRows t name start ↔ r ∈ t.rows ∧ r.2.name = name ∧ r.2.sequence ≤ start := by
  -- What a lower bound finds behind the rows of the name is behind the name.
  have hordered : (lowerBound t (name, start)).Pairwise fun r s =>
      historyBefore r.2.place s.2.place ∧ ¬ historyBefore r.2.place (name, start) :=
    (pairwise_lowerBound _).imp_of_mem fun hr _ hrs => ⟨hrs, (mem_lowerBound.mp hr).2⟩
  have hfilter : ownRows t name start =
      (lowerBound t (name, start)).filter fun r => r.2.name == name := by
    refine takeWhile_eq_filter hordered fun a b hab ha => ?_
    obtain ⟨hab, hbound⟩ := hab
    rw [beq_eq_false_iff_ne] at ha ⊢
    simp only [historyBefore, AccountHistoryObject.place, UInt64.lt_iff_toNat_lt, ne_eq,
      ← UInt64.toNat_inj] at hab hbound ha ⊢
    omega
  rw [hfilter, List.mem_filter, mem_lowerBound, beq_iff_eq, and_assoc]
  refine and_congr_right fun _ => ?_
  simp only [historyBefore, AccountHistoryObject.place, UInt64.lt_iff_toNat_lt,
    UInt32.lt_iff_toNat_lt, UInt32.le_iff_toNat_le, ← UInt64.toNat_inj]
  omega

/-- The largest number stands first. -/
theorem pairwise_ownRows :
    (ownRows t name start).Pairwise fun r s => s.2.sequence < r.2.sequence := by
  have hsub : (ownRows t name start).Pairwise fun r s => historyBefore r.2.place s.2.place :=
    (pairwise_lowerBound _).sublist (List.takeWhile_sublist _)
  refine hsub.imp_of_mem fun {r s} hr hs hrs => ?_
  have hname : r.2.name = s.2.name := (mem_ownRows.mp hr).2.1.trans (mem_ownRows.mp hs).2.1.symm
  rcases hrs with hlt | ⟨-, hlt⟩
  · have hlt : r.2.name < s.2.name := hlt
    rw [hname] at hlt
    exact absurd hlt (UInt64.lt_irrefl _)
  · exact hlt

/-- Which rows are own rows determines the list. -/
theorem ownRows_congr {t' : Table AccountHistoryObject}
    (h : ∀ r, r.2.name = name → (r ∈ t.rows ↔ r ∈ t'.rows)) :
    ownRows t name start = ownRows t' name start := by
  refine eq_of_strict (r := fun r s => s.2.sequence < r.2.sequence)
    (fun _ _ => UInt32.lt_asymm) pairwise_ownRows pairwise_ownRows fun r => ?_
  rw [mem_ownRows, mem_ownRows]
  constructor
  · rintro ⟨hr, hname, hle⟩
    exact ⟨(h r hname).mp hr, hname, hle⟩
  · rintro ⟨hr, hname, hle⟩
    exact ⟨(h r hname).mpr hr, hname, hle⟩

end Rows

/-- The next number follows the largest there is. -/
theorem nextSequence_eq (o : Objects) (name : AccountName) :
    nextSequence o name =
      match ownRows o.accountHistory.table name 4294967295 with
      | [] => 1
      | r :: _ => r.2.sequence + 1 := by
  unfold nextSequence ownRows
  cases lowerBound o.accountHistory.table (name, 4294967295) with
  | nil => rfl
  | cons r rest =>
    by_cases hname : r.2.name = name
    · rw [List.takeWhile_cons_of_pos (by simpa using hname)]
      simp only [if_pos hname]
    · rw [List.takeWhile_cons_of_neg (by simpa using hname)]
      simp only [if_neg hname]

theorem nextSequence_congr {o o' : Objects} {name : AccountName}
    (h : ∀ r, r.2.name = name →
      (r ∈ o.accountHistory.table.rows ↔ r ∈ o'.accountHistory.table.rows)) :
    nextSequence o name = nextSequence o' name := by
  rw [nextSequence_eq, nextSequence_eq, ownRows_congr h]

/-! ## The names of an operation -/

theorem pairwise_flatInsert {n : AccountName} {names : List AccountName}
    (h : names.Pairwise (· < ·)) : (flatInsert n names).Pairwise (· < ·) := by
  induction names with
  | nil => exact List.pairwise_singleton _ _
  | cons m ms ih =>
    obtain ⟨hm, hms⟩ := List.pairwise_cons.mp h
    unfold flatInsert
    split
    · rename_i hlt
      refine List.pairwise_cons.mpr ⟨fun x hx => ?_, h⟩
      rcases List.mem_cons.mp hx with rfl | hx
      · exact hlt
      · exact UInt64.lt_trans hlt (hm x hx)
    · rename_i hnot
      split
      · exact h
      · rename_i hne
        refine List.pairwise_cons.mpr ⟨fun x hx => ?_, ih hms⟩
        rcases mem_flatInsert.mp hx with rfl | hx
        · exact UInt64.lt_of_le_of_ne (UInt64.not_lt.mp hnot) (Ne.symm hne)
        · exact hm x hx

/-- An operation names nobody twice. -/
theorem nodup_names (op : Operation) : op.names.Nodup := by
  have hsorted : op.names.Pairwise (· < ·) := by
    cases op with
    | createAccount o => exact pairwise_flatInsert (pairwise_flatInsert .nil)
    | transfer o => exact pairwise_flatInsert (pairwise_flatInsert .nil)
    | transfers o =>
      have hfold : ∀ (entries : List (AccountName × Asset)) (names : List AccountName),
          names.Pairwise (· < ·) →
            (entries.foldl (fun names n => flatInsert n.1 names) names).Pairwise (· < ·) := by
        intro entries
        induction entries with
        | nil => exact fun _ h => h
        | cons e entries ih => exact fun names h => ih _ (pairwise_flatInsert h)
      exact hfold _ _ (pairwise_flatInsert .nil)
  exact hsorted.imp UInt64.ne_of_lt

/-! ## The handler -/

/-- What the handler does is to write its rows: the names of an operation differ, so no number
depends on a row of the same operation. -/
theorem run_onPreApplyOperation (note : OperationNotification) (o : Objects) :
    (onPreApplyOperation note).run o = (writeHistory (historyRows note o)).run o := by
  have hloop : ∀ (opId : Nat) (names : List AccountName) (o' : Objects), names.Nodup →
      (∀ name ∈ names, nextSequence o' name = nextSequence o name) →
      (forM names fun name => do
        create .accountHistory { name, sequence := nextSequence (← get) name, opId }).run o' =
          (writeHistory (names.map fun name =>
            .accountHistory { name, sequence := nextSequence o name, opId })).run o' := by
    intro opId names
    induction names with
    | nil => exact fun _ _ _ => rfl
    | cons name names ih =>
      intro o' hnodup hsame
      obtain ⟨hname, hnames⟩ := List.nodup_cons.mp hnodup
      rw [List.forM_cons, List.map_cons, writeHistory, EStateM.run_bind, EStateM.run_bind,
        EStateM.run_bind, EStateM.run_get]
      simp only [hsame name List.mem_cons_self]
      rw [run_create]
      cases hc : (Column.get .accountHistory o').emplace
          ⟨name, nextSequence o name, opId⟩ with
      | none => rfl
      | some c =>
        refine ih _ hnames fun other hother => ?_
        rw [← hsame other (List.mem_cons_of_mem _ hother)]
        refine nextSequence_congr fun r hr => (Content.mem_rows_emplace hc).trans ?_
        refine or_iff_right fun hnew => ?_
        have hr : name = other := by rwa [hnew] at hr
        rw [← hr] at hother
        exact hname hother
  rw [onPreApplyOperation, historyRows, writeHistory, EStateM.run_bind, EStateM.run_get]
  simp only [EStateM.run_bind, EStateM.run_get]
  cases hcreate : (create .operations (note.toObject o.gpo.time)).run o with
  | error e o' => rfl
  | ok _ o' =>
    refine hloop _ _ _ (nodup_names note.op) fun name _ => ?_
    rw [run_create] at hcreate
    split at hcreate
    · cases hcreate
      rfl
    · cases hcreate

/-! ## The entries of an account -/

/-- The numbers of the rows of a name and the operations they point to, in the order in which the
rows were created. -/
def entriesOf (t : Table AccountHistoryObject) (name : AccountName) : List (Nat × Nat) :=
  (t.rows.filter fun r => r.2.name == name).map fun r => (r.2.sequence.toNat, r.2.opId)

section Entries

variable {t : Table AccountHistoryObject} {name : AccountName} {places : List Nat}

theorem mem_entriesOf {n p : Nat} :
    (n, p) ∈ entriesOf t name ↔
      ∃ r ∈ t.rows, r.2.name = name ∧ r.2.sequence.toNat = n ∧ r.2.opId = p := by
  simp only [entriesOf, List.mem_map, List.mem_filter, beq_iff_eq, Prod.mk.injEq, and_assoc]

/-- Where the entries are numbered, the index is read from the last number down. -/
theorem ownRows_numbered (h : entriesOf t name = numbered places) (start : UInt32) :
    (ownRows t name start).map (fun r => (r.2.sequence.toNat, r.2.opId)) =
      ((numbered places).filter fun e => e.1 ≤ start.toNat).reverse := by
  refine eq_of_strict (r := fun x y => y.1 < x.1) (fun _ _ => Nat.lt_asymm) ?_ ?_ fun e => ?_
  · exact List.pairwise_map.mpr (pairwise_ownRows.imp UInt32.lt_iff_toNat_lt.mp)
  · exact List.pairwise_reverse.mpr ((pairwise_numbered _).filter _)
  · rw [List.mem_reverse, List.mem_filter, ← h, mem_entriesOf, List.mem_map, decide_eq_true_iff]
    constructor
    · rintro ⟨r, hr, rfl⟩
      obtain ⟨hrow, hname, hle⟩ := mem_ownRows.mp hr
      exact ⟨⟨r, hrow, hname, rfl, rfl⟩, UInt32.le_iff_toNat_le.mp hle⟩
    · rintro ⟨⟨r, hrow, hname, hnum, hplace⟩, hle⟩
      refine ⟨r, mem_ownRows.mpr ⟨hrow, hname, ?_⟩, Prod.ext hnum hplace⟩
      rwa [UInt32.le_iff_toNat_le, hnum]

/-- The next number is the next, until the numbers of 32 bits are used up. -/
theorem nextSequence_numbered {o : Objects} (h : entriesOf o.accountHistory.table name = numbered places)
    (hlength : places.length < 2 ^ 32 - 1) :
    (nextSequence o name).toNat = places.length + 1 := by
  have hall : (numbered places).filter (fun e => e.1 ≤ (4294967295 : UInt32).toNat) =
      numbered places := by
    refine List.filter_eq_self.mpr fun e he => decide_eq_true ?_
    obtain ⟨hpos, hget⟩ := mem_numbered.mp (show (e.1, e.2) ∈ numbered places from he)
    have hlt := (List.getElem?_eq_some_iff.mp hget).1
    show e.1 ≤ 4294967295
    omega
  have hrows := ownRows_numbered h 4294967295
  rw [hall] at hrows
  rw [nextSequence_eq]
  rcases List.eq_nil_or_concat places with rfl | ⟨front, p, rfl⟩
  · rw [List.map_eq_nil_iff.mp hrows]
    rfl
  · rw [List.concat_eq_append, numbered_concat, List.reverse_append] at hrows
    obtain ⟨r, rest, hown, hr, -⟩ := List.map_eq_cons_iff.mp hrows
    have hnum : r.2.sequence.toNat = front.length + 1 := (Prod.mk.inj hr).1
    rw [List.length_concat] at hlength ⊢
    rw [hown]
    simp only [UInt32.toNat_add, hnum]
    exact Nat.mod_eq_of_lt (by simp; omega)

end Entries

/-- A row that is created is the last entry of its name, and no other name's. -/
theorem entriesOf_emplace {c c' : Content AccountHistoryObject} {v : AccountHistoryObject}
    (hbelow : c.Below) (hc : c.emplace v = some c') (name : AccountName) :
    entriesOf c'.table name =
      entriesOf c.table name ++ if v.name = name then [(v.sequence.toNat, v.opId)] else [] := by
  rw [entriesOf, hbelow.rows_emplace hc, List.filter_append, List.map_append, ← entriesOf]
  by_cases hname : v.name = name <;> simp [hname]

/-- A number that no entry of its name has can be given out. -/
theorem emplace_fresh {c : Content AccountHistoryObject} {v : AccountHistoryObject}
    {places : List Nat} (hbelow : c.Below) (h : entriesOf c.table v.name = numbered places)
    (hfresh : v.sequence.toNat = places.length + 1) : ∃ c', c.emplace v = some c' := by
  refine hbelow.emplace_isSome ?_
  rintro i w hw ⟨k, hk, hplace⟩
  obtain rfl := List.mem_singleton.mp hk
  obtain ⟨hname, hsequence⟩ := Prod.mk.inj hplace
  have hmem : (w.sequence.toNat, w.opId) ∈ entriesOf c.table v.name :=
    mem_entriesOf.mpr ⟨(i, w), Table.get?_eq_some_iff_mem.mp hw, hname.symm, rfl, rfl⟩
  rw [h] at hmem
  obtain ⟨hpos, hget⟩ := mem_numbered.mp hmem
  have hlt := (List.getElem?_eq_some_iff.mp hget).1
  rw [← hsequence, hfresh] at hlt
  omega

/-- The account-history rows of one operation are written up to the first that cannot be. -/
structure WrittenUpTo (row : AccountName → AccountHistoryObject) (names : List AccountName)
    (c c' : Content AccountHistoryObject) (done rest : List AccountName) : Prop where
  split : names = done ++ rest
  below : c'.Below
  entries : ∀ name, entriesOf c'.table name =
    entriesOf c.table name ++
      if name ∈ done then [((row name).sequence.toNat, (row name).opId)] else []
  refused : ∀ name rest', rest = name :: rest' → c'.emplace (row name) = none

theorem writeHistory_names (row : AccountName → AccountHistoryObject)
    (hrow : ∀ name, (row name).name = name) {names : List AccountName} (hnodup : names.Nodup)
    {o : Objects} (hbelow : o.accountHistory.Below) :
    ∃ c' done rest, finalState ((writeHistory (names.map fun name => .accountHistory (row name))).run o) =
        { o with accountHistory := c' } ∧
      WrittenUpTo row names o.accountHistory c' done rest := by
  induction names generalizing o with
  | nil => exact ⟨o.accountHistory, [], [], rfl, rfl, hbelow, fun _ => (List.append_nil _).symm, nofun⟩
  | cons name names ih =>
    obtain ⟨hname, hnames⟩ := List.nodup_cons.mp hnodup
    rw [List.map_cons, writeHistory, EStateM.run_bind, run_create]
    cases hc : (Column.get .accountHistory o).emplace (row name) with
    | none =>
      refine ⟨o.accountHistory, [], name :: names, rfl, rfl, hbelow,
        fun _ => (List.append_nil _).symm, ?_⟩
      rintro other rest' heq
      obtain ⟨rfl, -⟩ := List.cons.inj heq
      exact hc
    | some c =>
      obtain ⟨c', done, rest, hfinal, hwritten⟩ :=
        ih hnames (o := { o with accountHistory := c }) (hbelow.emplace hc)
      refine ⟨c', name :: done, rest, hfinal, ?_, hwritten.below, fun other => ?_, hwritten.refused⟩
      · rw [hwritten.split, List.cons_append]
      · rw [hwritten.entries, entriesOf_emplace hbelow hc, hrow, List.append_assoc]
        by_cases hother : other = name
        · have hdone : other ∉ done := fun hdone =>
            hname (hother ▸ hwritten.split ▸ List.mem_append_left _ hdone)
          rw [if_pos hother.symm, if_neg hdone, if_pos (hother ▸ List.mem_cons_self), hother,
            List.append_nil]
        · rw [if_neg (Ne.symm hother), List.nil_append]
          simp [hother]

/-! ## Numbering -/

/-- The notifications that name an account, with their places. -/
def mentions (name : AccountName) (notes : List OperationNotification) :
    List (OperationNotification × Nat) :=
  notes.zipIdx.filter fun e => name ∈ e.1.op.names

/-- Nobody whom an operation names together with the account is named `2 ^ 32 - 1` times. -/
def Countable (name : AccountName) (notes : List OperationNotification) : Prop :=
  ∀ note ∈ notes, name ∈ note.op.names → ∀ other ∈ note.op.names,
    (mentions other notes).length < 2 ^ 32 - 1

section Mentions

variable {name : AccountName} {notes : List OperationNotification} {note : OperationNotification}

theorem mem_mentions {p : Nat} :
    (note, p) ∈ mentions name notes ↔ notes[p]? = some note ∧ name ∈ note.op.names := by
  rw [mentions, List.mem_filter, List.mem_zipIdx_iff_getElem?, decide_eq_true_iff]

theorem mentions_concat :
    mentions name (notes ++ [note]) =
      mentions name notes ++ if name ∈ note.op.names then [(note, notes.length)] else [] := by
  rw [mentions, List.zipIdx_append, List.filter_append, ← mentions, Nat.zero_add]
  by_cases hname : name ∈ note.op.names <;> simp [hname]

/-- Naming it once more counts. -/
theorem length_mentions_concat : (mentions name (notes ++ [note])).length =
    (mentions name notes).length + if name ∈ note.op.names then 1 else 0 := by
  rw [mentions_concat, List.length_append]
  by_cases hname : name ∈ note.op.names <;> simp [hname]

theorem Countable.of_concat (h : Countable name (notes ++ [note])) : Countable name notes := by
  intro other hother hname m hm
  have hlt := h other (List.mem_append_left _ hother) hname m hm
  rw [length_mentions_concat] at hlt
  omega

/-- Itself it is not named that often either. -/
theorem Countable.own (h : Countable name notes) : (mentions name notes).length < 2 ^ 32 - 1 := by
  cases hmentions : mentions name notes with
  | nil => decide
  | cons e rest =>
    have hmem : (e.1, e.2) ∈ mentions name notes := hmentions ▸ List.mem_cons_self
    obtain ⟨hget, hname⟩ := mem_mentions.mp hmem
    rw [← hmentions]
    exact h e.1 (List.mem_of_getElem? hget) hname name hname

end Mentions

/-- The history of the accounts after some operations. Of an account that may still be counted the
entries are numbered; as long as none of those named with it runs out of numbers, each operation
that names it has its entry. -/
structure Chronicled (notes : List OperationNotification) (o : Objects) : Prop where
  operations : Recorded notes o.operations
  below : o.accountHistory.Below
  entries : ∀ name, (mentions name notes).length < 2 ^ 32 - 1 → ∃ places,
    entriesOf o.accountHistory.table name = numbered places ∧
      places.length ≤ (mentions name notes).length ∧
        (Countable name notes → places = (mentions name notes).map (·.2))

variable [Node] {notes : List OperationNotification} {o : Objects}

/-- The handler adds an entry for every name. -/
theorem Chronicled.notify (hconnected : HistoryConnected) (h : Chronicled notes o)
    (note : OperationNotification) :
    Chronicled (notes ++ [note]) (finalState ((notifyPostApplyOperation note).run o)) := by
  let row (name : AccountName) : AccountHistoryObject :=
    { name, sequence := nextSequence o name, opId := o.operations.nextId }
  obtain ⟨c, hc, -⟩ := h.operations.emplace note o.gpo.time
  obtain ⟨c', done, rest, hfinal, hwritten⟩ := writeHistory_names row (fun _ => rfl)
    (nodup_names note.op) (o := { o with operations := c }) h.below
  have hstate : finalState ((notifyPostApplyOperation note).run o) =
      { o with operations := c, accountHistory := c' } := by
    rw [finalState_notify, hconnected, historyRows, writeHistory, EStateM.run_bind, run_create]
    simp only [Column.operations, hc]
    exact hfinal
  refine ⟨h.operations.notify hconnected note, ?_, fun name hlt => ?_⟩
  · rw [hstate]
    exact hwritten.below
  rw [hstate]
  -- Before the operation no name it counts has been named too often.
  have hbefore : ∀ m, (mentions m (notes ++ [note])).length < 2 ^ 32 - 1 → ∃ places,
      entriesOf o.accountHistory.table m = numbered places ∧
        places.length ≤ (mentions m notes).length ∧ (nextSequence o m).toNat = places.length + 1 ∧
          (Countable m notes → places = (mentions m notes).map (·.2)) := by
    intro m hm
    rw [length_mentions_concat] at hm
    obtain ⟨places, hplaces, hle, hall⟩ := h.entries m (by omega)
    exact ⟨places, hplaces, hle, nextSequence_numbered hplaces (by omega), hall⟩
  obtain ⟨places, hplaces, hle, hnext, hall⟩ := hbefore name hlt
  by_cases hdone : name ∈ done
  · have hnamed : name ∈ note.op.names := hwritten.split ▸ List.mem_append_left _ hdone
    refine ⟨places ++ [notes.length], ?_, ?_, fun hcountable => ?_⟩
    · rw [hwritten.entries, if_pos hdone, numbered_concat, ← h.operations.nextId]
      simp only [row, hplaces, hnext]
    · rw [length_mentions_concat, if_pos hnamed, List.length_append, List.length_singleton]
      omega
    · rw [hall hcountable.of_concat, mentions_concat, if_pos hnamed, List.map_append]
      rfl
  · refine ⟨places, ?_, ?_, fun hcountable => ?_⟩
    · rw [hwritten.entries, if_neg hdone, List.append_nil]
      exact hplaces
    · rw [length_mentions_concat]
      omega
    · rw [hall hcountable.of_concat, mentions_concat, if_neg, List.append_nil]
      intro hnamed
      -- The first name that was refused is counted as well, and its number was free.
      have hrest : name ∈ rest := (List.mem_append.mp (hwritten.split ▸ hnamed)).resolve_left hdone
      cases hrefused : rest with
      | nil =>
        rw [hrefused] at hrest
        exact absurd hrest List.not_mem_nil
      | cons first rest' =>
        have hfirst : first ∈ note.op.names := by
          rw [hwritten.split, hrefused]
          exact List.mem_append_right _ List.mem_cons_self
        have hnotdone : first ∉ done := by
          have hnodup := hwritten.split ▸ nodup_names note.op
          rw [hrefused] at hnodup
          exact fun hmem => (List.nodup_append.mp hnodup).2.2 _ hmem _ List.mem_cons_self rfl
        obtain ⟨taken, htaken, -, hfresh, -⟩ := hbefore first
          (hcountable note (List.mem_append_right _ (List.mem_singleton_self _)) hnamed first hfirst)
        have hentries : entriesOf c'.table first = numbered taken := by
          rw [hwritten.entries, if_neg hnotdone, List.append_nil]
          exact htaken
        obtain ⟨c'', hc''⟩ := emplace_fresh (v := row first) hwritten.below hentries hfresh
        rw [hwritten.refused first rest' hrefused] at hc''
        cases hc''

/-- **The history of the accounts** after any operations, applied or refused. -/
theorem Reached.chronicled (hconnected : HistoryConnected) (h : Reached notes o) :
    Chronicled notes o := by
  have hevaluate : ∀ notes op, Keeps (Chronicled notes) (Operation.evaluate op) := fun notes op =>
    evaluate_keeps
      ⟨fun _ _ h => ⟨h.operations, h.below, h.entries⟩,
        fun _ _ h => ⟨h.operations, h.below, h.entries⟩⟩ op
  induction h with
  | genesis =>
    refine ⟨?_, ?_, fun name _ => ⟨[], ?_, Nat.le_refl _, fun _ => rfl⟩⟩
    · rw [genesis_history.1]
      exact .empty
    · rw [genesis_history.2]
      exact Content.below_empty
    · rw [genesis_history.2]
      rfl
  | operation _ hrun ih => exact Chronicled.notify hconnected ((hevaluate _ _).of_ok ih hrun) _
  | refused _ hrun ih => exact (hevaluate _ _).of_error ih hrun
  | write _ _ _ _ _ ih => exact ⟨ih.operations, ih.below, ih.entries⟩

/-! ## Reading the history -/

/-- What the calls say of a notification, its time aside. -/
def OperationNotification.toApi (note : OperationNotification) : OperationObjApi where
  trxId := note.trxId
  block := note.block
  trxInBlock := note.trxInBlock
  opInTrx := note.trxInBlock
  timestamp := 0
  op := note.op

/-- Without its time. -/
def OperationObjApi.untimed (obj : OperationObjApi) : OperationObjApi := { obj with timestamp := 0 }

/-- An operation within the limits of the decoder is unpacked again. -/
theorem getOperation_eq {d : Database} (h : Recorded notes d.store.content.operations) {p : Nat}
    {note : OperationNotification} (hnote : notes[p]? = some note)
    (hsize : note.op.Unpackable) :
    ∃ obj, d.getOperation p = .ok obj ∧ obj.untimed = note.toApi := by
  obtain ⟨v, hv, heq⟩ := h.row_of_note hnote
  have hpacked : v.opPacked = Raw.pack note.op := congrArg OperationObject.opPacked heq
  have hunpack := decodes_operation hsize []
  rw [List.append_nil, ← hpacked] at hunpack
  refine ⟨_, by rw [Database.getOperation, hv]; simp only [OperationObject.toApi, hunpack]; rfl, ?_⟩
  have htrx : v.trxId = note.trxId := congrArg OperationObject.trxId heq
  have hblock : v.block = note.block := congrArg OperationObject.block heq
  have hplace : v.trxInBlock = note.trxInBlock := congrArg OperationObject.trxInBlock heq
  simp only [OperationObjApi.untimed, OperationNotification.toApi, htrx, hblock, hplace]

omit [Node] in
theorem assignEntry_front {k : UInt32} {v : OperationObjApi} {m : List (UInt32 × OperationObjApi)}
    (h : ∀ e ∈ m, k < e.1) : assignEntry k v m = (k, v) :: m := by
  cases m with
  | nil => rfl
  | cons e m => rw [assignEntry, if_pos (h e List.mem_cons_self)]

/-- The loop takes the rows of the name, up to the limit, and puts each in front of those with
larger numbers. -/
theorem collectHistory_eq {β : Type} {d : Database} {name : AccountName} {f : OperationObjApi → β}
    {g : Nat → β} (limit : Nat) (itrs : List (Nat × AccountHistoryObject)) (num : Nat)
    (trxs : List (UInt32 × OperationObjApi))
    (hfalling : (itrs.takeWhile fun r => r.2.name == name).Pairwise fun r s =>
      s.2.sequence < r.2.sequence)
    (hbelow : ∀ r ∈ itrs.takeWhile fun r => r.2.name == name, ∀ e ∈ trxs, r.2.sequence < e.1)
    (hget : ∀ r ∈ (itrs.takeWhile fun r => r.2.name == name).take (limit - num),
      ∃ obj, d.getOperation r.2.opId = .ok obj ∧ f obj = g r.2.opId) :
    ∃ news, d.collectHistory name limit itrs num trxs = .ok (news ++ trxs) ∧
      news.map (fun e => (e.1.toNat, f e.2)) =
        (((itrs.takeWhile fun r => r.2.name == name).take (limit - num)).map fun r =>
          (r.2.sequence.toNat, g r.2.opId)).reverse := by
  induction itrs generalizing num trxs with
  | nil => exact ⟨[], rfl, by simp⟩
  | cons r rest ih =>
    by_cases hlimit : limit ≤ num
    · refine ⟨[], ?_, ?_⟩
      · rw [Database.collectHistory, if_pos hlimit, List.nil_append]
      · rw [Nat.sub_eq_zero_of_le hlimit]
        simp
    · by_cases hname : r.2.name = name
      · rw [List.takeWhile_cons_of_pos (by simpa using hname)] at hfalling hbelow hget ⊢
        obtain ⟨hhead, hfalling⟩ := List.pairwise_cons.mp hfalling
        have htake : limit - num = (limit - (num + 1)) + 1 := by omega
        rw [htake, List.take_succ_cons] at hget ⊢
        obtain ⟨obj, hobj, hf⟩ := hget r List.mem_cons_self
        have hfront : assignEntry r.2.sequence obj trxs = (r.2.sequence, obj) :: trxs :=
          assignEntry_front (hbelow r List.mem_cons_self)
        obtain ⟨news, hrun, hnews⟩ := ih (num + 1) ((r.2.sequence, obj) :: trxs)
          hfalling (fun s hs e he => by
            rcases List.mem_cons.mp he with rfl | he
            · exact hhead s hs
            · exact hbelow s (List.mem_cons_of_mem _ hs) e he)
          fun s hs => hget s (List.mem_cons_of_mem _ hs)
        refine ⟨news ++ [(r.2.sequence, obj)], ?_, ?_⟩
        · rw [Database.collectHistory, if_neg hlimit, if_neg (not_not_intro hname)]
          simp only [hobj, hfront, hrun, List.append_assoc, List.singleton_append]
        · rw [List.map_append, hnews]
          simp only [List.map_cons, List.map_nil, List.reverse_cons, hf]
      · refine ⟨[], ?_, ?_⟩
        · rw [Database.collectHistory, if_neg hlimit, if_pos hname, List.nil_append]
        · rw [List.takeWhile_cons_of_neg (by simpa using hname)]
          simp

/-- The entries that are asked for: those with the `limit` largest numbers not above `start`. -/
def asked (name : AccountName) (notes : List OperationNotification) (start limit : UInt32) :
    List (Nat × OperationNotification × Nat) :=
  ((numbered (mentions name notes)).filter fun e => e.1 ≤ start.toNat).rtake limit.toNat

/-- The call answers with what is asked for. -/
def Answers (d : Database) (name : AccountName) (notes : List OperationNotification)
    (start limit : UInt32) : Prop :=
  ∃ trxs, d.getAccountHistory name start limit = .ok trxs ∧
    trxs.map (fun e => (e.1.toNat, e.2.untimed)) =
      (asked name notes start limit).map fun e => (e.1, e.2.1.toApi)

/-- The history of an account is kept: one entry for each operation that names it, numbered from 1 on
in their order, each of them a row of the operation index, and queries answer from these. -/
structure HistoryKept (name : AccountName) (notes : List OperationNotification) (d : Database) :
    Prop where
  operations : Recorded notes d.store.content.operations
  entries : entriesOf d.store.content.accountHistory.table name =
    numbered ((mentions name notes).map (·.2))
  answers : ∀ start limit, limit ≤ start → limit ≤ apiLimit →
    (∀ e ∈ asked name notes start limit, e.2.1.op.Unpackable) →
      Answers d name notes start limit

omit [Node] in
theorem numbered_map {α β : Type} (f : α → β) (l : List α) :
    numbered (l.map f) = (numbered l).map fun e => (e.1, f e.2) := by
  refine List.ext_getElem? fun i => ?_
  rw [numbered, numbered, List.getElem?_mapIdx, List.getElem?_map, List.getElem?_map,
    List.getElem?_mapIdx]
  cases l[i]? <;> rfl

/-- What the index has from the bound on, up to the limit, is what is asked for. -/
theorem ownRows_asked {d : Database} {name : AccountName}
    (h : entriesOf d.store.content.accountHistory.table name =
      numbered ((mentions name notes).map (·.2))) (start limit : UInt32) :
    ((ownRows d.store.content.accountHistory.table name start).take limit.toNat).map
        (fun r => (r.2.sequence.toNat, r.2.opId)) =
      ((asked name notes start limit).map fun e => (e.1, e.2.2)).reverse := by
  rw [List.map_take, ownRows_numbered h, numbered_map, List.filter_map, asked,
    List.rtake_eq_reverse_take_reverse, List.map_reverse, List.reverse_reverse, List.map_take,
    List.map_reverse]
  rfl

/-- Numbered entries answer. -/
theorem answers_of_entries {d : Database} {name : AccountName}
    (hrecorded : Recorded notes d.store.content.operations)
    (hentries : entriesOf d.store.content.accountHistory.table name =
      numbered ((mentions name notes).map (·.2))) {start limit : UInt32} (hstart : limit ≤ start)
    (hlimit : limit ≤ apiLimit)
    (hsize : ∀ e ∈ asked name notes start limit, e.2.1.op.Unpackable) :
    Answers d name notes start limit := by
  have hasked := ownRows_asked hentries start limit
  -- Of each row taken, the operation index has the notification.
  have hnote : ∀ e ∈ asked name notes start limit, notes[e.2.2]? = some e.2.1 := by
    intro e he
    have hmem : e ∈ numbered (mentions name notes) :=
      (List.mem_filter.mp (List.mem_of_mem_drop he)).1
    obtain ⟨-, hget⟩ := mem_numbered.mp (show (e.1, e.2) ∈ _ from hmem)
    exact (mem_mentions.mp (List.mem_of_getElem? hget)).1
  have hget : ∀ r ∈ (ownRows d.store.content.accountHistory.table name start).take limit.toNat,
      ∃ obj, d.getOperation r.2.opId = .ok obj ∧
        some obj.untimed = (notes[r.2.opId]?).map OperationNotification.toApi := by
    intro r hr
    have hmem := hasked ▸ List.mem_map_of_mem (f := fun r : Nat × AccountHistoryObject =>
      (r.2.sequence.toNat, r.2.opId)) hr
    obtain ⟨e, he, heq⟩ := List.mem_map.mp (List.mem_reverse.mp hmem)
    have hplace : e.2.2 = r.2.opId := (Prod.mk.inj heq).2
    have hnote := hplace ▸ hnote e he
    obtain ⟨obj, hobj, huntimed⟩ := getOperation_eq hrecorded hnote (hsize e he)
    exact ⟨obj, hobj, by rw [hnote, Option.map_some, huntimed]⟩
  obtain ⟨trxs, hrun, htrxs⟩ := collectHistory_eq (d := d) (f := fun obj => some obj.untimed)
    (g := fun p => (notes[p]?).map OperationNotification.toApi) limit.toNat
    (lowerBound d.store.content.accountHistory.table (name, start)) 0 [] pairwise_ownRows
    (fun _ _ _ he => absurd he List.not_mem_nil) hget
  refine ⟨trxs, ?_, ?_⟩
  · rw [Database.getAccountHistory, if_pos hlimit, if_pos hstart, hrun, List.append_nil]
  · have hpairs := congrArg
      (List.map fun e : Nat × Nat => (e.1, (notes[e.2]?).map OperationNotification.toApi)) hasked
    rw [List.map_map, List.map_reverse, List.map_map] at hpairs
    have hfound : (asked name notes start limit).map
        (fun e => (e.1, (notes[e.2.2]?).map OperationNotification.toApi)) =
          (asked name notes start limit).map fun e => (e.1, some e.2.1.toApi) :=
      List.map_congr_left fun e he => by rw [hnote e he, Option.map_some]
    have hinjective : Function.Injective
        fun x : Nat × OperationObjApi => (x.1, some x.2) := fun x y hxy => by
      obtain ⟨hfst, hsnd⟩ := Prod.mk.inj hxy
      exact Prod.ext hfst (Option.some.inj hsnd)
    refine List.map_injective_iff.mpr hinjective ?_
    rw [List.map_map, List.map_map]
    exact htrxs.trans ((congrArg List.reverse hpairs).trans
      ((List.reverse_reverse _).trans hfound))

/-- **Account history has no gaps** after any calls, whether they return or throw: what a database
holds is the history of the operations that are applied in it, whatever was undone. -/
theorem anyRun_historyKept (hconnected : HistoryConnected) {d : Database} (h : AnyRun d) :
    IsReached d.store.content ∧ ∀ notes, Reached notes d.store.content →
      ∀ name, Countable name notes → HistoryKept name notes d := by
  refine ⟨(anyRun_reached h).content, fun notes hreached name hcountable => ?_⟩
  have hkept := hreached.chronicled hconnected
  obtain ⟨places, hentries, -, hall⟩ := hkept.entries name hcountable.own
  rw [hall hcountable] at hentries
  exact ⟨hkept.operations, hentries, fun _ _ hstart hlimit hsize =>
    answers_of_entries hkept.operations hentries hstart hlimit hsize⟩

omit [Node] in
/-- A transaction of a batch and a transfer, and another one: an entry for each operation and each
account it names. -/
theorem anyRun_historyKept_batch :
    let _ : Node := historyNode smallNode.toEnv
    ∃ (d : Database) (notes : List OperationNotification), notes.length = 3 ∧
      HistoryKept 1 notes d ∧ HistoryKept 2 notes d ∧ HistoryKept 10 notes d := by
  intro node
  let batch : TransfersOperation :=
    { fromName := 1
      toNames := ⟨[(2, { amount := 5 }), (3, { amount := 7 }), (10, { amount := 1 })], by decide⟩
      memo := [] }
  let trx : SignedTransaction :=
    { unitTransfer 2 with operations := .transfers batch :: (unitTransfer 2).operations }
  have hrun := AnyRun.pushTransaction skipNothing (unitTransfer 10)
    (.pushTransaction skipNothing trx .genesis)
  obtain ⟨⟨notes, hreached⟩, hkept⟩ := anyRun_historyKept (fun _ _ => rfl) hrun
  have hnextId : (finalState ((pushTransaction skipNothing (unitTransfer 10)).run (finalState
      ((pushTransaction skipNothing trx).run .genesis)))).store.content.operations.nextId = 3 := by
    decide +kernel
  have hlength : notes.length = 3 :=
    (hreached.recorded fun _ _ => rfl).nextId.symm.trans hnextId
  have hcountable : ∀ name, Countable name notes := by
    intro name note _ _ other _
    have hle : (mentions other notes).length ≤ notes.zipIdx.length := List.length_filter_le _ _
    rw [List.length_zipIdx, hlength] at hle
    omega
  exact ⟨_, notes, hlength, hkept notes hreached 1 (hcountable 1),
    hkept notes hreached 2 (hcountable 2), hkept notes hreached 10 (hcountable 10)⟩

omit [Node] in
/-- More than `API_LIMIT` entries are not answered, with or without a history. -/
theorem limit_refused :
    ¬ ∀ n : Node, @HistoryConnected n → ∀ d, @AnyRun n d → ∀ notes,
      @Reached n notes (@Database.store n d).content → ∀ name, Countable name notes →
        ∀ start limit, limit ≤ start → @Answers n d name notes start limit := by
  intro h
  let _ : Node := historyNode smallNode.toEnv
  have hcontent : ∀ (d : Database) o, d.store = { content := o } → Reached [] o →
      Reached [] d.store.content := fun d o hstore ho => by rwa [hstore]
  obtain ⟨trxs, hanswer, -⟩ := h (historyNode smallNode.toEnv) (fun _ _ => rfl) .genesis .genesis []
    (hcontent _ _ rfl .genesis) 1 (fun _ hnote => absurd hnote List.not_mem_nil) 1001 1001 (by decide)
  rw [Database.getAccountHistory, if_neg (by decide)] at hanswer
  cases hanswer

end NewsChain
