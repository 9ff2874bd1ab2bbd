import NewsChain.Lib.IdMap

/-!
# The container under a `generic_index`

`Table V` is a `multi_index_container` of objects of type `V`: the rows by object id, and the
uniqueness of every unique secondary key as a field, so a container that breaks one cannot be
built. The id is the row's key and not part of `V`; a modifier cannot change it.

The three writers answer as the container does. `emplace` refuses a taken id or key; `modify`
takes a `Modifier`, which keeps every unique key and so never collides; `replace`, which undo
uses to put an old value back, is checked.
-/

namespace NewsChain

/-- The unique secondary indices of an object type, each as the key it extracts. -/
class Indexed (V : Type) where
  Key : Type
  [decEq : DecidableEq Key]
  keys : List (V → Key)

variable {V : Type} [Indexed V]

instance : DecidableEq (Indexed.Key V) := Indexed.decEq

/-- Two objects collide when they agree on some unique secondary key. -/
def Clash (v w : V) : Prop := ∃ k ∈ Indexed.keys (V := V), k v = k w

instance (v w : V) : Decidable (Clash v w) :=
  decidable_of_iff ((Indexed.keys (V := V)).any fun k => decide (k v = k w)) (by simp [Clash])

/-- Two objects with the same value under every unique secondary key. -/
def SameKeys (v w : V) : Prop := ∀ k ∈ Indexed.keys (V := V), k v = k w

theorem SameKeys.refl (v : V) : SameKeys v v := fun _ _ => rfl

theorem SameKeys.trans {u v w : V} (h : SameKeys u v) (h' : SameKeys v w) : SameKeys u w :=
  fun k hk => (h k hk).trans (h' k hk)

theorem Clash.symm {v w : V} : Clash v w → Clash w v := fun ⟨k, hk, h⟩ => ⟨k, hk, h.symm⟩

theorem Clash.congr {u v w : V} (h : SameKeys u v) : Clash u w ↔ Clash v w :=
  ⟨fun ⟨k, hk, e⟩ => ⟨k, hk, (h k hk).symm.trans e⟩, fun ⟨k, hk, e⟩ => ⟨k, hk, (h k hk).trans e⟩⟩

/-- A modifier that leaves every unique secondary key as it is. -/
structure Modifier (V : Type) [Indexed V] where
  apply : V → V
  keeps : ∀ v, SameKeys (apply v) v

/-- A container: rows by id, no two of them colliding. -/
@[ext] structure Table (V : Type) [Indexed V] where
  map : IdMap V
  unique : ∀ i j v w, map.get? i = some v → map.get? j = some w → Clash v w → i = j

instance [DecidableEq V] : DecidableEq (Table V) := fun a b =>
  decidable_of_iff (a.map = b.map) ⟨Table.ext, fun h => h ▸ rfl⟩

namespace Table

def empty : Table V := ⟨.empty, nofun⟩

instance : Inhabited (Table V) := ⟨empty⟩

def get? (t : Table V) (i : Nat) : Option V := t.map.get? i

/-- The rows in id order, the order of the `by_id` index. -/
def rows (t : Table V) : List (Nat × V) := t.map.rows

/-- The row a unique secondary key points to. -/
def findBy (t : Table V) (p : V → Bool) : Option (Nat × V) := t.rows.find? (fun r => p r.2)

/-- May `v` stand at `i`: does every other row keep clear of its keys? -/
def Fits (t : Table V) (i : Nat) (v : V) : Prop := ∀ r ∈ t.rows, r.1 ≠ i → ¬ Clash v r.2

instance (t : Table V) (i : Nat) (v : V) : Decidable (t.Fits i v) :=
  inferInstanceAs (Decidable (∀ r ∈ t.rows, r.1 ≠ i → ¬ Clash v r.2))

theorem fits_iff {t : Table V} {i : Nat} {v : V} :
    t.Fits i v ↔ ∀ j w, t.get? j = some w → j ≠ i → ¬ Clash v w :=
  ⟨fun h j w hw hj => h (j, w) (IdMap.get?_eq_some.mp hw) hj,
    fun h r hr hj => h r.1 r.2 (IdMap.get?_eq_some.mpr hr) hj⟩

/-- `v` stored at `i`, where it fits. -/
def store (t : Table V) (i : Nat) (v : V) (h : t.Fits i v) : Table V where
  map := t.map.insert i v
  unique := by
    intro a b x y hx hy hclash
    rw [IdMap.get?_insert] at hx hy
    split at hx <;> split at hy
    · rename_i ha hb
      exact ha.trans hb.symm
    · rename_i ha hb
      cases hx
      exact absurd hclash (fits_iff.mp h b y hy hb)
    · rename_i ha hb
      cases hy
      exact absurd hclash.symm (fits_iff.mp h a x hx ha)
    · exact t.unique a b x y hx hy hclash

/-- `_indices.emplace`: refused when the id or a unique key is taken. -/
def emplace (t : Table V) (i : Nat) (v : V) : Option (Table V) :=
  if h : t.get? i = none ∧ t.Fits i v then some (t.store i v h.2) else none

/-- `_indices.modify` writing a whole value over an existing row. -/
def replace (t : Table V) (i : Nat) (v : V) : Option (Table V) :=
  if h : t.get? i ≠ none ∧ t.Fits i v then some (t.store i v h.2) else none

theorem fits_modify (t : Table V) {i : Nat} {v : V} (h : t.get? i = some v) (m : Modifier V) :
    t.Fits i (m.apply v) :=
  fits_iff.mpr fun j w hw hj hclash =>
    hj (t.unique i j v w h hw ((Clash.congr (m.keeps v)).mp hclash)).symm

/-- `_indices.modify` with a modifier that keeps the keys; it cannot fail. -/
def modify (t : Table V) (i : Nat) (m : Modifier V) : Table V :=
  match h : t.get? i with
  | some v => t.store i (m.apply v) (t.fits_modify h m)
  | none => t

/-- `_indices.erase`. -/
def erase (t : Table V) (i : Nat) : Table V where
  map := t.map.erase i
  unique := by
    intro a b x y hx hy hclash
    rw [IdMap.get?_erase] at hx hy
    split at hx
    · cases hx
    · split at hy
      · cases hy
      · exact t.unique a b x y hx hy hclash

/-! ## Lookups after a write -/

@[simp] theorem get?_empty (i : Nat) : (empty : Table V).get? i = none := rfl

theorem get?_store (t : Table V) (i j : Nat) (v : V) (h : t.Fits i v) :
    (t.store i v h).get? j = if j = i then some v else t.get? j :=
  t.map.get?_insert i j v

theorem get?_erase (t : Table V) (i j : Nat) :
    (t.erase i).get? j = if j = i then none else t.get? j :=
  t.map.get?_erase i j

theorem get?_modify (t : Table V) (i j : Nat) (m : Modifier V) :
    (t.modify i m).get? j = if j = i then (t.get? i).map m.apply else t.get? j := by
  unfold modify
  split
  · rename_i v hv
    rw [get?_store, hv]
    rfl
  · rename_i hv
    split
    · rename_i hj
      rw [hj, hv]
      rfl
    · rfl

theorem emplace_eq_some {t t' : Table V} {i : Nat} {v : V} :
    t.emplace i v = some t' ↔
      ∃ (_ : t.get? i = none) (h : t.Fits i v), t' = t.store i v h := by
  unfold emplace
  split
  · rename_i h
    exact ⟨fun e => ⟨h.1, h.2, (Option.some.inj e).symm⟩, fun ⟨_, _, e⟩ => by rw [e]⟩
  · rename_i h
    exact ⟨nofun, fun ⟨h₁, h₂, _⟩ => absurd ⟨h₁, h₂⟩ h⟩

theorem replace_eq_some {t t' : Table V} {i : Nat} {v : V} :
    t.replace i v = some t' ↔
      ∃ (_ : t.get? i ≠ none) (h : t.Fits i v), t' = t.store i v h := by
  unfold replace
  split
  · rename_i h
    exact ⟨fun e => ⟨h.1, h.2, (Option.some.inj e).symm⟩, fun ⟨_, _, e⟩ => by rw [e]⟩
  · rename_i h
    exact ⟨nofun, fun ⟨h₁, h₂, _⟩ => absurd ⟨h₁, h₂⟩ h⟩

theorem ext_get? {t t' : Table V} (h : ∀ i, t.get? i = t'.get? i) : t = t' :=
  Table.ext (IdMap.ext_get? h)

theorem get?_eq_some_iff_mem {t : Table V} {i : Nat} {v : V} :
    t.get? i = some v ↔ (i, v) ∈ t.rows := IdMap.get?_eq_some

theorem findBy_eq_some {t : Table V} {p : V → Bool} {r : Nat × V} (h : t.findBy p = some r) :
    t.get? r.1 = some r.2 ∧ p r.2 = true :=
  ⟨IdMap.get?_eq_some.mpr (List.mem_of_find?_eq_some h), by simpa using List.find?_some h⟩

/-- The first row that is looked for is found. -/
theorem findBy_eq_some_of_first {t : Table V} {p : V → Bool} {i : Nat} {v : V}
    (hv : t.get? i = some v) (hp : p v = true)
    (hfirst : ∀ j w, t.get? j = some w → p w = true → i ≤ j) : t.findBy p = some (i, v) := by
  obtain ⟨before, after, hrows⟩ := List.append_of_mem (IdMap.get?_eq_some.mp hv)
  have hsorted : (before ++ (i, v) :: after).Pairwise fun r s => r.1 < s.1 := hrows ▸ t.map.sorted
  refine List.find?_eq_some_iff_append.mpr ⟨hp, before, after, hrows, fun r hr => ?_⟩
  have hlt : r.1 < i := (List.pairwise_append.mp hsorted).2.2 r hr _ List.mem_cons_self
  have hget : t.get? r.1 = some r.2 :=
    IdMap.get?_eq_some.mpr (hrows ▸ List.mem_append_left _ hr)
  cases hpr : p r.2 with
  | false => rfl
  | true => exact absurd (hfirst r.1 r.2 hget hpr) (by omega)

theorem findBy_eq_none {t : Table V} {p : V → Bool} :
    t.findBy p = none ↔ ∀ i v, t.get? i = some v → p v = false := by
  unfold findBy
  rw [List.find?_eq_none]
  constructor
  · intro h i v hv
    simpa using h (i, v) (get?_eq_some_iff_mem.mp hv)
  · intro h r hr
    simpa using h r.1 r.2 (get?_eq_some_iff_mem.mpr hr)

end Table

/-- What a `generic_index` holds, its undo stack aside: the container and the next free id. -/
@[ext] structure Content (V : Type) [Indexed V] where
  table : Table V
  nextId : Nat

instance [DecidableEq V] : DecidableEq (Content V) := fun a b =>
  decidable_of_iff (a.table = b.table ∧ a.nextId = b.nextId)
    ⟨fun h => Content.ext h.1 h.2, fun h => h ▸ ⟨rfl, rfl⟩⟩

namespace Content

def empty : Content V := ⟨.empty, 0⟩

instance : Inhabited (Content V) := ⟨empty⟩

/-- `generic_index::emplace`: the object under the next id, which is used up. -/
def emplace (c : Content V) (v : V) : Option (Content V) :=
  (c.table.emplace c.nextId v).map fun t => ⟨t, c.nextId + 1⟩

def modify (c : Content V) (i : Nat) (m : Modifier V) : Content V :=
  { c with table := c.table.modify i m }

def erase (c : Content V) (i : Nat) : Content V := { c with table := c.table.erase i }

/-- Every row stands below the next id. -/
def Below (c : Content V) : Prop := ∀ i v, c.table.get? i = some v → i < c.nextId

theorem below_empty : (empty : Content V).Below := nofun

theorem emplace_eq_some {c c' : Content V} {v : V} :
    c.emplace v = some c' ↔
      ∃ (_ : c.table.get? c.nextId = none) (h : c.table.Fits c.nextId v),
        c' = ⟨c.table.store c.nextId v h, c.nextId + 1⟩ := by
  simp only [emplace, Option.map_eq_some_iff, Table.emplace_eq_some]
  constructor
  · rintro ⟨_, ⟨hid, hfits, rfl⟩, rfl⟩
    exact ⟨hid, hfits, rfl⟩
  · rintro ⟨hid, hfits, rfl⟩
    exact ⟨_, ⟨hid, hfits, rfl⟩, rfl⟩

/-- A created row stands at the next id, beside the rows that were there. -/
theorem get?_emplace {c c' : Content V} {v : V} (h : c.emplace v = some c') (j : Nat) :
    c'.table.get? j = if j = c.nextId then some v else c.table.get? j := by
  obtain ⟨-, hfits, rfl⟩ := emplace_eq_some.mp h
  exact c.table.get?_store _ _ _ hfits

theorem mem_rows_emplace {c c' : Content V} {v : V} {r : Nat × V} (h : c.emplace v = some c') :
    r ∈ c'.table.rows ↔ r = (c.nextId, v) ∨ r ∈ c.table.rows := by
  have hfree : c.table.get? c.nextId = none := (emplace_eq_some.mp h).1
  rw [← Table.get?_eq_some_iff_mem, ← Table.get?_eq_some_iff_mem, get?_emplace h]
  by_cases hid : r.1 = c.nextId
  · rw [if_pos hid, hid, hfree, Option.some.injEq, Prod.ext_iff]
    simp [hid, eq_comm]
  · rw [if_neg hid, Prod.ext_iff]
    simp [hid]

/-- Where every row stands below the next id, the created row is the last. -/
theorem Below.rows_emplace {c c' : Content V} {v : V} (hc : c.Below) (h : c.emplace v = some c') :
    c'.table.rows = c.table.rows ++ [(c.nextId, v)] := by
  obtain ⟨-, hfits, rfl⟩ := emplace_eq_some.mp h
  exact IdMap.insertRow_behind fun r hr => hc r.1 r.2 (Table.get?_eq_some_iff_mem.mpr hr)

theorem Below.emplace {c c' : Content V} {v : V} (hc : c.Below) (h : c.emplace v = some c') :
    c'.Below := by
  intro i w hw
  rw [get?_emplace h] at hw
  obtain ⟨-, -, rfl⟩ := emplace_eq_some.mp h
  split at hw
  · rename_i hi
    exact hi ▸ Nat.lt_succ_self _
  · exact Nat.lt_succ_of_lt (hc i w hw)

theorem Below.modify {c : Content V} (hc : c.Below) (i : Nat) (m : Modifier V) :
    (c.modify i m).Below := by
  intro j w hw
  rw [Content.modify, Table.get?_modify] at hw
  split at hw
  · rename_i hj
    obtain ⟨v, hv, -⟩ := Option.map_eq_some_iff.mp hw
    exact hj ▸ hc i v hv
  · exact hc j w hw

theorem Below.erase {c : Content V} (hc : c.Below) (i : Nat) : (c.erase i).Below := by
  intro j w hw
  rw [Content.erase, Table.get?_erase] at hw
  split at hw
  · cases hw
  · exact hc j w hw

/-- Where every row stands below the next id, creating fails on a unique key alone. -/
theorem Below.emplace_isSome {c : Content V} (hc : c.Below) {v : V}
    (hv : ∀ i w, c.table.get? i = some w → ¬ Clash v w) : ∃ c', c.emplace v = some c' := by
  have hid : c.table.get? c.nextId = none := by
    cases h : c.table.get? c.nextId with
    | none => rfl
    | some w => exact absurd (hc _ w h) (Nat.lt_irrefl _)
  exact ⟨_, emplace_eq_some.mpr ⟨hid, Table.fits_iff.mpr fun j w hw _ => hv j w hw, rfl⟩⟩

end Content

end NewsChain
