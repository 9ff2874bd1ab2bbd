import Mathlib.Algebra.Order.BigOperators.Group.List
import NewsChain.Lib.Outcome

/-!
# Reading a source that gives what it has

A call of `readsome` may give less than was asked for, in whole units of `k` values, and at the end of
the source it throws. `readFully` calls it until everything is there. `SomeOf` says what such a call
does to what can still be read, `AllOf` what the loop does: where there is enough it gives exactly the
next values, in however many calls, and where there is not it throws (`SomeOf.readFully`).
-/

namespace NewsChain

open EStateM (Result)

variable {ε σ α : Type}

/-! ## The loop -/

/-- `readsome` is called until `len` values are there, or so many calls were made. -/
def readFullyFrom (readsome : Nat → EStateM ε σ (List α)) : Nat → Nat → EStateM ε σ (List α)
  | 0, _ => pure []
  | calls + 1, len =>
    if len = 0 then pure []
    else do
      let got ← readsome len
      let rest ← readFullyFrom readsome calls (len - got.length)
      pure (got ++ rest)

/-- `readsome` is called until `len` values are there. A call gives at least one. -/
def readFully (readsome : Nat → EStateM ε σ (List α)) (len : Nat) : EStateM ε σ (List α) :=
  readFullyFrom readsome len len

/-! ## What a call does -/

/-- Of what could be read of `s`, `got` was: at most `n`, in whole units. -/
structure Took (k n : Nat) (view : σ → List α) (s : σ) (got : List α) (s' : σ) : Prop where
  split : view s = got ++ view s'
  pos : 0 < got.length
  le : got.length ≤ n
  dvd : k ∣ got.length

/-- A call that gives some of what there is. Where there is less than was asked for, it may throw. -/
structure SomeOf (k : Nat) (I : σ → Prop) (view : σ → List α) (dry : ε)
    (m : Nat → EStateM ε σ (List α)) : Prop where
  enough : ∀ {s n}, I s → 0 < n → k ∣ n → n ≤ (view s).length →
    ∃ got s', (m n).run s = .ok got s' ∧ I s' ∧ Took k n view s got s'
  short : ∀ {s n}, I s → 0 < n → k ∣ n → (view s).length < n →
    (∃ got s', (m n).run s = .ok got s' ∧ I s' ∧ Took k n view s got s') ∨
      ∃ s', (m n).run s = .error dry s'

/-- A call that gives all that was asked for, or throws. -/
structure AllOf (k : Nat) (I : σ → Prop) (view : σ → List α) (dry : ε)
    (m : Nat → EStateM ε σ (List α)) : Prop where
  enough : ∀ {s n}, I s → k ∣ n → n ≤ (view s).length →
    ∃ s', (m n).run s = .ok ((view s).take n) s' ∧ I s' ∧ view s' = (view s).drop n
  short : ∀ {s n}, I s → k ∣ n → (view s).length < n → ∃ s', (m n).run s = .error dry s'

section Loop

variable {k : Nat} {I : σ → Prop} {view : σ → List α} {dry : ε} {m : Nat → EStateM ε σ (List α)}

theorem run_readFullyFrom_zero (calls : Nat) (s : σ) :
    (readFullyFrom m calls 0).run s = .ok [] s := by
  cases calls <;> rfl

theorem run_readFullyFrom_ok {calls n : Nat} (hn : n ≠ 0) {s s' : σ} {got : List α}
    (h : (m n).run s = .ok got s') :
    (readFullyFrom m (calls + 1) n).run s =
      (do let rest ← readFullyFrom m calls (n - got.length); pure (got ++ rest)).run s' := by
  rw [readFullyFrom, if_neg hn, EStateM.run_bind, h]

theorem run_readFullyFrom_error {calls n : Nat} (hn : n ≠ 0) {s s' : σ} {e : ε}
    (h : (m n).run s = .error e s') :
    (readFullyFrom m (calls + 1) n).run s = .error e s' := by
  rw [readFullyFrom, if_neg hn, EStateM.run_bind, h]

theorem SomeOf.readFullyFrom_enough (h : SomeOf k I view dry m) {calls n : Nat} (hcalls : n ≤ calls)
    {s : σ} (hs : I s) (hk : k ∣ n) (hn : n ≤ (view s).length) :
    ∃ s', (readFullyFrom m calls n).run s = .ok ((view s).take n) s' ∧ I s' ∧
      view s' = (view s).drop n := by
  induction calls generalizing n s with
  | zero =>
    obtain rfl := Nat.le_zero.mp hcalls
    exact ⟨s, rfl, hs, rfl⟩
  | succ calls ih =>
    rcases Nat.eq_zero_or_pos n with rfl | hpos
    · exact ⟨s, run_readFullyFrom_zero _ s, hs, rfl⟩
    · obtain ⟨got, s₁, hrun, hs₁, htook⟩ := h.enough hs hpos hk hn
      have hlen := congrArg List.length htook.split
      rw [List.length_append] at hlen
      have hgot := htook.pos
      have hle := htook.le
      obtain ⟨s', hrest, hs', hview⟩ := ih (n := n - got.length) (by omega) hs₁
        (Nat.dvd_sub hk htook.dvd) (by omega)
      refine ⟨s', ?_, hs', ?_⟩
      · rw [run_readFullyFrom_ok (Nat.ne_of_gt hpos) hrun, EStateM.run_bind, hrest, htook.split,
          List.take_append, List.take_of_length_le hle]
        rfl
      · rw [hview, htook.split, List.drop_append, List.drop_eq_nil_of_le hle, List.nil_append]

theorem SomeOf.readFullyFrom_short (h : SomeOf k I view dry m) {calls n : Nat} (hcalls : n ≤ calls)
    {s : σ} (hs : I s) (hk : k ∣ n) (hn : (view s).length < n) :
    ∃ s', (readFullyFrom m calls n).run s = .error dry s' := by
  induction calls generalizing n s with
  | zero => omega
  | succ calls ih =>
    have hpos : 0 < n := by omega
    rcases h.short hs hpos hk hn with ⟨got, s₁, hrun, hs₁, htook⟩ | ⟨s', hrun⟩
    · have hlen := congrArg List.length htook.split
      rw [List.length_append] at hlen
      have hgot := htook.pos
      have hle := htook.le
      obtain ⟨s', hrest⟩ := ih (n := n - got.length) (by omega) hs₁ (Nat.dvd_sub hk htook.dvd)
        (by omega)
      refine ⟨s', ?_⟩
      rw [run_readFullyFrom_ok (Nat.ne_of_gt hpos) hrun, EStateM.run_bind, hrest]
    · exact ⟨s', run_readFullyFrom_error (Nat.ne_of_gt hpos) hrun⟩

/-- **The loop gives all**, in however many calls. -/
theorem SomeOf.readFully (h : SomeOf k I view dry m) : AllOf k I view dry (readFully m) where
  enough := h.readFullyFrom_enough (Nat.le_refl _)
  short := h.readFullyFrom_short (Nat.le_refl _)

/-- What every call keeps, the loop keeps. -/
theorem keeps_readFully {J : σ → Prop} (hm : ∀ n, Keeps J (m n)) (n : Nat) :
    Keeps J (readFully m n) := by
  have hcalls : ∀ calls n, Keeps J (readFullyFrom m calls n) := by
    intro calls
    induction calls with
    | zero =>
      intro n
      exact .pure _
    | succ calls ih =>
      intro n
      rw [readFullyFrom]
      split
      · exact .pure _
      · exact (hm n).bind fun _ => (ih _).bind fun _ => .pure _
  exact hcalls n n

end Loop

end NewsChain
