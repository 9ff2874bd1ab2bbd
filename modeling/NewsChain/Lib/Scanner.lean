import NewsChain.Lib.Outcome

/-!
# Scanning

A scanner is a program over what is left of its input. It looks at the first value (`peek`), takes it
(`next`), and goes through the input in loops (`scanLoop`), each round of which takes something; so as
many rounds as there are values are enough, and one more (`Tame.scanLoop`). `Scans` says that a scanner
reads given values and nothing of what comes after.
-/

namespace NewsChain

open EStateM (Result)

variable {ε τ α β σ : Type}

/-- A program over what is left of the input. -/
abbrev Scanner (ε τ : Type) := EStateM ε (List τ)

/-- The first value that is left. -/
def peek (eof : ε) : Scanner ε τ τ := fun s =>
  match s with
  | [] => .error eof []
  | c :: s => .ok c (c :: s)

/-- The first value that is left, if any. -/
def peek? : Scanner ε τ (Option τ) := fun s => .ok s.head? s

/-- The first value that is left is taken. -/
def next (eof : ε) : Scanner ε τ τ := fun s =>
  match s with
  | [] => .error eof []
  | c :: s => .ok c s

/-- So many rounds: each gives what the next one starts with, or the answer. -/
def scanRounds (round : σ → Scanner ε τ (σ ⊕ α)) (exhausted : ε) : Nat → σ → Scanner ε τ α
  | 0, _ => throw exhausted
  | n + 1, x => do
    match ← round x with
    | .inl x' => scanRounds round exhausted n x'
    | .inr a => pure a

/-- A loop. Each of its rounds but the last is to take something of the input. -/
def scanLoop (round : σ → Scanner ε τ (σ ⊕ α)) (exhausted : ε) (x : σ) : Scanner ε τ α := fun s =>
  (scanRounds round exhausted (s.length + 1) x).run s

/-- A scanner that calls itself, so many times one within the other. -/
def scanNested (f : Scanner ε τ α → Scanner ε τ α) (exhausted : ε) : Nat → Scanner ε τ α
  | 0 => throw exhausted
  | n + 1 => f (scanNested f exhausted n)

section

variable {eof exhausted : ε} {c : τ} {s s' t : List τ} {a : α} {x x' : σ}
  {round : σ → Scanner ε τ (σ ⊕ α)}

@[simp]
theorem run_peek_cons : (peek eof).run (c :: s) = .ok c (c :: s) := rfl

@[simp]
theorem run_next_cons : (next eof).run (c :: s) = .ok c s := rfl

@[simp]
theorem run_peek?_cons : (peek? : Scanner ε τ (Option τ)).run (c :: s) = .ok (some c) (c :: s) := rfl

@[simp]
theorem run_peek?_nil : (peek? : Scanner ε τ (Option τ)).run [] = .ok none [] := rfl

/-! ## Loops that come to an answer -/

theorem scanRounds_mono {n m : Nat} (hnm : n ≤ m)
    (h : (scanRounds round exhausted n x).run s = .ok a t) :
    (scanRounds round exhausted m x).run s = .ok a t := by
  induction n generalizing m x s with
  | zero => cases h
  | succ n ih =>
    obtain ⟨m, rfl⟩ : ∃ k, m = k + 1 := ⟨m - 1, by omega⟩
    rw [scanRounds] at h ⊢
    obtain ⟨r, s', hround, hrest⟩ := bind_eq_ok.mp h
    refine bind_eq_ok.mpr ⟨r, s', hround, ?_⟩
    cases r with
    | inl x' => exact ih (by omega) hrest
    | inr a' => exact hrest

/-- A round that takes something, and the loop after it. -/
theorem run_scanLoop_inl (x' : σ) (s' : List τ) (hround : (round x).run s = .ok (.inl x') s')
    (hlt : s'.length < s.length) (h : (scanLoop round exhausted x').run s' = .ok a t) :
    (scanLoop round exhausted x).run s = .ok a t := by
  show (scanRounds round exhausted (s.length + 1) x).run s = .ok a t
  rw [scanRounds]
  refine bind_eq_ok.mpr ⟨_, s', hround, ?_⟩
  exact scanRounds_mono (n := s'.length + 1) (by omega) h

/-- The last round. -/
theorem run_scanLoop_inr (hround : (round x).run s = .ok (.inr a) s') :
    (scanLoop round exhausted x).run s = .ok a s' := by
  show (scanRounds round exhausted (s.length + 1) x).run s = .ok a s'
  rw [scanRounds]
  exact bind_eq_ok.mpr ⟨_, s', hround, rfl⟩

end

/-! ## What a scanner reads -/

/-- Before anything with `P`, `m` reads exactly `ts` and answers `a`. -/
def Scans (P : List τ → Prop) (ts : List τ) (m : Scanner ε τ α) (a : α) : Prop :=
  ∀ w, P w → m.run (ts ++ w) = .ok a w

/-! ## Scanners that end -/

/-- Not `exhausted`, and with the answer `a` at least `d a` values fewer are left. -/
def Lasts (exhausted : ε) (d : α → Nat) (s : List τ) : Result ε (List τ) α → Prop
  | .ok a s' => s'.length + d a ≤ s.length
  | .error e _ => e ≠ exhausted

/-- On at most `k` values `m` does not throw `exhausted`, and with the answer `a` it leaves at least
`d a` values fewer. -/
def Tame (exhausted : ε) (d : α → Nat) (k : Nat) (m : Scanner ε τ α) : Prop :=
  ∀ s : List τ, s.length ≤ k → Lasts exhausted d s (m.run s)

/-- What a round of a loop has to take. -/
def roundTakes : σ ⊕ α → Nat := Sum.elim (fun _ => 1) fun _ => 0

section

variable {exhausted eof : ε} {d d' : α → Nat} {k n : Nat} {m : Scanner ε τ α} {f : α → Scanner ε τ β}
  {d'' : β → Nat} {s : List τ} {round : σ → Scanner ε τ (σ ⊕ α)}

namespace Lasts

theorem weaken {r : Result ε (List τ) α} (h : Lasts exhausted d s r) (hd : ∀ a, d' a ≤ d a) :
    Lasts exhausted d' s r := by
  cases r with
  | ok a s' => exact Nat.le_trans (Nat.add_le_add_left (hd a) _) h
  | error e s' => exact h

/-- What a scanner takes and what is taken after its answer. -/
theorem bind (d₁ : α → β → Nat) (hm : Lasts exhausted d s (m.run s))
    (hf : ∀ a s', s'.length + d a ≤ s.length → Lasts exhausted (d₁ a) s' ((f a).run s'))
    (hd : ∀ a b, d'' b ≤ d a + d₁ a b) : Lasts exhausted d'' s ((m >>= f).run s) := by
  rw [EStateM.run_bind]
  cases hrun : m.run s with
  | error e s' =>
    rw [hrun] at hm
    exact hm
  | ok a s' =>
    rw [hrun] at hm
    have hle : s'.length + d a ≤ s.length := hm
    have hrest := hf a s' hle
    dsimp only
    cases hrun' : (f a).run s' with
    | error e s'' =>
      rw [hrun'] at hrest
      exact hrest
    | ok b s'' =>
      rw [hrun'] at hrest
      have hle' : s''.length + d₁ a b ≤ s'.length := hrest
      have hsum := hd a b
      show s''.length + d'' b ≤ s.length
      omega

end Lasts

namespace Tame

theorem weaken (h : Tame exhausted d k m) (hd : ∀ a, d' a ≤ d a) : Tame exhausted d' k m :=
  fun s hs => (h s hs).weaken hd

theorem mono {j : Nat} (h : Tame exhausted d k m) (hj : j ≤ k) : Tame exhausted d j m :=
  fun s hs => h s (Nat.le_trans hs hj)

theorem pure {a : α} (ha : d a = 0) : Tame exhausted d k (pure a : Scanner ε τ α) := by
  intro s _
  show s.length + d a ≤ s.length
  rw [ha]
  exact Nat.le_refl _

theorem throw {e : ε} (he : e ≠ exhausted) : Tame exhausted d k (throw e : Scanner ε τ α) :=
  fun _ _ => he

theorem peek (heof : eof ≠ exhausted) : Tame exhausted (fun _ => 0) k (peek eof : Scanner ε τ τ) := by
  intro s _
  cases s with
  | nil => exact heof
  | cons c s => exact Nat.le_refl _

theorem peek? : Tame exhausted (fun _ => 0) k (peek? : Scanner ε τ (Option τ)) :=
  fun _ _ => Nat.le_refl _

theorem next (heof : eof ≠ exhausted) : Tame exhausted (fun _ => 1) k (next eof : Scanner ε τ τ) := by
  intro s _
  cases s with
  | nil => exact heof
  | cons c s => exact Nat.le_refl _

theorem bind (d₁ : α → β → Nat) (hm : Tame exhausted d k m)
    (hf : ∀ a, d a ≤ k → Tame exhausted (d₁ a) (k - d a) (f a)) (hd : ∀ a b, d'' b ≤ d a + d₁ a b) :
    Tame exhausted d'' k (m >>= f) := by
  intro s hs
  refine (hm s hs).bind d₁ (fun a s' hle => ?_) hd
  exact hf a (by omega) s' (by omega)

/-- What is taken first is not counted. -/
theorem bind_rest (hm : Tame exhausted (fun _ => 0) k m) (hf : ∀ a, Tame exhausted d'' k (f a)) :
    Tame exhausted d'' k (m >>= f) :=
  bind (fun _ => d'') hm (fun a _ => hf a) fun _ _ => Nat.le_add_left _ _

/-- What is taken after a first value is not counted. -/
theorem bind_first (hm : Tame exhausted (fun _ => 1) k m)
    (hf : 1 ≤ k → ∀ a, Tame exhausted (fun _ => 0) (k - 1) (f a)) (hd : ∀ b, d'' b ≤ 1) :
    Tame exhausted d'' k (m >>= f) :=
  bind (fun _ _ => 0) hm (fun a hk => hf hk a) fun _ b => hd b

theorem tryCatch {h : ε → Scanner ε τ α} (hm : Tame exhausted d k m)
    (hh : ∀ e, e ≠ exhausted → ∃ e', e' ≠ exhausted ∧ h e = MonadExcept.throw e') :
    Tame exhausted d k (tryCatch m h) := by
  intro s hs
  have hrun := hm s hs
  rw [run_tryCatch]
  cases hcase : m.run s with
  | ok a s' =>
    rw [hcase] at hrun
    exact hrun
  | error e s' =>
    rw [hcase] at hrun
    obtain ⟨e', he', heq⟩ := hh e hrun
    dsimp only
    rw [heq]
    exact he'

theorem ite {c : Prop} [Decidable c] {m' : Scanner ε τ α} (hm : Tame exhausted d k m)
    (hm' : Tame exhausted d k m') : Tame exhausted d k (if c then m else m') := by
  split
  · exact hm
  · exact hm'

/-- One round more than there are values is enough. -/
theorem scanRounds (hround : ∀ x, Tame exhausted roundTakes k (round x)) (x : σ)
    (hn : s.length < n) (hk : s.length ≤ k) :
    Lasts exhausted (fun _ => 0) s ((scanRounds round exhausted n x).run s) := by
  induction n generalizing x s with
  | zero => exact absurd hn (Nat.not_lt_zero _)
  | succ n ih =>
    rw [NewsChain.scanRounds]
    refine (hround x s hk).bind (fun _ _ => 0) (fun r s' hle => ?_) fun _ _ => Nat.zero_le _
    cases r with
    | inr a => exact Nat.le_refl _
    | inl x' =>
      have hlt : s'.length + 1 ≤ s.length := hle
      exact ih x' (by omega) (by omega)

/-- **A loop ends** whose rounds take something each. -/
theorem scanLoop (hround : ∀ x, Tame exhausted roundTakes k (round x)) (x : σ) :
    Tame exhausted (fun _ => 0) k (scanLoop round exhausted x) :=
  fun _ hs => scanRounds hround x (Nat.lt_succ_self _) hs

/-- Where its first round takes a value, a loop does. -/
theorem scanLoop_first (hround : ∀ x, Tame exhausted roundTakes k (round x)) {x : σ} (x' : σ) {c : τ}
    (hfirst : (round x).run (c :: s) = .ok (.inl x') s) (hk : s.length ≤ k) :
    Lasts exhausted (fun _ => 1) (c :: s) ((NewsChain.scanLoop round exhausted x).run (c :: s)) := by
  have hrest := scanRounds (n := (c :: s).length) hround x' (Nat.lt_succ_self _) hk
  show Lasts exhausted (fun _ => 1) (c :: s)
    ((NewsChain.scanRounds round exhausted ((c :: s).length + 1) x).run (c :: s))
  rw [NewsChain.scanRounds, EStateM.run_bind, hfirst]
  dsimp only
  cases hrun : (NewsChain.scanRounds round exhausted (c :: s).length x').run s with
  | error e s' =>
    rw [hrun] at hrest
    exact hrest
  | ok a s' =>
    rw [hrun] at hrest
    have hle : s'.length + 0 ≤ s.length := hrest
    show s'.length + 1 ≤ s.length + 1
    omega

/-- **A scanner that calls itself ends** where each call comes after something was taken. -/
theorem scanNested {g : Scanner ε τ α → Scanner ε τ α}
    (hg : ∀ k m, (∀ j < k, Tame exhausted d j m) → Tame exhausted d k (g m)) (hkn : k < n) :
    Tame exhausted d k (scanNested g exhausted n) := by
  induction n generalizing k with
  | zero => exact absurd hkn (Nat.not_lt_zero _)
  | succ n ih =>
    show Tame exhausted d k (g (NewsChain.scanNested g exhausted n))
    exact hg k _ fun j hj => ih (by omega)

end Tame

end

end NewsChain
