import NewsChain.Lib.Outcome

/-!
# Exceptions

Every throw site of the modelled code is one constructor with its own text. `catch (const
fc::exception &)` is the only selective handler, and each exception here reaches it as an
`fc::exception`: `FC_CAPTURE_AND_RETHROW` turns the `std` ones into that on the way.
-/

namespace NewsChain

inductive Exc
  /-- `FC_ASSERT`. -/
  | assertion (message : String)
  /-- `unlinkable_block_exception`. -/
  | unlinkableBlock (message : String)
  /-- `std::logic_error`. -/
  | logicError (message : String)
  /-- `std::runtime_error`. -/
  | runtimeError (message : String)
  /-- `std::out_of_range`. -/
  | outOfRange (message : String)
  /-- No exception of the code: a call whose C++ precondition does not hold. -/
  | undefinedBehavior (call : String)
deriving DecidableEq, Repr

/-- What a stream throws where too few bytes are left. -/
def outOfBytes : Exc := .outOfRange "datastream"

/-- `FC_ASSERT( c, message )`. -/
def fcAssert {σ : Type} (c : Prop) [Decidable c] (message : String) : EStateM Exc σ Unit :=
  if c then pure () else throw (.assertion message)

variable {σ : Type} {c : Prop} [Decidable c] {message : String}

theorem run_fcAssert (s : σ) :
    (fcAssert c message).run s = if c then .ok () s else .error (.assertion message) s := by
  unfold fcAssert
  split <;> rfl

theorem fcAssert_eq_ok {s s' : σ} {u : Unit} :
    (fcAssert c message).run s = .ok u s' ↔ c ∧ s' = s := by
  rw [run_fcAssert]
  split
  · rename_i h
    simp [h, eq_comm]
  · rename_i h
    simp [h]

theorem Keeps.fcAssert {I : σ → Prop} : Keeps I (fcAssert c message) :=
  .ite (.pure _) (.throw _)

theorem Follows.fcAssert {ρ : Type} {W : ρ → σ → σ} :
    Follows W (fcAssert c message) (fcAssert c message) := by
  unfold NewsChain.fcAssert
  split
  · exact .pure _
  · exact .throw _ _

end NewsChain
