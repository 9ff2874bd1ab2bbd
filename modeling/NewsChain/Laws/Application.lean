import NewsChain.App.Application

/-!
# Plugins go up in order and down in reverse

`initialize` and `startup` of a plugin are one scheme, and one lemma says what a call does
(`riseFrom_spec`): where it returns, it has brought up the plugin and what was missing of its
requirements, each after what it requires; where it throws, it was at one plugin more, whose function
threw. From this the runs of `main` follow (`main_calls`).
-/

namespace NewsChain

open EStateM (Result)

namespace Application

open Requirements (Ordered Closed)

variable {ι ω : Type} {g : Requirements ι} {hooks : PluginHooks ι ω} {r : Rise}
  {s s' s'' : Application ι ω} {new new' : List ι}

/-! ## What a way up does -/

/-- The plugins of the other way up. -/
def otherList : Rise → Application ι ω → List ι
  | .initializing, s => s.runningPlugins
  | .starting, s => s.initializedPlugins

theorem before_ne_after (r : Rise) : r.before ≠ r.after := by
  cases r <;> decide

/-- The plugins in the list are in order and in the state they were brought to; none with `B` is on its
way; and those with `C` can be brought up. -/
structure Poised (g : Requirements ι) (r : Rise) (C B : ι → Prop) (s : Application ι ω) : Prop where
  ordered : g.Ordered (r.list s)
  state : ∀ j ∈ r.list s, s.state j = r.after
  settled : ∀ j, B j → s.state j = r.after → j ∈ r.list s
  climbs : ∀ j, C j → s.state j = r.before ∨ s.state j = r.after

/-- `new` were brought up. -/
structure Brought [DecidableEq ι] (g : Requirements ι) (r : Rise) (s : Application ι ω)
    (new : List ι) (s' : Application ι ω) : Prop where
  list : r.list s' = r.list s ++ new
  calls : s'.calls = s.calls ++ new.map r.call
  state : ∀ j, s'.state j = if j ∈ new then r.after else s.state j
  fresh : ∀ j ∈ new, s.state j = r.before
  ordered : g.Ordered (r.list s ++ new)
  other : otherList r s' = otherList r s

/-- `new` were brought up, and the functions of `failed` were called and threw. -/
structure Broken (g : Requirements ι) (hooks : PluginHooks ι ω) (r : Rise) (s : Application ι ω)
    (new failed : List ι) (s' : Application ι ω) : Prop where
  list : r.list s' = r.list s ++ new
  calls : s'.calls = s.calls ++ (new ++ failed).map r.call
  state : ∀ j, s'.state j = s.state j ∨ s'.state j = r.after
  up : ∀ j ∈ new, s'.state j = r.after
  fresh : ∀ j ∈ new ++ failed, s.state j = r.before
  ordered : g.Ordered (r.list s ++ (new ++ failed))
  single : failed.length ≤ 1
  threw : ∀ i ∈ failed, ∃ w, ¬ Returned ((r.hook hooks i).run w)
  other : otherList r s' = otherList r s

section

variable [DecidableEq ι] {C B : ι → Prop}

namespace Brought

theorem none (h : g.Ordered (r.list s)) : Brought g r s [] s where
  list := (List.append_nil _).symm
  calls := (List.append_nil _).symm
  state j := by simp
  fresh j hj := absurd hj List.not_mem_nil
  ordered := by
    rw [List.append_nil]
    exact h
  other := rfl

/-- Registering a plugin brings up none. -/
theorem registered (h : g.Ordered (r.list s)) (plugins : List ι) :
    Brought g r s [] { s with plugins := plugins } := by
  have hnone := none h
  cases r <;> exact ⟨hnone.list, hnone.calls, hnone.state, hnone.fresh, hnone.ordered, rfl⟩

theorem poised (hs : Poised g r C B s) (h : Brought g r s new s') : Poised g r C B s' where
  ordered := by
    rw [h.list]
    exact h.ordered
  state := by
    intro j hj
    rw [h.state]
    split
    · rfl
    · rename_i hnew
      rw [h.list, List.mem_append] at hj
      exact hs.state j (hj.resolve_right hnew)
  settled := by
    intro j hj hstate
    rw [h.list, List.mem_append]
    by_cases hnew : j ∈ new
    · exact .inr hnew
    · rw [h.state, if_neg hnew] at hstate
      exact .inl (hs.settled j hj hstate)
  climbs := by
    intro j hj
    rw [h.state]
    split
    · exact .inr rfl
    · exact hs.climbs j hj

/-- What was brought up first was not brought up again. -/
theorem fresh_of_fresh (h : Brought g r s new s') {j : ι} (hj : s'.state j = r.before) :
    s.state j = r.before := by
  rw [h.state] at hj
  split at hj
  · exact absurd hj.symm (before_ne_after r)
  · exact hj

theorem trans (h : Brought g r s new s') (h' : Brought g r s' new' s'') :
    Brought g r s (new ++ new') s'' where
  list := by rw [h'.list, h.list, List.append_assoc]
  calls := by rw [h'.calls, h.calls, List.map_append, List.append_assoc]
  state := by
    intro j
    rw [h'.state, h.state]
    by_cases hnew : j ∈ new <;> by_cases hnew' : j ∈ new' <;> simp [hnew, hnew']
  fresh := by
    intro j hj
    rcases List.mem_append.mp hj with hj | hj
    · exact h.fresh j hj
    · exact h.fresh_of_fresh (h'.fresh j hj)
  ordered := by
    rw [← List.append_assoc, ← h.list]
    exact h'.ordered
  other := h'.other.trans h.other

theorem state_or (h : Brought g r s new s') (j : ι) :
    s'.state j = s.state j ∨ s'.state j = r.after := by
  rw [h.state]
  split
  · exact .inr rfl
  · exact .inl rfl

theorem broken (h : Brought g r s new s') : Broken g hooks r s new [] s' where
  list := h.list
  calls := by
    rw [List.append_nil]
    exact h.calls
  state := h.state_or
  up j hj := by rw [h.state, if_pos hj]
  fresh := by
    rw [List.append_nil]
    exact h.fresh
  ordered := by
    rw [List.append_nil]
    exact h.ordered
  single := Nat.zero_le _
  threw i hi := absurd hi List.not_mem_nil
  other := h.other

theorem transBroken {failed : List ι} (h : Brought g r s new s')
    (h' : Broken g hooks r s' new' failed s'') :
    Broken g hooks r s (new ++ new') failed s'' where
  list := by rw [h'.list, h.list, List.append_assoc]
  calls := by simp only [h'.calls, h.calls, List.map_append, List.append_assoc]
  state := by
    intro j
    rcases h'.state j with hj | hj
    · rw [hj]
      exact h.state_or j
    · exact .inr hj
  up := by
    intro j hj
    rcases List.mem_append.mp hj with hj | hj
    · rcases h'.state j with hj' | hj'
      · rw [hj', h.state, if_pos hj]
      · exact hj'
    · exact h'.up j hj
  fresh := by
    intro j hj
    rw [List.append_assoc] at hj
    rcases List.mem_append.mp hj with hj | hj
    · exact h.fresh j hj
    · exact h.fresh_of_fresh (h'.fresh j hj)
  ordered := by
    rw [List.append_assoc new, ← List.append_assoc, ← h.list]
    exact h'.ordered
  single := h'.single
  threw := h'.threw
  other := h'.other.trans h.other

end Brought

/-- What a program does to the plugins: it brings up some of those with `C`. Where it returns everything
of `wanted` is up; where it throws, the function of a plugin did, or the program itself with `stray`. -/
def Raises (g : Requirements ι) (hooks : PluginHooks ι ω) (r : Rise) (C : ι → Prop)
    (stray : AppExc → Prop) (wanted : List ι) (s : Application ι ω)
    (result : Result AppExc (Application ι ω) Unit) : Prop :=
  match result with
  | .ok _ s' => ∃ new, Brought g r s new s' ∧ (∀ j ∈ wanted, j ∈ r.list s') ∧ ∀ j ∈ new, C j
  | .error e s' => ∃ new failed, Broken g hooks r s new failed s' ∧ (failed = [] → stray e) ∧
      ∀ j ∈ new ++ failed, C j

namespace Raises

variable {stray : AppExc → Prop} {wanted : List ι} {f : ι → AppM ι ω Unit}

/-- What a program does after others were brought up. -/
theorem after {result : Result AppExc (Application ι ω) Unit} (h : Brought g r s new s')
    (hnew : ∀ j ∈ new, C j) (h' : Raises g hooks r C stray wanted s' result) :
    Raises g hooks r C stray wanted s result := by
  cases result with
  | ok a s'' =>
    obtain ⟨new', hbrought, hwanted, hnew'⟩ := h'
    refine ⟨new ++ new', h.trans hbrought, hwanted, ?_⟩
    intro j hj
    exact (List.mem_append.mp hj).elim (hnew j) (hnew' j)
  | error e s'' =>
    obtain ⟨new', failed, hbroken, hstray, hnew'⟩ := h'
    refine ⟨new ++ new', failed, h.transBroken hbroken, hstray, ?_⟩
    intro j hj
    rw [List.append_assoc] at hj
    exact (List.mem_append.mp hj).elim (hnew j) (hnew' j)

/-- A loop over plugins brings up all of them. -/
theorem forM {l : List ι}
    (hf : ∀ j ∈ l, ∀ s, Poised g r C B s → Raises g hooks r C stray [j] s ((f j).run s))
    (hs : Poised g r C B s) : Raises g hooks r C stray l s ((l.forM f).run s) := by
  induction l generalizing s with
  | nil => exact ⟨[], .none hs.ordered, nofun, nofun⟩
  | cons j l ih =>
    have hhead := hf j List.mem_cons_self s hs
    change Raises g hooks r C stray (j :: l) s ((f j >>= fun _ => l.forM f).run s)
    rw [EStateM.run_bind]
    cases hrun : (f j).run s with
    | error e s' =>
      rw [hrun] at hhead
      exact hhead
    | ok a s' =>
      rw [hrun] at hhead
      obtain ⟨new, hbrought, hj, hnew⟩ := hhead
      have hs' : Poised g r C B s' := hbrought.poised hs
      have hrest := ih (fun j hj => hf j (List.mem_cons_of_mem _ hj)) hs'
      refine after hbrought hnew ?_
      show Raises g hooks r C stray (j :: l) s' ((l.forM f).run s')
      cases hloop : (l.forM f).run s' with
      | error e s'' =>
        rw [hloop] at hrest
        exact hrest
      | ok a s'' =>
        rw [hloop] at hrest
        obtain ⟨new', hbrought', hl, hnew'⟩ := hrest
        refine ⟨new', hbrought', ?_, hnew'⟩
        intro j' hj'
        rcases List.mem_cons.mp hj' with rfl | hj'
        · rw [hbrought'.list]
          exact List.mem_append_left _ (hj j' List.mem_cons_self)
        · exact hl j' hj'

end Raises

/-! ## Registering -/

theorem run_registerFrom {depth : Nat} {i : ι} (hi : g.rank i < depth) (s : Application ι ω) :
    ∃ plugins, (registerFrom g depth i : AppM ι ω Unit).run s = .ok () { s with plugins := plugins } ∧
      i ∈ plugins ∧ s.plugins ⊆ plugins := by
  induction depth generalizing i s with
  | zero => omega
  | succ depth ih =>
    by_cases hmem : i ∈ s.plugins
    · refine ⟨s.plugins, ?_, hmem, List.Subset.refl _⟩
      rw [registerFrom, EStateM.run_bind, EStateM.run_get]
      simp only [hmem, if_true]
      rfl
    · have hloop : ∀ (l : List ι) (s : Application ι ω), (∀ j ∈ l, g.rank j < depth) →
          ∃ plugins, (l.forM (registerFrom g depth) : AppM ι ω Unit).run s =
            .ok () { s with plugins := plugins } ∧ s.plugins ⊆ plugins := by
        intro l
        induction l with
        | nil => exact fun s _ => ⟨s.plugins, rfl, List.Subset.refl _⟩
        | cons j l ihl =>
          intro s hl
          obtain ⟨plugins, hrun, -, hsub⟩ := ih (hl j List.mem_cons_self) s
          obtain ⟨plugins', hrest, hsub'⟩ := ihl { s with plugins := plugins }
            fun j hj => hl j (List.mem_cons_of_mem _ hj)
          refine ⟨plugins', ?_, List.Subset.trans hsub hsub'⟩
          show (registerFrom g depth j >>= fun _ => l.forM (registerFrom g depth)).run s = _
          rw [EStateM.run_bind, hrun]
          exact hrest
      obtain ⟨plugins, hrun, hsub⟩ := hloop (g.requires i) { s with plugins := i :: s.plugins } (by
        intro j hj
        have hlt := g.rank_lt i j hj
        omega)
      refine ⟨plugins, ?_, hsub List.mem_cons_self, fun j hj => hsub (List.mem_cons_of_mem _ hj)⟩
      rw [registerFrom, EStateM.run_bind, EStateM.run_get]
      simp only [hmem, if_false, EStateM.run_bind]
      exact hrun

theorem run_registerPlugin (i : ι) (s : Application ι ω) :
    ∃ plugins, (registerPlugin g i : AppM ι ω Unit).run s = .ok () { s with plugins := plugins } ∧
      i ∈ plugins ∧ s.plugins ⊆ plugins :=
  run_registerFrom (Nat.lt_succ_self _) s

/-! ## Bringing up a plugin -/

@[simp]
theorem list_setState (r : Rise) (i : ι) (next : PluginState) (s : Application ι ω) :
    r.list (setState i next s) = r.list s := by
  cases r <;> rfl

@[simp]
theorem otherList_setState (r : Rise) (i : ι) (next : PluginState) (s : Application ι ω) :
    otherList r (setState i next s) = otherList r s := by
  cases r <;> rfl

theorem state_setState (i j : ι) (next : PluginState) (s : Application ι ω) :
    (setState i next s).state j = if j = i then next else s.state j := rfl

omit [DecidableEq ι] in
@[simp]
theorem list_push (r : Rise) (i : ι) (s : Application ι ω) :
    r.list (r.push i s) = r.list s ++ [i] := by
  cases r <;> rfl

omit [DecidableEq ι] in
@[simp]
theorem otherList_push (r : Rise) (i : ι) (s : Application ι ω) :
    otherList r (r.push i s) = otherList r s := by
  cases r <;> rfl

omit [DecidableEq ι] in
@[simp]
theorem calls_push (r : Rise) (i : ι) (s : Application ι ω) : (r.push i s).calls = s.calls := by
  cases r <;> rfl

omit [DecidableEq ι] in
@[simp]
theorem state_push (r : Rise) (i : ι) (s : Application ι ω) : (r.push i s).state = s.state := by
  cases r <;> rfl

/-- A function of a plugin was called, which left its state as `w`. -/
def called (call : PluginCall ι) (w : ω) (s : Application ι ω) : Application ι ω :=
  { s with calls := s.calls ++ [call], world := w }

omit [DecidableEq ι] in
@[simp]
theorem list_called (r : Rise) (call : PluginCall ι) (w : ω) (s : Application ι ω) :
    r.list (s.called call w) = r.list s := by
  cases r <;> rfl

omit [DecidableEq ι] in
@[simp]
theorem otherList_called (r : Rise) (call : PluginCall ι) (w : ω) (s : Application ι ω) :
    otherList r (s.called call w) = otherList r s := by
  cases r <;> rfl

omit [DecidableEq ι] in
/-- A function of a plugin is called, and all the application does is to note it. -/
theorem run_callHook (call : PluginCall ι) (hook : EStateM AppExc ω Unit) (s : Application ι ω) :
    (∃ w, (callHook call hook).run s = .ok () (s.called call w)) ∨
      (¬ Returned (hook.run s.world) ∧
        ∃ e w, (callHook call hook).run s = .error e (s.called call w)) := by
  cases hrun : hook.run s.world with
  | ok a w =>
    refine .inl ⟨w, ?_⟩
    exact run_onPart_ok hrun
  | error e w =>
    refine .inr ⟨?_, e, w, ?_⟩
    · rintro ⟨a, w', h⟩
      cases h
    · exact run_onPart_error hrun

/-- While a plugin is on its way, what it requires can be brought up. -/
theorem Poised.enter {i : ι} (hs : Poised g r C (g.rank · ≤ g.rank i) s) :
    Poised g r (fun j => C j ∧ g.rank j < g.rank i) (g.rank · < g.rank i) (setState i r.after s) := by
  have hne : ∀ j, g.rank j < g.rank i → (setState i r.after s).state j = s.state j := by
    intro j hj
    refine if_neg ?_
    rintro rfl
    exact Nat.lt_irrefl _ hj
  refine ⟨?_, ?_, ?_, ?_⟩
  · rw [list_setState]
    exact hs.ordered
  · intro j hj
    rw [list_setState] at hj
    show (if j = i then r.after else s.state j) = r.after
    split
    · rfl
    · exact hs.state j hj
  · intro j hj hstate
    rw [list_setState]
    rw [hne j hj] at hstate
    exact hs.settled j (Nat.le_of_lt hj) hstate
  · rintro j ⟨hCj, hj⟩
    rw [hne j hj]
    exact hs.climbs j hCj

/-- After what it requires, a plugin is called and entered in the list. -/
theorem Brought.entering {i : ι} (hs : Poised g r C (g.rank · ≤ g.rank i) s) (hi : s.state i = r.before)
    (h : Brought g r (setState i r.after s) new s') (hrank : ∀ j ∈ new, g.rank j < g.rank i)
    (hrequires : ∀ j ∈ g.requires i, j ∈ r.list s') :
    g.Ordered (r.list s ++ (new ++ [i])) ∧ r.list s' = r.list s ++ new ∧
      s'.calls = s.calls ++ new.map r.call ∧
      (∀ j, s'.state j = if j ∈ new ++ [i] then r.after else s.state j) ∧
      (∀ j ∈ new ++ [i], s.state j = r.before) ∧ otherList r s' = otherList r s := by
  have hnew : i ∉ new := fun hmem => Nat.lt_irrefl _ (hrank i hmem)
  have hold : i ∉ r.list s := by
    intro hmem
    rw [hs.state i hmem] at hi
    exact before_ne_after r hi.symm
  have hordered := h.ordered
  rw [h.list, list_setState] at hrequires
  rw [list_setState] at hordered
  refine ⟨?_, ?_, h.calls, ?_, ?_, ?_⟩
  · rw [← List.append_assoc]
    exact hordered.concat (by simp [hold, hnew]) hrequires
  · rw [h.list, list_setState]
  · intro j
    rw [h.state, state_setState]
    by_cases hj : j ∈ new <;> by_cases hji : j = i <;> simp [hj, hji]
  · intro j hj
    rcases List.mem_append.mp hj with hmem | hmem
    · have hne : j ≠ i := fun heq => hnew (heq ▸ hmem)
      rw [← h.fresh j hmem, state_setState, if_neg hne]
    · rw [List.mem_singleton.mp hmem]
      exact hi
  · rw [h.other, otherList_setState]

/-- What it requires broke, and so the plugin was not called. -/
theorem Broken.leave {i : ι} {failed : List ι}
    (h : Broken g hooks r (setState i r.after s) new failed s')
    (hrank : ∀ j ∈ new ++ failed, g.rank j < g.rank i) : Broken g hooks r s new failed s' := by
  refine ⟨?_, h.calls, ?_, h.up, ?_, ?_, h.single, h.threw, ?_⟩
  · rw [h.list, list_setState]
  · intro j
    have hj := h.state j
    rw [state_setState] at hj
    by_cases hji : j = i
    · rw [if_pos hji, or_self] at hj
      exact .inr hj
    · rw [if_neg hji] at hj
      exact hj
  · intro j hj
    have hne : j ≠ i := fun heq => Nat.lt_irrefl _ (heq ▸ hrank j hj)
    rw [← h.fresh j hj, state_setState, if_neg hne]
  · rw [← list_setState r i r.after]
    exact h.ordered
  · rw [h.other, otherList_setState]

/-- **A plugin is brought up**, after what it requires. -/
theorem riseFrom_spec {depth : Nat} {i : ι} (hi : g.rank i < depth) (hC : g.Closed C) (hCi : C i)
    (hs : Poised g r C (g.rank · ≤ g.rank i) s) :
    Raises g hooks r C (fun _ => False) [i] s ((riseFrom g hooks r depth i).run s) := by
  induction depth generalizing i s C with
  | zero => omega
  | succ depth ih =>
    by_cases hstate : s.state i = r.before
    · -- What it requires comes first: the loop over it runs below the rank of the plugin.
      have hloop : Raises g hooks r (fun j => C j ∧ g.rank j < g.rank i) (fun _ => False)
          (g.requires i) (setState i r.after s)
          (((g.requires i).forM fun j => do
            registerPlugin g j
            riseFrom g hooks r depth j).run (setState i r.after s)) := by
        refine Raises.forM ?_ hs.enter
        intro j hj t ht
        have hlt := g.rank_lt i j hj
        obtain ⟨plugins, hrun, -⟩ := run_registerPlugin (g := g) j t
        have hbrought := Brought.registered (s := t) ht.ordered plugins
        have ht' := hbrought.poised ht
        rw [EStateM.run_bind, hrun]
        refine Raises.after hbrought (fun _ hmem => absurd hmem List.not_mem_nil) ?_
        refine ih (by omega) ?_ ⟨hC i hCi j hj, hlt⟩ ?_
        · rintro j ⟨hCj, hj⟩ j' hj'
          exact ⟨hC j hCj j' hj', Nat.lt_trans (g.rank_lt j j' hj') hj⟩
        · exact ⟨ht'.ordered, ht'.state, fun j' hj' => ht'.settled j' (Nat.lt_of_le_of_lt hj' hlt),
          ht'.climbs⟩
      rw [riseFrom]
      simp only [EStateM.run_bind, EStateM.run_get, hstate, if_true, EStateM.run_modify]
      cases hrun : ((g.requires i).forM fun j => do
          registerPlugin g j
          riseFrom g hooks r depth j).run (setState i r.after s) with
      | error e s₁ =>
        rw [hrun] at hloop
        obtain ⟨new, failed, hbroken, hstray, hnew⟩ := hloop
        exact ⟨new, failed, hbroken.leave fun j hj => (hnew j hj).2, hstray,
          fun j hj => (hnew j hj).1⟩
      | ok a s₁ =>
        rw [hrun] at hloop
        obtain ⟨new, hbrought, hrequires, hnew⟩ := hloop
        have hC' : ∀ j ∈ new ++ [i], C j := by
          intro j hj
          rcases List.mem_append.mp hj with hj | hj
          · exact (hnew j hj).1
          · rw [List.mem_singleton.mp hj]
            exact hCi
        obtain ⟨hordered, hlist, hcalls, hstates, hfresh, hother⟩ :=
          hbrought.entering hs hstate (fun j hj => (hnew j hj).2) hrequires
        rcases run_callHook (r.call i) (r.hook hooks i) s₁ with ⟨w, hcall⟩ | ⟨hthrew, e, w, hcall⟩
        · have hpush : Brought g r s (new ++ [i]) (r.push i (s₁.called (r.call i) w)) := by
            refine ⟨?_, ?_, ?_, hfresh, hordered, ?_⟩
            · rw [list_push, list_called, hlist, List.append_assoc]
            · rw [calls_push, called, hcalls, List.map_append, List.append_assoc]
              rfl
            · intro j
              rw [state_push]
              exact hstates j
            · rw [otherList_push, otherList_called, hother]
          have hend : (r.push i (s₁.called (r.call i) w)).state i = r.after := by
            rw [hpush.state, if_pos (List.mem_append_right _ (List.mem_singleton_self i))]
          simp only [hcall, hend, if_true, EStateM.run_pure]
          refine ⟨new ++ [i], hpush, ?_, hC'⟩
          intro j hj
          rw [List.mem_singleton.mp hj, list_push]
          exact List.mem_append_right _ (List.mem_singleton_self i)
        · simp only [hcall]
          refine ⟨new, [i], ⟨?_, ?_, ?_, ?_, hfresh, hordered, Nat.le_refl _, ?_, ?_⟩, nofun, hC'⟩
          · rw [list_called, hlist]
          · rw [called, hcalls, List.map_append, List.append_assoc]
            rfl
          · intro j
            show s₁.state j = _ ∨ s₁.state j = _
            rw [hstates]
            split
            · exact .inr rfl
            · exact .inl rfl
          · intro j hj
            show s₁.state j = _
            rw [hstates, if_pos (List.mem_append_left _ hj)]
          · intro j hj
            rw [List.mem_singleton.mp hj]
            exact ⟨_, hthrew⟩
          · rw [otherList_called, hother]
    · -- It is up already.
      have hup : s.state i = r.after := (hs.climbs i hCi).resolve_left hstate
      have hrun : (riseFrom g hooks r (depth + 1) i).run s = .ok () s := by
        have hne := (before_ne_after r).symm
        rw [riseFrom]
        simp only [EStateM.run_bind, EStateM.run_get, hup, hne, if_false, EStateM.run_pure, if_true]
      rw [hrun]
      refine ⟨[], .none hs.ordered, ?_, fun _ hmem => absurd hmem List.not_mem_nil⟩
      intro j hj
      rw [List.mem_singleton.mp hj]
      exact hs.settled i (Nat.le_refl _) hup

/-! ## The runs of the application -/

theorem Raises.stray {stray : AppExc → Prop} {wanted : List ι}
    {result : Result AppExc (Application ι ω) Unit}
    (h : Raises g hooks r C (fun _ => False) wanted s result) :
    Raises g hooks r C stray wanted s result := by
  cases result with
  | ok a s' => exact h
  | error e s' =>
    obtain ⟨new, failed, hbroken, hstray, hnew⟩ := h
    exact ⟨new, failed, hbroken, fun hnil => (hstray hnil).elim, hnew⟩

/-- None is on its way. -/
abbrev Settled (g : Requirements ι) (r : Rise) (C : ι → Prop) (s : Application ι ω) : Prop :=
  Poised g r C (fun _ => True) s

omit [DecidableEq ι] in
theorem Poised.below (hs : Settled g r C s) : Poised g r C B s :=
  ⟨hs.ordered, hs.state, fun j _ => hs.settled j trivial, hs.climbs⟩

theorem initializeNamed_raises {i : ι} (hC : g.Closed C) (hCi : C i)
    (hs : Settled g .initializing C s) :
    Raises g hooks .initializing C (fun e => ∃ what, e = .runtimeError what) [i] s
      ((initializeNamed g hooks i).run s) := by
  rw [initializeNamed, EStateM.run_bind, EStateM.run_get]
  by_cases hi : i ∈ s.plugins
  · simp only [hi, if_true]
    exact Raises.stray (riseFrom_spec (Nat.lt_succ_self _) hC hCi hs.below)
  · simp only [hi, if_false]
    exact ⟨[], [], (Brought.none hs.ordered).broken, fun _ => ⟨_, rfl⟩,
      fun _ hmem => absurd hmem List.not_mem_nil⟩

theorem autostart_raises {i : ι} (hC : g.Closed C) (hCi : C i)
    (hs : Settled g .initializing C s) :
    Raises g hooks .initializing C (fun _ => False) [i] s ((autostart g hooks i).run s) := by
  rw [autostart, EStateM.run_bind, EStateM.run_get]
  by_cases hi : s.state i = .registered
  · simp only [hi, if_true]
    exact riseFrom_spec (Nat.lt_succ_self _) hC hCi hs.below
  · simp only [hi, if_false]
    refine ⟨[], .none hs.ordered, ?_, fun _ hmem => absurd hmem List.not_mem_nil⟩
    intro j hj
    rw [List.mem_singleton.mp hj]
    exact hs.settled i trivial ((hs.climbs i hCi).resolve_left hi)

/-- What the second part of `initialize_impl` does. -/
theorem autostartPart_spec (hooks : PluginHooks ι ω) {autostarted : List ι} (hC : g.Closed C)
    (hauto : ∀ j ∈ autostarted, C j) (hs : Settled g .initializing C s) :
    ∃ new failed s', Broken g hooks .initializing s new failed s' ∧ (∀ j ∈ new ++ failed, C j) ∧
      (failed = [] → ∀ j ∈ autostarted, j ∈ s'.initializedPlugins) ∧
      ((tryCatch (autostarted.forM (autostart g hooks)) logStdException : AppM ι ω Unit).run s =
          .ok () s' ∨
        ∃ e, (tryCatch (autostarted.forM (autostart g hooks)) logStdException : AppM ι ω Unit).run s =
          .error e s') := by
  have hraises := Raises.forM (l := autostarted) (f := autostart g hooks)
    (fun j hj s hs => autostart_raises hC (hauto j hj) hs) hs
  rw [run_tryCatch]
  cases hrun : (autostarted.forM (autostart g hooks)).run s with
  | ok a s' =>
    rw [hrun] at hraises
    obtain ⟨new, hbrought, hall, hnew⟩ := hraises
    refine ⟨new, [], s', hbrought.broken, ?_, fun _ => hall, .inl rfl⟩
    rw [List.append_nil]
    exact hnew
  | error e s' =>
    rw [hrun] at hraises
    obtain ⟨new, failed, hbroken, hstray, hnew⟩ := hraises
    refine ⟨new, failed, s', hbroken, hnew, fun hnil => (hstray hnil).elim, ?_⟩
    cases e with
    | fc what => exact .inr ⟨_, rfl⟩
    | programOptions what => exact .inl rfl
    | runtimeError what => exact .inl rfl

theorem initializeImpl_spec (hooks : PluginHooks ι ω) {configured : Option (List ι)}
    {autostarted : List ι} (hC : g.Closed C)
    (hnames : ∀ names, configured = some names → ∀ j ∈ names, C j) (hauto : ∀ j ∈ autostarted, C j)
    (hs : Settled g .initializing C s) :
    ∃ new failed s', Broken g hooks .initializing s new failed s' ∧ (∀ j ∈ new ++ failed, C j) ∧
      ((∃ e, (initializeImpl g hooks configured autostarted).run s = .error e s') ∨
        ((initializeImpl g hooks configured autostarted).run s = .ok false s' ∧
          (configured = none ∨ failed ≠ [])) ∨
        ((initializeImpl g hooks configured autostarted).run s = .ok true s' ∧
          (∃ names, configured = some names ∧ ∀ j ∈ names, j ∈ s'.initializedPlugins) ∧
          (failed = [] → ∀ j ∈ autostarted, j ∈ s.plugins → j ∈ s'.initializedPlugins))) := by
  generalize hresult : (initializeImpl g hooks configured autostarted).run s = result
  simp only [initializeImpl, EStateM.run_bind, EStateM.run_get, run_tryCatch] at hresult
  cases configured with
  | none =>
    exact ⟨[], [], s, (Brought.none hs.ordered).broken, fun _ hmem => absurd hmem List.not_mem_nil,
      .inr (.inl ⟨hresult.symm, .inl rfl⟩)⟩
  | some names =>
    have hraises := Raises.forM (l := names) (f := initializeNamed g hooks)
      (fun j hj s hs => initializeNamed_raises hC (hnames names rfl j hj) hs) hs
    cases hrun : (names.forM (initializeNamed g hooks)).run s with
    | error e s₁ =>
      rw [hrun] at hraises
      obtain ⟨new, failed, hbroken, hstray, hnew⟩ := hraises
      simp only [EStateM.run_bind, hrun] at hresult
      refine ⟨new, failed, s₁, hbroken, hnew, ?_⟩
      cases e with
      | fc what => exact .inl ⟨_, hresult.symm⟩
      | runtimeError what => exact .inl ⟨_, hresult.symm⟩
      | programOptions what =>
        refine .inr (.inl ⟨hresult.symm, .inr ?_⟩)
        intro hnil
        obtain ⟨what', heq⟩ := hstray hnil
        cases heq
    | ok a s₁ =>
      rw [hrun] at hraises
      obtain ⟨new, hbrought, hall, hnew⟩ := hraises
      have hknown : ∀ j ∈ autostarted.filter (· ∈ s.plugins), C j :=
        fun j hj => hauto j (List.mem_filter.mp hj).1
      obtain ⟨new', failed, s', hbroken, hnew', hauto', hpart⟩ :=
        autostartPart_spec hooks hC hknown (hbrought.poised hs)
      refine ⟨new ++ new', failed, s', hbrought.transBroken hbroken, ?_, ?_⟩
      · intro j hj
        rw [List.append_assoc] at hj
        exact (List.mem_append.mp hj).elim (hnew j) (hnew' j)
      · rcases hpart with hpart | ⟨e, hpart⟩
        · simp only [EStateM.run_bind, hrun, EStateM.run_pure, if_true, hpart] at hresult
          refine .inr (.inr ⟨hresult.symm, ⟨names, rfl, ?_⟩, ?_⟩)
          · intro j hj
            have hlist := hbroken.list
            rw [show s'.initializedPlugins = _ from hlist]
            exact List.mem_append_left _ (hall j hj)
          · intro hnil j hj hknown
            exact hauto' hnil j (List.mem_filter.mpr ⟨hj, decide_eq_true hknown⟩)
        · simp only [EStateM.run_bind, hrun, EStateM.run_pure, if_true, hpart] at hresult
          exact .inl ⟨e, hresult.symm⟩

omit [DecidableEq ι] in
/-- After the initialization, the plugins that went through it can be started. -/
theorem Broken.settled {failed : List ι} (hfresh : ∀ j, s.state j = .registered)
    (hidle : s.runningPlugins = [])
    (h : Broken g hooks .initializing s new failed s') : Settled g .starting (· ∈ new) s' := by
  have hrunning : s'.runningPlugins = [] := h.other.trans hidle
  refine ⟨?_, ?_, ?_, ?_⟩
  · show g.Ordered s'.runningPlugins
    rw [hrunning]
    exact .nil
  · intro j hj
    change j ∈ s'.runningPlugins at hj
    rw [hrunning] at hj
    exact absurd hj List.not_mem_nil
  · intro j _ hj
    rcases h.state j with hstate | hstate
    · rw [hstate, hfresh] at hj
      cases hj
    · rw [hstate] at hj
      cases hj
  · intro j hj
    exact .inl (h.up j hj)

theorem startUp_raises (hooks : PluginHooks ι ω) (hC : g.Closed (· ∈ s.initializedPlugins))
    (hs : Settled g .starting (· ∈ s.initializedPlugins) s) :
    Raises g hooks .starting (· ∈ s.initializedPlugins) (fun _ => False) s.initializedPlugins s
      ((startUp g hooks).run s) :=
  Raises.forM (fun _ hj _ ht => riseFrom_spec (Nat.lt_succ_self _) hC hj ht.below) hs

/-! ## Going down -/

theorem run_shutdownPlugin (hooks : PluginHooks ι ω) {i : ι} (hi : s.state i = .started) :
    (∃ w, (shutdownPlugin hooks i).run s =
        .ok () ((setState i .stopped s).called (.pluginShutdown i) w)) ∨
      ∃ e w, (shutdownPlugin hooks i).run s =
        .error e ((setState i .stopped s).called (.pluginShutdown i) w) := by
  rw [shutdownPlugin, EStateM.run_bind, EStateM.run_get]
  simp only [hi, if_true, EStateM.run_bind, EStateM.run_modify]
  rcases run_callHook (.pluginShutdown i) (hooks.pluginShutdown i) (setState i .stopped s) with
    ⟨w, hrun⟩ | ⟨-, e, w, hrun⟩
  · exact .inl ⟨w, hrun⟩
  · exact .inr ⟨e, w, hrun⟩

theorem shutdownLoop_spec (hooks : PluginHooks ι ω) {l : List ι} (hnodup : l.Nodup)
    (hl : ∀ j ∈ l, s.state j = .started) :
    ∃ stops, (finalState ((l.forM (shutdownPlugin hooks)).run s)).calls =
        s.calls ++ stops.map .pluginShutdown ∧ stops <+: l ∧
      (Returned ((l.forM (shutdownPlugin hooks)).run s) → stops = l) := by
  induction l generalizing s with
  | nil => exact ⟨[], (List.append_nil _).symm, List.prefix_refl _, fun _ => rfl⟩
  | cons i l ih =>
    obtain ⟨hi, hnodup⟩ := List.nodup_cons.mp hnodup
    have hcons : ((i :: l).forM (shutdownPlugin hooks)).run s =
        (shutdownPlugin hooks i >>= fun _ => l.forM (shutdownPlugin hooks)).run s := rfl
    rw [hcons, EStateM.run_bind]
    rcases run_shutdownPlugin hooks (hl i List.mem_cons_self) with ⟨w, hrun⟩ | ⟨e, w, hrun⟩
    · have hrest : ∀ j ∈ l, ((setState i .stopped s).called (.pluginShutdown i) w).state j =
          .started := by
        intro j hj
        have hne : j ≠ i := fun heq => hi (heq ▸ hj)
        show (setState i .stopped s).state j = _
        rw [state_setState, if_neg hne]
        exact hl j (List.mem_cons_of_mem _ hj)
      obtain ⟨stops, hcalls, hprefix, hall⟩ := ih hnodup hrest
      rw [hrun]
      refine ⟨i :: stops, ?_, (List.prefix_cons_inj i).mpr hprefix, fun h => by rw [hall h]⟩
      refine hcalls.trans ?_
      exact List.append_assoc ..
    · rw [hrun]
      refine ⟨[i], rfl, ⟨l, rfl⟩, ?_⟩
      rintro ⟨a, s', h⟩
      cases h

/-- **The started plugins are shut down in reverse.** -/
theorem shutdown_spec (hooks : PluginHooks ι ω) (hnodup : s.runningPlugins.Nodup)
    (hstarted : ∀ j ∈ s.runningPlugins, s.state j = .started) :
    ∃ stops, (finalState ((shutdown hooks).run s)).calls = s.calls ++ stops.map .pluginShutdown ∧
      stops <+: s.runningPlugins.reverse ∧
      (Returned ((shutdown hooks).run s) → stops = s.runningPlugins.reverse) := by
  obtain ⟨stops, hcalls, hprefix, hall⟩ := shutdownLoop_spec hooks
    (List.nodup_reverse.mpr hnodup) fun j hj => hstarted j (List.mem_reverse.mp hj)
  refine ⟨stops, ?_, hprefix, ?_⟩
  · rw [← hcalls, shutdown, EStateM.run_bind, EStateM.run_get]
    simp only [EStateM.run_bind]
    cases (s.runningPlugins.reverse.forM (shutdownPlugin hooks)).run s <;> rfl
  · intro h
    refine hall ?_
    rw [shutdown, EStateM.run_bind, EStateM.run_get] at h
    obtain ⟨a, s', hrun, -⟩ := returned_bind.mp h
    exact ⟨a, s', hrun⟩

/-- What was initialized is started, and then shut down in reverse. -/
theorem startUp_shutdown_spec (hooks : PluginHooks ι ω) (hordered : g.Ordered s.initializedPlugins)
    (hs : Settled g .starting (· ∈ s.initializedPlugins) s) (hidle : s.runningPlugins = []) :
    ∃ starts stops, let result := (do startUp g hooks; shutdown hooks : AppM ι ω Unit).run s
      (finalState result).calls =
        s.calls ++ starts.map .pluginStartup ++ stops.map .pluginShutdown ∧
      g.Ordered starts ∧ starts ⊆ s.initializedPlugins ∧ stops <+: starts.reverse ∧
      (Returned result → s.initializedPlugins ⊆ starts ∧ stops = starts.reverse) := by
  have hraises := startUp_raises hooks hordered.closed hs
  simp only [EStateM.run_bind]
  cases hrun : (startUp g hooks).run s with
  | error e s' =>
    rw [hrun] at hraises
    obtain ⟨new, failed, hbroken, -, hnew⟩ := hraises
    have hlist := hbroken.ordered
    rw [show Rise.starting.list s = [] from hidle, List.nil_append] at hlist
    refine ⟨new ++ failed, [], ?_, hlist, hnew, List.nil_prefix, ?_⟩
    · rw [List.map_nil, List.append_nil]
      exact hbroken.calls
    · rintro ⟨a, s'', h⟩
      cases h
  | ok a s' =>
    rw [hrun] at hraises
    obtain ⟨new, hbrought, hall, hnew⟩ := hraises
    have hrunning : s'.runningPlugins = new := by
      have hlist := hbrought.list
      rw [show Rise.starting.list s = [] from hidle, List.nil_append] at hlist
      exact hlist
    have hlist := hbrought.ordered
    rw [show Rise.starting.list s = [] from hidle, List.nil_append] at hlist
    obtain ⟨stops, hcalls, hprefix, hdown⟩ := shutdown_spec hooks (s := s')
      (by rw [hrunning]; exact hlist.nodup)
      (by intro j hj; exact (hbrought.poised hs).state j hj)
    rw [hrunning] at hprefix hdown
    refine ⟨new, stops, ?_, hlist, hnew, hprefix, ?_⟩
    · rw [hcalls, hbrought.calls]
      rfl
    · intro h
      refine ⟨?_, hdown h⟩
      rw [← hrunning]
      exact hall

theorem run_register (l : List ι) (s : Application ι ω) :
    ∃ plugins, (l.forM (registerPlugin g) : AppM ι ω Unit).run s =
      .ok () { s with plugins := plugins } ∧ s.plugins ⊆ plugins ∧ l ⊆ plugins := by
  induction l generalizing s with
  | nil => exact ⟨s.plugins, rfl, List.Subset.refl _, List.nil_subset _⟩
  | cons i l ih =>
    obtain ⟨plugins, hrun, hi, hsub⟩ := run_registerPlugin (g := g) i s
    obtain ⟨plugins', hrest, hsub', hl⟩ := ih { s with plugins := plugins }
    refine ⟨plugins', ?_, List.Subset.trans hsub hsub', List.cons_subset.mpr ⟨hsub' hi, hl⟩⟩
    show (registerPlugin g i >>= fun _ => l.forM (registerPlugin g)).run s = _
    rw [EStateM.run_bind, hrun]
    exact hrest

/-- The calls of a run: some plugins are initialized, then the function of one more may throw; some of
those are started, and some of these shut down. -/
structure RunOf (g : Requirements ι) (hooks : PluginHooks ι ω) (requested inits failed starts stops :
    List ι) (calls : List (PluginCall ι)) : Prop where
  calls : calls = (inits ++ failed).map .pluginInitialize ++ starts.map .pluginStartup ++
    stops.map .pluginShutdown
  initialized : g.Ordered (inits ++ failed)
  needed : ∀ i ∈ inits ++ failed, ∃ j ∈ requested, g.Needs j i
  single : failed.length ≤ 1
  threw : ∀ i ∈ failed, ∃ w, ¬ Returned ((hooks.pluginInitialize i).run w)
  started : g.Ordered starts
  subset : starts ⊆ inits
  stopped : stops <+: starts.reverse

/-- **Plugins go up in order and down in reverse**, whichever of their functions throw. In every run a
plugin is initialized at most once, after all it requires, and only where it was asked for or something
that was requires it; it is started at most once, after all it requires and only if its initialization
went through; and those that were started are shut down from the last on. A run that returns has started
nothing, or has started all that were initialized, with all the configured plugins among them, and shut
down all of these; and only a plugin that threw kept those from it that start by themselves. -/
theorem main_calls (g : Requirements ι) (hooks : PluginHooks ι ω) (registered : List ι)
    (configured : Option (List ι)) (autostarted : List ι) (w : ω) :
    let result := (main g hooks registered configured autostarted).run { world := w }
    ∃ inits failed starts stops,
      RunOf g hooks (configured.getD [] ++ autostarted) inits failed starts stops
        (finalState result).calls ∧
      (Returned result → starts = [] ∧ (configured = none ∨ failed ≠ []) ∨
        inits ⊆ starts ∧ stops = starts.reverse ∧
          (∃ names, configured = some names ∧ names ⊆ inits) ∧
          (failed = [] → ∀ i ∈ autostarted, i ∈ registered → i ∈ inits)) := by
  intro result
  obtain ⟨plugins, hregister, -, hregistered⟩ := run_register (g := g) registered { world := w }
  have hC : g.Closed fun i => ∃ j ∈ configured.getD [] ++ autostarted, g.Needs j i := by
    rintro i ⟨j, hj, hneeds⟩ k hk
    exact ⟨j, hj, hneeds.step hk⟩
  have hself : ∀ j ∈ configured.getD [] ++ autostarted,
      ∃ j' ∈ configured.getD [] ++ autostarted, g.Needs j' j := fun j hj => ⟨j, hj, .self j⟩
  have hs : Settled g .initializing (fun i => ∃ j ∈ configured.getD [] ++ autostarted, g.Needs j i)
      ({ world := w, plugins := plugins } : Application ι ω) :=
    ⟨.nil, fun _ h => absurd h List.not_mem_nil, fun _ _ h => (before_ne_after .initializing h).elim,
      fun _ _ => .inl rfl⟩
  have hnames : ∀ names, configured = some names → ∀ j ∈ names,
      ∃ j' ∈ configured.getD [] ++ autostarted, g.Needs j' j := by
    rintro names rfl j hj
    exact hself j (List.mem_append_left _ hj)
  obtain ⟨inits, failed, s', hbroken, hneeded, hinit⟩ := initializeImpl_spec hooks hC hnames
    (fun j hj => hself j (List.mem_append_right _ hj)) hs
  have hinits : s'.initializedPlugins = inits := hbroken.list
  have hcalls : s'.calls = (inits ++ failed).map .pluginInitialize := hbroken.calls
  have hordered : g.Ordered (inits ++ failed) := hbroken.ordered
  have hrun : result = match (initializeImpl g hooks configured autostarted).run
      { world := w, plugins := plugins } with
      | .ok true s' => (do startUp g hooks; shutdown hooks : AppM ι ω Unit).run s'
      | .ok false s' => .ok () s'
      | .error e s' => .error e s' := by
    show (main g hooks registered configured autostarted).run { world := w } = _
    rw [main, EStateM.run_bind]
    simp only [hregister, EStateM.run_bind]
    cases (initializeImpl g hooks configured autostarted).run { world := w, plugins := plugins } with
    | ok go s' => cases go <;> rfl
    | error e s' => rfl
  -- Where nothing is started, the initialization is all of the run.
  have hunstarted : (finalState result).calls = s'.calls →
      RunOf g hooks (configured.getD [] ++ autostarted) inits failed [] []
        (finalState result).calls := by
    intro h
    refine ⟨?_, hordered, hneeded, hbroken.single, hbroken.threw, .nil, List.nil_subset _,
      List.nil_prefix⟩
    rw [h, hcalls, List.map_nil, List.map_nil, List.append_nil, List.append_nil]
  rcases hinit with ⟨e, hinit⟩ | ⟨hinit, hreason⟩ | ⟨hinit, hconfigured, hauto⟩
  · rw [hinit] at hrun
    refine ⟨inits, failed, [], [], hunstarted (by rw [hrun]; rfl), ?_⟩
    rw [hrun]
    rintro ⟨a, s'', h⟩
    cases h
  · rw [hinit] at hrun
    exact ⟨inits, failed, [], [], hunstarted (by rw [hrun]; rfl), fun _ => .inl ⟨rfl, hreason⟩⟩
  · rw [hinit] at hrun
    have hsettled := hbroken.settled (fun _ => rfl) rfl
    rw [← hinits] at hsettled
    obtain ⟨starts, stops, hcalls', hstarted, hsubset, hstopped, hreturned⟩ :=
      startUp_shutdown_spec hooks (by rw [hinits]; exact hordered.of_append) hsettled
        (hbroken.other.trans rfl)
    rw [hinits] at hsubset hreturned hconfigured hauto
    refine ⟨inits, failed, starts, stops, ⟨?_, hordered, hneeded, hbroken.single, hbroken.threw,
      hstarted, hsubset, hstopped⟩, ?_⟩
    · rw [hrun, hcalls', hcalls]
    · intro h
      rw [hrun] at h
      obtain ⟨hall, hstops⟩ := hreturned h
      exact .inr ⟨hall, hstops, hconfigured, fun hnil i hi hknown => hauto hnil i hi (hregistered hknown)⟩

-- Two plugins of the node come before the chain, which they do not name among what they require.
example :
    (finalState ((main NodePlugin.requirements (⟨fun _ => pure (), fun _ => pure (), fun _ => pure ()⟩ :
      PluginHooks NodePlugin Unit) NodePlugin.registered (some []) NodePlugin.autostarted).run
        { world := () })).calls.take 10 =
      [.pluginInitialize .chainApiPlugin, .pluginInitialize .producerPlugin,
        .pluginInitialize .jsonRpcPlugin, .pluginInitialize .chainPlugin,
        .pluginInitialize .blockApiPlugin, .pluginInitialize .databaseApiPlugin,
        .pluginInitialize .accountHistoryPlugin, .pluginInitialize .webserverPlugin,
        .pluginInitialize .p2pPlugin, .pluginInitialize .networkBroadcastPlugin] := by
  decide +kernel

end

end Application

end NewsChain
