import Sundries.Machine

/-!
# Fair executions and what they reach

An execution of a machine goes on for ever: at each time a step is taken or nothing
happens.  Each step belongs to a thread, and the execution is fair to a thread if again
and again the thread takes a step or cannot.

`Ranking` is the rule for what fair executions reach.  A number, the rank, never grows.
Wherever the goal is not met some thread is `turns` of its own steps away from making it
smaller, however the others step in between: steps that keep the rank do not take a thread
further away.
-/
namespace Sundries.Machine

variable {S L T : Type*} (M : Machine S L)

/-- An execution: `act n` is the label of the step at time `n`, if there is one. -/
structure Execution where
  state : ℕ → S
  act : ℕ → Option L
  start : state 0 = M.init
  next : ∀ n, match act n with
    | some l => M.step (state n) l = some (state (n + 1))
    | none => state (n + 1) = state n

/-- Some step of the thread `t` can be taken. -/
def Enabled (owner : L → T) (s : S) (t : T) : Prop :=
  ∃ l s', owner l = t ∧ M.step s l = some s'

variable {M}

namespace Execution

/-- Again and again each thread takes a step or cannot take one. -/
def Fair (e : M.Execution) (owner : L → T) : Prop :=
  ∀ t N, ∃ n, N ≤ n ∧ ((∃ l, e.act n = some l ∧ owner l = t) ∨ ¬ M.Enabled owner (e.state n) t)

theorem reachable (e : M.Execution) (n : ℕ) : M.Reachable (e.state n) := by
  induction n with
  | zero =>
    rw [e.start]
    exact Reachable.init
  | succ n ih =>
    have hnext := e.next n
    cases hact : e.act n with
    | none =>
      rw [hact] at hnext
      rw [hnext]
      exact ih
    | some l =>
      rw [hact] at hnext
      exact ih.step hnext

/-- The execution that takes the steps of a run and stops. -/
def ofRun (ls : List L) {r : S} (h : M.run M.init ls = some r) : M.Execution where
  state n := (M.run M.init (ls.take n)).getD r
  act n := ls[n]?
  start := by simp
  next n := by
    cases hl : ls[n]? with
    | none =>
      have hlen := List.getElem?_eq_none_iff.mp hl
      simp only [List.take_of_length_le hlen, List.take_of_length_le (Nat.le_succ_of_le hlen)]
    | some l =>
      have htake : ls.take (n + 1) = ls.take n ++ [l] := by
        rw [List.take_add_one, hl]
        rfl
      have hsplit : M.run M.init (ls.take n ++ (l :: ls.drop (n + 1))) = some r := by
        obtain ⟨hn, hget⟩ := List.getElem?_eq_some_iff.mp hl
        rwa [← hget, List.getElem_cons_drop hn, List.take_append_drop]
      obtain ⟨u, hu, hrest⟩ := M.run_append_eq_some.mp hsplit
      obtain ⟨s', hs', -⟩ := M.run_cons_eq_some.mp hrest
      have hu' : M.run M.init (ls.take n ++ [l]) = some s' :=
        M.run_append hu (M.run_cons_eq_some.mpr ⟨s', hs', rfl⟩)
      simp only [htake, hu, hu', Option.getD_some, hs']

/-- It is fair if no thread can go on. -/
theorem ofRun_fair {owner : L → T} {ls : List L} {r : S} (h : M.run M.init ls = some r)
    (hend : ∀ t, ¬ M.Enabled owner r t) : (ofRun ls h).Fair owner := by
  intro t N
  refine ⟨N + ls.length, Nat.le_add_right _ _, Or.inr ?_⟩
  have hstate : (ofRun ls h).state (N + ls.length) = r := by
    simp only [ofRun, List.take_of_length_le (Nat.le_add_left ..), h, Option.getD_some]
  rw [hstate]
  exact hend t

end Execution

/-- What brings fair executions to `goal`: under `inv` no step makes `rank` larger, and
`turns s t`, where it is not zero, bounds the steps of the thread `t` before `rank` gets
smaller. -/
structure Ranking (M : Machine S L) (owner : L → T) (inv goal : S → Prop) (rank : S → ℕ)
    (turns : S → T → ℕ) : Prop where
  init : inv M.init
  preserved : ∀ s l s', inv s → M.step s l = some s' → inv s'
  helpful : ∀ s, inv s → ¬ goal s → ∃ t, turns s t ≠ 0
  enabled : ∀ s t, inv s → turns s t ≠ 0 → M.Enabled owner s t
  step : ∀ s l s', inv s → M.step s l = some s' → rank s' < rank s ∨ rank s' = rank s ∧
    ∀ t, turns s t ≠ 0 →
      turns s' t ≠ 0 ∧ turns s' t ≤ turns s t ∧ (owner l = t → turns s' t < turns s t)

namespace Ranking
variable {owner : L → T} {inv goal : S → Prop} {rank : S → ℕ} {turns : S → T → ℕ}

theorem inv_state (h : Ranking M owner inv goal rank turns) (e : M.Execution) (n : ℕ) :
    inv (e.state n) :=
  (e.reachable n).invariant h.init h.preserved

/-- As long as the rank stays, a helpful thread gets no further away. -/
theorem walk (h : Ranking M owner inv goal rank turns) (e : M.Execution) {t : T} {n m : ℕ}
    (hnm : n ≤ m) (hturns : turns (e.state n) t ≠ 0) :
    (∃ j, rank (e.state j) < rank (e.state n)) ∨
      rank (e.state m) = rank (e.state n) ∧ turns (e.state m) t ≠ 0 ∧
        turns (e.state m) t ≤ turns (e.state n) t := by
  induction hnm with
  | refl => exact Or.inr ⟨rfl, hturns, Nat.le_refl _⟩
  | @step m hnm ih =>
    rcases ih with hlt | ⟨hrank, hne, hle⟩
    · exact Or.inl hlt
    · have hnext := e.next m
      cases hact : e.act m with
      | none =>
        rw [hact] at hnext
        rw [hnext]
        exact Or.inr ⟨hrank, hne, hle⟩
      | some l =>
        rw [hact] at hnext
        rcases h.step _ _ _ (h.inv_state e m) hnext with hlt | ⟨hsame, hkeep⟩
        · exact Or.inl ⟨m + 1, hrank ▸ hlt⟩
        · obtain ⟨hne', hle', -⟩ := hkeep t hne
          exact Or.inr ⟨hsame.trans hrank, hne', Nat.le_trans hle' hle⟩

/-- A helpful thread gets its turns, and the rank gets smaller. -/
theorem exists_rank_lt (h : Ranking M owner inv goal rank turns) {e : M.Execution}
    (fair : e.Fair owner) {t : T} {n : ℕ} (hturns : turns (e.state n) t ≠ 0) :
    ∃ j, rank (e.state j) < rank (e.state n) := by
  suffices key : ∀ k n, turns (e.state n) t = k → k ≠ 0 →
      ∃ j, rank (e.state j) < rank (e.state n) from key _ n rfl hturns
  intro k
  induction k using Nat.strongRecOn with
  | ind k ih =>
    intro n hk hne
    obtain ⟨m, hnm, hturn⟩ := fair t n
    rcases h.walk e hnm (hk ▸ hne) with hlt | ⟨hrank, hne', hle⟩
    · exact hlt
    · rcases hturn with ⟨l, hact, howner⟩ | hstuck
      · have hnext := e.next m
        rw [hact] at hnext
        rcases h.step _ _ _ (h.inv_state e m) hnext with hlt | ⟨hsame, hkeep⟩
        · exact ⟨m + 1, hrank ▸ hlt⟩
        · -- one turn less, at the same rank
          obtain ⟨hne'', -, hless⟩ := hkeep t hne'
          have hlt : turns (e.state (m + 1)) t < k :=
            hk ▸ Nat.lt_of_lt_of_le (hless howner) hle
          obtain ⟨j, hj⟩ := ih _ hlt (m + 1) rfl hne''
          exact ⟨j, by rwa [hsame, hrank] at hj⟩
      · exact absurd (h.enabled _ _ (h.inv_state e m) hne') hstuck

/-- **The fairness rule.** -/
theorem reaches (h : Ranking M owner inv goal rank turns) {e : M.Execution}
    (fair : e.Fair owner) : ∃ n, goal (e.state n) := by
  suffices key : ∀ r n, rank (e.state n) = r → ∃ m, goal (e.state m) from key _ 0 rfl
  intro r
  induction r using Nat.strongRecOn with
  | ind r ih =>
    intro n hr
    by_cases hgoal : goal (e.state n)
    · exact ⟨n, hgoal⟩
    · obtain ⟨t, ht⟩ := h.helpful _ (h.inv_state e n) hgoal
      obtain ⟨j, hj⟩ := h.exists_rank_lt fair ht
      exact ih _ (hr ▸ hj) j rfl

end Ranking
end Sundries.Machine
